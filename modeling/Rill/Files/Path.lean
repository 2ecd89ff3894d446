import Rill.Text.Bytes

/-!
# Paths

The textual rules of slash-separated paths. `clean` gives the shortest equal spelling: no empty and
no `.` component, and `..` only at the front of a relative path. Nothing here looks at a file
system.
-/

namespace Rill.Path

/-- The byte between the components of a path. -/
def slash : UInt8 := 0x2F

/-- The component that stays where it is. -/
def dot : Bytes := text "."

/-- The component that goes to the parent. -/
def dots : Bytes := text ".."

/-- Whether a path starts at the root. -/
def isAbsolute (path : Bytes) : Bool := path.head? == some slash

/-- Adds a component to the components before it, the last one first. -/
def step (rooted : Bool) (before : List Bytes) (component : Bytes) : List Bytes :=
  if component = [] || component = dot then before
  else if component = dots then
    match before with
    | [] => if rooted then [] else [dots]
    | last :: rest => if last = dots then dots :: before else rest
  else component :: before

/-- The shortest spelling of a path. -/
def clean (path : Bytes) : Bytes :=
  let rooted := isAbsolute path
  let parts := ((Bytes.splitOn slash path).foldl (step rooted) []).reverse
  if rooted then slash :: Bytes.join [slash] parts
  else if parts.isEmpty then dot
  else Bytes.join [slash] parts

/-- The elements joined into one clean path; empty elements at the front do not count. -/
def join (elements : List Bytes) : Bytes :=
  match elements.dropWhile List.isEmpty with
  | [] => []
  | elements => clean (Bytes.join [slash] elements)

/-- The path of the directory that a path stands in. -/
def parent (path : Bytes) : Bytes :=
  clean (path.reverse.dropWhile (· != slash)).reverse

/-- The last component of a path. -/
def base (path : Bytes) : Bytes :=
  if path = [] then dot
  else
    match (Bytes.dropRight slash path).reverse.takeWhile (· != slash) with
    | [] => [slash]
    | name => name.reverse

/-- The clean path from the root, for a path that starts in `cwd`. -/
def absolute (cwd path : Bytes) : Bytes :=
  if isAbsolute path then clean path else join [cwd, path]

/-- `path` without `suffix` at its end, if it ends so. -/
def trimSuffix (suffix path : Bytes) : Bytes :=
  if Bytes.endsWith path suffix then path.take (path.length - suffix.length) else path

end Rill.Path
