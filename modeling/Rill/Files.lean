import Rill.Files.Path
import Rill.Table

/-!
# Files

A file system as a value: directories and regular files under absolute paths, and beside them the
contents of the files by number. A file keeps its number when it is renamed or removed, so that a
handle opened before still reaches it.

* `Files.resolve` follows a path component by component, as a kernel does: every component but the
  last has to be a directory that exists.
* `Files.read`, `Files.write`, `Files.stat`, `Files.makeDirectories`, `Files.openWrite`,
  `Files.append`, `Files.rename` and `Files.remove` are the operations; a refusal is a `FileFault`.
-/

namespace Rill

/-- Why the file system refuses an operation. -/
inductive Refusal where
  /-- A component does not exist. -/
  | notFound
  /-- A component that should be a directory is a file. -/
  | notDirectory
  /-- The target is a directory. -/
  | isDirectory
  /-- The target exists. -/
  | alreadyExists
  /-- The path has a zero byte. -/
  | invalid
  /-- A component or the path is too long. -/
  | tooLong
  deriving DecidableEq, Repr, Inhabited

/-- The wording of a refusal. -/
def Refusal.message : Refusal → Bytes
  | notFound => text "no such file or directory"
  | notDirectory => text "not a directory"
  | isDirectory => text "is a directory"
  | alreadyExists => text "file exists"
  | invalid => text "invalid argument"
  | tooLong => text "file name too long"

/-- The operations of a file system that can be refused. -/
inductive FileAction where
  /-- Asking whether something exists. -/
  | asking
  /-- Opening a file. -/
  | opening
  /-- Reading an open file. -/
  | reading
  /-- Making a directory. -/
  | making
  deriving DecidableEq, Repr, Inhabited

/-- The name of an operation. -/
def FileAction.label : FileAction → Bytes
  | asking => text "stat"
  | opening => text "open"
  | reading => text "read"
  | making => text "mkdir"

/-- A refused operation. -/
structure FileFault where
  /-- The operation. -/
  action : FileAction
  /-- The path as it was given. -/
  path : Bytes
  /-- The reason. -/
  reason : Refusal
  deriving DecidableEq, Repr, Inhabited

/-- The wording of a refused operation. -/
def FileFault.message (f : FileFault) : Bytes :=
  f.action.label ++ text " " ++ f.path ++ text ": " ++ f.reason.message

/-- What a path leads to. -/
inductive FileNode where
  /-- A directory. -/
  | directory
  /-- A regular file, by its number. -/
  | file (number : Nat)
  deriving DecidableEq, Repr, Inhabited

/-- A file system with the directory in which relative paths start. -/
structure Files where
  /-- The absolute path of the working directory. -/
  cwd : Bytes
  /-- What stands under each absolute path, by its components. The root is always there. -/
  nodes : Table (List Bytes) FileNode
  /-- The contents of the files by number, in pieces, the last piece first. -/
  contents : Array (List Bytes)

namespace Files

/-- The longest component. -/
def componentLimit : Nat := 255

/-- The length from which a path is too long. -/
def pathLimit : Nat := 4096

/-- The components of an absolute path. -/
def components (path : Bytes) : List Bytes :=
  (Bytes.splitOn Path.slash path).filter (! List.isEmpty ·)

/-- What stands under the components of an absolute path. -/
def node? (fs : Files) (place : List Bytes) : Option FileNode :=
  if place = [] then some .directory else fs.nodes.get? place

/-- Where a path leads: something that exists, or a free name in a directory. -/
inductive Spot where
  /-- Something that exists. -/
  | taken (place : List Bytes) (node : FileNode)
  /-- A free name; `slashed` when the path asks for a directory there. -/
  | free (place : List Bytes) (slashed : Bool)
  deriving Inhabited

/-- Whether components name nothing more than the directory itself. -/
def trivialTail (rest : List Bytes) : Bool := rest.all List.isEmpty

/-- Follows components from a directory. -/
def walk (fs : Files) (place : List Bytes) : List Bytes → Except Refusal Spot
  | [] => .ok (.taken place .directory)
  | c :: rest =>
    if c = [] || c = Path.dot then walk fs place rest
    else if c = Path.dots then walk fs place.dropLast rest
    else if componentLimit < c.length then .error .tooLong
    else
      let place' := place ++ [c]
      match fs.node? place' with
      | some .directory => walk fs place' rest
      | some (.file number) =>
        if rest.isEmpty then .ok (.taken place' (.file number)) else .error .notDirectory
      | none =>
        if trivialTail rest then .ok (.free place' (! rest.isEmpty)) else .error .notFound

/-- Follows a path from the root or the working directory. -/
def resolve (fs : Files) (path : Bytes) : Except Refusal Spot :=
  if path.any (· == 0) then .error .invalid
  else if path = [] then .error .notFound
  else if pathLimit ≤ path.length then .error .tooLong
  else if Path.isAbsolute path then fs.walk [] (Bytes.splitOn Path.slash path)
  else fs.walk (components fs.cwd) (Bytes.splitOn Path.slash path)

/-- The contents of the file with a number. -/
def content (fs : Files) (number : Nat) : Bytes :=
  (fs.contents.getD number []).reverse.flatten

/-- Adds bytes at the end of the file with a number. -/
def append (number : Nat) (piece : Bytes) (fs : Files) : Files :=
  { fs with contents := fs.contents.modify number (piece :: ·) }

/-- A new file under a place. -/
def create (place : List Bytes) (pieces : List Bytes) (fs : Files) : Nat × Files :=
  (fs.contents.size,
    { fs with
      nodes := fs.nodes.put place (.file fs.contents.size)
      contents := fs.contents.push pieces })

/-- What a path leads to. -/
def stat (fs : Files) (path : Bytes) : Except FileFault FileNode :=
  match fs.resolve path with
  | .ok (.taken _ node) => .ok node
  | .ok (.free ..) => .error ⟨.asking, path, .notFound⟩
  | .error reason => .error ⟨.asking, path, reason⟩

/-- The whole contents of the file that a path leads to. -/
def read (fs : Files) (path : Bytes) : Except FileFault Bytes :=
  match fs.resolve path with
  | .ok (.taken _ (.file number)) => .ok (fs.content number)
  | .ok (.taken _ .directory) => .error ⟨.reading, path, .isDirectory⟩
  | .ok (.free ..) => .error ⟨.opening, path, .notFound⟩
  | .error reason => .error ⟨.opening, path, reason⟩

/-- The file that a path leads to, made if need be, opened for writing. -/
def openWrite (fs : Files) (path : Bytes) : Except FileFault (Nat × Files) :=
  match fs.resolve path with
  | .ok (.taken _ (.file number)) => .ok (number, fs)
  | .ok (.taken _ .directory) => .error ⟨.opening, path, .isDirectory⟩
  | .ok (.free place false) => .ok (fs.create place [])
  | .ok (.free _ true) => .error ⟨.opening, path, .isDirectory⟩
  | .error reason => .error ⟨.opening, path, reason⟩

/-- Puts bytes into the file that a path leads to, in place of what it held. -/
def write (fs : Files) (path content : Bytes) : Except FileFault Files :=
  match fs.openWrite path with
  | .ok (number, fs) => .ok { fs with contents := fs.contents.modify number fun _ => [content] }
  | .error fault => .error fault

/-- Makes one directory. -/
def makeDirectory (fs : Files) (path : Bytes) : Except FileFault Files :=
  match fs.resolve path with
  | .ok (.taken ..) => .error ⟨.making, path, .alreadyExists⟩
  | .ok (.free place _) => .ok { fs with nodes := fs.nodes.put place .directory }
  | .error .notDirectory =>
    -- A trailing slash after a file does not hide that the name is taken.
    match fs.resolve (Bytes.dropRight Path.slash path) with
    | .ok (.taken ..) => .error ⟨.making, path, .alreadyExists⟩
    | _ => .error ⟨.making, path, .notDirectory⟩
  | .error reason => .error ⟨.making, path, reason⟩

/-- The part of a path up to its last component, with the slash. -/
def leading (path : Bytes) : Bytes :=
  ((Bytes.dropRight Path.slash path).reverse.dropWhile (· != Path.slash)).reverse

/-- Makes a directory and the ones above it that are missing; `bound` limits how many. -/
def makeAll (fs : Files) (path : Bytes) : Nat → Except FileFault Files
  | 0 => .ok fs
  | bound + 1 =>
    match fs.stat path with
    | .ok .directory => .ok fs
    | .ok (.file _) => .error ⟨.making, path, .notDirectory⟩
    | .error _ => do
      let above := leading path
      let fs ← if above.isEmpty then .ok fs else makeAll fs above bound
      match fs.makeDirectory path with
      | .ok fs => .ok fs
      | .error fault =>
        match fs.stat path with
        | .ok .directory => .ok fs
        | _ => .error fault

/-- Makes a directory and the ones above it that are missing. -/
def makeDirectories (fs : Files) (path : Bytes) : Except FileFault Files :=
  fs.makeAll path (path.length + 1)

/-- Gives a file a new name; whatever stood there is replaced. A move that is refused changes
nothing. -/
def rename (fs : Files) (source target : Bytes) : Files :=
  match fs.resolve source, fs.resolve target with
  | .ok (.taken place (.file number)), .ok (.taken target (.file _))
  | .ok (.taken place (.file number)), .ok (.free target false) =>
    if place = target then fs
    else { fs with nodes := (fs.nodes.erase place).put target (.file number) }
  | _, _ => fs

/-- Removes what stands under a path. -/
def remove (fs : Files) (path : Bytes) : Files :=
  match fs.resolve path with
  | .ok (.taken place _) => { fs with nodes := fs.nodes.filter fun e => ! place.isPrefixOf e.1 }
  | _ => fs

/-- Puts bytes under a path, with the directories above it. A path that ends in a slash is a
directory. -/
def place (fs : Files) (path content : Bytes) : Files :=
  let made := (fs.makeDirectories (Path.join [fs.cwd, leading path])).toOption.getD fs
  if path.getLast? = some Path.slash then
    (fs.makeDirectories (Path.join [fs.cwd, path])).toOption.getD fs
  else (made.write path content).toOption.getD made

/-- A file system that holds the working directory and nothing else. -/
def empty (cwd : Bytes) : Files :=
  let fs : Files := ⟨cwd, [], #[]⟩
  (fs.makeDirectories cwd).toOption.getD fs

/-- The regular files under the working directory, by relative path, in the order of their paths. -/
def regular (fs : Files) : List (Bytes × Bytes) :=
  let root := components fs.cwd
  let found := fs.nodes.filterMap fun (place, node) =>
    match node with
    | .file number =>
      if root.isPrefixOf place then
        some (Bytes.join [Path.slash] (place.drop root.length), fs.content number)
      else none
    | .directory => none
  found.mergeSort fun a b => Bytes.le a.1 b.1

end Files

end Rill
