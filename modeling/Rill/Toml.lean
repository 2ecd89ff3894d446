import Rill.Toml.Document
import Rill.Toml.Scalar

/-!
# Settings files

A reader for TOML documents, and the spelling of their keys.
-/

namespace Rill.Toml

/-- A document and what is left to read. -/
structure Progress where
  /-- The document so far. -/
  document : Document
  /-- The bytes that follow. -/
  rest : Bytes
  deriving Inhabited

/-- Reads a part of a document; without a result the document is malformed. -/
abbrev Reader := StateT Progress Option

namespace Reader

/-- Fails. -/
def fail {α : Type} : Reader α := fun _ => none

/-- The bytes that follow. -/
def rest : Reader Bytes := do return (← get).rest

/-- Goes on with other bytes. -/
def goTo (rest : Bytes) : Reader Unit := modify fun p => { p with rest }

/-- Changes the document. -/
def edit (f : Document → Option Document) : Reader Unit := do
  let p ← get
  match f p.document with
  | some document => set { p with document }
  | none => fail

/-- Passes over bytes of a class. -/
def skip (isIn : UInt8 → Bool) : Reader Unit :=
  modify fun p => { p with rest := p.rest.dropWhile isIn }

/-- Passes over a certain byte. -/
def expect (b : UInt8) : Reader Unit := do
  match ← rest with
  | c :: r => if c = b then goTo r else fail
  | [] => fail

/-- Passes over white space, line breaks and comments; `bound` limits the number of comments. -/
def skipLines : Nat → Reader Unit
  | 0 => return
  | bound + 1 => do
    skip fun b => isBlank b || isNewline b
    match ← rest with
    | 0x23 :: _ =>
      skip (! isNewline ·)
      skipLines bound
    | _ => return

/-- Reads a string in either kind of quotes, on one line. -/
def quoted : Reader Bytes := do
  let read ←
    match ← rest with
    | 0x22 :: r => pure (basic false false r)
    | 0x27 :: r => pure (literal false r)
    | _ => fail
  match read with
  | some (s, r) =>
    goTo r
    return s
  | none => fail

/-- Whether a byte can stand in a key without quotes. -/
def isBare (b : UInt8) : Bool := Bytes.isDigit b || Bytes.isLetter b || b == 0x5F || b == 0x2D

/-- Reads a part of a key. -/
def keyPart : Reader Bytes := do
  skip isBlank
  let r ← rest
  let part ←
    if r.head? == some 0x22 || r.head? == some 0x27 then quoted
    else
      let word := r.takeWhile isBare
      if word.isEmpty then fail
      else
        goTo (r.dropWhile isBare)
        pure word
  skip isBlank
  return part

/-- Reads a dotted key; `bound` limits the number of its parts. -/
def key : Nat → Reader Key
  | 0 => fail
  | bound + 1 => do
    let part ← keyPart
    match ← rest with
    | 0x2E :: r =>
      goTo r
      return part :: (← key bound)
    | _ => return [part]

/-- Reads a string in any kind of quotes. -/
def string : Reader Item := do
  let read ←
    match ← rest with
    | 0x22 :: 0x22 :: 0x22 :: r => pure (basic true false (dropNewline r))
    | 0x27 :: 0x27 :: 0x27 :: r => pure (literal true (dropNewline r))
    | 0x22 :: r => pure (basic false false r)
    | 0x27 :: r => pure (literal false r)
    | _ => fail
  match read with
  | some (s, r) =>
    goTo r
    return .string s
  | none => fail

mutual

/-- Reads a value of a key and tells whether it is an array; `inArray` says that it is an element of
one. -/
def value (bound : Nat) (place : Key) (k : Bytes) (inArray : Bool) : Reader (Item × Bool) :=
  match bound with
  | 0 => fail
  | bound + 1 => do
    skip isBlank
    match ← rest with
    | 0x5B :: r =>
      goTo r
      edit fun d => some (d.markArray (place ++ [k]) true)
      elements bound place k
      return (.other, true)
    | 0x7B :: r =>
      goTo r
      let key := place ++ [k]
      edit fun d => (d.markImplicit key).openTable key inArray
      fields bound key
      return (.other, false)
    | r =>
      if r.head? == some 0x22 || r.head? == some 0x27 then return (← string, false)
      else
        match plain r with
        | some r =>
          goTo r
          return (.other, false)
        | none => fail

/-- Reads the elements of an array up to its end. -/
def elements (bound : Nat) (place : Key) (k : Bytes) : Reader Unit :=
  match bound with
  | 0 => fail
  | bound + 1 => do
    skipLines bound
    match ← rest with
    | 0x5D :: r => goTo r
    | _ =>
      let _ ← value bound place k true
      skipLines bound
      match ← rest with
      | 0x2C :: r =>
        goTo r
        elements bound place k
      | _ => expect 0x5D

/-- Reads the fields of an inline table up to its end. -/
def fields (bound : Nat) (place : Key) : Reader Unit :=
  match bound with
  | 0 => fail
  | bound + 1 => do
    skipLines bound
    match ← rest with
    | 0x7D :: r => goTo r
    | _ =>
      pairOf bound place
      skipLines bound
      match ← rest with
      | 0x2C :: r =>
        goTo r
        fields bound place
      | _ => expect 0x7D

/-- Reads a key and its value in the table at a place. -/
def pairOf (bound : Nat) (place : Key) : Reader Unit :=
  match bound with
  | 0 => fail
  | bound + 1 => do
    let dotted ← key bound
    expect 0x3D
    let k := dotted.getLastD []
    let table := place ++ dotted.dropLast
    edit fun d => d.openParts place dotted.dropLast
    edit fun d => some { d with keys := (table ++ [k]) :: d.keys }
    let (item, isArray) ← value bound table k false
    edit fun d => d.put table k item
    edit fun d => some (d.markArray (table ++ [k]) isArray)

end

/-- Reads the head of a table and gives its key. -/
def tableHead (bound : Nat) : Reader Key := do
  expect 0x5B
  let array := (← rest).head? == some 0x5B
  if array then expect 0x5B
  let dotted ← key bound
  expect 0x5D
  if array then expect 0x5D
  edit fun d => d.openTable dotted array
  edit fun d => some { d.markArray dotted false with keys := dotted :: d.keys }
  return dotted

/-- Passes over the end of a line. -/
def lineEnd : Reader Unit := do
  skip isBlank
  if (← rest).head? == some 0x23 then skip (! isNewline ·)
  match ← rest with
  | [] => return
  | b :: r => if isNewline b then goTo r else fail

/-- Reads the lines of a document; keys belong to the table at a place. -/
def lines : Nat → Key → Reader Unit
  | 0, _ => fail
  | bound + 1, place => do
    skipLines (bound + 1)
    match ← rest with
    | [] => return
    | 0x5B :: _ =>
      let place ← tableHead (bound + 1)
      lineEnd
      lines bound place
    | _ =>
      pairOf (bound + 1) place
      lineEnd
      lines bound place

end Reader

/-- Whether every byte may stand in a document: control characters may not, and a carriage return
only before a line feed. -/
def isClean : Bytes → Bool
  | [] => true
  | 0x0D :: rest => rest.head? == some 0x0A && isClean rest
  | b :: rest => ((0x20 ≤ b && b != 0x7F) || b == 0x09 || b == 0x0A) && isClean rest

/-- A document without the mark of its encoding. -/
def dropMark : Bytes → Bytes
  | 0xFF :: 0xFE :: rest => rest
  | 0xFE :: 0xFF :: rest => rest
  | 0xEF :: 0xBB :: 0xBF :: rest => rest
  | s => s

/-- Reads a document. -/
def read? (src : Bytes) : Option Document :=
  let s := dropMark src
  if ! isUtf8 s || ! isClean s then none
  else ((Reader.lines (3 * s.length + 3) []).run ⟨{}, s⟩).map fun (_, p) => p.document

/-- The spelling of a key: a part that needs quotes has them. -/
def renderKey (key : Key) : Bytes :=
  let part (s : Bytes) : Bytes :=
    if ! s.isEmpty && s.all Reader.isBare then s
    else
      text "\"" ++ s.flatMap (fun b =>
        if b = 0x22 then text "\\\""
        else if b = 0x5C then text "\\\\"
        else if b = 0x08 then text "\\b"
        else if b = 0x09 then text "\\t"
        else if b = 0x0A then text "\\n"
        else if b = 0x0C then text "\\f"
        else if b = 0x0D then text "\\r"
        else if b < 0x20 || b = 0x7F then text "\\u" ++ Bytes.ofHex 4 b.toNat
        else [b]) ++ text "\""
  Bytes.join (text ".") (key.map part)

/-- TOML. -/
def format : Format := ⟨read?, renderKey⟩

end Rill.Toml
