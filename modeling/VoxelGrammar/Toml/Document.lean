import VoxelGrammar.Toml.Scalar

/-!
Documents: lines that each hold a header, a key with its value, or nothing but a comment. A key
belongs to the table of the latest header before it.
-/

namespace VoxelGrammar.Toml

open Reader

/-- The parts of a dotted key and the arrays and tables around a value, which must be fewer. -/
def nestingLimit : Nat := 80

def comment : Reader Unit := do
  exactly "#"
  let _ ← spanning isPlain

/-- White space, comments and line ends, which may stand around the items of an array. -/
def layout : Reader Unit := do
  blanks
  let _ ← many do
    let _ ← optional comment
    newline
    blanks

/-- The rest of a line after its last token. -/
def lineEnd : Reader Unit := do
  blanks
  let _ ← optional comment
  newline <|> (do guard (← get).isEmpty)

/-! Keys. -/

def isBare (c : Char) : Bool := c.isAlphanum || c = '-' || c = '_'

def keyPart : Reader String := do
  blanks
  let part ← line '"' basicChar <|> line '\'' literalChar <|>
    do return String.ofList ((← char isBare) :: (← spanning isBare))
  blanks
  return part

/-- A key: the parts before the last one, and the last one. -/
def key : Reader (List String × String) := do
  let parts ← separatedBy (exactly ".") keyPart
  guard (parts.length < nestingLimit)
  return (parts.dropLast, parts.getLastD "")

/-! Values. -/

def array (item : Reader Value) : Reader Value := do
  exactly "["
  let items ← optional (separatedBy (exactly ",") do
    layout
    let v ← item
    layout
    return v)
  if items.isSome then
    let _ ← optional (exactly ",")
  layout
  exactly "]"
  return .array false (items.getD [])

def inlineTable (item : Reader Value) : Reader Value := do
  exactly "\x7b"
  let pairs ← optional (separatedBy (exactly ",") do
    let k ← key
    exactly "="
    blanks
    let v ← item
    blanks
    return (k, v))
  blanks
  exactly "\x7d"
  let entries : Option Entries := (pairs.getD []).foldlM (fun es ((path, k), v) =>
    es.assign path k v .inline) []
  return .table .inline (← entries)

/-- A value within `n` further arrays and tables. -/
def value : (n : Nat) → Reader Value
  | 0 => scalar
  | n + 1 => scalar <|> array (value n) <|> inlineTable (value n)

/-! Lines. -/

/-- The tables read so far and the path of the table that keys go to. -/
structure Document where
  entries : Entries
  current : List String

def Document.empty : Document := ⟨[], []⟩

def header (d : Document) : Reader Document := do
  exactly "["
  let (path, k) ← key
  exactly "]"
  lineEnd
  return ⟨← d.entries.openTable path k, path ++ [k]⟩

def elementHeader (d : Document) : Reader Document := do
  exactly "[["
  let (path, k) ← key
  exactly "]]"
  lineEnd
  return ⟨← d.entries.openElement path k, path ++ [k]⟩

def assignment (d : Document) : Reader Document := do
  let (path, k) ← key
  exactly "="
  blanks
  let v ← value (nestingLimit - 1)
  lineEnd
  return { d with
    entries := ← Entries.updateAt false (Entries.assign path k v) d.current .header d.entries }

def documentLine (d : Document) : Reader Document := do
  blanks
  elementHeader d <|> header d <|> assignment d <|> do
    let _ ← optional comment
    newline <|> (do guard (← get).isEmpty)
    return d

/-- Reads lines to the end of the text, `n` at most. -/
def documentLines : (n : Nat) → Document → Reader Document
  | 0, d => pure d
  | n + 1, d => do
    if (← get).isEmpty then return d
    documentLines n (← documentLine d)

/-- The table of a whole document. A byte order mark may stand in front of it. -/
def parse? (text : String) : Option Entries := do
  let cs := match text.toList with
    | '\ufeff' :: cs => cs
    | cs => cs
  let (d, rest) ← documentLines (cs.length + 1) .empty cs
  guard rest.isEmpty
  return d.entries

end VoxelGrammar.Toml
