import VoxelGrammar.Toml.Reader
import VoxelGrammar.Toml.Value

/-!
The forms of strings, numbers and date-times in a TOML document.
-/

namespace VoxelGrammar.Toml

open Reader

/-- A character that comments and strings may hold: a tab, or no control character. -/
def isPlain (c : Char) : Bool := c = '\t' || (' ' ≤ c && c ≠ '\x7f')

def blanks : Reader Unit := do
  let _ ← spanning fun c => c = ' ' || c = '\t'

def newline : Reader Unit := exactly "\n" <|> exactly "\r\n"

/-! Strings. -/

def isHexDigit (c : Char) : Bool := c.isDigit || ('a' ≤ c && c ≤ 'f') || ('A' ≤ c && c ≤ 'F')

def digitValue (c : Char) : Nat :=
  if c.isDigit then c.toNat - 48 else c.toLower.toNat - 87

def numeral (base : Nat) (digits : List Char) : Nat :=
  digits.foldl (fun n c => base * n + digitValue c) 0

/-- A character by its number, of exactly `n` hexadecimal digits. -/
def codePoint (n : Nat) : Reader Char := do
  let digits ← upTo (char isHexDigit) n
  let value := numeral 16 digits
  guard (digits.length = n ∧ value.isValidChar)
  return Char.ofNat value

def escaped : Reader Char := do
  let _ ← char (· = '\\')
  match ← char fun _ => true with
  | 'b' => return '\x08'
  | 't' => return '\t'
  | 'n' => return '\n'
  | 'f' => return '\x0c'
  | 'r' => return '\r'
  | '"' => return '"'
  | '\\' => return '\\'
  | 'u' => codePoint 4
  | 'U' => codePoint 8
  | _ => failure

def basicChar : Reader Char := char (fun c => isPlain c && c ≠ '"' && c ≠ '\\') <|> escaped

def literalChar : Reader Char := char fun c => isPlain c && c ≠ '\''

/-- A string on one line. -/
def line (quote : Char) (item : Reader Char) : Reader String := do
  let _ ← char (· = quote)
  let text ← many item
  let _ ← char (· = quote)
  return String.ofList text

/-- A backslash at the end of a line hides the white space up to the next text. -/
def continuation : Reader (List Char) := do
  exactly "\\"
  blanks
  newline
  let _ ← many (newline <|> do let _ ← char fun c => c = ' ' || c = '\t')
  return []

/-- A string between three quotes. One or two quotes belong to the text wherever they stand, also
right before the three that close it. -/
def block (quote : Char) (item : Reader (List Char)) : Reader String := do
  let three := String.ofList [quote, quote, quote]
  let quotes : Reader (List Char) := do
    let run ← spanning (· = quote)
    guard (run.length = 1 ∨ run.length = 2)
    return run
  exactly three
  let _ ← optional newline
  let text ← many (item <|> (do newline; return ['\n']) <|> quotes)
  let run ← spanning (· = quote)
  guard (3 ≤ run.length ∧ run.length ≤ 5)
  return String.ofList (text.flatten ++ run.drop 3)

def string : Reader String :=
  block '"' (continuation <|> List.singleton <$> basicChar) <|>
    block '\'' (List.singleton <$> literalChar) <|> line '"' basicChar <|> line '\'' literalChar

/-! Numbers. -/

/-- Digits, with single underscores between them. -/
def digits (p : Char → Bool) : Reader (List Char) := do
  let first ← char p
  let rest ← many (char p <|> do exactly "_"; char p)
  return first :: rest

/-- Digits without a leading zero. -/
def wholePart : Reader (List Char) := List.singleton <$> char (· = '0') <|> digits Char.isDigit

/-- Whether a minus sign is read. -/
def sign : Reader Bool := exactly "-" *> pure true <|> exactly "+" *> pure false <|> pure false

def signed (negative : Bool) (n : Nat) : Int := if negative then -n else n

/-- Integers have 64 bits. -/
def inRange (n : Int) : Reader Value := do
  guard (Int64.minValue.toInt ≤ n ∧ n ≤ Int64.maxValue.toInt)
  return .integer n

/-- An integer in a base that is marked in front of it. -/
def based (mark : String) (base : Nat) (p : Char → Bool) : Reader Value := do
  exactly mark
  inRange (numeral base (← digits p))

/-- The binary64 number nearest to `mantissa · 10 ^ exponent`. Out of `10 ^ ±400` an exponent
leaves no doubt about a mantissa that is brought below ten. -/
def decimal (mantissa : Nat) (exponent : Int) : Float :=
  let magnitude : Int := (Nat.toDigits 10 mantissa).length
  if mantissa = 0 ∨ exponent + magnitude < -400 then 0
  else if 400 < exponent + magnitude then 1 / 0
  else if exponent < 0 then Float.ofScientific mantissa true exponent.natAbs
  else Float.ofScientific mantissa false exponent.natAbs

/-- A decimal number, which is an integer unless it has a fraction or an exponent. No number may
be too great to be finite. -/
def decimalNumber : Reader Value := do
  let negative ← sign
  let whole ← wholePart
  let fraction ← optional (do exactly "."; digits Char.isDigit)
  let exponent ← optional do
    exactly "e" <|> exactly "E"
    return signed (← sign) (numeral 10 (← digits Char.isDigit))
  if fraction.isNone ∧ exponent.isNone then inRange (signed negative (numeral 10 whole))
  else
    let places := fraction.getD []
    let x := decimal (numeral 10 (whole ++ places)) (exponent.getD 0 - places.length)
    guard (negative || x.isFinite)
    return .float (if negative then -x else x)

def special : Reader Value := do
  let negative ← sign
  let x ← exactly "inf" *> pure (1 / 0) <|> exactly "nan" *> pure (0 / 0)
  return .float (if negative then -x else x)

def number : Reader Value :=
  based "0x" 16 isHexDigit <|> based "0o" 8 (fun c => '0' ≤ c && c ≤ '7') <|>
    based "0b" 2 (fun c => c = '0' || c = '1') <|> decimalNumber <|> special

/-! Date-times. -/

/-- A number of `n` digits within bounds. -/
def counted (n low high : Nat) : Reader Nat := do
  let digits ← upTo (char Char.isDigit) n
  let value := numeral 10 digits
  guard (digits.length = n ∧ low ≤ value ∧ value ≤ high)
  return value

def daysIn (year month : Nat) : Nat :=
  if month = 2 then
    if year % 4 = 0 ∧ (year % 100 ≠ 0 ∨ year % 400 = 0) then 29 else 28
  else if month ∈ [4, 6, 9, 11] then 30 else 31

def date : Reader Unit := do
  let year ← counted 4 0 9999
  exactly "-"
  let month ← counted 2 1 12
  exactly "-"
  let _ ← counted 2 1 (daysIn year month)

def hourMinute : Reader Unit := do
  let _ ← counted 2 0 23
  exactly ":"
  let _ ← counted 2 0 59

/-- A time of day; a minute may have a leap second. -/
def time : Reader Unit := do
  hourMinute
  exactly ":"
  let _ ← counted 2 0 60
  let _ ← optional do
    exactly "."
    let _ ← char Char.isDigit
    spanning Char.isDigit

def zone : Reader Unit :=
  exactly "Z" <|> exactly "z" <|> do
    exactly "+" <|> exactly "-"
    hourMinute

def dateTime : Reader Value := do
  let dated := do
    date
    let _ ← optional do
      let _ ← char fun c => c = 'T' || c = 't' || c = ' '
      time
      optional zone
  dated <|> time
  return .dateTime

def boolean : Reader Value :=
  exactly "true" *> pure (.boolean true) <|> exactly "false" *> pure (.boolean false)

def scalar : Reader Value := .string <$> string <|> dateTime <|> number <|> boolean

end VoxelGrammar.Toml
