/-!
Readers take a part off the front of a text, or fail and leave the text to others.
-/

namespace VoxelGrammar.Toml

abbrev Reader := StateT (List Char) Option

namespace Reader

def char (p : Char → Bool) : Reader Char
  | c :: rest => if p c then some (c, rest) else none
  | [] => none

def exactly (s : String) : Reader Unit := fun cs =>
  (s.toList.isPrefixOf? cs).map fun rest => ((), rest)

def spanning (p : Char → Bool) : Reader (List Char) := fun cs => some (cs.span p)

def peek : Reader (Option Char) := fun cs => some (cs.head?, cs)

/-- Reads as often as `r` does not fail, but at most `n` times. -/
def upTo (r : Reader α) : (n : Nat) → Reader (List α)
  | 0 => pure []
  | n + 1 => (do return (← r) :: (← upTo r n)) <|> pure []

/-- Reads as often as `r` does not fail. Each reading has to take a character at least, so there
are no more of them than characters. -/
def many (r : Reader α) : Reader (List α) := fun cs => upTo r cs.length cs

/-- One or more readings with `separator` between them. -/
def separatedBy (separator : Reader Unit) (r : Reader α) : Reader (List α) := do
  return (← r) :: (← many (do separator; r))

end Reader

end VoxelGrammar.Toml
