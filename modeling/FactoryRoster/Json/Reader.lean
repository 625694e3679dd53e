/-!
# Reading JSON

A reader takes what it reads from the front of a text. The text is read once, from left to right,
and the first thing that is wrong with it decides the `Fault`: the text ends too early, or it is
not JSON, or it is JSON that says something else than what is asked for.
-/

namespace FactoryRoster.Json

/-- What is wrong with a text. -/
inductive Fault where
  /-- The text ends too early. -/
  | truncated
  /-- The text is not JSON. -/
  | malformed
  /-- The text is JSON of another shape. -/
  | mismatched
  deriving DecidableEq, Repr

/-- A reader: what it reads, with the text after it. -/
abbrev Reader (α : Type) := List Char → Except Fault (α × List Char)

/-- The characters that may stand between the parts of a value. -/
def isBlank (c : Char) : Bool :=
  c == ' ' || c == '\n' || c == '\t' || c == '\r'

def dropBlanks (cs : List Char) : List Char :=
  cs.dropWhile isBlank

/-- The fault of a text that does not go on as it has to. -/
def unexpected : List Char → Fault
  | [] => .truncated
  | _ :: _ => .malformed

/-- Takes the rest of a word from the front of a text. -/
def dropWord : List Char → List Char → Except Fault (List Char)
  | [], cs => .ok cs
  | _ :: _, [] => .error .truncated
  | w :: ws, c :: cs => if w = c then dropWord ws cs else .error .malformed

/-- Reads a whole text, after which nothing but blanks may come. -/
def Reader.whole {α : Type} (read : Reader α) (text : List Char) : Except Fault α := do
  let (value, rest) ← read text
  if (dropBlanks rest).isEmpty then .ok value else .error .malformed

end FactoryRoster.Json
