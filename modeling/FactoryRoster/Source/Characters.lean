import FactoryRoster.Numeral

/-!
# Characters of program text

The classes of characters from which the tokens of a Ruby program are told apart. Every character
that is no control character, no blank and none of the ASCII punctuation marks may stand in a name.
-/

namespace FactoryRoster.Source

/-- A blank within a line. -/
def isBlank (c : Char) : Bool :=
  c == ' ' || c == '\t' || c == '\r' || c == '\x0b' || c == '\x0c'

/-- A blank or the end of a line. -/
def isSpace (c : Char) : Bool :=
  isBlank c || c == '\n'

/-- The ASCII punctuation marks that end a name; the underscore is not among them. -/
def punctuation : List Char :=
  [':', ';', '\x60', '\"', '\'', '@', '$', '#', '.', ',', '|', '^', '&', '<', '=', '>', '+', '-',
    '*', '/', '\\', '%', '?', '!', '~', '(', ')', '[', ']', '\x7b', '\x7d']

/-- A character that may stand in a name. -/
def isNameChar (c : Char) : Bool :=
  c.toNat > 0x1f && c != ' ' && !punctuation.contains c

/-- A character with which a name may begin: any of a name but a digit. -/
def isNameStart (c : Char) : Bool :=
  isNameChar c && !c.isDigit

/-- Constants are the names that begin with an ASCII capital. -/
def isConstant (name : List Char) : Bool :=
  match name with
  | c :: _ => c.isUpper
  | [] => false

end FactoryRoster.Source
