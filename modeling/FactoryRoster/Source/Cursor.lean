import FactoryRoster.Source.Comment
import FactoryRoster.Source.Expr
import FactoryRoster.Source.HereDocument

/-!
# Cursors

A cursor stands before a token of a program and remembers the gap that it has passed: whether there
were blanks in it, whether a line ended there, and the notes that were written in it. What is read
from a cursor is a value and the cursor after it, or nothing.
-/

namespace FactoryRoster.Source

/-- A place before a token, or at the end of a text. -/
structure Cursor where
  /-- What follows. -/
  text : List Char
  /-- Whether there are blanks before this place. -/
  spaced : Bool := false
  /-- Whether a line ends in the gap before this place, so that a statement may end there. -/
  broken : Bool := false
  /-- Whether a line ends in the gap before this place, but the statement goes on. -/
  folded : Bool := false
  /-- The kinds of the notes in the gap, as far as the end of the line. -/
  notes : List String := []
  /-- The kinds of the notes in the gap after the end of the line. -/
  later : List String := []
  /-- The here documents whose bodies begin at the next end of a line. -/
  documents : List Document := []
  /-- Whether this place is within the body of a here document, where no other body begins. -/
  inDocument : Bool := false

namespace Cursor

/-- The notes in the gap, as far as the end of the line. -/
def lineNotes (c : Cursor) : List Expr :=
  c.notes.map .other

def allNotes (c : Cursor) : List Expr :=
  (c.notes ++ c.later).map .other

/-- The same place before `text`, with no gap before it. -/
def at_ (c : Cursor) (text : List Char) : Cursor :=
  { c with
    text := text
    spaced := false
    broken := false
    folded := false
    notes := []
    later := [] }

/-- The same place before `text`, after blanks. -/
def afterBlanks (c : Cursor) (text : List Char) : Cursor :=
  { c with text := text, spaced := true }

def afterNote (c : Cursor) (kind : String) (text : List Char) : Cursor :=
  if c.broken then { c with text := text, later := c.later ++ [kind] }
  else { c with text := text, notes := c.notes ++ [kind] }

/-- What comes first in `text` apart from blanks and ends of lines. -/
def skipBlanks : List Char → List Char
  | '\\' :: '\n' :: rest => skipBlanks rest
  | '\\' :: '\r' :: '\n' :: rest => skipBlanks rest
  | c :: rest =>
    if c == ' ' || c == '\t' || c == '\r' || c == '\n' then skipBlanks rest else c :: rest
  | [] => []

/-- Whether the end of a line before `text` ends a statement. It does not if the next line goes on
with a call or an ampersand; if a comment comes next, the end of its line decides. -/
def breaks (text : List Char) : Bool :=
  match skipBlanks text with
  | '#' :: _ => false
  | '&' :: _ => false
  | '.' :: '.' :: _ => true
  | '.' :: _ => false
  | _ => true

/-- The same place before `text`, after the end of a line. -/
def afterLine (c : Cursor) (text : List Char) : Cursor :=
  if breaks text then { c with text := text, spaced := true, broken := true }
  else { c with text := text, spaced := true, folded := true }

/-- The place in the next line: the gap before it begins after the end of the line. -/
def nextLine (c : Cursor) : Cursor :=
  { c with broken := false, notes := c.later, later := [] }

/-- The same place where the end of a line is a blank. -/
def joined (c : Cursor) : Cursor :=
  { c with broken := false, notes := c.notes ++ c.later, later := [] }

end Cursor

/-- A reader takes a value from the front of a text, or fails. -/
abbrev Reader (α : Type) : Type :=
  StateT Cursor Option α

end FactoryRoster.Source
