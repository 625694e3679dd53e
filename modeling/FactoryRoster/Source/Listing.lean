import FactoryRoster.Entry
import FactoryRoster.Source.Escape

/-!
# Listings

A roster written as a program: the registration, and in it one declaration for each entry, with one
for each of its traits. Notes may stand on lines of their own before any line.
-/

namespace FactoryRoster

namespace Source

/-- The control characters: those of ASCII and of the block after it. -/
def isControl (c : Char) : Bool :=
  c.toNat < 0x20 || (0x7f ≤ c.toNat && c.toNat < 0xa0)

/-- A text in single quotes. -/
def quoted (text : List Char) : List Char :=
  '\'' :: escapeQuotes text ++ ['\'']

def factoryWord : List Char := ['f', 'a', 'c', 't', 'o', 'r', 'y']

def traitWord : List Char := ['t', 'r', 'a', 'i', 't']

def opening : List Char := [' ', 'd', 'o']

def closing : List Char := ['e', 'n', 'd']

def registrationLine : List Char :=
  ['F', 'a', 'c', 't', 'o', 'r', 'y', 'B', 'o', 't', '.', 'd', 'e', 'f', 'i', 'n', 'e'] ++ opening

/-- The declaration of a name by a word. -/
def declaration (word : List Char) (name : String) : List Char :=
  word ++ ' ' :: quoted name.toList

/-- A line of code and the notes on the lines before it. -/
structure NotedLine where
  notes : List (List Char) := []
  code : List Char

def noteLines (notes : List (List Char)) : List Char :=
  notes.flatMap fun note => '#' :: note ++ ['\n']

/-- Lines of code with their notes, and an end of the line between two of them. -/
def textOf : List NotedLine → List Char
  | [] => []
  | [l] => noteLines l.notes ++ l.code
  | l :: next :: lines => noteLines l.notes ++ l.code ++ '\n' :: textOf (next :: lines)

/-- The end of a program after its last line of code: nothing, or further lines of notes. -/
def IsEnding (ending : List Char) : Prop :=
  ending = [] ∨ ∃ notes, (∀ note ∈ notes, ∀ c ∈ note, isControl c = false) ∧
    ending = '\n' :: noteLines notes

end Source

open Source

/-- The lines that declare an entry. -/
def Entry.lines (e : Entry) : List (List Char) :=
  match e.traitList with
  | [] => [declaration factoryWord e.name]
  | first :: more =>
    (declaration factoryWord e.name ++ opening) ::
      (first :: more).map (declaration traitWord) ++ [closing]

/-- The lines of a program that registers the entries of a roster. -/
def Roster.lines (entries : Roster) : List (List Char) :=
  registrationLine :: entries.flatMap Entry.lines ++ [closing]

end FactoryRoster
