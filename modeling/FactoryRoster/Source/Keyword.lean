import FactoryRoster.Source.Characters

/-!
# Reserved words

The reserved words of Ruby and the words of a text. A word is reserved only where its construct may
stand, so each of them is also a possible name; the rules of the grammar ask for a reserved word
where they can use one.
-/

namespace FactoryRoster.Source

inductive Keyword where
  | alias_ | and_ | begin_ | beginBlock | break_ | case_ | class_ | dataMark | def_ | defined | do_
  | else_ | elsif | end_ | endBlock | ensure | false_ | for_ | if_ | in_ | module_ | next | nil
  | not_ | or_ | redo | rescue | retry | return_ | self | super | then_ | true_ | undef | unless_
  | until_ | when_ | while_ | yield
  deriving DecidableEq, Repr

namespace Keyword

def spelling : Keyword → List Char
  | alias_ => ['a', 'l', 'i', 'a', 's']
  | and_ => ['a', 'n', 'd']
  | begin_ => ['b', 'e', 'g', 'i', 'n']
  | beginBlock => ['B', 'E', 'G', 'I', 'N']
  | break_ => ['b', 'r', 'e', 'a', 'k']
  | case_ => ['c', 'a', 's', 'e']
  | class_ => ['c', 'l', 'a', 's', 's']
  | dataMark => ['_', '_', 'E', 'N', 'D', '_', '_']
  | def_ => ['d', 'e', 'f']
  | defined => ['d', 'e', 'f', 'i', 'n', 'e', 'd', '?']
  | do_ => ['d', 'o']
  | else_ => ['e', 'l', 's', 'e']
  | elsif => ['e', 'l', 's', 'i', 'f']
  | end_ => ['e', 'n', 'd']
  | endBlock => ['E', 'N', 'D']
  | ensure => ['e', 'n', 's', 'u', 'r', 'e']
  | false_ => ['f', 'a', 'l', 's', 'e']
  | for_ => ['f', 'o', 'r']
  | if_ => ['i', 'f']
  | in_ => ['i', 'n']
  | module_ => ['m', 'o', 'd', 'u', 'l', 'e']
  | next => ['n', 'e', 'x', 't']
  | nil => ['n', 'i', 'l']
  | not_ => ['n', 'o', 't']
  | or_ => ['o', 'r']
  | redo => ['r', 'e', 'd', 'o']
  | rescue => ['r', 'e', 's', 'c', 'u', 'e']
  | retry => ['r', 'e', 't', 'r', 'y']
  | return_ => ['r', 'e', 't', 'u', 'r', 'n']
  | self => ['s', 'e', 'l', 'f']
  | super => ['s', 'u', 'p', 'e', 'r']
  | then_ => ['t', 'h', 'e', 'n']
  | true_ => ['t', 'r', 'u', 'e']
  | undef => ['u', 'n', 'd', 'e', 'f']
  | unless_ => ['u', 'n', 'l', 'e', 's', 's']
  | until_ => ['u', 'n', 't', 'i', 'l']
  | when_ => ['w', 'h', 'e', 'n']
  | while_ => ['w', 'h', 'i', 'l', 'e']
  | yield => ['y', 'i', 'e', 'l', 'd']

def all : List Keyword :=
  [.alias_, .and_, .begin_, .beginBlock, .break_, .case_, .class_, .dataMark, .def_, .defined,
    .do_, .else_, .elsif, .end_, .endBlock, .ensure, .false_, .for_, .if_, .in_, .module_, .next,
    .nil, .not_, .or_, .redo, .rescue, .retry, .return_, .self, .super, .then_, .true_, .undef,
    .unless_, .until_, .when_, .while_, .yield]

def ofName? (name : List Char) : Option Keyword :=
  all.find? fun k => k.spelling == name

/-- Whether a reserved word begins a value. -/
def beginsValue : Keyword → Bool
  | begin_ | break_ | case_ | class_ | def_ | defined | false_ | for_ | if_ | module_ | next | nil
  | not_ | redo | retry | return_ | self | super | true_ | unless_ | until_ | while_ | yield => true
  | _ => false

/-- Whether a reserved word stands between a statement and its condition. -/
def isModifier : Keyword → Bool
  | if_ | unless_ | while_ | until_ => true
  | _ => false

/-- The reserved words that may follow a statement on its line. -/
def modifiers : List Keyword :=
  [.if_, .unless_, .while_, .until_, .rescue]

end Keyword

/-- The name with which a text begins. -/
def nameAhead (text : List Char) : List Char :=
  text.takeWhile isNameChar

/-- A letter, a digit or an underscore of ASCII. -/
def isPlainNameChar (c : Char) : Bool :=
  c.isAlphanum || c == '_'

/-- The word with which a text begins: a name with the question mark or the exclamation mark that
belongs to it. An exclamation mark belongs only to an ASCII name, and not if it begins `!=`. -/
def wordAhead (text : List Char) : List Char :=
  let name := nameAhead text
  match text.drop name.length with
  | '?' :: _ => name ++ ['?']
  | '!' :: '=' :: _ => name
  | '!' :: _ => if name.all isPlainNameChar then name ++ ['!'] else name
  | _ => name

/-- Whether a word ends with a mark. -/
def isMarked (word : List Char) : Bool :=
  word.getLast? == some '?' || word.getLast? == some '!'

/-- The reserved word with which a text begins, where any other word could stand. -/
def keywordAhead? (text : List Char) : Option Keyword :=
  Keyword.ofName? (wordAhead text)

/-- Whether a label stands before `text`: an ASCII name directly before a single colon. -/
def labelAhead? (text : List Char) : Option (List Char) :=
  let name := text.takeWhile isPlainNameChar
  match name, text.drop name.length with
  | _, ':' :: ':' :: _ => none
  | c :: _, ':' :: _ => if c.isDigit then none else some name
  | _, _ => none

end FactoryRoster.Source
