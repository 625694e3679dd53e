import FactoryRoster.Source.Characters

/-!
# Operators

The operators that stand between two operands, with how strongly they bind, and the signs of
assignment.
-/

namespace FactoryRoster.Source

/-- What an operator makes of its operands. -/
inductive Infix where
  | binary
  /-- A range, whose end may be left out. -/
  | range
  /-- The beginning of a conditional. -/
  | conditional
  deriving DecidableEq

/-- An operator: how it is written, what it makes of its operands, how strongly it binds, and
whether it takes another operator of its strength to its right. -/
structure Operator where
  spelling : List Char
  kind : Infix
  strength : Nat
  rightward : Bool

/-- A binary operator that takes those of its strength to its left. -/
def Operator.leftward (spelling : List Char) (strength : Nat) : Operator :=
  ⟨spelling, .binary, strength, false⟩

/-- The operators, the longer ones first where one begins another. -/
def operators : List Operator :=
  [⟨['=', '=', '='], .binary, 40, true⟩, ⟨['<', '=', '>'], .binary, 40, true⟩,
    ⟨['.', '.', '.'], .range, 25, true⟩, ⟨['=', '='], .binary, 40, true⟩,
    ⟨['=', '~'], .binary, 40, true⟩, ⟨['!', '='], .binary, 40, true⟩,
    ⟨['!', '~'], .binary, 40, true⟩, ⟨['*', '*'], .binary, 80, true⟩,
    ⟨['.', '.'], .range, 25, true⟩, .leftward ['|', '|'] 30, .leftward ['&', '&'] 35,
    .leftward ['<', '='] 45, .leftward ['<', '<'] 60, .leftward ['>', '='] 45,
    .leftward ['>', '>'] 60, .leftward ['<'] 45, .leftward ['>'] 45, .leftward ['|'] 50,
    .leftward ['^'] 50, .leftward ['&'] 55, .leftward ['+'] 65, .leftward ['-'] 65,
    .leftward ['*'] 70, .leftward ['/'] 70, .leftward ['%'] 70, ⟨['?'], .conditional, 20, true⟩]

/-- The operators that assign to the place before them, the longer ones first. -/
def assignmentOperators : List (List Char) :=
  [['*', '*', '='], ['|', '|', '='], ['&', '&', '='], ['<', '<', '='], ['>', '>', '='],
    ['+', '='], ['-', '='], ['*', '='], ['/', '='], ['|', '='], ['&', '='], ['%', '='], ['^', '=']]

/-- The length of the assigning operator with which a text begins. -/
def assignmentLength? (text : List Char) : Option Nat :=
  (assignmentOperators.find? fun op => op.isPrefixOf text).map List.length

/-- Whether a text begins with an equals sign that stands alone. -/
def assigns (text : List Char) : Bool :=
  match text with
  | '=' :: '=' :: _ => false
  | '=' :: '~' :: _ => false
  | '=' :: '>' :: _ => false
  | '=' :: _ => true
  | _ => false

/-- The operator with which a text begins. The ampersand of a safe call is none, nor is the minus
sign of an arrow. -/
def operatorAhead? (text : List Char) : Option Operator :=
  match text with
  | '&' :: '.' :: _ => none
  | '-' :: '>' :: _ => none
  | _ =>
    if (assignmentLength? text).isSome then none
    else operators.find? fun op => op.spelling.isPrefixOf text

end FactoryRoster.Source
