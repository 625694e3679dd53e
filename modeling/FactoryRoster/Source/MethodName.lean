import FactoryRoster.Source.Keyword

/-!
# Names of variables, methods and symbols

Names that are more than a word: variables marked by a sigil, operators that name methods, and
symbols.
-/

namespace FactoryRoster.Source

/-- The kinds of variables that are marked by a sigil. -/
inductive Sigil where
  | instance_ | class_ | global
  deriving DecidableEq, Repr

def Sigil.name : Sigil → String
  | instance_ => "instance_variable"
  | class_ => "class_variable"
  | global => "global_variable"

/-- The characters that name a global variable each. -/
def globalMarks : List Char :=
  ['!', '@', '&', '\x60', '\'', '+', '~', '=', '/', '\\', ',', ';', '.', '<', '>', '*', '$', '?',
    ':', '\"']

/-- The length of the name of a global variable after its sigil: a name, digits, one special
character, or a dash and one character of a name. -/
def globalLength? (text : List Char) : Option Nat :=
  match text with
  | [] => none
  | '-' :: d :: _ => if isPlainNameChar d then some 2 else none
  | c :: rest =>
    if globalMarks.contains c then some 1
    else if c.isDigit then some (1 + (rest.takeWhile Char.isDigit).length)
    else if isNameChar c then some (1 + (nameAhead rest).length)
    else none

/-- The marked variable with which a text begins: its kind and its length. -/
def variableAhead? (text : List Char) : Option (Sigil × Nat) :=
  match text with
  | '@' :: '@' :: c :: rest =>
    if isNameStart c then some (.class_, 3 + (nameAhead rest).length) else none
  | '@' :: c :: rest =>
    if isNameStart c then some (.instance_, 2 + (nameAhead rest).length) else none
  | '$' :: rest => (globalLength? rest).map fun n => (.global, n + 1)
  | _ => none

/-- The operators that name methods, the longer ones first. -/
def methodOperators : List (List Char) :=
  [['[', ']', '='], ['<', '=', '>'], ['=', '=', '='],
    ['*', '*'], ['=', '='], ['=', '~'], ['!', '='], ['!', '~'], ['<', '<'], ['>', '>'],
    ['<', '='], ['>', '='], ['+', '@'], ['-', '@'], ['~', '@'], ['[', ']'], ['.', '.'],
    ['|'], ['^'], ['&'], ['<'], ['>'], ['+'], ['-'], ['*'], ['/'], ['%'], ['!'], ['~'], ['\x60']]

def methodOperator? (text : List Char) : Option (List Char) :=
  methodOperators.find? fun op => op.isPrefixOf text

/-- The name of a method with which a text begins: a word, or an operator. -/
def methodNameAhead? (text : List Char) : Option (List Char) :=
  match text with
  | [] => none
  | c :: _ => if isNameStart c then some (wordAhead text) else methodOperator? text

/-- A character that may stand in a symbol. Here the low octet of a character's number decides. -/
def isSymbolChar (c : Char) : Bool :=
  let low := Char.ofNat (c.toNat % 256)
  low != '\x00' && low != '\n' && low != '\r' && low != '\t' && low != ' ' &&
    !punctuation.contains low

/-- The length of the operator that a symbol names. -/
def symbolOperatorLength? (text : List Char) : Option Nat :=
  match text with
  | '.' :: '.' :: _ => some 2
  | '.' :: _ => none
  | _ => (methodOperator? text).map List.length

/-- Whether an equals sign stands before `text` that belongs to the name before it. -/
def isSetterMark (text : List Char) : Bool :=
  match text with
  | '=' :: c :: _ => c != '=' && c != '~' && c != '>'
  | ['='] => true
  | _ => false

/-- The length of the name of a symbol: the sigil of a variable, a name or an operator, and a mark
that belongs to it. -/
def symbolLength? (text : List Char) : Option Nat :=
  let sigil :=
    match text with
    | '@' :: '@' :: _ => 2
    | '@' :: _ => 1
    | '$' :: _ => 1
    | _ => 0
  match first? (text.drop sigil) with
  | none => none
  | some n =>
    let name := sigil + n + ((text.drop (sigil + n)).takeWhile isSymbolChar).length
    let mark :=
      match text.drop name with
      | '?' :: _ => 1
      | '!' :: _ => 1
      | _ => 0
    let setter := if isSetterMark (text.drop (name + mark)) then 1 else 0
    some (name + mark + setter)
where
  /-- The length of what the name begins with. -/
  first? (rest : List Char) : Option Nat :=
    match rest with
    | [] => none
    | c :: _ => if isSymbolChar c then some 1 else symbolOperatorLength? rest

end FactoryRoster.Source
