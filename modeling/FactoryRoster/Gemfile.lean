/-!
# Gemfiles

The gems that a Gemfile declares. A declaration stands at the start of a line: blanks, `gem`, and a
name in quotation marks of either kind, perhaps after a parenthesis. Whatever comes after the
closing mark belongs to no declaration before the next line.
-/

namespace FactoryRoster.Gemfile

/-- A blank within a line. -/
def isBlank (c : Char) : Bool :=
  c == ' ' || c == '\t'

def isMark (c : Char) : Bool :=
  c == '"' || c == '\''

def dropBlanks (cs : List Char) : List Char :=
  cs.dropWhile isBlank

def dropParenthesis : List Char → List Char
  | '(' :: cs => cs
  | cs => cs

/-- The name in quotation marks at the front of a text, and what follows it. A name has at least one
character and no quotation mark. -/
def quotedName? : List Char → Option (List Char × List Char)
  | [] => none
  | c :: cs =>
    if isMark c then
      match cs.span (!isMark ·) with
      | (name, _ :: rest) => if name.isEmpty then none else some (name, rest)
      | (_, []) => none
    else none

/-- The gem that a text declares at its front, and what follows the declaration. -/
def declaration? (cs : List Char) : Option (List Char × List Char) :=
  match dropBlanks cs with
  | 'g' :: 'e' :: 'm' :: rest => quotedName? (dropBlanks (dropParenthesis (dropBlanks rest)))
  | _ => none

/-- The gems declared in a text. The next `skip` characters belong to a declaration; `fresh` says
whether a line starts. -/
def gemsFrom : (fresh : Bool) → (skip : Nat) → List Char → List (List Char)
  | _, _, [] => []
  | _, skip + 1, c :: cs => gemsFrom (c == '\n') skip cs
  | fresh, 0, c :: cs =>
    match if fresh then declaration? (c :: cs) else none with
    | some (name, rest) => name :: gemsFrom (c == '\n') (cs.length - rest.length) cs
    | none => gemsFrom (c == '\n') 0 cs

/-- The names of the gems that a Gemfile declares, in the order of their declarations. -/
def gems (content : String) : List String :=
  (gemsFrom true 0 content.toList).map String.ofList

/-- Whether a gem is the one asked for or a companion of it: its name goes on with `_` or `-`. -/
def isFamily (gem name : String) : Bool :=
  name == gem ||
    (gem.toList.isPrefixOf name.toList &&
      match name.toList.drop gem.toList.length with
      | c :: _ => c == '_' || c == '-'
      | [] => false)

/-- Whether a Gemfile declares a gem or a companion of it. -/
def declares (content gem : String) : Bool :=
  (gems content).any (isFamily gem)

end FactoryRoster.Gemfile
