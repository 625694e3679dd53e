/-!
# Glob patterns

Patterns for names: `?` is any character, `*` any run of characters, `[abc]`, `[a-z]` and `[!abc]`
are classes, and `**` stands for any directories on the way. `escape` writes a text as a pattern
that only the text matches.
-/

namespace FactoryRoster.Glob

/-- Why a text is no pattern. -/
inductive Defect where
  /-- More than two asterisks in a row. -/
  | asterisks
  /-- Two asterisks beside something else than a slash. -/
  | crowded
  /-- A class that is not closed. -/
  | openClass
  deriving DecidableEq, Repr

/-- A text that is no pattern: what is wrong with it, and after how many characters. -/
structure Fault where
  position : Nat
  defect : Defect
  deriving DecidableEq, Repr

def Defect.message : Defect → String
  | asterisks => "wildcards are either regular \x60*\x60 or recursive \x60**\x60"
  | crowded => "recursive wildcards must form a single path component"
  | openClass => "invalid range pattern"

/-- What is said of a text that is no pattern. -/
def Fault.message (f : Fault) : String :=
  "Pattern syntax error near position " ++ toString f.position ++ ": " ++ f.defect.message

/-- The characters from `low` to `high`. -/
structure Span where
  low : Char
  high : Char
  deriving DecidableEq, Repr

def Span.holds (s : Span) (c : Char) : Bool :=
  s.low ≤ c && c ≤ s.high

/-- A part of a pattern. -/
inductive Token where
  | char (c : Char)
  | any
  /-- Any run of characters. -/
  | run
  /-- Any directories on the way. -/
  | deep
  | oneOf (members : List Span)
  | noneOf (members : List Span)
  deriving DecidableEq, Repr

/-- The members of a class between its brackets. -/
def members : List Char → List Span
  | low :: '-' :: high :: rest => ⟨low, high⟩ :: members rest
  | c :: rest => ⟨c, c⟩ :: members rest
  | [] => []

/-- The class at the front of a text, after its opening bracket, and how many characters it takes
with its closing bracket. The first member may be a closing bracket. -/
def class? : List Char → Option (Token × Nat)
  | '!' :: first :: rest =>
    let more := rest.takeWhile (· != ']')
    if more.length < rest.length then some (.noneOf (members (first :: more)), more.length + 3)
    else none
  | '!' :: [] => none
  | first :: rest =>
    let more := rest.takeWhile (· != ']')
    if more.length < rest.length then some (.oneOf (members (first :: more)), more.length + 2)
    else none
  | [] => none

/-- How many asterisks a text begins with. -/
def asterisks (cs : List Char) : Nat :=
  (cs.takeWhile (· == '*')).length

/-- The tokens of a text of which `position` characters have been read, `last` being the last one.
The next `skip` characters belong to the last token. -/
def tokensFrom : (position : Nat) → (last : Option Char) → (skip : Nat) → List Char →
    Except Fault (List Token)
  | _, _, _, [] => .ok []
  | position, _, skip + 1, c :: cs => tokensFrom (position + 1) (some c) skip cs
  | position, last, 0, c :: cs =>
    let go (skip : Nat) := tokensFrom (position + 1) (some c) skip cs
    match c with
    | '?' => (go 0).map (.any :: ·)
    | '*' =>
      match asterisks cs with
      | 0 => (go 0).map (.run :: ·)
      | 1 =>
        if last == none || last == some '/' then
          match cs.drop 1 with
          | [] => (go 1).map (.deep :: ·)
          | '/' :: _ => (go 2).map (.deep :: ·)
          | _ => .error ⟨position + 2, .crowded⟩
        else .error ⟨position - 1, .crowded⟩
      | _ => .error ⟨position + 2, .asterisks⟩
    | '[' =>
      match class? cs with
      | some (token, length) => (go length).map (token :: ·)
      | none => .error ⟨position, .openClass⟩
    | c => (go 0).map (.char c :: ·)

def tokens (text : List Char) : Except Fault (List Token) :=
  tokensFrom 0 none 0 text

def Token.accepts : Token → Char → Bool
  | char d, c => d == c
  | any, _ => true
  | oneOf members, c => members.any (·.holds c)
  | noneOf members, c => !members.any (·.holds c)
  | run, _ => true
  | deep, _ => true

/-- Whether a token stands for any number of characters. -/
def Token.isRun : Token → Bool
  | run | deep => true
  | _ => false

/-- Whether some suffix of a text has a property. -/
def someSuffix (holds : List Char → Bool) : List Char → Bool
  | [] => holds []
  | c :: cs => holds (c :: cs) || someSuffix holds cs

/-- Whether a name matches tokens. -/
def matchesName : List Token → List Char → Bool
  | [], name => name.isEmpty
  | t :: ts, name =>
    if t.isRun then someSuffix (matchesName ts) name
    else match name with
      | [] => false
      | c :: cs => t.accepts c && matchesName ts cs

/-- A pattern that a text alone matches. -/
def escape (text : List Char) : List Char :=
  text.flatMap fun c => if ['?', '*', '[', ']'].contains c then ['[', c, ']'] else [c]

end FactoryRoster.Glob
