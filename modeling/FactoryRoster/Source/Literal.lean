import FactoryRoster.Source.Escape
import FactoryRoster.Source.MethodName

/-!
# Delimited literals

Literals between delimiters: their kinds, how they open and close, and which of their characters
stand for themselves. Within such a literal its own delimiters nest, a backslash escapes, and a hash
sign may begin an interpolation.
-/

namespace FactoryRoster.Source

/-- What kind of value a delimited literal denotes. -/
inductive LiteralKind where
  | string | symbol | command | pattern | words | symbols
  deriving DecidableEq, Repr

/-- The name under which a literal is mentioned when it is no plain string. -/
def LiteralKind.name : LiteralKind → String
  | string => "string"
  | symbol => "delimited_symbol"
  | command => "subshell"
  | pattern => "regex"
  | words => "string_array"
  | symbols => "symbol_array"

/-- How the body of a literal is read. -/
inductive Quoting where
  /-- Every character stands for itself. -/
  | verbatim
  /-- A backslash escapes a backslash or a single quote, and nothing else. -/
  | single
  /-- Backslash escapes and interpolations. -/
  | double
  deriving DecidableEq, Repr

/-- A part of a literal's body. -/
inductive Part where
  /-- Characters that stand for themselves, or that only the quoting interprets. -/
  | plain (text : List Char)
  /-- An escape, by the characters that follow its backslash. -/
  | escape (body : List Char)
  | code

/-- The outline of a delimited literal. -/
structure Outline where
  kind : LiteralKind
  quoting : Quoting
  opener : Char
  closer : Char

/-- The character that closes what `opener` opens. -/
def closerOf (opener : Char) : Char :=
  match opener with
  | '(' => ')'
  | '[' => ']'
  | '<' => '>'
  | '\x7b' => '\x7d'
  | c => c

/-- The kind and the quoting of a literal that begins with a percent sign and a letter. -/
def percentKind? (letter : Char) : Option (LiteralKind × Quoting) :=
  match letter with
  | 'q' => some (.string, .single)
  | 'Q' => some (.string, .double)
  | 's' => some (.symbol, .verbatim)
  | 'w' => some (.words, .single)
  | 'W' => some (.words, .double)
  | 'i' => some (.symbols, .single)
  | 'I' => some (.symbols, .double)
  | 'x' => some (.command, .double)
  | 'r' => some (.pattern, .double)
  | _ => none

/-- Whether a literal may be delimited by a character, where an operator is possible or not. -/
def isDelimiter (operatorPossible : Bool) (c : Char) : Bool :=
  if c == ' ' || c == '\t' || c == '\r' || c == '\n' || c == '=' then !operatorPossible
  else punctuation.contains c || c == '_'

/-- The literal that begins with the percent sign before `text`, with the length of its opening. A
blank does not delimit a list of words. -/
def percentOutline? (operatorPossible : Bool) (text : List Char) : Option (Outline × Nat) :=
  match text with
  | [] => none
  | c :: rest =>
    match percentKind? c, rest with
    | some (kind, quoting), d :: _ =>
      let list := kind == .words || kind == .symbols
      if isDelimiter operatorPossible d && !(list && isSpace d) then
        some (⟨kind, quoting, d, closerOf d⟩, 3)
      else none
    | some _, [] => none
    | none, _ =>
      if isDelimiter operatorPossible c then some (⟨.string, .double, c, closerOf c⟩, 2) else none

/-- The string with which a text begins, where an operator may stand as well or not. -/
def stringOutline? (operatorPossible : Bool) (text : List Char) : Option (Outline × Nat) :=
  match text with
  | '\"' :: _ => some (⟨.string, .double, '\"', '\"'⟩, 1)
  | '\'' :: _ => some (⟨.string, .single, '\'', '\''⟩, 1)
  | '%' :: rest =>
    match percentOutline? operatorPossible rest with
    | some (outline, n) => if outline.kind == .string then some (outline, n) else none
    | none => none
  | _ => none

/-- The delimited symbol with which a text begins. -/
def symbolOutline? (text : List Char) : Option (Outline × Nat) :=
  match text with
  | ':' :: '\"' :: _ => some (⟨.symbol, .double, '\"', '\"'⟩, 2)
  | ':' :: '\'' :: _ => some (⟨.symbol, .single, '\'', '\''⟩, 2)
  | _ => none

/-- The delimited literal with which a text begins where a value stands, with the length of its
opening. -/
def outlineAhead? (text : List Char) : Option (Outline × Nat) :=
  match text with
  | '\x60' :: _ => some (⟨.command, .double, '\x60', '\x60'⟩, 1)
  | '/' :: _ => some (⟨.pattern, .double, '/', '/'⟩, 1)
  | '%' :: rest => percentOutline? false rest
  | ':' :: _ => symbolOutline? text
  | _ => stringOutline? false text

/-- The length of the variable that is interpolated without braces after a hash sign. -/
def shortVariableLength? (text : List Char) : Option Nat :=
  if begins then (variableAhead? text).map Prod.snd else none
where
  /-- Whether an interpolation begins here. -/
  begins : Bool :=
    match text with
    | '$' :: '-' :: c :: _ => c.isAlpha || c == '_'
    | '$' :: c :: _ => globalMarks.contains c || isPlainNameChar c
    | '@' :: '@' :: c :: _ => isSymbolChar c
    | '@' :: c :: _ => isSymbolChar c
    | _ => false

/-- What comes next in the body of a literal. -/
inductive Stretch where
  /-- Characters of the text, and what follows them at which nesting of the delimiters. -/
  | plain (text rest : List Char) (depth : Nat)
  /-- The delimiter that closes the literal; what follows it. -/
  | close (rest : List Char)
  /-- A backslash that begins an escape; what follows it. -/
  | escape (rest : List Char)
  /-- The opening of an interpolation in braces; what follows it. -/
  | code (rest : List Char)
  /-- A variable that is interpolated without braces; what follows it. -/
  | variable (rest : List Char)
  | nothing

namespace Outline

/-- What begins at the character `c` of a body, which `rest` follows, if it is more than a character
of the text. -/
def special? (o : Outline) (depth : Nat) (c : Char) (rest : List Char) : Option Stretch :=
  if c == o.closer && depth == 0 then some (.close rest)
  else if o.quoting == .double then
    match c, rest with
    | '\\', _ => some (.escape rest)
    | '#', '\x7b' :: inner => some (.code inner)
    | '#', _ => (shortVariableLength? rest).map fun n => .variable (rest.drop n)
    | _, _ => none
  else none

/-- The nesting of the delimiters after the character `c`. -/
def nesting (o : Outline) (depth : Nat) (c : Char) : Nat :=
  if c == o.closer then depth - 1
  else if c == o.opener then depth + 1
  else depth

/-- The characters up to the next special one, what follows them, and the nesting there. Where there
are no escapes, a backslash takes the next character with it: `taken` holds right after one. -/
def plainRun (o : Outline) (depth : Nat) (taken : Bool) :
    List Char → List Char × List Char × Nat
  | [] => ([], [], depth)
  | c :: rest =>
    if taken then
      let (run, after) := o.plainRun depth false rest
      (c :: run, after)
    else if (o.special? depth c rest).isSome then ([], c :: rest, depth)
    else
      let (run, after) := o.plainRun (o.nesting depth c) (c == '\\') rest
      (c :: run, after)

/-- What comes next in a body. -/
def stretch (o : Outline) (depth : Nat) (text : List Char) : Stretch :=
  match text with
  | [] => .nothing
  | c :: rest =>
    match o.special? depth c rest with
    | some s => s
    | none =>
      let (run, rest, depth) := o.plainRun depth false text
      .plain run rest depth

end Outline

end FactoryRoster.Source
