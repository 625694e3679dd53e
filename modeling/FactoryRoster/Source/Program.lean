import FactoryRoster.Source.Rules.Operands

/-!
# Programs

The rules of the grammar tied together, and the trees of a whole program. Reading a phrase
takes a number of rules within each other that is bounded by the length of the text; from that
length a depth is computed that no program comes near.
-/

namespace FactoryRoster.Source

namespace Phrase

def rule (readers : Readers) : (p : Phrase) → Reader p.Value
  | gap => Rules.gap readers
  | document d => Rules.document readers d
  | contents outline depth => Rules.contents readers outline depth
  | statements stop => Rules.statements readers stop
  | following stop => Rules.following readers stop
  | statement follow opening => Rules.statement readers follow opening
  | modifiers setting left => Rules.modifiers readers setting left
  | expression setting => Rules.expression readers setting
  | joins setting left => Rules.joins readers setting left
  | unjoined setting level => Rules.unjoined readers setting level
  | operand setting level commands => Rules.operand readers setting level commands
  | continued setting level commands left => Rules.continued readers setting level commands left
  | operators setting level commands left => Rules.operators readers setting level commands left
  | access setting commands left => Rules.access readers setting commands left
  | targets setting => Rules.targets readers setting
  | values setting => Rules.values readers setting
  | arguments setting => Rules.arguments readers setting
  | listed closer => Rules.listed readers closer
  | argument setting => Rules.argument readers setting
  | entries => Rules.entries readers
  | clauses => Rules.clauses readers
  | exceptions => Rules.exceptions readers
  | lambda => Rules.lambda readers
  | parameters close => Rules.parameters readers close
  | branches => Rules.branches readers
  | arms => Rules.arms readers
  | armPatterns => Rules.armPatterns readers
  | matchArms => Rules.matchArms readers
  | patterns setting => Rules.patterns readers setting
  | patternItems setting row => Rules.patternItems readers setting row
  | patternEntries setting => Rules.patternEntries readers setting
  | pattern setting => Rules.pattern readers setting
  | methodNames => Rules.methodNames readers

/-- Reads a phrase with at most `depth` rules within each other. -/
def read : (depth : Nat) → (p : Phrase) → Reader p.Value
  | 0, _ => failure
  | depth + 1, p => p.rule ⟨read depth⟩

end Phrase

/-- The depth of rules that suffices for a text of the given length. -/
def sufficientDepth (length : Nat) : Nat :=
  16 * (length + 1)

/-- What follows the statements of a program: nothing, or the mark after which the file holds data.
The mark ends its line, or else nothing but notes may follow. A note that begins directly after the
mark comes before the data, and any other note after them. -/
def ending? (readers : Readers) (c : Cursor) : Option (List Expr) :=
  match c.text with
  | [] => some c.allNotes
  | text =>
    match text.drop Keyword.dataMark.spelling.length with
    | '\n' :: _ => some (c.allNotes ++ [.other "uninterpreted"])
    | '\r' :: _ => some (c.allNotes ++ [.other "uninterpreted"])
    | rest =>
      match afterComment? rest with
      | some more => onlyNotes [.other "comment"] more
      | none => onlyNotes [] rest
where
  /-- The notes in `rest` after the mark, which follow the notes `attached` to it. -/
  onlyNotes (attached : List Expr) (rest : List Char) : Option (List Expr) :=
    match readers.gap (c.at_ rest) with
    | some (_, after) =>
      if after.text.isEmpty then
        some (c.allNotes ++ attached ++ .other "uninterpreted" :: after.allNotes)
      else none
    | none => none

/-- The text of a program without the byte order mark before it. -/
def withoutMark (text : List Char) : List Char :=
  match text with
  | '\ufeff' :: rest => rest
  | _ => text

/-- The statements of a program, with the notes between them; a note that data follows is the last
of them. -/
def programStatements? (text : List Char) : Option (List Expr) := do
  let text := withoutMark text
  let readers : Readers := ⟨Phrase.read (sufficientDepth text.length)⟩
  let ((), start) ← readers.gap { text }
  let (statements, stop) ← readers.statements .file start
  let notes ← ending? readers stop
  some (statements ++ notes)

/-- The concrete tree of a program, unless the text is none. -/
def programTree? (text : String) : Option Expr :=
  (programStatements? text.toList).map .program

/-- The syntax tree of a program, unless the text is none. -/
def parse? (text : String) : Option Node :=
  (programTree? text).map Expr.toNode

end FactoryRoster.Source
