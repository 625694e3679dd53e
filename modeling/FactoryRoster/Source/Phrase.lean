import FactoryRoster.Source.Cursor
import FactoryRoster.Source.Numeric
import FactoryRoster.Source.Operator

/-!
# Phrases

The phrases of the grammar, each with what is kept of it, and the settings in which they stand. A
rule reads one phrase, given a reader of the phrases within it.
-/

namespace FactoryRoster.Source

/-- What ends a list of statements. -/
inductive Stop where
  /-- The end of the file, or the mark after which it holds data. -/
  | file
  | closer (bracket : Char)
  | words (words : List Keyword)

namespace Stop

/-- `end`, or a clause that belongs to the body of a block or definition. -/
def body : Stop :=
  .words [.end_, .rescue, .else_, .ensure]

/-- `end`, or the next branch of a condition. -/
def branch : Stop :=
  .words [.end_, .else_, .elsif]

/-- `end`, or the next `when`. -/
def arm : Stop :=
  .words [.end_, .else_, .when_]

/-- `end`, or the next `in`. -/
def clause : Stop :=
  .words [.end_, .else_, .in_]

def onlyEnd : Stop :=
  .words [.end_]

/-- The reserved words that end the statements. -/
def follow : Stop → List Keyword
  | file => [.dataMark]
  | closer _ => []
  | words ks => ks

/-- Whether the statements end before `text`, which begins with `word`. -/
def holds (s : Stop) (word text : List Char) : Bool :=
  match s, text with
  | _, [] => true
  | closer bracket, c :: _ => c == bracket
  | s, _ =>
    match Keyword.ofName? word with
    | some k => s.follow.contains k
    | none => false

end Stop

/-- Where a phrase stands: what may follow it, as far as that decides how it is read. -/
structure Setting where
  /-- The end of a line is a blank. -/
  wrapped : Bool := false
  /-- The reserved words that may follow. -/
  follow : List Keyword := []
  /-- A comma may follow. -/
  comma : Bool := false
  /-- An opening brace may follow. -/
  brace : Bool := false
  /-- A bar ends the phrase. -/
  bar : Bool := false
  /-- An argument may be joined to another expression by `and` or `or`. -/
  joins : Bool := true

namespace Setting

/-- The setting of an item in brackets. -/
def listed : Setting :=
  { wrapped := true, comma := true }

/-- The setting of the arguments of a call without parentheses, which may have a block. No pattern
follows such a call. -/
def argument (s : Setting) : Setting :=
  { s with comma := true, brace := true, follow := .do_ :: s.follow.erase .in_, joins := false }

/-- The setting of the values after a word such as `return`. No pattern follows them. -/
def handed (s : Setting) : Setting :=
  { s with comma := true, follow := s.follow.erase .in_, joins := false }

/-- The setting of an expression. -/
def joined (s : Setting) : Setting :=
  { s with follow := .and_ :: .or_ :: .in_ :: s.follow }

/-- The setting of an operand within an operation. -/
def inner (s : Setting) : Setting :=
  { s with bar := false }

/-- The setting of an assigned value, which may be the first of a list if `lists` holds. -/
def assigned (s : Setting) (lists : Bool) : Setting :=
  { s with comma := s.comma || lists, bar := false, follow := .rescue :: s.follow }

/-- The setting of a pattern, which no other pattern follows. -/
def matching (s : Setting) : Setting :=
  { s with follow := s.follow.erase .in_ }

/-- The setting of the targets of an assignment, which nothing but its sign follows. -/
def assigning (s : Setting) : Setting :=
  { s with wrapped := true, follow := [], brace := false }

/-- What follows in a setting: nothing after the end of a line, unless that is a blank. -/
def ahead (s : Setting) (c : Cursor) : List Char :=
  if c.broken && !s.wrapped then [] else c.text

def hasKeyword (s : Setting) (c : Cursor) (k : Keyword) : Bool :=
  nameAhead (s.ahead c) == k.spelling

end Setting

/-- The level of an operand without operators: no operator binds as tightly. -/
def tightest : Nat := 100

/-- What may still be done with an expression that has been read. -/
inductive Form where
  /-- It may be assigned to, or used as an operand. -/
  | place
  /-- It may be used as an operand. -/
  | value
  /-- It is a string, next to which another may stand; before a colon it is a key. -/
  | string
  /-- It is a row of strings, next to which another may stand. -/
  | strings
  | complete
  /-- It is a call without parentheses and with a block: only another call may follow. -/
  | chain
  /-- It is a list of targets, which have to be assigned to. -/
  | targets
  /-- It is the first entry of a hash. -/
  | pair
  deriving DecidableEq

/-- Whether an expression may be used as an operand. -/
def Form.isOperand : Form → Bool
  | .place | .value | .string | .strings => true
  | _ => false

/-- An expression that has been read. -/
structure Term where
  expr : Expr
  form : Form

/-- A value of which only the kind is kept. -/
def Term.ofKind (kind : String) : Term :=
  ⟨.other kind, .value⟩

/-- How a list of parameters ends. -/
inductive ParameterEnd where
  | paren | pipe | line | lambda
  deriving DecidableEq

/-- What a row of patterns holds. It may hold one splat, or one at each end with patterns between
them. -/
inductive PatternRow where
  | empty
  /-- Patterns without a splat. -/
  | plain
  /-- Patterns and a splat after the first of them. -/
  | splat
  | opened
  /-- A splat and patterns after it. -/
  | filled
  /-- A splat at each end. -/
  | closed
  deriving DecidableEq

namespace PatternRow

/-- The row with one more pattern. -/
def withPattern : PatternRow → PatternRow
  | empty => plain
  | opened => filled
  | row => row

/-- The row with one more splat, where one may stand. -/
def withSplat? : PatternRow → Option PatternRow
  | empty => some opened
  | plain => some splat
  | filled => some closed
  | _ => none

end PatternRow

/-- The phrases of the grammar. -/
inductive Phrase where
  /-- The gap before the next token. -/
  | gap
  /-- The rest of a here document's body. -/
  | document (d : Document)
  /-- The rest of a literal's body, with its closing delimiter, where its delimiters are nested
  `depth` times. -/
  | contents (outline : Outline) (depth : Nat)
  /-- The statements up to a stop, which is left. -/
  | statements (stop : Stop)
  /-- The statements after the first one. -/
  | following (stop : Stop)
  /-- A statement; with `opening`, it may turn out to be an entry of a hash. -/
  | statement (follow : List Keyword) (opening : Bool)
  /-- The modifiers after a statement. -/
  | modifiers (setting : Setting) (left : Expr)
  | expression (setting : Setting)
  /-- The continuation of an expression by `and` and `or`. -/
  | joins (setting : Setting) (left : Term)
  /-- An expression without `and` and `or`, whose operators bind at least as tightly as `level`. -/
  | unjoined (setting : Setting) (level : Nat)
  /-- An operand whose operators bind at least as tightly as `level`; `commands` allows a call
  without parentheses. -/
  | operand (setting : Setting) (level : Nat) (commands : Bool)
  /-- The continuation of an operand by calls, indices and operators. -/
  | continued (setting : Setting) (level : Nat) (commands : Bool) (left : Term)
  /-- The continuation of an operand by operators and assignments. -/
  | operators (setting : Setting) (level : Nat) (commands : Bool) (left : Term)
  /-- The continuation of an operand by calls and indices. -/
  | access (setting : Setting) (commands : Bool) (left : Term)
  /-- The targets of an assignment. -/
  | targets (setting : Setting)
  /-- Assigned values, separated by commas. -/
  | values (setting : Setting)
  /-- The arguments of a call without parentheses. -/
  | arguments (setting : Setting)
  /-- The items up to a closing bracket, with that bracket. -/
  | listed (closer : Char)
  | argument (setting : Setting)
  /-- The entries of a hash up to its closing brace, with that brace. -/
  | entries
  /-- The clauses at the end of a body, with the `end` after them. -/
  | clauses
  /-- The exceptions that a clause handles. -/
  | exceptions
  /-- A function: its parameters and its block. -/
  | lambda
  /-- Parameters, with the bracket that closes them if there is one. -/
  | parameters (close : ParameterEnd)
  /-- The further branches of a condition, with the `end` after them. -/
  | branches
  /-- The branches of a case, with the `end` after them. -/
  | arms
  /-- The patterns of an arm, separated by commas. -/
  | armPatterns
  /-- The branches of a pattern match, with the `end` after them. -/
  | matchArms
  /-- A pattern that may be a list without brackets. -/
  | patterns (setting : Setting)
  /-- The items of a pattern for an array, after those that `row` tells of. -/
  | patternItems (setting : Setting) (row : PatternRow)
  /-- The entries of a pattern for a hash. -/
  | patternEntries (setting : Setting)
  /-- A pattern with its alternatives and its names. -/
  | pattern (setting : Setting)
  /-- Names of methods, separated by commas. -/
  | methodNames

/-- What is kept of a phrase. -/
def Phrase.Value : Phrase → Type
  | contents .. => List Part
  | statements _ | following _ | arguments _ | listed _ | clauses => List Expr
  | modifiers .. | argument _ => Expr
  | statement .. | expression _ | joins .. | unjoined .. | operand .. | continued ..
  | operators .. | access .. => Term
  | _ => Unit

/-- A reader of every phrase. -/
structure Readers where
  read : (p : Phrase) → Reader p.Value

namespace Readers

def gap (r : Readers) : Reader Unit :=
  r.read .gap

def document (r : Readers) (d : Document) : Reader Unit :=
  r.read (.document d)

def contents (r : Readers) (outline : Outline) (depth : Nat) : Reader (List Part) :=
  r.read (.contents outline depth)

def statements (r : Readers) (stop : Stop) : Reader (List Expr) :=
  r.read (.statements stop)

def following (r : Readers) (stop : Stop) : Reader (List Expr) :=
  r.read (.following stop)

def statement (r : Readers) (follow : List Keyword) (opening : Bool) : Reader Term :=
  r.read (.statement follow opening)

def modifiers (r : Readers) (s : Setting) (left : Expr) : Reader Expr :=
  r.read (.modifiers s left)

def expression (r : Readers) (s : Setting) : Reader Term :=
  r.read (.expression s)

def joins (r : Readers) (s : Setting) (left : Term) : Reader Term :=
  r.read (.joins s left)

def unjoined (r : Readers) (s : Setting) (level : Nat) : Reader Term :=
  r.read (.unjoined s level)

def operand (r : Readers) (s : Setting) (level : Nat) (commands : Bool) : Reader Term :=
  r.read (.operand s level commands)

def continued (r : Readers) (s : Setting) (level : Nat) (commands : Bool) (left : Term) :
    Reader Term :=
  r.read (.continued s level commands left)

def operators (r : Readers) (s : Setting) (level : Nat) (commands : Bool) (left : Term) :
    Reader Term :=
  r.read (.operators s level commands left)

def access (r : Readers) (s : Setting) (commands : Bool) (left : Term) : Reader Term :=
  r.read (.access s commands left)

def targets (r : Readers) (s : Setting) : Reader Unit :=
  r.read (.targets s)

def values (r : Readers) (s : Setting) : Reader Unit :=
  r.read (.values s)

def arguments (r : Readers) (s : Setting) : Reader (List Expr) :=
  r.read (.arguments s)

def listed (r : Readers) (closer : Char) : Reader (List Expr) :=
  r.read (.listed closer)

def argument (r : Readers) (s : Setting) : Reader Expr :=
  r.read (.argument s)

def entries (r : Readers) : Reader Unit :=
  r.read .entries

def clauses (r : Readers) : Reader (List Expr) :=
  r.read .clauses

def exceptions (r : Readers) : Reader Unit :=
  r.read .exceptions

def lambda (r : Readers) : Reader Unit :=
  r.read .lambda

def parameters (r : Readers) (close : ParameterEnd) : Reader Unit :=
  r.read (.parameters close)

def branches (r : Readers) : Reader Unit :=
  r.read .branches

def arms (r : Readers) : Reader Unit :=
  r.read .arms

def armPatterns (r : Readers) : Reader Unit :=
  r.read .armPatterns

def matchArms (r : Readers) : Reader Unit :=
  r.read .matchArms

def patterns (r : Readers) (s : Setting) : Reader Unit :=
  r.read (.patterns s)

def patternItems (r : Readers) (s : Setting) (row : PatternRow) : Reader Unit :=
  r.read (.patternItems s row)

def patternEntries (r : Readers) (s : Setting) : Reader Unit :=
  r.read (.patternEntries s)

def pattern (r : Readers) (s : Setting) : Reader Unit :=
  r.read (.pattern s)

def methodNames (r : Readers) : Reader Unit :=
  r.read .methodNames

end Readers

end FactoryRoster.Source
