import FactoryRoster.Source.Ahead
import FactoryRoster.Source.Rules.Statements

/-!
# Rules of blocks

Blocks with their parameters, bodies with their clauses, and functions.
-/

namespace FactoryRoster.Source.Rules

/-- Takes the name of a parameter or of a variable: an identifier. -/
def takeIdentifier (readers : Readers) : Reader Unit := do
  let c ← get
  let name := nameAhead c.text
  match name with
  | first :: _ =>
    if isNameStart first && !isConstant name then advance readers name.length else failure
  | [] => failure

namespace ParameterList

/-- The setting of the default of a parameter. -/
def setting (close : ParameterEnd) : Setting :=
  { wrapped := close != .line
    comma := true
    bar := close == .pipe
    brace := close == .lambda
    follow := if close == .lambda then [.do_] else [] }

/-- Whether an identifier begins at a place where it may be left out. -/
def beginsName (s : Setting) (c : Cursor) : Bool :=
  match s.ahead c with
  | first :: _ =>
    isNameStart first && !isConstant (nameAhead c.text) && !(s.hasKeyword c .do_ && s.brace)
  | [] => false

/-- The name of a parameter, which may be left out. -/
def optionalName (readers : Readers) (s : Setting) : Reader Unit := do
  let c ← get
  if beginsName s c then takeIdentifier readers else pure ()

def parameter (readers : Readers) (close : ParameterEnd) (nested : Bool) : Reader Unit := do
  let s := setting close
  let c ← get
  match c.text with
  | '(' :: _ =>
    if nested then
      advance readers 1
      let c ← get
      if c.text.head? == some ')' then failure else readers.parameters .paren
    else failure
  | '*' :: '*' :: _ =>
    advance readers 2
    optionalName readers s
  | '*' :: _ =>
    advance readers 1
    optionalName readers s
  | '&' :: _ =>
    advance readers 1
    optionalName readers s
  | '.' :: '.' :: '.' :: _ => advance readers 3
  | _ =>
    takeIdentifier readers
    let c ← get
    match c.spaced, s.ahead c with
    | false, ':' :: _ =>
      advance readers 1
      let c ← get
      if s.beginsValue (s.ahead c) then default s else pure ()
    | _, '=' :: _ =>
      advance readers 1
      default s
    | _, _ => pure ()
where
  default (s : Setting) : Reader Unit := do
    let _ ← value readers s 0 false

/-- The variables of a block after a semicolon. -/
def locals (readers : Readers) : Nat → Reader Unit
  | 0 => failure
  | fuel + 1 => do
    takeIdentifier readers
    let c ← get
    match c.text with
    | ',' :: _ =>
      advance readers 1
      locals readers fuel
    | _ => pure ()

/-- The end of the parameters of a block: variables of the block may come first. -/
def endOfBars (readers : Readers) : Reader Unit := do
  let c ← get
  match c.text with
  | ';' :: _ =>
    advance readers 1
    locals readers (c.text.length + 1)
    takeChar readers '|'
  | _ => takeChar readers '|'

def finish (readers : Readers) (close : ParameterEnd) : Reader Unit :=
  match close with
  | .paren => takeChar readers ')'
  | .pipe => endOfBars readers
  | _ => pure ()

def ends (close : ParameterEnd) (c : Cursor) : Bool :=
  match close, c.text with
  | .paren, ')' :: _ => true
  | .pipe, '|' :: _ => true
  | .pipe, ';' :: _ => true
  | _, _ => false

end ParameterList

open ParameterList in
/-- Parameters. Each may be a list of parameters in parentheses, but the first one only between
parentheses or bars. -/
def parameters (readers : Readers) (close : ParameterEnd) : Reader Unit := do
  let c ← get
  if ends close c then finish readers close
  else
    parameter readers close (close == .paren || close == .pipe)
    more (c.text.length + 1)
where
  /-- The parameters after a comma. A comma may follow the last one between bars. -/
  more : Nat → Reader Unit
    | 0 => failure
    | fuel + 1 => do
      let c ← get
      match (setting close).ahead c with
      | ',' :: _ =>
        advance readers 1
        let c ← get
        if close == .pipe && ends close c then finish readers close
        else
          parameter readers close true
          more fuel
      | _ => finish readers close

/-- The parameters between bars at the beginning of a block, if there are any; whether there
are. -/
def blockParameters (readers : Readers) : Reader Bool := do
  let c ← get
  match c.text with
  | '|' :: _ =>
    advance readers 1
    let c ← get
    match c.text with
    | ',' :: _ =>
      advance readers 1
      ParameterList.endOfBars readers
    | _ => readers.parameters .pipe
    pure true
  | _ => pure false

/-- A block after its opening brace, up to its closing brace: its parameters and the body of its
statements, with the notes among them. -/
def braceBlock (readers : Readers) : Reader (List Expr) := do
  let c ← get
  let any ← blockParameters readers
  let inner ← readers.statements (.closer '\x7d')
  let last ← get
  takeChar readers '\x7d'
  pure ((if any then c.allNotes ++ [.parameters] else []) ++ Expr.bodyOf .block inner ++
    last.allNotes)

/-- The place for an exception after an arrow, if there is one. -/
def exceptionPlace (readers : Readers) : Reader Unit := do
  let c ← get
  match Setting.ahead {} c with
  | '=' :: '>' :: _ =>
    advance readers 2
    let t ← readers.operand {} tightest false
    if t.form == .place then pure () else failure
  | _ => pure ()

/-- The setting of the exceptions that a clause handles. -/
def exceptionSetting : Setting :=
  { comma := true, follow := [.then_] }

/-- The exceptions that a clause handles, separated by commas. -/
def exceptions (readers : Readers) : Reader Unit := do
  let c ← get
  match c.text with
  | '*' :: _ =>
    let _ ← splat readers exceptionSetting
  | _ =>
    let _ ← value readers exceptionSetting 0 false
  let c ← get
  match exceptionSetting.ahead c with
  | ',' :: _ =>
    advance readers 1
    readers.exceptions
  | _ => pure ()

/-- The first line of a clause that handles exceptions: they may be left out. -/
def rescueHeader (readers : Readers) : Reader Unit := do
  let c ← get
  match exceptionSetting.ahead c with
  | [] => pure ()
  | ';' :: _ => pure ()
  | '=' :: '>' :: _ => pure ()
  | _ => if exceptionSetting.hasKeyword c .then_ then pure () else readers.exceptions
  exceptionPlace readers
  takeHeaderEnd readers

/-- The clauses at the end of a body, each with the statements under it, and the `end`. The notes
between them are kept. -/
def clauses (readers : Readers) : Reader (List Expr) := do
  let c ← get
  match Keyword.ofName? (nameAhead c.text) with
  | some .end_ =>
    advance readers 3
    pure c.allNotes
  | some .rescue =>
    advance readers 6
    rescueHeader readers
    clause c.allNotes "rescue"
  | some .else_ =>
    advance readers 4
    let _ ← takeTerminator readers
    clause c.allNotes "else"
  | some .ensure =>
    advance readers 6
    clause c.allNotes "ensure"
  | _ => failure
where
  /-- The statements of a clause, and the clauses after it. -/
  clause (notes : List Expr) (kind : String) : Reader (List Expr) := do
    let _ ← readers.statements .body
    let more ← readers.clauses
    pure (notes ++ .other kind :: more)

/-- A body: its statements, its clauses, and its `end`. -/
def body (readers : Readers) : Reader (List Expr) := do
  let inner ← readers.statements .body
  let clauses ← readers.clauses
  pure (inner ++ clauses)

/-- A block after `do`: its parameters and the body of its statements and clauses, with the notes
before them. One terminator after `do`, and one after the parameters, is no empty statement. -/
def doBlock (readers : Readers) : Reader (List Expr) := do
  let first ← get
  let ended ← takeTerminator readers
  let second ← get
  let any ← blockParameters readers
  let third ← get
  let again ← if any then takeTerminator readers else pure false
  let inner ← body readers
  pure ((if ended then first.lineNotes else []) ++
    (if any then second.allNotes ++ [.parameters] else []) ++
    (if again then third.lineNotes else []) ++ Expr.bodyOf .statement inner)

def lambda (readers : Readers) : Reader Unit := do
  advance readers 2
  let c ← get
  match c.text with
  | '\x7b' :: _ => pure ()
  | '(' :: _ =>
    advance readers 1
    readers.parameters .paren
  | _ =>
    if nameAhead c.text == Keyword.do_.spelling then pure () else readers.parameters .lambda
  let c ← get
  match c.text with
  | '\x7b' :: _ =>
    advance readers 1
    let _ ← braceBlock readers
  | _ =>
    takeKeyword readers .do_
    let _ ← doBlock readers

end FactoryRoster.Source.Rules
