import FactoryRoster.Source.Rules.Access

/-!
# Rules of constructs

The constructs that end with `end`: conditions, loops, cases, definitions, classes and modules. Of a
definition, a class or a module the body is kept, of a `begin` its statements, and of anything else
only its kind.
-/

namespace FactoryRoster.Source.Rules

/-- A statement that some words may follow, as the condition or the value of a construct. -/
def header (readers : Readers) (follow : List Keyword) : Reader Unit := do
  let t ← readers.statement follow false
  if t.form == .targets then failure else pure ()

/-- Statements up to an `end`, with that `end`. -/
def untilEnd (readers : Readers) : Reader Unit := do
  let _ ← readers.statements .onlyEnd
  takeKeyword readers .end_

/-- The last branch of a construct after its `else`, with the `end`. -/
def elseBranch (readers : Readers) : Reader Unit := do
  advance readers 4
  let _ ← takeTerminator readers
  untilEnd readers

/-- A condition with its branches, after a word of `n` characters. -/
def condition (readers : Readers) (n : Nat) : Reader Unit := do
  advance readers n
  header readers [.then_]
  takeHeaderEnd readers
  let _ ← readers.statements .branch
  readers.branches

def branches (readers : Readers) : Reader Unit := do
  let c ← get
  match Keyword.ofName? (nameAhead c.text) with
  | some .end_ => advance readers 3
  | some .else_ => elseBranch readers
  | some .elsif => condition readers 5
  | _ => failure

/-- The body of a loop: `do` or the end of the line, statements, and `end`. -/
def loopBody (readers : Readers) : Reader Unit := do
  let ended ← takeTerminator readers
  if ended then untilEnd readers
  else
    takeKeyword readers .do_
    untilEnd readers

/-- A loop with a condition, which begins with a word of five characters. -/
def conditionalLoop (readers : Readers) : Reader Unit := do
  advance readers 5
  header readers [.do_]
  loopBody readers

def elementLoop (readers : Readers) : Reader Unit := do
  advance readers 3
  readers.targets { wrapped := true, follow := [.in_] }
  takeKeyword readers .in_
  let _ ← value readers { follow := [.do_] } 0 false
  loopBody readers

def armSetting : Setting :=
  { comma := true, follow := [.then_] }

/-- Patterns of an arm, each a value or a splat. -/
def armPatterns (readers : Readers) : Reader Unit := do
  let c ← get
  match c.text with
  | '*' :: _ =>
    let _ ← splat readers armSetting
  | _ =>
    let _ ← value readers armSetting 0 false
  let c ← get
  match armSetting.ahead c with
  | ',' :: _ =>
    advance readers 1
    readers.armPatterns
  | _ => pure ()

def arms (readers : Readers) : Reader Unit := do
  let c ← get
  match Keyword.ofName? (nameAhead c.text) with
  | some .end_ => advance readers 3
  | some .else_ => elseBranch readers
  | some .when_ =>
    advance readers 4
    readers.armPatterns
    takeHeaderEnd readers
    let _ ← readers.statements .arm
    readers.arms
  | _ => failure

def branchSetting : Setting :=
  { follow := [.then_, .if_, .unless_] }

/-- The guard of a pattern, if it has one. -/
def guarded (readers : Readers) : Reader Unit := do
  let c ← get
  if branchSetting.hasKeyword c .if_ then guard 2
  else if branchSetting.hasKeyword c .unless_ then guard 6
  else pure ()
where
  /-- The condition after a word of `n` characters. -/
  guard (n : Nat) : Reader Unit := do
    advance readers n
    let _ ← readers.expression { follow := [.then_] }

/-- The branches of a pattern match. -/
def matchArms (readers : Readers) : Reader Unit := do
  let c ← get
  match Keyword.ofName? (nameAhead c.text) with
  | some .end_ => advance readers 3
  | some .else_ => elseBranch readers
  | some .in_ =>
    advance readers 2
    readers.patterns branchSetting
    guarded readers
    takeHeaderEnd readers
    let _ ← readers.statements .clause
    readers.matchArms
  | _ => failure

/-- Whether a case without a value goes on at a place. -/
def isBareCase (c : Cursor) : Bool :=
  c.broken || c.text.head? == some ';' ||
    match keywordAhead? c.text with
    | some k => k == .when_ || k == .else_ || k == .end_
    | none => false

/-- A case: a match on values, or on patterns. -/
def caseOf (readers : Readers) : Reader Expr := do
  advance readers 4
  let c ← get
  let bare := isBareCase c
  if bare then pure () else header readers [.when_, .in_, .else_, .end_]
  let _ ← takeTerminator readers
  let c ← get
  if !bare && nameAhead c.text == Keyword.in_.spelling then
    readers.matchArms
    pure (.other "case_match")
  else
    readers.arms
    pure (.other "case")

/-- A body after a construct's first line, which may have ended with a terminator. -/
def openBody (readers : Readers) : Reader (List Expr) := do
  let _ ← takeTerminator readers
  body readers

/-- The value of a method that is defined without a body, after its equals sign. -/
def shortBody (readers : Readers) (s : Setting) : Reader Unit := do
  advance readers 1
  let _ ← value readers (s.assigned false) 0 false
  let c ← get
  if s.hasKeyword c .rescue then
    advance readers 6
    let _ ← value readers s.inner 0 false

/-- The parameters and the body of a method: the statements of the body, if it has an `end`. -/
def signature (readers : Readers) (s : Setting) : Reader (List Expr) := do
  let c ← get
  match Setting.ahead {} c with
  | [] => openBody readers
  | ';' :: _ => openBody readers
  | '=' :: _ => short
  | '(' :: _ =>
    advance readers 1
    readers.parameters .paren
    let c ← get
    match Setting.ahead {} c with
    | '=' :: _ => short
    | _ => openBody readers
  | _ =>
    readers.parameters .line
    if ← takeTerminator readers then body readers else failure
where
  short : Reader (List Expr) := do
    shortBody readers s
    pure []

/-- What a method is defined on. -/
inductive Owner where
  /-- An object, with the dot after it. -/
  | object
  /-- Nothing, so that a name follows. -/
  | none_
  deriving DecidableEq

/-- Whether a text begins with a dot or with two colons. -/
def isOwnerSign (text : List Char) : Bool :=
  match text with
  | '.' :: _ => true
  | ':' :: ':' :: _ => true
  | _ => false

/-- Takes the dot or the two colons after an object. -/
def takeOwnerSign (readers : Readers) : Reader Unit := do
  let c ← get
  if isOwnerSign c.text then advance readers (if c.text.head? == some '.' then 1 else 2)
  else failure

/-- The object on which a method is defined, if there is one. -/
def owner (readers : Readers) : Reader Owner := do
  let c ← get
  match c.text, variableAhead? c.text with
  | '(' :: _, _ =>
    advance readers 1
    let _ ← value readers { wrapped := true } 0 false
    takeChar readers ')'
    takeOwnerSign readers
    pure .object
  | _, some (_, n) => named c n
  | first :: _, none =>
    let word := wordAhead c.text
    if !isNameStart first || isMarked word then pure .none_
    else if word == Keyword.self.spelling || word == Keyword.super.spelling then
      advance readers word.length
      takeOwnerSign readers
      pure .object
    else named c word.length
  | [], none => failure
where
  /-- A name of `n` characters at the place `c`, if it is an object. -/
  named (c : Cursor) (n : Nat) : Reader Owner := do
    advance readers n
    let after ← get
    match Setting.ahead {} after with
    | '.' :: '.' :: _ => isName c
    | text =>
      if isOwnerSign text then
        takeOwnerSign readers
        pure .object
      else isName c
  /-- What stands at the place `c` is the name of the method. -/
  isName (c : Cursor) : Reader Owner := do
    set c
    pure .none_

/-- A definition of a method. -/
def definition (readers : Readers) (s : Setting) : Reader Expr := do
  advance readers 3
  let o ← owner readers
  takeMethodName readers false
  let inner ← signature readers s
  let kind := if o == .object then "singleton_method" else "method"
  pure (.node kind (Expr.bodyOf .statement inner))

/-- The further constants of a path, each after two colons that stand directly after the one
before. -/
def scopePath (readers : Readers) : Nat → Reader Unit
  | 0 => failure
  | fuel + 1 => do
    let c ← get
    match c.spaced, c.text with
    | false, ':' :: ':' :: _ =>
      advance readers 2
      let c ← get
      let name := nameAhead c.text
      if isConstant name then
        advance readers name.length
        scopePath readers fuel
      else failure
    | _, _ => pure ()

/-- Whether the constants of a path are followed by a call, an index or a block after `do`. -/
def leavesPath (c : Cursor) : Bool :=
  match c.spaced, Setting.ahead {} c with
  | _, '.' :: _ => true
  | _, '&' :: '.' :: _ => true
  | false, '(' :: _ => true
  | false, '[' :: _ => true
  | _, _ => Setting.hasKeyword {} c .do_

/-- The name of a class or module: a constant, or a constant in what any operand denotes. -/
def takeConstant (readers : Readers) : Reader Unit := do
  let c ← get
  let name := wordAhead c.text
  if isConstant name && !isMarked name then
    advance readers name.length
    scopePath readers (c.text.length + 1)
    let after ← get
    if leavesPath after then
      set c
      operand
    else pure ()
  else operand
where
  /-- An operand that is a constant. -/
  operand : Reader Unit := do
    let t ← readers.operand {} tightest false
    match t.form, t.expr with
    | .place, .name name => if isConstant name then pure () else failure
    | .place, .other kind => if kind == "scope_resolution" then pure () else failure
    | _, _ => failure

/-- A class: the class of one object, or a named one with or without a superclass. -/
def classOf (readers : Readers) : Reader Expr := do
  advance readers 5
  let c ← get
  match c.text with
  | '<' :: '<' :: _ =>
    advance readers 2
    let _ ← value readers {} 0 false
    let inner ← closedBody
    pure (.node "singleton_class" (Expr.bodyOf .statement inner))
  | _ =>
    takeConstant readers
    let c ← get
    match announcesDocument c.text, Setting.ahead {} c with
    | false, '<' :: _ =>
      advance readers 1
      let _ ← readers.expression {}
      let inner ← closedBody
      pure (.node "class" (Expr.bodyOf .statement inner))
    | _, _ =>
      let inner ← openBody readers
      pure (.node "class" (Expr.bodyOf .statement inner))
where
  /-- A body after a terminator. -/
  closedBody : Reader (List Expr) := do
    if ← takeTerminator readers then body readers else failure

/-- A module. -/
def moduleOf (readers : Readers) : Reader Expr := do
  advance readers 6
  takeConstant readers
  let inner ← openBody readers
  pure (.node "module" (Expr.bodyOf .statement inner))

/-- The construct that a reserved word begins, if it begins one. -/
def construct? (readers : Readers) (s : Setting) : Keyword → Option (Reader Expr)
  | .if_ => some (kept "if" (condition readers 2))
  | .unless_ => some (kept "unless" (condition readers 6))
  | .while_ => some (kept "while" (conditionalLoop readers))
  | .until_ => some (kept "until" (conditionalLoop readers))
  | .for_ => some (kept "for" (elementLoop readers))
  | .case_ => some (caseOf readers)
  | .begin_ => some (do
      advance readers 5
      let inner ← openBody readers
      pure (.node "begin" inner))
  | .def_ => some (definition readers s)
  | .class_ => some (classOf readers)
  | .module_ => some (moduleOf readers)
  | _ => none
where
  /-- A construct of which only the kind is kept. -/
  kept (kind : String) (p : Reader Unit) : Reader Expr := do
    p
    pure (.other kind)

end FactoryRoster.Source.Rules
