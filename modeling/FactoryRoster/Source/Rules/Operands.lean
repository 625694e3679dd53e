import FactoryRoster.Source.Rules.Constructs

/-!
# Rules of operands

Operands, from names and literals to what prefix and infix operators make of them, and assignments.
-/

namespace FactoryRoster.Source.Rules

/-- Parentheses, with statements or with a list of targets between them. -/
def parenthesized (readers : Readers) : Reader Term := do
  advance readers 1
  let c ← get
  if c.text.head? == some ')' || c.text.head? == some ';' then statements
  else
    let t ← readers.statement [] false
    if t.form == .targets then
      takeChar readers ')'
      pure t
    else
      let _ ← readers.following (.closer ')')
      takeChar readers ')'
      pure (.ofKind "parenthesized_statements")
where
  statements : Reader Term := do
    let _ ← readers.statements (.closer ')')
    takeChar readers ')'
    pure (.ofKind "parenthesized_statements")

/-- Passes over a number. -/
def takeNumber (readers : Readers) : Reader NumberKind := do
  let c ← get
  match c.text with
  | d :: _ =>
    if d.isDigit then
      let (kind, n) := numberAhead c.text
      advance readers n
      pure kind
    else failure
  | [] => failure

/-- A word such as `return`, with the values that it hands on. -/
def handing (readers : Readers) (s : Setting) (commands : Bool) (k : Keyword) (kind : String) :
    Reader Term := do
  advance readers k.spelling.length
  let c ← get
  match c.spaced, c.text with
  | false, '(' :: _ =>
    advance readers 1
    let _ ← readers.listed ')'
    pure (.ofKind kind)
  | _, _ =>
    if commands && s.beginsHanded c then
      if s.misplacesBlock c then failure
      else
        let _ ← readers.arguments s.handed
        pure ⟨.other kind, .complete⟩
    else pure (.ofKind kind)

/-- A word such as `redo`, which may have values in parentheses. -/
def repeating (readers : Readers) (s : Setting) (k : Keyword) (kind : String) : Reader Term :=
  handing readers s false k kind

/-- A name: a local variable, a constant or a call. -/
def nameOrCall (readers : Readers) (s : Setting) (commands : Bool) (word : List Char) :
    Reader Term := do
  advance readers word.length
  let bare : Term :=
    if isMarked word then ⟨.call none (some word) [] none, .value⟩ else ⟨.name word, .place⟩
  named readers s commands { receiver := none, method := word, bare }

/-- A variable of which only the kind is kept; it may be called like a method. -/
def calledVariable (readers : Readers) (s : Setting) (commands : Bool) (name : List Char)
    (kind : String) : Reader Term := do
  advance readers name.length
  named readers s commands { receiver := none, method := name, bare := ⟨.other kind, .place⟩ }

/-- What begins with a word: a reserved word with its construct, or a name. -/
def wordOperand (readers : Readers) (s : Setting) (commands : Bool) (word : List Char) :
    Reader Term :=
  match Keyword.ofName? word with
  | none => nameOrCall readers s commands word
  | some k =>
    match construct? readers s k with
    | some p => do
      let e ← p
      pure ⟨e, .value⟩
    | none =>
      match k with
      | .nil => constant "nil"
      | .true_ => constant "true"
      | .false_ => constant "false"
      | .self => calledVariable readers s commands word "self"
      | .super => calledVariable readers s commands word "super"
      | .return_ => handing readers s commands k "return"
      | .yield => handing readers s commands k "yield"
      | .break_ => handing readers s commands k "break"
      | .next => handing readers s commands k "next"
      | .redo => repeating readers s k "redo"
      | .retry => repeating readers s k "retry"
      | _ => nameOrCall readers s commands word
where
  /-- A word that stands for a value. -/
  constant (kind : String) : Reader Term := do
    advance readers word.length
    pure ⟨.other kind, .place⟩

/-- A literal without delimiters: a number, a character, a symbol or the announcement of a here
document. Two colons before a constant make it a name of the outermost scope. -/
def plainLiteral (readers : Readers) : Reader Term := do
  let c ← get
  match c.text with
  | ':' :: ':' :: _ =>
    advance readers 2
    let c ← get
    let name := nameAhead c.text
    if isConstant name then
      advance readers name.length
      pure ⟨.name name, .place⟩
    else failure
  | ':' :: rest =>
    match symbolLength? rest with
    | some n =>
      advance readers (n + 1)
      pure ⟨.string (rest.take n), .value⟩
    | none => failure
  | '<' :: '<' :: rest =>
    match documentAhead? rest with
    | some (d, n) =>
      set { c with documents := c.documents ++ [d] }
      advance readers (n + 2)
      pure (.ofKind "heredoc_beginning")
    | none => failure
  | '?' :: rest =>
    match characterLength? rest with
    | some n =>
      advance readers (n + 1)
      pure (.ofKind "character")
    | none => failure
  | _ =>
    let kind ← takeNumber readers
    pure (.ofKind kind.name)

/-- An operand without operators, calls and indices. -/
def primary (readers : Readers) (s : Setting) (commands : Bool) : Reader Term := do
  let c ← get
  match c.text with
  | [] => failure
  | first :: _ =>
    if isNameStart first then wordOperand readers s commands (wordAhead c.text)
    else
      match outlineAhead? c.text, variableAhead? c.text with
      | some (outline, n), _ =>
        let e ← literal readers outline n
        pure ⟨e, if outline.kind == .string then .string else .value⟩
      | none, some (sigil, n) => calledVariable readers s commands (c.text.take n) sigil.name
      | none, none =>
        match first with
        | '(' => parenthesized readers
        | '[' =>
          advance readers 1
          let _ ← readers.listed ']'
          pure (.ofKind "array")
        | '\x7b' => hash readers
        | '-' =>
          readers.lambda
          pure (.ofKind "lambda")
        | _ => plainLiteral readers

def continued (readers : Readers) (s : Setting) (level : Nat) (commands : Bool) (left : Term) :
    Reader Term := do
  let t ← readers.access s commands left
  if level < tightest then readers.operators s level commands t else pure t

/-- The value after an operator or a sign of assignment: an operand, or, where commands are allowed,
any expression without `and` and `or`. -/
def widest (readers : Readers) (s : Setting) (level : Nat) (commands : Bool) : Reader Term :=
  if commands then readers.unjoined s level else value readers s level false

/-- An operand after a prefix operator of `n` characters that binds with the given strength. Where
commands are allowed, what follows may be any expression. -/
def prefixed (readers : Readers) (s : Setting) (level : Nat) (commands : Bool) (n strength : Nat) :
    Reader Term := do
  advance readers n
  let t ← widest readers s.inner strength commands
  if t.form == .complete || t.form == .chain then pure ⟨.other "unary", .complete⟩
  else readers.operators s level commands (.ofKind "unary")

/-- A word before an operand that binds with the given strength. Before parentheses it makes a value
with them alone. -/
def prefixedByWord (readers : Readers) (s : Setting) (level : Nat) (commands : Bool) (k : Keyword)
    (strength : Nat) : Reader Term := do
  let c ← get
  advance readers k.spelling.length
  let after ← get
  if after.text.head? == some '(' then
    let t ← parenthesized readers
    if t.form == .targets then whole c else continued readers s level commands (.ofKind "unary")
  else whole c
where
  /-- The word at the place `c` before any operand. -/
  whole (c : Cursor) : Reader Term := do
    set c
    prefixed readers s level commands k.spelling.length strength

/-- A number after a minus sign. A power binds more tightly than the sign. -/
def negative (readers : Readers) (s : Setting) (level : Nat) (commands : Bool) : Reader Term := do
  let c ← get
  advance readers (1 + (numberAhead (c.text.drop 1)).2)
  let after ← get
  match s.ahead after with
  | '*' :: '*' :: '=' :: _ => failure
  | '*' :: '*' :: _ =>
    advance readers 2
    let _ ← value readers s.inner 80 false
    readers.operators s level commands (.ofKind "unary")
  | _ => continued readers s level commands (.ofKind "unary")

/-- What follows a plus sign: with a number it is a value. -/
def positive (readers : Readers) (s : Setting) (level : Nat) (commands : Bool) : Reader Term := do
  let c ← get
  advance readers 1
  let after ← get
  match after.text with
  | d :: _ =>
    if d.isDigit then
      let _ ← takeNumber readers
      continued readers s level commands (.ofKind "unary")
    else
      set c
      prefixed readers s level false 1 75
  | [] => failure

/-- An operand whose operators bind at least as tightly as `level`. -/
def operand (readers : Readers) (s : Setting) (level : Nat) (commands : Bool) : Reader Term := do
  let c ← get
  match c.text with
  | '-' :: '>' :: _ => plain
  | '-' :: '=' :: _ => failure
  | '-' :: d :: _ =>
    if d.isDigit then negative readers s level commands
    else prefixed readers s level false 1 75
  | '+' :: _ => positive readers s level commands
  | '!' :: _ => prefixed readers s level commands 1 85
  | '~' :: _ => prefixed readers s level false 1 85
  | '*' :: _ =>
    readers.targets s.assigning
    readers.operators s level commands ⟨.other "left_assignment_list", .targets⟩
  | '.' :: '.' :: rest =>
    advance readers (if rest.head? == some '.' then 3 else 2)
    let _ ← value readers s.inner 25 false
    readers.operators s level commands (.ofKind "range")
  | _ =>
    match keywordAhead? c.text with
    | some .not_ => prefixedByWord readers s level commands .not_ 5
    | some .defined => prefixedByWord readers s level commands .defined 10
    | _ => plain
where
  /-- An operand without a prefix operator. -/
  plain : Reader Term := do
    let t ← primary readers s commands
    continued readers s level commands t

/-- The two branches of a conditional after its question mark. -/
def alternatives (readers : Readers) (s : Setting) : Reader Unit := do
  let _ ← value readers { wrapped := true } 0 false
  takeChar readers ':'
  let _ ← value readers s.inner 20 false

/-- What an operator and the operand after it make of the operand before it. -/
def operation (readers : Readers) (s : Setting) (op : Operator) : Reader Term := do
  advance readers op.spelling.length
  match op.kind with
  | .binary =>
    let _ ← value readers s.inner (if op.rightward then op.strength else op.strength + 1) false
    pure (.ofKind "binary")
  | .range =>
    let c ← get
    if s.beginsEnd c then
      let _ ← value readers s.inner op.strength false
    pure (.ofKind "range")
  | .conditional =>
    alternatives readers s
    pure (.ofKind "conditional")

/-- A splat among assigned values; what is splat may be left out. -/
def assignedSplat (readers : Readers) (s : Setting) : Reader Unit := do
  let c ← get
  advance readers 1
  let after ← get
  match c.text.tail with
  | '=' :: _ => failure
  | '*' :: _ => failure
  | _ =>
    if s.beginsAssignedSplat after then
      let _ ← value readers s 0 false

/-- Assigned values: a value or a splat, and further ones after commas. -/
def values (readers : Readers) (s : Setting) : Reader Unit := do
  let c ← get
  match isTargetStar readers s c, c.text with
  | false, '*' :: _ => assignedSplat readers (s.assigned true)
  | _, _ =>
    let _ ← value readers (s.assigned true) 0 false
  let c ← get
  match s.ahead c with
  | ',' :: _ =>
    advance readers 1
    readers.values s
  | _ => pure ()

/-- What is assigned by a sign of `n` characters: a value with what replaces it when it fails, or,
where a comma cannot follow, a list of values. -/
def assignment (readers : Readers) (s : Setting) (commands lists : Bool) (n : Nat) (kind : String) :
    Reader Term := do
  advance readers n
  let c ← get
  match lists && !isTargetStar readers s c, c.text with
  | true, '*' :: _ =>
    assignedSplat readers (s.assigned true)
    more
    pure (.ofKind kind)
  | _, _ =>
    let t ← widest readers (s.assigned lists) 0 commands
    let c ← get
    if s.hasKeyword c .rescue then
      advance readers 6
      if t.form.isOperand then
        let _ ← value readers s.inner 0 false
        pure (.ofKind kind)
      else
        let _ ← readers.unjoined s.inner 0
        pure ⟨.other kind, .complete⟩
    else if t.form.isOperand then
      if lists then more else pure ()
      pure (.ofKind kind)
    else pure ⟨.other kind, .complete⟩
where
  more : Reader Unit := do
    let c ← get
    match s.comma, s.ahead c with
    | false, ',' :: _ =>
      advance readers 1
      readers.values s
    | _, _ => pure ()

/-- One target of an assignment: a place, a list of targets in parentheses, or a star with or
without a place. -/
def target (readers : Readers) (s : Setting) : Reader Unit := do
  let c ← get
  match c.text with
  | '*' :: '=' :: _ => failure
  | '*' :: '*' :: _ => failure
  | '*' :: _ =>
    advance readers 1
    let c ← get
    if begins c.text then place else pure ()
  | _ =>
    let t ← readers.operand s tightest false
    if t.form == .place || t.form == .targets then pure () else failure
where
  /-- A place that may be assigned to. -/
  place : Reader Unit := do
    let t ← readers.operand s tightest false
    if t.form == .place then pure () else failure
  /-- Whether a place begins here. -/
  begins (text : List Char) : Bool :=
    match text with
    | [] => false
    | first :: _ =>
      if isNameStart first then beginsWord s.follow text
      else !(first == ',' || first == '=' || first == ')')

/-- The targets of an assignment, separated by commas. A comma may follow the last one. -/
def targets (readers : Readers) (s : Setting) : Reader Unit := do
  target readers s
  let c ← get
  match s.ahead c with
  | ',' :: _ =>
    advance readers 1
    let c ← get
    match c.text with
    | '=' :: _ => pure ()
    | ')' :: _ => pure ()
    | text =>
      if keywordAhead? text == some .in_ && s.follow.contains .in_ then pure ()
      else readers.targets s
  | _ => pure ()

def operators (readers : Readers) (s : Setting) (level : Nat) (commands : Bool) (left : Term) :
    Reader Term := do
  let c ← get
  match left.form with
  | .targets =>
    match c.text with
    | ',' :: _ => furtherTargets
    | '=' :: _ => assigned true 1 "assignment"
    | _ => pure left
  | .place =>
    match assigns (s.ahead c), assignmentLength? (s.ahead c), s.ahead c with
    | true, _, _ => assigned true 1 "assignment"
    | false, some n, _ => assigned false n "operator_assignment"
    | false, none, ',' :: _ => if s.comma then pure left else furtherTargets
    | false, none, _ => operation? c
  | form => if form.isOperand then operation? c else pure left
where
  /-- An assignment to what has been read. -/
  assigned (lists : Bool) (n : Nat) (kind : String) : Reader Term := do
    let t ← assignment readers s commands lists n kind
    readers.operators s level commands t
  furtherTargets : Reader Term := do
    advance readers 1
    let c ← get
    match c.text with
    | '=' :: _ => pure ()
    | ')' :: _ => pure ()
    | _ => readers.targets s.assigning
    readers.operators s level commands ⟨.other "left_assignment_list", .targets⟩
  /-- An operation, if an operator of the level follows. -/
  operation? (c : Cursor) : Reader Term :=
    match operatorAhead? (s.ahead c) with
    | none => pure left
    | some op =>
      if op.strength < level || (s.bar && level == 0 && op.spelling == ['|']) then pure left
      else do
        let t ← operation readers s op
        readers.operators s level commands t

end FactoryRoster.Source.Rules
