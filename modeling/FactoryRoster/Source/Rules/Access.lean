import FactoryRoster.Source.Rules.Arguments

/-!
# Rules of calls

What may follow the name of a method, and what may follow an operand: the call of a method, or an
index.
-/

namespace FactoryRoster.Source.Rules

/-- A name that may be called: the call that it makes, and what it is without arguments. -/
structure Callee where
  receiver : Option Expr
  method : List Char
  bare : Term
  /-- It is a constant in another one, which takes no block that could belong to a name before. -/
  path : Bool := false

namespace Callee

/-- The call with some arguments and a block. -/
def call (callee : Callee) (arguments : List Expr) (block : Option (List Expr)) : Expr :=
  .call callee.receiver (some callee.method) arguments block

/-- The method `name` of a receiver. -/
def member (receiver : Expr) (name : List Char) : Callee :=
  { receiver := some receiver
    method := name
    bare := ⟨.call (some receiver) (some name) [] none, .place⟩ }

end Callee

def attachedBlock (readers : Readers) (s : Setting) : Reader (Option (List Expr)) := do
  let c ← get
  match s.ahead c with
  | '\x7b' :: _ =>
    advance readers 1
    let block ← braceBlock readers
    pure (some block)
  | _ =>
    if s.hasKeyword c .do_ && !s.follow.contains .do_ then
      advance readers 2
      let block ← doBlock readers
      pure (some block)
    else pure none

/-- A call whose arguments without parentheses have been read, with its block. -/
def command (readers : Readers) (s : Setting) (callee : Callee) (arguments : List Expr) :
    Reader Term := do
  let block ← attachedBlock readers s
  pure ⟨callee.call arguments block, if block.isSome then .chain else .complete⟩

/-- A call whose first argument without parentheses is a hash that has been read. -/
def commandWithHash (readers : Readers) (s : Setting) (callee : Callee) : Reader Term := do
  let t ← readers.continued s.argument.joined 0 true (.ofKind "hash")
  let first ← argumentFrom readers s.argument t
  let c ← get
  match s.ahead c with
  | ',' :: _ =>
    advance readers 1
    let after ← get
    let more ← readers.arguments s.argument
    command readers s callee (first :: (c.allNotes ++ after.allNotes ++ more))
  | _ => command readers s callee [first]

/-- What begins with the name of a method: a call with its arguments and its block, or, where
neither follows, the bare name. -/
def named (readers : Readers) (s : Setting) (commands : Bool) (callee : Callee) : Reader Term := do
  let c ← get
  match c.spaced, c.text with
  | false, '(' :: _ =>
    advance readers 1
    let arguments ← readers.listed ')'
    let block ← attachedBlock readers s
    pure ⟨callee.call arguments block, .value⟩
  | _, _ =>
    if commands && s.beginsArgument c then
      if s.misplacesBlock c then failure
      else
        let arguments ← readers.arguments s.argument
        command readers s callee arguments
    else
      match s.ahead c with
      | '\x7b' :: _ =>
        if callee.path && s.brace then pure callee.bare
        else if commands then
          match ← braces readers s with
          | .block children => pure ⟨callee.call [] (some children), .value⟩
          | .hash => commandWithHash readers s callee
        else
          let block ← attachedBlock readers s
          pure ⟨callee.call [] block, .value⟩
      | _ =>
        let block ← attachedBlock readers s
        match block with
        | some children => pure ⟨callee.call [] (some children), .value⟩
        | none => pure callee.bare

/-- Arguments in parentheses directly after the dot of a receiver: a call of no named method. -/
def unnamedCall (readers : Readers) (s : Setting) (receiver : Expr) : Reader Term := do
  advance readers 1
  let arguments ← readers.listed ')'
  let block ← attachedBlock readers s
  pure ⟨.call (some receiver) none arguments block, .value⟩

/-- What a dot of `n` characters and the name of a method after it make of a receiver. -/
def member (readers : Readers) (s : Setting) (commands : Bool) (receiver : Expr) (n : Nat) :
    Reader Term := do
  advance readers n
  let c ← get
  match c.spaced, c.text, methodNameAhead? c.text with
  | false, '(' :: _, _ => unnamedCall readers s receiver
  | _, _, some name =>
    advance readers name.length
    named readers s commands (.member receiver name)
  | _, _, none => failure

/-- What two colons and a name after them make of a receiver: a constant in it, or a call. -/
def inScope (readers : Readers) (s : Setting) (commands : Bool) (receiver : Expr) :
    Reader Term := do
  advance readers 2
  let c ← get
  match c.spaced, c.text, methodNameAhead? c.text with
  | false, '(' :: _, _ => unnamedCall readers s receiver
  | _, _, some name =>
    advance readers name.length
    if isConstant name && !isMarked name then
      named readers s commands
        { receiver := some receiver
          method := name
          bare := ⟨.other "scope_resolution", .place⟩
          path := true }
    else named readers s commands (.member receiver name)
  | _, _, none => failure

/-- The index of an operand, which may have a block. -/
def index (readers : Readers) (s : Setting) : Reader Term := do
  advance readers 1
  let _ ← readers.listed ']'
  let c ← get
  match s.brace, s.ahead c with
  | true, '\x7b' :: _ => pure ()
  | _, _ =>
    let _ ← attachedBlock readers s
  pure ⟨.other "element_reference", .place⟩

/-- A method that is called on a call with a block and without parentheses. Its arguments need no
parentheses either. -/
def chained (readers : Readers) (s : Setting) (receiver : Expr) (n : Nat) : Reader Term := do
  advance readers n
  let c ← get
  match methodNameAhead? c.text with
  | some name =>
    let callee := Callee.member receiver name
    advance readers name.length
    let c ← get
    if s.misplacesBlock c then failure
    else if s.beginsChained c then
      let arguments ← readers.arguments s.argument
      command readers s callee arguments
    else pure ⟨callee.bare.expr, .complete⟩
  | none => failure

/-- The continuation of a row of strings, if another string follows. -/
def nextString? (s : Setting) (c : Cursor) : Option (Outline × Nat) :=
  stringOutline? true (s.ahead c)

/-- Whether a here document is announced after a string, where none may be. -/
def announcesDocument (text : List Char) : Bool :=
  match text with
  | '<' :: '<' :: rest => (documentAhead? rest).isSome
  | _ => false

/-- The continuation of an operand by calls, indices and, for a string, further strings. -/
def access (readers : Readers) (s : Setting) (commands : Bool) (left : Term) : Reader Term := do
  let c ← get
  match left.form with
  | .string => afterString c
  | .strings => afterString c
  | .place => afterOperand c
  | .value => afterOperand c
  | .chain => afterCommand c
  | _ => pure left
where
  /-- Goes on after another term. -/
  goOn (p : Reader Term) : Reader Term := do
    let t ← p
    readers.access s commands t
  /-- The continuation of any operand. -/
  afterOperand (c : Cursor) : Reader Term :=
    match c.spaced, s.ahead c with
    | _, '.' :: '.' :: _ => pure left
    | _, '.' :: _ => goOn (member readers s commands left.expr 1)
    | _, '&' :: '.' :: _ => goOn (member readers s commands left.expr 2)
    | false, ':' :: ':' :: _ => goOn (inScope readers s commands left.expr)
    | _, '[' :: _ => goOn (index readers s)
    | _, _ => pure left
  /-- The continuation of a string. -/
  afterString (c : Cursor) : Reader Term :=
    match nextString? s c with
    | some (outline, n) => goOn (do
        let _ ← literal readers outline n
        pure ⟨.other "chained_string", .strings⟩)
    | none =>
      match c.spaced, s.ahead c with
      | true, '[' :: _ => pure left
      | _, text => if announcesDocument text then failure else afterOperand c
  /-- The continuation of a call without parentheses and with a block. -/
  afterCommand (c : Cursor) : Reader Term :=
    match c.spaced, s.ahead c with
    | _, '.' :: _ => goOn (chained readers s left.expr 1)
    | _, '&' :: '.' :: _ => goOn (chained readers s left.expr 2)
    | false, ':' :: ':' :: _ => goOn (chained readers s left.expr 2)
    | _, _ => pure left

end FactoryRoster.Source.Rules
