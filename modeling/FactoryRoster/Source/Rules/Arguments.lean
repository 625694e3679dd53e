import FactoryRoster.Source.Rules.Blocks

/-!
# Rules of arguments

Arguments with and without parentheses, the entries of hashes, and the braces after a name, which
may hold a block or a hash.
-/

namespace FactoryRoster.Source.Rules

/-- The arguments of a call without parentheses. Notes between them are among them. -/
def arguments (readers : Readers) (s : Setting) : Reader (List Expr) := do
  let first ← readers.argument s
  let c ← get
  match s.ahead c with
  | ',' :: _ =>
    advance readers 1
    let after ← get
    let more ← readers.arguments s
    pure (first :: (c.allNotes ++ after.allNotes ++ more))
  | _ => pure [first]

/-- The items up to a closing bracket, with the notes among them. A comma may follow the last. -/
def listed (readers : Readers) (closer : Char) : Reader (List Expr) := do
  let before ← get
  if before.text.head? == some closer then
    advance readers 1
    pure before.allNotes
  else
    let item ← readers.argument .listed
    let after ← get
    match after.text with
    | ',' :: _ =>
      advance readers 1
      let more ← readers.listed closer
      pure (before.allNotes ++ item :: (after.allNotes ++ more))
    | _ =>
      takeChar readers closer
      pure (before.allNotes ++ item :: after.allNotes)

/-- The value of a pair after its key. -/
def pairValue (readers : Readers) (s : Setting) : Reader Expr := do
  let _ ← value readers s 0 false
  pure (.other "pair")

/-- A pair whose key with its colon is `n` characters long. The value may be left out; the end of a
line does not end the pair before it. -/
def labelled (readers : Readers) (s : Setting) (n : Nat) : Reader Expr := do
  advance readers n
  modify Cursor.joined
  let c ← get
  if s.beginsValue c.text then pairValue readers s else pure (.other "pair")

/-- An argument after a sign of `n` characters; what the sign is put before may be left out. -/
def signed (readers : Readers) (s : Setting) (n : Nat) (kind : String) : Reader Expr := do
  advance readers n
  let c ← get
  if s.beginsValue (s.ahead c) then
    let _ ← value readers s 0 false
  pure (.other kind)

/-- An argument that begins with the operand `t`: the key of a pair, or an expression. -/
def argumentFrom (readers : Readers) (s : Setting) (t : Term) : Reader Expr := do
  let c ← get
  match t.form == .string && isKeyColon c, s.ahead c with
  | true, _ =>
    advance readers 1
    pairValue readers s
  | false, '=' :: '>' :: _ =>
    if t.form.isOperand then
      advance readers 2
      if ← arrow readers s.joined s goesOn then pure (.other "pair")
      else joined ⟨.other "match_pattern", .complete⟩
    else pure t.expr
  | false, _ =>
    let t ← matched readers s.joined t
    joined t
where
  /-- An expression, with what it is joined to. -/
  joined (t : Term) : Reader Expr := do
    if s.joins then
      let t ← readers.joins s.joined t
      pure t.expr
    else pure t.expr
  /-- Whether a pattern goes on here, where a pair could not: with a name, or with what the
  expression is joined to. -/
  goesOn (c : Cursor) : Bool :=
    match s.ahead c with
    | '=' :: '>' :: _ => true
    | _ => s.joins && (s.hasKeyword c .and_ || s.hasKeyword c .or_)

/-- One argument: an expression, a pair, a splat, a block that is passed on, or all arguments passed
on. -/
def argument (readers : Readers) (s : Setting) : Reader Expr := do
  let c ← get
  match keyLength? true c.text, c.text with
  | some n, _ => labelled readers s n
  | none, '*' :: '*' :: _ => signed readers s 2 "hash_splat_argument"
  | none, '*' :: _ =>
    if isTargetStar readers s c then expression else splat readers s
  | none, '&' :: rest =>
    if passesBlock rest then signed readers s 1 "block_argument" else failure
  | none, '.' :: '.' :: '.' :: _ =>
    advance readers 3
    let after ← get
    if s.beginsValue (s.ahead after) then
      set c
      expression
    else pure (.other "forward_argument")
  | none, _ => expression
where
  /-- An expression, or a pair with an arrow. -/
  expression : Reader Expr := do
    let t ← value readers s.joined 0 true
    argumentFrom readers s t

/-- The entries of a hash after its first one, with the closing brace. -/
def moreEntries (readers : Readers) : Reader Unit := do
  let c ← get
  match c.text with
  | ',' :: _ =>
    advance readers 1
    readers.entries
  | _ => takeChar readers '\x7d'

/-- The entries of a hash: pairs and splats. A comma may follow the last one. -/
def entries (readers : Readers) : Reader Unit := do
  let c ← get
  match keyLength? false c.text, c.text with
  | _, '\x7d' :: _ => advance readers 1
  | some n, _ =>
    let _ ← labelled readers .listed n
    moreEntries readers
  | none, '*' :: '*' :: _ =>
    let _ ← signed readers .listed 2 "hash_splat_argument"
    moreEntries readers
  | none, _ =>
    let t ← value readers { wrapped := true } 0 false
    let c ← get
    match t.form == .string && isKeyColon c, c.text with
    | true, _ => entry 1
    | false, '=' :: '>' :: _ => entry 2
    | false, _ => failure
where
  /-- The value of an entry after a sign of `n` characters, and the further entries. -/
  entry (n : Nat) : Reader Unit := do
    advance readers n
    let _ ← value readers .listed 0 false
    moreEntries readers

/-- A hash. -/
def hash (readers : Readers) : Reader Term := do
  advance readers 1
  readers.entries
  pure (.ofKind "hash")

/-- What braces after a name hold. -/
inductive Braces where
  | block (children : List Expr)
  | hash

/-- Whether the empty braces before a place are a hash: another argument or a block follows. -/
def isEmptyHash (s : Setting) (c : Cursor) : Bool :=
  match s.ahead c with
  | ',' :: _ => !s.comma
  | '\x7b' :: _ => !s.brace
  | _ => s.hasKeyword c .do_ && !s.follow.contains .do_

/-- The braces after a name that may take arguments: a block, or a hash as the first argument. They
are a hash if an entry of one comes first. -/
def braces (readers : Readers) (s : Setting) : Reader Braces := do
  advance readers 1
  let c ← get
  match keyLength? true c.text, c.text with
  | _, '\x7d' :: _ =>
    advance readers 1
    let after ← get
    pure (if isEmptyHash s after then .hash else .block c.allNotes)
  | some _, _ => rest
  | none, '*' :: '*' :: _ => rest
  | none, '|' :: _ => block
  | none, ';' :: _ => block
  | none, _ =>
    let t ← readers.statement [] true
    match t.form with
    | .pair =>
      moreEntries readers
      pure .hash
    | .targets => failure
    | _ =>
      let inner ← readers.following (.closer '\x7d')
      let last ← get
      takeChar readers '\x7d'
      pure (.block (c.allNotes ++ Expr.bodyOf .block (t.expr :: inner) ++ last.allNotes))
where
  rest : Reader Braces := do
    readers.entries
    pure .hash
  block : Reader Braces := do
    let children ← braceBlock readers
    pure (.block children)

end FactoryRoster.Source.Rules
