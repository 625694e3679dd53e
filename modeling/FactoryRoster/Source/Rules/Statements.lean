import FactoryRoster.Source.Rules.Patterns

/-!
# Rules of statements

Lists of statements with the notes between them, statements with their modifiers, expressions that
are joined by `and` and `or`, and one-line pattern matches.
-/

namespace FactoryRoster.Source.Rules

/-- Statements up to a stop. Every semicolon that ends no statement is an empty statement. The notes
before the stop are left. -/
def statements (readers : Readers) (stop : Stop) : Reader (List Expr) := do
  let c ← get
  if stop.holds (wordAhead c.text) c.text then pure []
  else
    match c.text with
    | ';' :: _ =>
      advance readers 1
      let rest ← readers.statements stop
      pure (c.allNotes ++ .other "empty_statement" :: rest)
    | _ =>
      let t ← readers.statement stop.follow false
      if t.form == .targets then failure
      else
        let rest ← readers.following stop
        pure (c.allNotes ++ t.expr :: rest)

/-- The statements after the first one: a terminator comes first, or the stop. -/
def following (readers : Readers) (stop : Stop) : Reader (List Expr) := do
  let c ← get
  if ← takeTerminator readers then
    let rest ← readers.statements stop
    pure (c.lineNotes ++ rest)
  else if stop.holds (nameAhead c.text) c.text then pure []
  else failure

/-- An operand that is no list of targets. -/
def value (readers : Readers) (s : Setting) (level : Nat) (commands : Bool) : Reader Term := do
  let t ← readers.operand s level commands
  if t.form == .targets then failure else pure t

/-- Whether the star at a place is a target of an assignment: its sign follows. -/
def isTargetStar (readers : Readers) (s : Setting) (c : Cursor) : Bool :=
  match c.text, advance readers 1 c with
  | '*' :: _, some (_, after) => assigns (s.ahead after)
  | _, _ => false

/-- A splat; what is splat may be left out. -/
def splat (readers : Readers) (s : Setting) : Reader Expr := do
  let c ← get
  if isTargetStar readers s c then
    let t ← value readers s 0 false
    pure t.expr
  else
    advance readers 1
    let after ← get
    if c.text.tail.head? == some '=' then failure
    else
      if s.beginsSplat (s.ahead after) then
        let _ ← value readers s 0 false
      pure (.other "splat_argument")

/-- Takes the name of a method in a definition, in `alias` or in `undef`. An equals sign directly
after an identifier belongs to it, unless it may begin another name. -/
def takeMethodName (readers : Readers) (another : Bool) : Reader Unit := do
  let c ← get
  match variableAhead? c.text, symbolOutline? c.text with
  | some (_, n), _ => advance readers n
  | none, some (outline, n) =>
    let _ ← literal readers outline n
  | none, none =>
    match c.text with
    | ':' :: rest =>
      match symbolLength? rest with
      | some n => advance readers (n + 1)
      | none => failure
    | _ =>
      match methodNameAhead? c.text with
      | some name =>
        let setter := isName name && !isConstant name && !isMarked name &&
          isSetter (c.text.drop name.length)
        advance readers (if setter then name.length + 1 else name.length)
      | none => failure
where
  /-- Whether the name is a word. -/
  isName (name : List Char) : Bool :=
    match name with
    | c :: _ => isNameStart c
    | [] => false
  /-- Whether an equals sign belongs to the name before `text`. -/
  isSetter (text : List Char) : Bool :=
    match text with
    | '=' :: '=' :: _ => !another
    | '=' :: '~' :: _ => !another
    | '=' :: _ => true
    | _ => false

def methodNames (readers : Readers) : Reader Unit := do
  takeMethodName readers false
  let c ← get
  match Setting.ahead {} c with
  | ',' :: _ =>
    advance readers 1
    readers.methodNames
  | _ => pure ()

/-- The statements between braces after `BEGIN` or `END`. -/
def bracedStatements (readers : Readers) : Reader Unit := do
  takeChar readers '\x7b'
  let _ ← readers.statements (.closer '\x7d')
  takeChar readers '\x7d'

/-- Whether only a pattern can begin here, and no value. -/
def beginsPattern (readers : Readers) (c : Cursor) : Bool :=
  match c.text, stringOutline? false c.text with
  | '^' :: _, _ => true
  | '*' :: '*' :: _, _ => true
  | _, some (outline, n) =>
    match literal readers outline n c with
    | some (_, after) => isKeyColon after
    | none => false
  | text, none => (keyLength? false text).isSome

/-- What follows an arrow: the value of a pair in the setting `item`, for which the answer is
`true`, or a pattern. A single value may be either, and `patternFollows` decides by what comes after
it. -/
def arrow (readers : Readers) (s item : Setting) (patternFollows : Cursor → Bool) : Reader Bool :=
  fun c =>
    if beginsPattern readers c then match_ c
    else
      match patternLeaf readers s c with
      | some (_, after) => if patternFollows after then match_ c else pair c
      | none => pair c
where
  match_ : Reader Bool := do
    readers.patterns s.matching
    pure false
  pair : Reader Bool := do
    let _ ← value readers item 0 false
    pure true

/-- An operand, with the pattern that it is matched with. -/
def matched (readers : Readers) (s : Setting) (t : Term) : Reader Term := do
  let c ← get
  match s.ahead c with
  | '=' :: '>' :: _ =>
    if t.form.isOperand then
      advance readers 2
      readers.patterns s.matching
      pure ⟨.other "match_pattern", .complete⟩
    else pure t
  | _ =>
    if t.form.isOperand && s.hasKeyword c .in_ then
      advance readers 2
      readers.patterns s.matching
      pure ⟨.other "test_pattern", .complete⟩
    else pure t

/-- An expression without `and` and `or`. -/
def unjoined (readers : Readers) (s : Setting) (level : Nat) : Reader Term := do
  let t ← value readers s level true
  matched readers s t

def expression (readers : Readers) (s : Setting) : Reader Term := do
  let t ← readers.unjoined s.joined 0
  readers.joins s.joined t

def joins (readers : Readers) (s : Setting) (left : Term) : Reader Term := do
  let c ← get
  if s.hasKeyword c .and_ then joined 3
  else if s.hasKeyword c .or_ then joined 2
  else pure left
where
  /-- The other expression, after a word of `n` characters. -/
  joined (n : Nat) : Reader Term := do
    advance readers n
    let _ ← readers.unjoined s 0
    readers.joins s ⟨.other "binary", .complete⟩

/-- What a statement with a modifier is called. -/
def modifierName? (s : Setting) (c : Cursor) : Option (Keyword × String) :=
  match Keyword.ofName? (nameAhead (s.ahead c)) with
  | some .if_ => some (.if_, "if_modifier")
  | some .unless_ => some (.unless_, "unless_modifier")
  | some .while_ => some (.while_, "while_modifier")
  | some .until_ => some (.until_, "until_modifier")
  | some .rescue => some (.rescue, "rescue_modifier")
  | _ => none

def modifiers (readers : Readers) (s : Setting) (left : Expr) : Reader Expr := do
  let c ← get
  match modifierName? s c with
  | some (k, name) =>
    advance readers k.spelling.length
    let _ ← readers.expression s
    readers.modifiers s (.other name)
  | none => pure left

/-- A value after a key, as the first entry of a hash. -/
def openingPair (readers : Readers) : Reader Term := do
  let _ ← value readers .listed 0 false
  pure ⟨.other "pair", .pair⟩

/-- Whether a statement that began with braces ends, or goes on with a word or a name, where the
first entry of a hash could not. -/
def endsEntry (s : Setting) (c : Cursor) : Bool :=
  c.broken ||
    match c.text with
    | ';' :: _ => true
    | '=' :: '>' :: _ => true
    | text =>
      match Keyword.ofName? (nameAhead text) with
      | some k => s.follow.contains k
      | none => false

/-- A statement without its modifiers. -/
def unmodified (readers : Readers) (s : Setting) (opening : Bool) : Reader Term := do
  let t ← readers.operand s.joined 0 true
  let c ← get
  if t.form == .targets then pure t
  else if opening && t.form == .string && isKeyColon c then
    advance readers 1
    openingPair readers
  else
    match opening && t.form.isOperand, s.ahead c with
    | true, '=' :: '>' :: _ =>
      advance readers 2
      let isPair ← arrow readers s.joined .listed (endsEntry s.joined)
      if isPair then pure ⟨.other "pair", .pair⟩
      else readers.joins s.joined ⟨.other "match_pattern", .complete⟩
    | _, _ =>
      let t ← matched readers s.joined t
      readers.joins s.joined t

/-- A statement. Lists of targets and entries of hashes are left to what they belong to. -/
def statement (readers : Readers) (follow : List Keyword) (opening : Bool) : Reader Term := do
  let s : Setting := { follow := Keyword.modifiers ++ follow }
  let c ← get
  match keywordAhead? c.text with
  | some .undef => modified s (kept "undef" (do advance readers 5; readers.methodNames))
  | some .alias_ =>
    modified s (kept "alias" (do
      advance readers 5
      takeMethodName readers true
      takeMethodName readers false))
  | some .beginBlock =>
    modified s (kept "begin_block" (do advance readers 5; bracedStatements readers))
  | some .endBlock => modified s (kept "end_block" (do advance readers 3; bracedStatements readers))
  | _ => modified s (unmodified readers s opening)
where
  /-- A statement of which only the kind is kept. -/
  kept (kind : String) (p : Reader Unit) : Reader Term := do
    p
    pure ⟨.other kind, .complete⟩
  modified (s : Setting) (p : Reader Term) : Reader Term := do
    let t ← p
    if t.form == .targets || t.form == .pair then pure t
    else
      let e ← readers.modifiers s t.expr
      pure ⟨e, .complete⟩

end FactoryRoster.Source.Rules
