import FactoryRoster.Source.Ahead
import FactoryRoster.Source.Rules.Gap

/-!
# Rules of patterns

The patterns that values are matched with: values, names, arrays and hashes of patterns, and their
alternatives. Nothing is kept of a pattern.
-/

namespace FactoryRoster.Source.Rules

/-- Passes over a literal that may be a pattern: a number, a symbol, a string, a list of words, a
regular expression or a here document. -/
def patternLiteral (readers : Readers) : Reader Unit := do
  let c ← get
  match outlineAhead? c.text, c.text with
  | some (outline, n), _ =>
    let _ ← literal readers outline n
  | none, ':' :: rest =>
    match symbolLength? rest with
    | some n => advance readers (n + 1)
    | none => failure
  | none, '<' :: '<' :: rest =>
    match documentAhead? rest with
    | some (d, n) =>
      set { c with documents := c.documents ++ [d] }
      advance readers (n + 2)
    | none => failure
  | none, '+' :: _ =>
    advance readers 1
    number
  | none, '-' :: rest => if startsNumber rest then advanceNumber 1 rest else failure
  | none, _ => number
where
  /-- Whether a text begins with a digit. -/
  startsNumber (text : List Char) : Bool :=
    match text with
    | d :: _ => d.isDigit
    | [] => false
  /-- Passes over `n` characters and the number `text` after them. -/
  advanceNumber (n : Nat) (text : List Char) : Reader Unit :=
    advance readers (n + (numberAhead text).2)
  number : Reader Unit := do
    let c ← get
    if startsNumber c.text then advanceNumber 0 c.text else failure

/-- The words that stand for values in a pattern. -/
def patternWords : List (List Char) :=
  [Keyword.nil.spelling, Keyword.self.spelling, Keyword.true_.spelling, Keyword.false_.spelling,
    ['_', '_', 'F', 'I', 'L', 'E', '_', '_'], ['_', '_', 'L', 'I', 'N', 'E', '_', '_'],
    ['_', '_', 'E', 'N', 'C', 'O', 'D', 'I', 'N', 'G', '_', '_']]

/-- Whether a value may begin before `text` that can be the end of a range in a pattern. -/
def beginsPrimitive (text : List Char) : Bool :=
  match text with
  | [] => false
  | c :: rest =>
    if isNameStart c then patternWords.contains (nameAhead text)
    else
      match c, rest with
      | ':', ':' :: _ => false
      | '.', _ => false
      | _, _ => !(c == ')' || c == ']' || c == '\x7d' || c == ',' || c == ';' || c == '=' ||
          c == '|' || c == '&')

/-- A value that may bound a range in a pattern. -/
def patternPrimitive (readers : Readers) : Reader Unit := do
  let c ← get
  match c.text with
  | '-' :: '>' :: _ => readers.lambda
  | first :: _ =>
    let name := nameAhead c.text
    if isNameStart first then
      if beginsPrimitive c.text then advance readers name.length else failure
    else patternLiteral readers
  | [] => failure

/-- A value, or a range that it begins. -/
def patternRange (readers : Readers) (s : Setting) : Reader Unit := do
  patternPrimitive readers
  let c ← get
  match s.ahead c with
  | '.' :: '.' :: rest =>
    advance readers (if rest.head? == some '.' then 3 else 2)
    let c ← get
    if beginsPrimitive (s.ahead c) then patternPrimitive readers else pure ()
  | _ => pure ()

def constantPath (readers : Readers) (s : Setting) : Nat → Reader Unit
  | 0 => failure
  | fuel + 1 => do
    let c ← get
    match s.ahead c with
    | ':' :: ':' :: _ =>
      advance readers 2
      let c ← get
      if isConstant (nameAhead c.text) then
        advance readers (nameAhead c.text).length
        constantPath readers s fuel
      else failure
    | _ => pure ()

def patternConstant (readers : Readers) (s : Setting) : Reader Unit := do
  let c ← get
  advance readers (nameAhead c.text).length
  constantPath readers s (c.text.length + 1)

/-- Whether a colon stands directly here. -/
def isColon (c : Cursor) : Bool :=
  !c.spaced && c.text.head? == some ':'

/-- Whether the key of an entry begins at a place: a word or a string before a colon, or two
stars. -/
def beginsEntry (readers : Readers) : Reader Bool := fun c =>
  match c.text, stringOutline? false c.text with
  | '*' :: '*' :: _, _ => some (true, c)
  | _, some (outline, n) => do
    let (_, after) ← literal readers outline n c
    some (isColon after, c)
  | text, none => some ((patternKeyLength? text).isSome, c)

/-- The patterns in the brackets after a constant. -/
def patternArguments (readers : Readers) (closer : Char) : Reader Unit := do
  advance readers 1
  let c ← get
  if c.text.head? == some closer then advance readers 1
  else
    if ← beginsEntry readers then readers.patternEntries .listed
    else readers.patternItems .listed .empty
    takeChar readers closer

/-- A constant, with the patterns that its parts are matched with. -/
def patternClass (readers : Readers) (s : Setting) : Reader Unit := do
  patternConstant readers s
  let c ← get
  match c.spaced, c.text with
  | false, '(' :: _ => patternArguments readers ')'
  | false, '[' :: _ => patternArguments readers ']'
  | _, _ => pure ()

/-- The value of a variable or of an expression as a pattern, after the caret. -/
def pinned (readers : Readers) : Reader Unit := do
  advance readers 1
  let c ← get
  match c.text, variableAhead? c.text with
  | _, some (_, n) => advance readers n
  | '(' :: _, none =>
    advance readers 1
    let _ ← readers.expression { wrapped := true }
    takeChar readers ')'
  | first :: _, none =>
    if isNameStart first && !isConstant (nameAhead c.text) then
      advance readers (nameAhead c.text).length
    else failure
  | [], none => failure

/-- A pattern without its alternatives and its names. -/
def simplePattern (readers : Readers) (s : Setting) : Reader Unit := do
  let c ← get
  match c.text with
  | '[' :: _ =>
    advance readers 1
    let c ← get
    if c.text.head? == some ']' then advance readers 1
    else
      readers.patternItems .listed .empty
      takeChar readers ']'
  | '\x7b' :: _ =>
    advance readers 1
    let c ← get
    if c.text.head? == some '\x7d' then advance readers 1
    else
      readers.patternEntries .listed
      takeChar readers '\x7d'
  | '(' :: _ =>
    advance readers 1
    readers.pattern .listed
    takeChar readers ')'
  | '^' :: _ => pinned readers
  | '.' :: '.' :: rest =>
    advance readers (if rest.head? == some '.' then 3 else 2)
    patternPrimitive readers
  | ':' :: ':' :: _ => constantClass
  | first :: _ =>
    if isNameStart first then
      let name := nameAhead c.text
      if isConstant name then patternClass readers s
      else if patternWords.contains name then patternRange readers s
      else advance readers name.length
    else patternRange readers s
  | [] => failure
where
  /-- A constant that begins with two colons. -/
  constantClass : Reader Unit := do
    advance readers 2
    let c ← get
    if isConstant (nameAhead c.text) then patternClass readers s else failure

def pattern (readers : Readers) (s : Setting) : Reader Unit := do
  simplePattern readers s
  let c ← get
  match s.ahead c with
  | '|' :: '|' :: _ => pure ()
  | '|' :: _ =>
    advance readers 1
    readers.pattern s
  | _ => names (c.text.length + 1)
where
  /-- The names that a pattern is given. -/
  names : Nat → Reader Unit
    | 0 => failure
    | fuel + 1 => do
      let c ← get
      match s.ahead c with
      | '=' :: '>' :: _ =>
        advance readers 2
        let c ← get
        let name := nameAhead c.text
        match name with
        | first :: _ =>
          if isNameStart first && !isConstant name then
            advance readers name.length
            names fuel
          else failure
        | [] => failure
      | _ => pure ()

/-- A pattern that is a single value or name or empty brackets, which may also be read as a
value. -/
def patternLeaf (readers : Readers) (s : Setting) : Reader Unit := do
  let c ← get
  match c.text with
  | '[' :: _ =>
    advance readers 1
    takeChar readers ']'
  | '\x7b' :: _ =>
    advance readers 1
    takeChar readers '\x7d'
  | ':' :: ':' :: _ => failure
  | first :: _ =>
    if isConstant (nameAhead c.text) then patternConstant readers s
    else if isNameStart first then advance readers (nameAhead c.text).length
    else patternPrimitive readers
  | [] => failure

/-- Whether a name is no reserved word that may follow. -/
def isFree (s : Setting) (name : List Char) : Bool :=
  match Keyword.ofName? name with
  | some k => !s.follow.contains k
  | none => true

/-- Whether another pattern may begin before `text`. -/
def beginsItem (s : Setting) (text : List Char) : Bool :=
  match text with
  | [] => false
  | c :: _ =>
    if isNameStart c then isFree s (nameAhead text)
    else !(c == ')' || c == ']' || c == '\x7d' || c == ',' || c == ';' || c == '=' || c == '|' ||
      c == '&')

/-- An item of a pattern for an array: a splat with or without a name, or a pattern; the row with
it. -/
def patternItem (readers : Readers) (s : Setting) (row : PatternRow) : Reader PatternRow := do
  let c ← get
  match c.text, row.withSplat? with
  | '*' :: '*' :: _, _ => failure
  | '*' :: _, some row =>
    advance readers 1
    let c ← get
    let name := nameAhead (s.ahead c)
    match name with
    | first :: _ =>
      if isNameStart first && !isConstant name && isFree s name then
        advance readers name.length
        pure row
      else pure row
    | [] => pure row
  | '*' :: _, none => failure
  | _, _ =>
    readers.pattern s
    pure row.withPattern

/-- The items of a pattern for an array. A comma may follow the last one if there is no splat. -/
def patternItems (readers : Readers) (s : Setting) (row : PatternRow) : Reader Unit := do
  let row ← patternItem readers s row
  let c ← get
  match s.ahead c with
  | ',' :: _ =>
    if row == .closed then pure ()
    else
      advance readers 1
      let c ← get
      if row == .plain && !beginsItem s (s.ahead c) then pure ()
      else readers.patternItems s row
  | _ => pure ()

/-- The pattern of an entry after its key, which may be left out. -/
def entryPattern (readers : Readers) (s : Setting) : Reader Unit := do
  let c ← get
  let text := s.ahead c
  if text.head? != some '*' && beginsItem s text then readers.pattern s else pure ()

/-- The entries of a pattern for a hash. A comma may follow the last one; two stars with a name or
with `nil` end them. -/
def patternEntries (readers : Readers) (s : Setting) : Reader Unit := do
  let c ← get
  match c.text, stringOutline? false c.text with
  | '*' :: '*' :: _, _ =>
    advance readers 2
    let c ← get
    let name := nameAhead (s.ahead c)
    match name with
    | first :: _ =>
      if isNameStart first && !isConstant name && isFree s name then
        advance readers name.length
      else pure ()
    | [] => pure ()
  | _, some (outline, n) =>
    let _ ← literal readers outline n
    let c ← get
    if isColon c then
      advance readers 1
      entryPattern readers s
      more
    else failure
  | text, none =>
    match patternKeyLength? text with
    | some n =>
      advance readers n
      entryPattern readers s
      more
    | none => failure
where
  more : Reader Unit := do
    let c ← get
    match s.ahead c with
    | ',' :: _ =>
      advance readers 1
      let c ← get
      let text := s.ahead c
      if text.isEmpty then pure ()
      else if ← beginsEntry readers then readers.patternEntries s
      else if isMarked (wordAhead text) then failure
      else pure ()
    | _ => pure ()

def patterns (readers : Readers) (s : Setting) : Reader Unit := do
  if ← beginsEntry readers then readers.patternEntries s
  else readers.patternItems s .empty

end FactoryRoster.Source.Rules
