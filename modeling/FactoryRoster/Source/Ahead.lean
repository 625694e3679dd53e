import FactoryRoster.Source.Phrase

/-!
# What may begin

Whether a value, an argument or a key begins at a place. After a name most signs may be an operator
as well as the beginning of an argument: blanks before and after the sign decide. After a complete
value the same signs are operators.
-/

namespace FactoryRoster.Source

/-- Whether a text begins with a blank or the end of a line. -/
def beginsWithSpace (text : List Char) : Bool :=
  match text with
  | c :: _ => isSpace c
  | [] => false

/-- Whether a symbol begins with the colon before `text`. -/
def beginsSymbol (text : List Char) : Bool :=
  match text with
  | '\"' :: _ => true
  | '\'' :: _ => true
  | ':' :: _ => false
  | _ => (symbolLength? text).isSome

/-- The length of the key with which a text begins, with its colon: a word directly before a single
colon, but not the reserved word with a question mark. Where a symbol may follow a word, the colon
of a word that is no label may begin one. -/
def keyLength? (symbolPossible : Bool) (text : List Char) : Option Nat :=
  match labelAhead? text, text with
  | some name, _ => some (name.length + 1)
  | none, c :: _ =>
    let word := wordAhead text
    if isNameStart c && word != Keyword.defined.spelling then
      match text.drop word.length with
      | ':' :: ':' :: _ => none
      | ':' :: rest =>
        if symbolPossible && beginsSymbol rest then none else some (word.length + 1)
      | _ => none
    else none
  | none, [] => none

/-- Whether the colon of a key stands directly here. -/
def isKeyColon (c : Cursor) : Bool :=
  match c.spaced, c.text with
  | true, _ => false
  | _, ':' :: ':' :: _ => false
  | _, ':' :: _ => true
  | _, _ => false

/-- Whether a block ampersand may stand before `text`. -/
def passesBlock (text : List Char) : Bool :=
  match text with
  | c :: _ => !(isSpace c || c == '&' || c == '.' || c == '=')
  | [] => true

/-- Whether a minus sign before `text` belongs to what follows it, after blanks or not. -/
def isPrefixMinus (spaced : Bool) (text : List Char) : Bool :=
  match text with
  | '>' :: _ => true
  | '=' :: _ => false
  | _ => spaced && !beginsWithSpace text

/-- Whether a star before `text` belongs to what follows it, after blanks or not. -/
def isSplatStar (spaced : Bool) (text : List Char) : Bool :=
  spaced && !beginsWithSpace text && text.head? != some '='

/-- Whether a slash before `text` begins a pattern where it could also divide. -/
def isOpeningSlash (spaced : Bool) (text : List Char) : Bool :=
  spaced &&
    match text with
    | ' ' :: _ => false
    | '\t' :: _ => false
    | '=' :: _ => false
    | _ => true

/-- Whether a word begins a value where words of `follow` may come instead. -/
def beginsWord (follow : List Keyword) (text : List Char) : Bool :=
  match keywordAhead? text with
  | some k => k.beginsValue || !follow.contains k
  | none => true

/-- The length of the key of an entry in a pattern, with its colon: only after a constant two colons
mean anything else. -/
def patternKeyLength? (text : List Char) : Option Nat :=
  match text with
  | c :: _ =>
    let word := wordAhead text
    if isNameStart c then
      match text.drop word.length with
      | ':' :: ':' :: _ =>
        if isConstant word && !isMarked word then none else some (word.length + 1)
      | ':' :: _ => some (word.length + 1)
      | _ => none
    else none
  | [] => none

/-- Whether a value or an argument begins before `text` where an operator may stand instead; what
is particular to a place is left out. -/
def beginsOperand (spaced : Bool) (text : List Char) : Bool :=
  match text with
  | [] => false
  | c :: rest =>
    if c.isDigit then true
    else
      match c, rest with
      | '-', _ => isPrefixMinus spaced rest
      | ':', ':' :: _ => false
      | ':', _ => beginsSymbol rest
      | '!', '=' :: _ => false
      | '!', '~' :: _ => false
      | '<', '<' :: later => (documentAhead? later).isSome
      | '/', _ => isOpeningSlash spaced rest
      | '%', _ => (percentOutline? true rest).isSome
      | '?', _ => (characterLength? rest).isSome
      | _, _ =>
        c == '!' || c == '~' || c == '\"' || c == '\'' || c == '\x60' || c == '@' || c == '$'

namespace Setting

/-- Whether a value begins before `text` where it may be left out but no operator may stand. -/
def beginsValue (s : Setting) (text : List Char) : Bool :=
  match text with
  | [] => false
  | c :: rest =>
    if isNameStart c then beginsWord s.follow text
    else if c.isDigit then true
    else
      match c, rest with
      | '-', '=' :: _ => false
      | '*', '=' :: _ => false
      | '*', '*' :: _ => false
      | '.', '.' :: _ => true
      | ':', ':' :: _ => true
      | ':', _ => beginsSymbol rest
      | '<', '<' :: later => (documentAhead? later).isSome
      | '?', _ => (characterLength? rest).isSome
      | _, _ =>
        c == '\"' || c == '\'' || c == '\x60' || c == '@' || c == '$' || c == '(' || c == '[' ||
          c == '\x7b' || c == '!' || c == '~' || c == '+' || c == '-' || c == '%' || c == '/' ||
          c == '*'

/-- Whether what a star splats begins before `text`, where it may be left out. A block or a modifier
of the call around it comes first. -/
def beginsSplat (s : Setting) (text : List Char) : Bool :=
  match text with
  | '\x7b' :: _ => !s.brace
  | _ =>
    match keywordAhead? text with
    | some k => s.beginsValue text && !(k.isModifier && s.follow.contains k)
    | none => s.beginsValue text

/-- Whether an argument begins at a place after a name. -/
def beginsArgument (s : Setting) (c : Cursor) : Bool :=
  let text := s.ahead c
  match text with
  | [] => false
  | first :: rest =>
    if isNameStart first then (labelAhead? text).isSome || word text
    else
      match first, rest with
      | '*', '*' :: later => isSplatStar c.spaced later
      | '*', _ => isSplatStar c.spaced rest
      | '&', _ => passesBlock rest
      | '[', _ => c.spaced
      | '(', _ => c.spaced
      | ':', ':' :: _ => c.spaced
      | _, _ => beginsOperand c.spaced text
where
  /-- Whether a word is an argument. A modifier is none where one may follow. -/
  word (text : List Char) : Bool :=
    match keywordAhead? text with
    | some .do_ => false
    | some k => if k.isModifier then !s.follow.contains k else k.beginsValue || !s.follow.contains k
    | none => true

/-- Whether an argument begins at a place after a word such as `return`: a hash, or the word `do`,
where they may not follow, as well. -/
def beginsHanded (s : Setting) (c : Cursor) : Bool :=
  match s.ahead c with
  | '\x7b' :: _ => !s.brace
  | text =>
    s.beginsArgument c || (keywordAhead? text == some .do_ && !s.follow.contains .do_)

/-- Whether an argument begins at a place after the name of a method that is called on a call with
a block. No operator may follow that name, so that any sign begins an argument. -/
def beginsChained (s : Setting) (c : Cursor) : Bool :=
  let text := s.ahead c
  match text with
  | '\x7b' :: _ => !s.brace
  | '*' :: '*' :: _ => true
  | '&' :: rest => passesBlock rest
  | _ =>
    (labelAhead? text).isSome ||
      match keywordAhead? text with
      | some k => s.beginsValue text && !(k.isModifier && s.follow.contains k)
      | none => s.beginsValue text

/-- Whether a block is passed on at the beginning of a line, where nothing else of the statement may
come. -/
def misplacesBlock (s : Setting) (c : Cursor) : Bool :=
  c.folded && !s.wrapped && c.text.head? == some '&'

/-- Whether the end of a range begins at a place, where an operator may follow instead. -/
def beginsEnd (s : Setting) (c : Cursor) : Bool :=
  let text := s.ahead c
  match text with
  | [] => false
  | first :: rest =>
    if isNameStart first then beginsWord s.follow text
    else
      match first, rest with
      | ':', ':' :: _ => true
      | '.', '.' :: _ => true
      | '+', '=' :: _ => false
      | '*', '*' :: _ => false
      | '*', _ => isSplatStar c.spaced rest
      | _, _ =>
        first == '(' || first == '[' || first == '\x7b' || first == '+' ||
          beginsOperand c.spaced text

/-- Whether what a star splats in an assigned value begins at a place, where an operator may follow
instead. A plus sign is one. -/
def beginsAssignedSplat (s : Setting) (c : Cursor) : Bool :=
  let text := s.ahead c
  text.head? != some '+' && s.beginsEnd c && s.beginsSplat text

end Setting

end FactoryRoster.Source
