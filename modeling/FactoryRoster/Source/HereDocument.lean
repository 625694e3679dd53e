import FactoryRoster.Source.Literal

/-!
# Here documents

A here document is announced in a line and its body begins where that line ends. The body ends with
a line that begins with the announced word and holds nothing else. `Document.event` finds what comes
next in a body: the word that ends it, an escape or an interpolation.
-/

namespace FactoryRoster.Source

/-- A here document that has been announced: the word that ends it, whether that word may be
indented, and whether the body is interpolated. -/
structure Document where
  word : List Char
  indented : Bool
  interpolated : Bool

/-- The here document that is announced by two less-than signs before `text`, with the length of
the announcement after them. -/
def documentAhead? (text : List Char) : Option (Document × Nat) :=
  let (indented, mark, rest) :=
    match text with
    | '~' :: rest => (true, 1, rest)
    | '-' :: rest => (true, 1, rest)
    | _ => (false, 0, text)
  match rest with
  | [] => none
  | q :: inner =>
    if q == '\"' || q == '\'' || q == '\x60' then
      let word := inner.takeWhile (· != q)
      if word.isEmpty then none else some (⟨word, indented, q != '\''⟩, mark + word.length + 2)
    else
      let word := rest.takeWhile isPlainNameChar
      if word.isEmpty then none else some (⟨word, indented, true⟩, mark + word.length)

namespace Document

/-- A place in a line of the body. -/
inductive Place where
  /-- In the blanks at the beginning; `open_` says whether the word may still follow. -/
  | indent (open_ : Bool)
  /-- Before `rest`, which would complete the word; `fresh` holds right after an escape or an
  interpolation. -/
  | word (rest : List Char) (fresh : Bool)
  /-- In the text of the line. -/
  | line

/-- What comes next in a body, with what follows it. -/
inductive Event where
  /-- The word that ends the document. -/
  | close (rest : List Char)
  /-- A backslash that begins an escape. -/
  | escape (rest : List Char)
  /-- The opening of an interpolation in braces. -/
  | code (rest : List Char)
  /-- A variable that is interpolated without braces. -/
  | variable (rest : List Char)
  /-- What no body contains: an escape or an interpolation that interrupts the word. -/
  | nothing

/-- What a character leads to. -/
inductive Step where
  | go (place : Place)
  | stop (event : Event)

/-- Whether nothing but blanks comes before the end of the line. -/
def endsLine (text : List Char) : Bool :=
  match text.dropWhile fun c => c == ' ' || c == '\t' with
  | '\n' :: _ => true
  | '\r' :: _ => true
  | _ => false

/-- The step at the character `c` of a line, which `rest` follows. Before it stands a part of the
word if `partly` holds. -/
def lineStep (d : Document) (partly fresh : Bool) (c : Char) (rest : List Char) : Step :=
  if c == '\n' || c == '\r' then .go (.indent true)
  else if d.interpolated && c == '\\' then .stop (if partly then .nothing else .escape rest)
  else if d.interpolated && c == '#' then
    match rest, shortVariableLength? rest with
    | '\x7b' :: inner, _ => .stop (if partly && fresh then .nothing else .code inner)
    | _, some n => .stop (.variable (rest.drop n))
    | _, none => .go .line
  else .go .line

/-- The step at the character `c` where the word may stand, of which `left` is still to come. -/
def wordStep (d : Document) (left : List Char) (fresh : Bool) (c : Char) (rest : List Char) :
    Step :=
  match left with
  | w :: more =>
    if c == w then
      if more.isEmpty then
        if endsLine rest then .stop (.close rest) else .go (.word d.word false)
      else .go (.word more fresh)
    else d.lineStep (left.length != d.word.length) fresh c rest
  | [] => d.lineStep false false c rest

/-- The step at the character `c`, which `rest` follows. -/
def step (d : Document) (place : Place) (c : Char) (rest : List Char) : Step :=
  match place with
  | .indent open_ =>
    if c == ' ' || c == '\t' then .go (.indent (open_ && d.indented))
    else if open_ then d.wordStep d.word false c rest
    else d.lineStep false false c rest
  | .word left fresh => d.wordStep left fresh c rest
  | .line => d.lineStep false false c rest

/-- What comes next in a body. A document may also end where the text ends. -/
def event (d : Document) : Place → List Char → Event
  | _, [] => .close []
  | place, c :: rest =>
    match d.step place c rest with
    | .go next => d.event next rest
    | .stop event => event

/-- What comes next at the beginning of a body, or right after an escape or an interpolation. -/
def firstEvent (d : Document) (text : List Char) : Event :=
  d.event (.word d.word true) text

end Document

end FactoryRoster.Source
