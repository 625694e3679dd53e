import FactoryRoster.Source.Phrase

/-!
# Rules of gaps and literals

The gap between two tokens: blanks, ends of lines, comments, and the bodies of here documents. The
bodies of delimited literals, in which the code of interpolations is read like a program.
-/

namespace FactoryRoster.Source.Rules

/-- The gap before the next token. The body of an announced here document comes before the end of
its line. -/
def gap (readers : Readers) : Reader Unit := fun c =>
  match c.text with
  | [] => some ((), c)
  | ch :: rest =>
    if ch == '\n' || ch == '\r' then
      match c.inDocument, c.documents with
      | false, d :: later => do
        let ((), after) ← readers.document d { c with documents := later, inDocument := true }
        let after := { after with inDocument := false }
        readers.gap (after.afterNote "heredoc_body" after.text)
      | _, _ => readers.gap (if ch == '\n' then c.afterLine rest else c.afterBlanks rest)
    else if isBlank ch then readers.gap (c.afterBlanks rest)
    else
      match c.text with
      | '\\' :: '\n' :: more => readers.gap (c.afterBlanks more)
      | '\\' :: '\r' :: '\n' :: more => readers.gap (c.afterBlanks more)
      | text =>
        match afterComment? text with
        | some more => readers.gap (c.afterNote "comment" more)
        | none => some ((), c)

/-- Passes over `n` characters and the gap after them. -/
def advance (readers : Readers) (n : Nat) : Reader Unit := fun c =>
  readers.gap (c.at_ (c.text.drop n))

/-- The code of an interpolation, which begins with `code`, and its closing brace. Nothing else of
the cursor changes than the text and the here documents that have been announced. -/
def interpolation (readers : Readers) (code : List Char) : Reader Unit := fun c => do
  let ((), start) ← readers.gap (c.at_ code)
  let (_, stop) ← readers.statements (.closer '\x7d') start
  match stop.text with
  | '\x7d' :: rest => some ((), { c with text := rest, documents := stop.documents })
  | _ => none

def document (readers : Readers) (d : Document) : Reader Unit := fun c =>
  match d.firstEvent c.text with
  | .close rest => some ((), { c with text := rest })
  | .escape rest =>
    match Escape.length? rest with
    | some n => readers.document d { c with text := rest.drop n }
    | none => none
  | .code rest => do
    let ((), after) ← interpolation readers rest c
    readers.document d after
  | .variable rest => readers.document d { c with text := rest }
  | .nothing => none

/-- The rest of a literal's body. -/
def contents (readers : Readers) (outline : Outline) (depth : Nat) : Reader (List Part) := fun c =>
  match outline.stretch depth c.text with
  | .plain text rest depth =>
    part (.plain text) (readers.contents outline depth { c with text := rest })
  | .close rest => some ([], { c with text := rest })
  | .escape rest =>
    match Escape.length? rest with
    | some n =>
      part (.escape (rest.take n)) (readers.contents outline depth { c with text := rest.drop n })
    | none => none
  | .code rest => do
    let ((), after) ← interpolation readers rest c
    part .code (readers.contents outline depth after)
  | .variable rest => part .code (readers.contents outline depth { c with text := rest })
  | .nothing => none
where
  /-- A part before the parts that have been read. -/
  part (p : Part) (read : Option (List Part × Cursor)) : Option (List Part × Cursor) :=
    read.map fun (parts, after) => (p :: parts, after)

/-- A delimited literal whose opening is `n` characters long. A pattern may have flags. -/
def literal (readers : Readers) (outline : Outline) (n : Nat) : Reader Expr := fun c => do
  let (parts, after) ← readers.contents outline 0 (c.at_ (c.text.drop n))
  let flags := if outline.kind == .pattern then (after.text.takeWhile Char.isLower).length else 0
  let ((), after) ← advance readers flags after
  some (.ofLiteral outline.kind outline.quoting parts, after)

def takeChar (readers : Readers) (ch : Char) : Reader Unit := fun c =>
  match c.text with
  | first :: _ => if first == ch then advance readers 1 c else none
  | [] => none

def takeKeyword (readers : Readers) (k : Keyword) : Reader Unit := fun c =>
  if nameAhead c.text == k.spelling then advance readers k.spelling.length c else none

/-- Takes the end of a line or a semicolon, if one of them is there; says whether it was. -/
def takeTerminator (readers : Readers) : Reader Bool := fun c =>
  if c.broken then some (true, c.nextLine)
  else
    match c.text with
    | ';' :: _ => do
      let ((), after) ← advance readers 1 c
      some (true, after)
    | _ => some (false, c)

/-- Takes the end of a construct's first line: a terminator, the word `then`, or both. -/
def takeHeaderEnd (readers : Readers) : Reader Unit := do
  let ended ← takeTerminator readers
  let c ← get
  if nameAhead c.text == Keyword.then_.spelling then advance readers 4
  else if ended then pure ()
  else failure

end FactoryRoster.Source.Rules
