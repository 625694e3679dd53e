import FactoryRoster.Source.Characters

/-!
# Backslash escapes

What a backslash stands for in a literal. An interpolating literal knows named, numeric and
multi-character escapes (`Escape.decode`); an escape that names no character is left as it is
written. A single-quoted literal knows two escapes only (`unescapeQuotes`).
-/

namespace FactoryRoster.Source

/-- A character between words: white space of ASCII, or of the rest of Unicode. -/
def isSeparator (c : Char) : Bool :=
  isSpace c || (0x2000 ≤ c.toNat && c.toNat ≤ 0x200a) ||
    [0x85, 0xa0, 0x1680, 0x2028, 0x2029, 0x202f, 0x205f, 0x3000].contains c.toNat

/-- The word with which a text begins, empty when it begins with a separator, and the words after
it. -/
def splitWords : List Char → List Char × List (List Char)
  | [] => ([], [])
  | c :: cs =>
    let (word, later) := splitWords cs
    if isSeparator c then ([], if word.isEmpty then later else word :: later)
    else (c :: word, later)

def words (text : List Char) : List (List Char) :=
  let (word, later) := splitWords text
  if word.isEmpty then later else word :: later

/-- The characters with the given code points, written in hexadecimal: all of them, or none. -/
def scalars? (groups : List (List Char)) : Option (List Char) :=
  groups.mapM fun group => (number? 16 group).bind scalar?

namespace Escape

/-- The code points after `\u`, with or without braces. A brace that is opened has to be closed at
the end. -/
def groups? (digits : List Char) : Option (List (List Char)) :=
  match digits with
  | '\x7b' :: rest => if rest.getLast? = some '\x7d' then some (words rest.dropLast) else none
  | _ => some (words digits)

/-- The characters that an escape with the given body denotes, if it denotes any. -/
def denotation? (body : List Char) : Option (List Char) :=
  match body with
  | [] => some []
  | 'n' :: _ => some ['\n']
  | 't' :: _ => some ['\t']
  | 's' :: _ => some [' ']
  | 'r' :: _ => some ['\r']
  | 'e' :: _ => some ['\x1b']
  | 'a' :: _ => some ['\x07']
  | 'b' :: _ => some ['\x08']
  | 'f' :: _ => some ['\x0c']
  | 'v' :: _ => some ['\x0b']
  | '\n' :: _ => some []
  | 'u' :: digits => (groups? digits).bind scalars?
  | 'x' :: digits => ((number? 16 digits).bind scalar?).map ([·])
  | c :: rest =>
    if isOctalDigit c then ((number? 8 (c :: rest)).bind scalar?).map ([·]) else some (c :: rest)

/-- The text of the escape whose characters after the backslash are `body`. An escape that denotes
nothing, such as that of a surrogate or of what is no number, stands for itself. -/
def decode (body : List Char) : List Char :=
  (denotation? body).getD ('\\' :: body)

/-- How many of the characters `cs`, which follow a backslash, make up the escape. Between braces
stand hexadecimal digits and spaces, at least one; no escape begins with a NUL character. An escaped
line end takes the escape that stands right after it with it. -/
def length? (cs : List Char) : Option Nat :=
  match cs with
  | [] => none
  | '\n' :: '\\' :: rest =>
    match length? rest with
    | some n => some (n + 2)
    | none => some 1
  | 'u' :: '\x7b' :: rest =>
    let inner := rest.takeWhile fun c => isHexDigit c || c == ' '
    match inner, rest.drop inner.length with
    | _ :: _, '\x7d' :: _ => some (inner.length + 3)
    | _, _ => none
  | 'u' :: rest => if ((rest.take 4).takeWhile isHexDigit).length == 4 then some 5 else none
  | 'x' :: rest =>
    match (rest.take 2).takeWhile isHexDigit with
    | [] => none
    | digits => some (digits.length + 1)
  | c :: rest =>
    if isOctalDigit c then some (((rest.take 2).takeWhile isOctalDigit).length + 1)
    else if c == '\x00' then none
    else some 1

end Escape

/-- The text of a single-quoted body: a backslash before a backslash or before a single quote is
dropped, and every other character stands for itself. -/
def unescapeQuotes : List Char → List Char
  | '\\' :: '\\' :: rest => '\\' :: unescapeQuotes rest
  | '\\' :: '\'' :: rest => '\'' :: unescapeQuotes rest
  | c :: rest => c :: unescapeQuotes rest
  | [] => []

/-- A text in single quotes: backslashes and single quotes get a backslash in front. -/
def escapeQuotes (text : List Char) : List Char :=
  text.flatMap fun c => if c == '\\' || c == '\'' then ['\\', c] else [c]

end FactoryRoster.Source
