import FactoryRoster.Numeral
import FactoryRoster.Source.Keyword

/-!
# Numbers and characters

The literals of numbers and of single characters: how long they are, and of which kind a number is.
-/

namespace FactoryRoster.Source

inductive NumberKind where
  | integer | float | rational | complex
  deriving DecidableEq, Repr

def NumberKind.name : NumberKind → String
  | integer => "integer"
  | float => "float"
  | rational => "rational"
  | complex => "complex"

/-- How many characters at the front of a text go on with a row of digits: digits, each of them
possibly after an underscore. -/
def moreDigits (isDigit : Char → Bool) : List Char → Nat
  | '_' :: d :: rest => if isDigit d then moreDigits isDigit rest + 2 else 0
  | d :: rest => if isDigit d then moreDigits isDigit rest + 1 else 0
  | [] => 0

/-- The digits of the base that a letter after a leading zero announces. -/
def announcedDigits? (mark : Char) : Option (Char → Bool) :=
  if mark == 'x' || mark == 'X' then some isHexDigit
  else if mark == 'b' || mark == 'B' then some fun d => d == '0' || d == '1'
  else if mark == 'o' || mark == 'O' then some isOctalDigit
  else if mark == 'd' || mark == 'D' then some Char.isDigit
  else none

/-- The length of the fraction with which a text begins. -/
def fractionLength (text : List Char) : Nat :=
  match text with
  | '.' :: d :: rest => if d.isDigit then 2 + moreDigits Char.isDigit rest else 0
  | _ => 0

/-- The length of the exponent with which a text begins. -/
def exponentLength (text : List Char) : Nat :=
  match text with
  | e :: rest =>
    let sign :=
      match rest with
      | s :: _ => if s == '+' || s == '-' then 1 else 0
      | [] => 0
    match rest.drop sign with
    | d :: later =>
      if (e == 'e' || e == 'E') && d.isDigit then 2 + sign + moreDigits Char.isDigit later else 0
    | [] => 0
  | [] => 0

/-- The length of the decimal number with which a text begins, and its kind. -/
def decimal (text : List Char) : NumberKind × Nat :=
  let whole := moreDigits Char.isDigit text
  let fraction := fractionLength (text.drop whole)
  let exponent := exponentLength (text.drop (whole + fraction))
  (if fraction + exponent == 0 then .integer else .float, whole + fraction + exponent)

/-- The length of the number with which a text begins, without its suffix, and its kind. -/
def unsuffixed (text : List Char) : NumberKind × Nat :=
  match text with
  | '0' :: mark :: d :: rest =>
    match announcedDigits? mark with
    | some isDigit =>
      if isDigit d then (.integer, 3 + moreDigits isDigit rest) else decimal text
    | none => decimal text
  | _ => decimal text

/-- The length of the number with which a text begins, and its kind. The suffixes `r`, `i` and `ri`
make it rational or complex; no other name is a suffix. -/
def numberAhead (text : List Char) : NumberKind × Nat :=
  let (kind, length) := unsuffixed text
  match nameAhead (text.drop length) with
  | ['r'] => (.rational, length + 1)
  | ['i'] => (.complex, length + 1)
  | ['r', 'i'] => (.complex, length + 2)
  | _ => (kind, length)

/-- The length of the character after a question mark and a backslash, with the backslash. -/
def escapedCharacterLength (text : List Char) : Nat :=
  match text with
  | [] => 1
  | c :: rest =>
    if isSpace c || c == '\x00' then 1
    else
      match rest with
      | '\x7b' :: inner =>
        let digits := (inner.takeWhile isHexDigit).length
        match inner.drop digits with
        | '\x7d' :: _ => digits + 4
        | _ => 2
      | '-' :: _ :: d :: '-' :: e :: _ =>
        if (d == 'M' || d == 'C') && !isSpace e then 7 else controlled rest
      | _ => controlled rest
where
  /-- The same where the character may be one of a group of keys. -/
  controlled (rest : List Char) : Nat :=
    match rest with
    | '-' :: d :: _ => if isSpace d then 2 else 4
    | _ => 2 + (rest.takeWhile isHexDigit).length

/-- The length of the character literal after a question mark. -/
def characterLength? (text : List Char) : Option Nat :=
  match text with
  | [] => none
  | '\\' :: rest => some (escapedCharacterLength rest)
  | c :: _ => if isSpace c || c == '\x00' then none else some 1

end FactoryRoster.Source
