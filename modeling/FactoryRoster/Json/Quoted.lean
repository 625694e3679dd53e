import FactoryRoster.Json.Reader
import FactoryRoster.Numeral

/-!
# JSON strings

A string is written (`quote`) with as few escapes as the format allows: the quotation mark, the
backslash and the characters below U+0020 are escaped, and every other character stands for itself.
It is read (`quoted`) with every escape of the format; the two halves of a surrogate pair have to
stand together, except in a string that is passed over.
-/

namespace FactoryRoster.Json

def hexDigit (n : Nat) : Char :=
  if n < 10 then Char.ofNat (48 + n) else Char.ofNat (87 + n)

/-- How a character is written in a string. -/
def escape (c : Char) : List Char :=
  if c = '"' then ['\\', '"']
  else if c = '\\' then ['\\', '\\']
  else if c = '\x08' then ['\\', 'b']
  else if c = '\t' then ['\\', 't']
  else if c = '\n' then ['\\', 'n']
  else if c = '\x0c' then ['\\', 'f']
  else if c = '\r' then ['\\', 'r']
  else if c.toNat < 0x20 then
    ['\\', 'u', '0', '0', hexDigit (c.toNat / 16), hexDigit (c.toNat % 16)]
  else [c]

def quote (text : List Char) : List Char :=
  '"' :: (text.flatMap escape ++ ['"'])

/-- The character that a letter stands for after a backslash. -/
def named? : Char → Option Char
  | '"' => some '"'
  | '\\' => some '\\'
  | '/' => some '/'
  | 'b' => some '\x08'
  | 'f' => some '\x0c'
  | 'n' => some '\n'
  | 'r' => some '\r'
  | 't' => some '\t'
  | _ => none

/-- The number that hexadecimal digits write. -/
def hexNumber? (digits : List Char) : Option Nat :=
  if digits.all isHexDigit then some (numeral 16 digits) else none

def isHighHalf (n : Nat) : Bool :=
  0xD800 ≤ n && n ≤ 0xDBFF

def isLowHalf (n : Nat) : Bool :=
  0xDC00 ≤ n && n ≤ 0xDFFF

def joinHalves (high low : Nat) : Char :=
  Char.ofNat ((high - 0xD800) * 0x400 + (low - 0xDC00) + 0x10000)

/-- The fault of an escape by number that is shorter than four characters: the text ends too early
if fewer than four bytes are left of it. -/
def shortNumber (cs : List Char) : Fault :=
  if cs.foldl (fun n c => n + c.utf8Size) 0 < 4 then .truncated else .malformed

/-- The text before the closing quotation mark, and what follows the mark. After the first half of
a pair, `high`, the second half has to come. Where `paired` is false, halves may stand alone and
leave nothing behind. -/
def quotedText (paired : Bool) (high : Option Nat) : Reader (List Char)
  | [] => .error .truncated
  | ['\\'] => .error .truncated
  | '\\' :: 'u' :: a :: b :: c :: d :: rest =>
    match hexNumber? [a, b, c, d], high with
    | none, _ => .error .malformed
    | some n, none =>
      if !paired then quotedText paired none rest
      else if isLowHalf n then .error .malformed
      else if isHighHalf n then quotedText paired (some n) rest
      else (quotedText paired none rest).map fun (text, rest) => (Char.ofNat n :: text, rest)
    | some n, some h =>
      if isLowHalf n then
        (quotedText paired none rest).map fun (text, rest) => (joinHalves h n :: text, rest)
      else .error .malformed
  | '\\' :: 'u' :: rest => .error (shortNumber rest)
  | '\\' :: c :: rest =>
    match named? c, high with
    | some d, none => (quotedText paired none rest).map fun (text, rest) => (d :: text, rest)
    | _, _ => .error .malformed
  | c :: rest =>
    if high.isSome then .error .malformed
    else if c = '"' then .ok ([], rest)
    else if c.toNat < 0x20 then .error .malformed
    else (quotedText paired none rest).map fun (text, rest) => (c :: text, rest)

/-- Reads the rest of a string after its opening quotation mark. -/
def quoted : Reader (List Char) :=
  quotedText true none

/-- Passes over the rest of a string after its opening quotation mark. -/
def dropQuoted (cs : List Char) : Except Fault (List Char) :=
  (quotedText false none cs).map Prod.snd

end FactoryRoster.Json
