/-!
# Numerals

Digits of the bases in which characters are written by number, and the characters that numbers
stand for.
-/

namespace FactoryRoster

/-- A hexadecimal digit of either case. -/
def isHexDigit (c : Char) : Bool :=
  c.isDigit || ('a' ≤ c && c ≤ 'f') || ('A' ≤ c && c ≤ 'F')

def isOctalDigit (c : Char) : Bool :=
  '0' ≤ c && c ≤ '7'

/-- The value of a hexadecimal digit; of any other character, zero. -/
def digitValue (c : Char) : Nat :=
  if c.isDigit then c.toNat - '0'.toNat
  else if 'a' ≤ c && c ≤ 'f' then c.toNat - 'a'.toNat + 10
  else if 'A' ≤ c && c ≤ 'F' then c.toNat - 'A'.toNat + 10
  else 0

/-- The number that `digits` spell in base `base`. -/
def numeral (base : Nat) (digits : List Char) : Nat :=
  digits.foldl (fun n c => base * n + digitValue c) 0

/-- The number that a text spells in base `base`, if it is made of digits of that base. A plus sign
may stand before them. -/
def number? (base : Nat) (text : List Char) : Option Nat :=
  match text with
  | '+' :: digits => spelled digits
  | digits => spelled digits
where
  /-- The number of at least one digit. -/
  spelled (digits : List Char) : Option Nat :=
    if !digits.isEmpty && digits.all fun c => isHexDigit c && digitValue c < base then
      some (numeral base digits)
    else none

/-- The character with a given code point, if that is a Unicode scalar value. -/
def scalar? (n : Nat) : Option Char :=
  if n.isValidChar then some (Char.ofNat n) else none

end FactoryRoster
