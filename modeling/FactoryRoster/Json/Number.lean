import FactoryRoster.Json.Reader

/-!
# JSON numbers

Nothing in the documents of this library is a number, so a number is either passed over or stands
in a wrong place. In a wrong place its value matters in one respect: a number that a double cannot
hold is no JSON at all (`Decimal.holds`).
-/

namespace FactoryRoster.Json

/-- A number as it is written. -/
structure Decimal where
  whole : List Char
  fraction : List Char := []
  exponent : Int := 0

/-- The digits at the front of a text, and what follows them. -/
def digits (cs : List Char) : List Char × List Char :=
  cs.span Char.isDigit

/-- The digits at the front of a text, of which there has to be at least one. -/
def someDigits (cs : List Char) : Except Fault (List Char × List Char) :=
  match digits cs with
  | ([], rest) => .error (unexpected rest)
  | found => .ok found

def decimalValue (ds : List Char) : Nat :=
  ds.foldl (fun n d => 10 * n + (d.toNat - '0'.toNat)) 0

/-- Reads what may follow the digits of a number as its exponent. -/
def exponent : Reader Int
  | [] => .ok (0, [])
  | c :: cs =>
    if c = 'e' || c = 'E' then
      match cs with
      | '-' :: cs => (someDigits cs).map fun (ds, rest) => (-(decimalValue ds : Int), rest)
      | '+' :: cs => (someDigits cs).map fun (ds, rest) => ((decimalValue ds : Int), rest)
      | cs => (someDigits cs).map fun (ds, rest) => ((decimalValue ds : Int), rest)
    else .ok (0, c :: cs)

/-- Reads a number without its sign. The first of several digits is not zero. -/
def decimal : Reader Decimal := fun cs => do
  let (whole, rest) ← someDigits cs
  if whole.length > 1 && whole.head? == some '0' then .error .malformed
  else match rest with
    | '.' :: rest => do
      let (fraction, rest) ← someDigits rest
      let (exponent, rest) ← exponent rest
      .ok (⟨whole, fraction, exponent⟩, rest)
    | rest => do
      let (exponent, rest) ← exponent rest
      .ok (⟨whole, [], exponent⟩, rest)

/-- Takes digits into a number for as long as it stays below 2^64; the rest of them is left. -/
def absorb (n : Nat) : List Char → Nat × List Char
  | [] => (n, [])
  | d :: ds =>
    let next := 10 * n + (d.toNat - '0'.toNat)
    if next < Nat.pow 2 64 then absorb next ds else (n, d :: ds)

/-- The nearest number with at most 53 significant bits; a tie goes to the even one. -/
def roundToDouble (n : Nat) : Nat :=
  let unit := Nat.pow 2 (n.log2 - 52)
  let quotient := n / unit
  let rest := n % unit
  if 2 * rest > unit || (2 * rest = unit && quotient % 2 = 1) then (quotient + 1) * unit
  else quotient * unit

/-- Whether a double can hold a number: its first digits, taken below 2^64 and rounded, times the
rounded power of ten do not round to 2^1024. -/
def Decimal.holds (d : Decimal) : Bool :=
  let (inner, leftOut) := absorb 0 d.whole
  let (mantissa, unused) := absorb inner d.fraction
  let places : Int := d.fraction.length - unused.length
  let power := leftOut.length - places + d.exponent
  mantissa == 0 || power < 0 ||
    (power ≤ 308 &&
      roundToDouble (roundToDouble mantissa * roundToDouble (Nat.pow 10 power.toNat)) <
        Nat.pow 2 1024)

/-- The fault of a number in a wrong place, its sign being taken off. -/
def misplacedNumber (cs : List Char) : Fault :=
  match decimal cs with
  | .error fault => fault
  | .ok (d, _) => if d.holds then .mismatched else .malformed

/-- Passes over a number without its sign; whatever is wrong with it, it is not JSON. -/
def dropNumber (cs : List Char) : Except Fault (List Char) :=
  match decimal cs with
  | .error _ => .error .malformed
  | .ok (_, rest) => .ok rest

end FactoryRoster.Json
