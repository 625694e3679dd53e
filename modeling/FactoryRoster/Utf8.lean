/-!
# UTF-8

Bytes read as text. Every byte sequence is a sequence of `Glyph`s: characters, and broken parts,
each as long as it can be while it could still be the beginning of a character. A text is a
sequence without broken parts.
-/

namespace FactoryRoster

/-- A character, or bytes that are none. -/
inductive Glyph where
  | char (c : Char)
  | broken (bytes : List UInt8)
  deriving DecidableEq, Repr

namespace Glyph

def size : Glyph → Nat
  | char c => c.utf8Size
  | broken bytes => bytes.length

def char? : Glyph → Option Char
  | char c => some c
  | broken _ => none

/-- The character that is shown for a glyph: U+FFFD for a broken part. -/
def shown : Glyph → Char
  | char c => c
  | broken _ => '\uFFFD'

def bytes : Glyph → List UInt8
  | char c => String.utf8EncodeChar c
  | broken bytes => bytes

/-- A number that no other glyph has, whatever bytes it is written with. -/
def code : Glyph → Nat
  | char c => c.toNat
  | broken bytes => 0x110000 + bytes.foldl (fun n b => 257 * n + b.toNat + 1) 0

@[simp] theorem char?_char (c : Char) : (char c).char? = some c := rfl

@[simp] theorem shown_char (c : Char) : (char c).shown = c := rfl

end Glyph

/-- Glyphs that are all characters. -/
def glyphs (text : List Char) : List Glyph :=
  text.map Glyph.char

/-! Characters and texts stand for their glyphs wherever glyphs are asked for. -/

instance : Coe Char Glyph := ⟨Glyph.char⟩

instance : Coe (List Char) (List Glyph) := ⟨glyphs⟩

/-- The text that glyphs are, if they are all characters. -/
def text? (gs : List Glyph) : Option (List Char) :=
  gs.mapM Glyph.char?

/-- The text that is shown for glyphs. -/
def shownText (gs : List Glyph) : List Char :=
  gs.map Glyph.shown

@[simp] theorem text?_glyphs (text : List Char) : text? (glyphs text) = some text := by
  induction text with
  | nil => rfl
  | cons c cs ih => simp_all [text?, glyphs, List.mapM_cons]

@[simp] theorem shownText_glyphs (text : List Char) : shownText (glyphs text) = text := by
  simp [shownText, glyphs, Function.comp_def]

namespace Utf8

/-- The bytes that may follow `lead` in a character: the range of the first of them, which shuts
out overlong forms, surrogates and numbers beyond U+10FFFF, and the count of all. -/
def follow? (lead : UInt8) : Option ((UInt8 × UInt8) × Nat) :=
  if 0xC2 ≤ lead && lead ≤ 0xDF then some ((0x80, 0xBF), 1)
  else if lead == 0xE0 then some ((0xA0, 0xBF), 2)
  else if lead == 0xED then some ((0x80, 0x9F), 2)
  else if 0xE1 ≤ lead && lead ≤ 0xEF then some ((0x80, 0xBF), 2)
  else if lead == 0xF0 then some ((0x90, 0xBF), 3)
  else if lead == 0xF4 then some ((0x80, 0x8F), 3)
  else if 0xF1 ≤ lead && lead ≤ 0xF3 then some ((0x80, 0xBF), 3)
  else none

/-- A character of which some bytes have been read. -/
structure Pending where
  /-- The bytes so far, the last one first. -/
  bytes : List UInt8
  /-- The code point so far. -/
  value : Nat
  /-- The range of the next byte. -/
  next : UInt8 × UInt8
  /-- How many bytes are missing. -/
  missing : Nat

/-- What a byte at the start of a character is: a glyph, or the beginning of one. -/
def start (b : UInt8) : Glyph ⊕ Pending :=
  if b < 0x80 then .inl (.char (Char.ofNat b.toNat))
  else match follow? b with
    | none => .inl (.broken [b])
    | some (next, missing) =>
      let bits := b.toNat % (0x40 >>> missing)
      .inr ⟨[b], bits, next, missing⟩

/-- The broken part that a pending character leaves behind. -/
def Pending.abandoned (p : Pending) : Glyph :=
  .broken p.bytes.reverse

/-- The glyphs of bytes that follow a pending character. -/
def decodeFrom : Option Pending → List UInt8 → List Glyph
  | none, [] => []
  | some p, [] => [p.abandoned]
  | none, b :: bs =>
    match start b with
    | .inl g => g :: decodeFrom none bs
    | .inr p => decodeFrom (some p) bs
  | some p, b :: bs =>
    if p.next.1 ≤ b && b ≤ p.next.2 then
      let value := p.value * 64 + b.toNat % 64
      if p.missing ≤ 1 then .char (Char.ofNat value) :: decodeFrom none bs
      else decodeFrom (some ⟨b :: p.bytes, value, (0x80, 0xBF), p.missing - 1⟩) bs
    else
      match start b with
      | .inl g => p.abandoned :: g :: decodeFrom none bs
      | .inr q => p.abandoned :: decodeFrom (some q) bs

def decode (bytes : List UInt8) : List Glyph :=
  decodeFrom none bytes

def encode (text : List Char) : List UInt8 :=
  text.flatMap String.utf8EncodeChar

def bytes (gs : List Glyph) : List UInt8 :=
  gs.flatMap Glyph.bytes

end Utf8

end FactoryRoster
