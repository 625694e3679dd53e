import FactoryRoster.Proofs.Source.Spelled
import FactoryRoster.Proofs.Utf8

/-!
# Escapes of bytes

A byte may be written by its number, in hexadecimal or octal digits. Several such escapes in a row
may be the bytes of one character, but each is read as a character of its own: the one whose code
point is the byte.
-/

namespace FactoryRoster.Source

/-- A byte by its number, in two hexadecimal digits after a letter or in three octal digits. -/
inductive ByteEscape where
  | hexadecimal (high low : Char) (hhigh : isHexDigit high = true) (hlow : isHexDigit low = true)
  | octal (high middle low : Char) (hhigh : isOctalDigit high = true)
      (hmiddle : isOctalDigit middle = true) (hlow : isOctalDigit low = true)
      (h : numeral 8 [high, middle, low] < 256)

namespace ByteEscape

/-- What is written after the backslash. -/
def body : ByteEscape → List Char
  | hexadecimal high low _ _ => ['x', high, low]
  | octal high middle low .. => [high, middle, low]

/-- The number of the byte. -/
def value : ByteEscape → Nat
  | hexadecimal high low _ _ => numeral 16 [high, low]
  | octal high middle low .. => numeral 8 [high, middle, low]

/-- The byte that an escape stands for. -/
def byte (e : ByteEscape) : UInt8 :=
  .ofNat e.value

/-- The literal in double quotes that spells out bytes. -/
def literal (symbol : Bool) (escapes : List ByteEscape) : List Char :=
  doubleOpening symbol ++ escapes.flatMap (fun e => '\\' :: e.body) ++ ['\"']

end ByteEscape

theorem mem_of_isOctalDigit {d : Char} (h : isOctalDigit d = true) :
    d ∈ ['0', '1', '2', '3', '4', '5', '6', '7'] := by
  simp only [isOctalDigit, Bool.and_eq_true, decide_eq_true_eq] at h
  have hlow : 48 ≤ d.toNat := h.1
  have hhigh : d.toNat ≤ 55 := h.2
  have hall : ∀ k < 8, Char.ofNat (48 + k) ∈ ['0', '1', '2', '3', '4', '5', '6', '7'] := by decide
  have hd := hall (d.toNat - 48) (by omega)
  rwa [Nat.add_sub_cancel' hlow, Char.ofNat_toNat] at hd

theorem isHexDigit_of_isOctalDigit {d : Char} (h : isOctalDigit d = true) :
    isHexDigit d = true ∧ digitValue d < 8 := by
  have hmem := mem_of_isOctalDigit h
  simp only [List.mem_cons, List.not_mem_nil, or_false] at hmem
  rcases hmem with rfl | rfl | rfl | rfl | rfl | rfl | rfl | rfl <;> decide

theorem scalar?_of_lt {n : Nat} (h : n < 256) : scalar? n = some (Char.ofNat n) :=
  if_pos (.inl (Nat.lt_trans h (by decide)))

namespace ByteEscape

theorem value_lt (e : ByteEscape) : e.value < 256 := by
  cases e with
  | hexadecimal high low hhigh hlow =>
      have hhigh' := digitValue_lt_of_isHexDigit hhigh
      have hlow' := digitValue_lt_of_isHexDigit hlow
      simp only [value, numeral, List.foldl_cons, List.foldl_nil]
      omega
  | octal high middle low hhigh hmiddle hlow h => exact h

theorem toNat_byte (e : ByteEscape) : e.byte.toNat = e.value :=
  Utf8.toNat_ofNat_of_lt e.value_lt

/-- An escape of a byte ends where it does whatever follows it. -/
theorem length?_body (e : ByteEscape) (rest : List Char) :
    Escape.length? (e.body ++ rest) = some e.body.length := by
  cases e with
  | hexadecimal high low hhigh hlow => simp [body, Escape.length?, hhigh, hlow]
  | octal high middle low hhigh hmiddle hlow h =>
      have hmem := mem_of_isOctalDigit hhigh
      simp only [List.mem_cons, List.not_mem_nil, or_false] at hmem
      have hlength : Escape.length? (high :: middle :: low :: rest) =
          some (([middle, low].takeWhile isOctalDigit).length + 1) := by
        rcases hmem with rfl | rfl | rfl | rfl | rfl | rfl | rfl | rfl <;> rfl
      simpa [body, hmiddle, hlow] using hlength

/-- An escape of a byte is read as the character of that code point. -/
theorem decode_body (e : ByteEscape) : Escape.decode e.body = [Char.ofNat e.value] := by
  have hscalar := scalar?_of_lt e.value_lt
  cases e with
  | hexadecimal high low hhigh hlow =>
      have hnumber : number? 16 [high, low] = some (numeral 16 [high, low]) := by
        apply number?_eq (by simp)
        simp only [List.forall_mem_cons]
        exact ⟨⟨hhigh, digitValue_lt_of_isHexDigit hhigh⟩,
          ⟨hlow, digitValue_lt_of_isHexDigit hlow⟩, by simp⟩
      simp only [value] at hscalar
      simp [body, value, Escape.decode, Escape.denotation?, hnumber, hscalar]
  | octal high middle low hhigh hmiddle hlow h =>
      have hnumber : number? 8 [high, middle, low] = some (numeral 8 [high, middle, low]) := by
        apply number?_eq (by simp)
        simp only [List.forall_mem_cons]
        exact ⟨isHexDigit_of_isOctalDigit hhigh, isHexDigit_of_isOctalDigit hmiddle,
          isHexDigit_of_isOctalDigit hlow, by simp⟩
      have hmem := mem_of_isOctalDigit hhigh
      simp only [value] at hscalar
      simp only [List.mem_cons, List.not_mem_nil, or_false] at hmem
      rcases hmem with rfl | rfl | rfl | rfl | rfl | rfl | rfl | rfl <;>
        simp [body, value, Escape.decode, Escape.denotation?, isOctalDigit, hnumber, hscalar]

end ByteEscape

theorem reads_byteEscapes (symbol : Bool) (escapes : List ByteEscape) :
    (doubleQuotes symbol).Reads (escapes.flatMap fun e => '\\' :: e.body)
      (escapes.map fun e => Char.ofNat e.value) := by
  induction escapes with
  | nil => exact .nil symbol
  | cons e escapes ih =>
      have hread := ih.escape (e := e.body) fun rest => e.length?_body _
      rw [e.decode_body] at hread
      exact hread

/-- The bytes of a text, spelled out, are read as one character each, though together they are that
text: it comes out right exactly if it is ASCII. -/
theorem readAsString_byteEscapes (symbol : Bool) {text : List Char} {escapes : List ByteEscape}
    (h : escapes.map ByteEscape.byte = Utf8.encode text) :
    ReadAsString (ByteEscape.literal symbol escapes)
        ((Utf8.encode text).map fun b => Char.ofNat b.toNat) ∧
      Utf8.decode (escapes.map ByteEscape.byte) = glyphs text ∧
      (ReadAsString (ByteEscape.literal symbol escapes) text ↔ ∀ c ∈ text, c.toNat < 128) := by
  have hchars : (Utf8.encode text).map (fun b => Char.ofNat b.toNat) =
      escapes.map fun e => Char.ofNat e.value := by
    rw [← h, List.map_map]
    exact List.map_congr_left fun e _ => congrArg Char.ofNat e.toNat_byte
  have hread : ReadAsString (ByteEscape.literal symbol escapes)
      ((Utf8.encode text).map fun b => Char.ofNat b.toNat) := by
    rw [hchars]
    exact readAsString_of_reads (opens_doubleQuotes symbol) (reads_byteEscapes symbol escapes)
  exact ⟨hread, by rw [h, Utf8.decode_encode], hread.iff_eq.trans (Utf8.encode_eq_codes_iff text)⟩

/-- An accented letter is read as two characters. -/
theorem readAsString_byteEscapes_accent :
    [ByteEscape.hexadecimal 'C' '3' rfl rfl, .octal '2' '5' '1' rfl rfl rfl (by decide)].map
        ByteEscape.byte = Utf8.encode ['é'] ∧
      ReadAsString ['\"', '\\', 'x', 'C', '3', '\\', '2', '5', '1', '\"'] ['Ã', '©'] ∧
      ¬ReadAsString ['\"', '\\', 'x', 'C', '3', '\\', '2', '5', '1', '\"'] ['é'] := by
  have hbytes : [ByteEscape.hexadecimal 'C' '3' rfl rfl, .octal '2' '5' '1' rfl rfl rfl
      (by decide)].map ByteEscape.byte = Utf8.encode ['é'] := by decide
  obtain ⟨hread, -, htext⟩ := readAsString_byteEscapes false hbytes
  exact ⟨hbytes, hread, fun h => absurd (htext.mp h 'é' List.mem_cons_self) (by decide)⟩

end FactoryRoster.Source
