import FactoryRoster.Utf8

/-!
# Texts and their bytes

The bytes of a text are read as that text: each character from a leading byte, which says how many
bytes follow, and from six bits of each of these.
-/

namespace FactoryRoster.Utf8

/-! ### Leading bytes -/

theorem toNat_ofNat_of_lt {n : Nat} (h : n < 256) : (UInt8.ofNat n).toNat = n := by
  rw [UInt8.toNat_ofNat', Nat.mod_eq_of_lt h]

theorem start_of_follow? {n missing : Nat} {next : UInt8 × UInt8} (hlow : 128 ≤ n) (hn : n < 256)
    (h : follow? (.ofNat n) = some (next, missing)) :
    start (.ofNat n) = .inr ⟨[.ofNat n], n % (0x40 >>> missing), next, missing⟩ := by
  have hlead : ¬UInt8.ofNat n < 0x80 := by
    rw [UInt8.lt_iff_toNat_lt, toNat_ofNat_of_lt hn]
    exact Nat.not_lt.mpr hlow
  simp only [start, hlead, if_false, h, toNat_ofNat_of_lt hn]

theorem follow?_two : ∀ n < 32, 2 ≤ n →
    follow? (.ofNat (n + 192)) = some ((0x80, 0xBF), 1) := by decide

theorem follow?_three : ∀ n < 16, follow? (.ofNat (n + 224)) =
    some (if n = 0 then (0xA0, 0xBF) else if n = 13 then (0x80, 0x9F) else (0x80, 0xBF), 2) := by
  decide

theorem follow?_four : ∀ n < 5, follow? (.ofNat (n + 240)) =
    some (if n = 0 then (0x90, 0xBF) else if n = 4 then (0x80, 0x8F) else (0x80, 0xBF), 3) := by
  decide

/-! ### Bytes that follow -/

/-- The byte of six bits that follow a leading byte is in a range. -/
def Within (next : UInt8 × UInt8) (m : Nat) : Prop :=
  next.1.toNat ≤ m + 128 ∧ m + 128 ≤ next.2.toNat

theorem within_all {m : Nat} (hm : m < 64) : Within (0x80, 0xBF) m :=
  ⟨Nat.le_add_left 128 m, show m + 128 ≤ 191 by omega⟩

section Follow

variable {next : UInt8 × UInt8} {m : Nat} (hm : m < 64) (h : Within next m) (bytes : List UInt8)
  (value : Nat) (rest : List UInt8)

include hm h

theorem within_ofNat :
    (next.1 ≤ UInt8.ofNat (m + 128) && UInt8.ofNat (m + 128) ≤ next.2) = true := by
  have hbyte : (UInt8.ofNat (m + 128)).toNat = m + 128 := toNat_ofNat_of_lt (by omega)
  rw [Bool.and_eq_true, decide_eq_true_eq, decide_eq_true_eq, UInt8.le_iff_toNat_le,
    UInt8.le_iff_toNat_le, hbyte]
  exact h

theorem decodeFrom_last :
    decodeFrom (some ⟨bytes, value, next, 1⟩) (.ofNat (m + 128) :: rest) =
      .char (Char.ofNat (value * 64 + m)) :: decodeFrom none rest := by
  have hbits : (UInt8.ofNat (m + 128)).toNat % 64 = m := by
    rw [toNat_ofNat_of_lt (by omega)]
    omega
  rw [decodeFrom, if_pos (within_ofNat hm h)]
  simp only [hbits, Nat.le_refl, if_true]

theorem decodeFrom_next (missing : Nat) :
    decodeFrom (some ⟨bytes, value, next, missing + 2⟩) (.ofNat (m + 128) :: rest) =
      decodeFrom (some ⟨.ofNat (m + 128) :: bytes, value * 64 + m, (0x80, 0xBF), missing + 1⟩)
        rest := by
  have hbits : (UInt8.ofNat (m + 128)).toNat % 64 = m := by
    rw [toNat_ofNat_of_lt (by omega)]
    omega
  have hmissing : ¬missing + 2 ≤ 1 := by omega
  rw [decodeFrom, if_pos (within_ofNat hm h)]
  simp only [hbits, hmissing, if_false, Nat.add_sub_cancel (n := missing + 1) (m := 1)]

end Follow

/-! ### Characters -/

section Lengths

variable {v : Nat} (rest : List UInt8)

theorem decodeFrom_two (hlow : 0x80 ≤ v) (hhigh : v < 0x800) :
    decodeFrom none (.ofNat (v / 64 % 32 + 192) :: .ofNat (v % 64 + 128) :: rest) =
      .char (Char.ofNat v) :: decodeFrom none rest := by
  have hlead := start_of_follow? (by omega) (by omega)
    (follow?_two (v / 64 % 32) (by omega) (by omega))
  have hm : v % 64 < 64 := Nat.mod_lt v (by decide)
  have hvalue : (v / 64 % 32 + 192) % (0x40 >>> 1) * 64 + v % 64 = v := by
    simp only [Nat.shiftRight_eq_div_pow]
    omega
  rw [decodeFrom, hlead]
  simp only
  rw [decodeFrom_last hm (within_all hm), hvalue]

theorem decodeFrom_three (hlow : 0x800 ≤ v) (hhigh : v < 0x10000)
    (hvalid : v < 0xD800 ∨ 0xDFFF < v) :
    decodeFrom none (.ofNat (v / 4096 % 16 + 224) :: .ofNat (v / 64 % 64 + 128) ::
        .ofNat (v % 64 + 128) :: rest) =
      .char (Char.ofNat v) :: decodeFrom none rest := by
  have hlead := start_of_follow? (by omega) (by omega) (follow?_three (v / 4096 % 16) (by omega))
  have hmiddle : v / 64 % 64 < 64 := Nat.mod_lt _ (by decide)
  have hlast : v % 64 < 64 := Nat.mod_lt v (by decide)
  -- The first range shuts out overlong forms, the second one surrogates.
  have hwithin : Within (if v / 4096 % 16 = 0 then (0xA0, 0xBF)
      else if v / 4096 % 16 = 13 then (0x80, 0x9F) else (0x80, 0xBF)) (v / 64 % 64) := by
    split
    · exact ⟨show 160 ≤ _ by omega, show _ ≤ 191 by omega⟩
    split
    · exact ⟨show 128 ≤ _ by omega, show _ ≤ 159 by omega⟩
    · exact within_all hmiddle
  have hvalue : ((v / 4096 % 16 + 224) % (0x40 >>> 2) * 64 + v / 64 % 64) * 64 + v % 64 = v := by
    simp only [Nat.shiftRight_eq_div_pow]
    omega
  rw [decodeFrom, hlead]
  simp only
  rw [decodeFrom_next hmiddle hwithin, decodeFrom_last hlast (within_all hlast), hvalue]

theorem decodeFrom_four (hlow : 0x10000 ≤ v) (hhigh : v < 0x110000) :
    decodeFrom none (.ofNat (v / 262144 % 8 + 240) :: .ofNat (v / 4096 % 64 + 128) ::
        .ofNat (v / 64 % 64 + 128) :: .ofNat (v % 64 + 128) :: rest) =
      .char (Char.ofNat v) :: decodeFrom none rest := by
  have hlead := start_of_follow? (by omega) (by omega)
    (follow?_four (v / 262144 % 8) (by omega))
  have hfirst : v / 4096 % 64 < 64 := Nat.mod_lt _ (by decide)
  have hmiddle : v / 64 % 64 < 64 := Nat.mod_lt _ (by decide)
  have hlast : v % 64 < 64 := Nat.mod_lt v (by decide)
  -- The first range shuts out overlong forms, the second one numbers that are too large.
  have hwithin : Within (if v / 262144 % 8 = 0 then (0x90, 0xBF)
      else if v / 262144 % 8 = 4 then (0x80, 0x8F) else (0x80, 0xBF)) (v / 4096 % 64) := by
    split
    · exact ⟨show 144 ≤ _ by omega, show _ ≤ 191 by omega⟩
    split
    · exact ⟨show 128 ≤ _ by omega, show _ ≤ 143 by omega⟩
    · exact within_all hfirst
  have hvalue : (((v / 262144 % 8 + 240) % (0x40 >>> 3) * 64 + v / 4096 % 64) * 64 +
      v / 64 % 64) * 64 + v % 64 = v := by
    simp only [Nat.shiftRight_eq_div_pow]
    omega
  rw [decodeFrom, hlead]
  simp only
  rw [decodeFrom_next hfirst hwithin, decodeFrom_next hmiddle (within_all hmiddle),
    decodeFrom_last hlast (within_all hlast), hvalue]

end Lengths

theorem decodeFrom_encodeChar (c : Char) (rest : List UInt8) :
    decodeFrom none (String.utf8EncodeChar c ++ rest) = .char c :: decodeFrom none rest := by
  have hc : Char.ofNat c.val.toNat = c := Char.ofNat_toNat c
  have hvalid : c.val.toNat < 0xD800 ∨ 0xDFFF < c.val.toNat ∧ c.val.toNat < 0x110000 := c.valid
  unfold String.utf8EncodeChar
  simp only
  split
  · rename_i hone
    have hbyte : (UInt8.ofNat c.val.toNat).toNat = c.val.toNat := toNat_ofNat_of_lt (by omega)
    have hstart : start (.ofNat c.val.toNat) = .inl (.char c) := by
      have hlt : UInt8.ofNat c.val.toNat < 0x80 := by
        rw [UInt8.lt_iff_toNat_lt, hbyte]
        exact Nat.lt_succ_of_le hone
      rw [start, if_pos hlt, hbyte, hc]
    rw [List.singleton_append, decodeFrom, hstart]
  split
  · have htwo := decodeFrom_two (v := c.val.toNat) rest (by omega) (by omega)
    rwa [hc] at htwo
  split
  · have hthree := decodeFrom_three (v := c.val.toNat) rest (by omega) (by omega) (by omega)
    rwa [hc] at hthree
  · have hfour := decodeFrom_four (v := c.val.toNat) rest (by omega) (by omega)
    rwa [hc] at hfour

theorem encode_cons (c : Char) (text : List Char) :
    encode (c :: text) = String.utf8EncodeChar c ++ encode text := rfl

/-- The bytes of a text are read as it. -/
theorem decode_encode (text : List Char) : decode (encode text) = glyphs text := by
  induction text with
  | nil => rfl
  | cons c text ih =>
      rw [decode] at ih ⊢
      rw [encode_cons, decodeFrom_encodeChar, ih]
      rfl

/-! ### Texts of single bytes -/

theorem length_le_encode (text : List Char) : text.length ≤ (encode text).length := by
  induction text with
  | nil => exact Nat.le_refl 0
  | cons c text ih =>
      have hpos := c.utf8Size_pos
      rw [encode_cons, List.length_append, String.length_utf8EncodeChar, List.length_cons]
      omega

/-- The bytes of a text are its code points exactly if all of them are ASCII. -/
theorem encode_eq_codes_iff (text : List Char) :
    (encode text).map (fun b => Char.ofNat b.toNat) = text ↔ ∀ c ∈ text, c.toNat < 128 := by
  induction text with
  | nil => exact iff_of_true rfl (by simp)
  | cons c text ih =>
      rw [encode_cons, List.forall_mem_cons, ← ih]
      by_cases hc : c.toNat < 128
      · have hbyte : (UInt8.ofNat c.toNat).toNat = c.toNat := toNat_ofNat_of_lt (by omega)
        have hsingle : String.utf8EncodeChar c = [.ofNat c.toNat] := by
          simp only [String.utf8EncodeChar]
          exact if_pos (Nat.le_of_lt_succ hc)
        rw [hsingle, List.singleton_append, List.map_cons, hbyte, Char.ofNat_toNat]
        simp [hc]
      · -- A character of several bytes makes the row of bytes longer than the text.
        refine iff_of_false (fun heq => ?_) fun hboth => hc hboth.1
        have hlength := congrArg List.length heq
        have hle := length_le_encode text
        have hsize : c.utf8Size ≠ 1 := by
          rw [ne_eq, Char.utf8Size_eq_one_iff, UInt32.le_iff_toNat_le]
          exact fun h => hc (Nat.lt_succ_of_le h)
        have hpos := c.utf8Size_pos
        simp only [List.length_map, List.length_append, String.length_utf8EncodeChar,
          List.length_cons] at hlength
        omega

end FactoryRoster.Utf8
