import FactoryRoster.Json.Value

/-!
# Strings are read as they are written

Every character is written in one of three ways (`Json.escape_cases`), and each of them is read as
that character again, whatever comes after it.
-/

namespace FactoryRoster.Json

/-- Whether a reader takes a written value off the front of any text. -/
def Reads {α : Type} (read : Reader α) (written : List Char) (value : α) : Prop :=
  ∀ rest, read (written ++ rest) = .ok (value, rest)

theorem isHexDigit_hexDigit : ∀ n < 16, isHexDigit (hexDigit n) = true := by decide

theorem digitValue_hexDigit : ∀ n < 16, digitValue (hexDigit n) = n := by decide

/-- The number that is written for a control character. -/
theorem hexNumber?_control {n : Nat} (hn : n < 0x20) :
    hexNumber? ['0', '0', hexDigit (n / 16), hexDigit (n % 16)] = some n := by
  have hhigh : n / 16 < 16 := by omega
  have hlow : n % 16 < 16 := by omega
  have hdigits : ['0', '0', hexDigit (n / 16), hexDigit (n % 16)].all isHexDigit = true := by
    simp only [List.all_cons, List.all_nil, isHexDigit_hexDigit _ hhigh,
      isHexDigit_hexDigit _ hlow]
    rfl
  have hzero : digitValue '0' = 0 := by decide
  have hvalue : numeral 16 ['0', '0', hexDigit (n / 16), hexDigit (n % 16)] = n := by
    simp only [numeral, List.foldl_cons, List.foldl_nil, hzero, digitValue_hexDigit _ hhigh,
      digitValue_hexDigit _ hlow]
    omega
  rw [hexNumber?, if_pos hdigits, hvalue]

theorem quotedText_control {c : Char} (hc : c.toNat < 0x20) (rest : List Char) :
    quotedText true none
        ('\\' :: 'u' :: '0' :: '0' :: hexDigit (c.toNat / 16) :: hexDigit (c.toNat % 16) :: rest) =
      (quotedText true none rest).map fun (text, rest) => (c :: text, rest) := by
  have hlow : isLowHalf c.toNat = false := by
    rw [isLowHalf, Bool.and_eq_false_iff, decide_eq_false_iff_not]
    omega
  have hhigh : isHighHalf c.toNat = false := by
    rw [isHighHalf, Bool.and_eq_false_iff, decide_eq_false_iff_not]
    omega
  rw [quotedText.eq_def]
  simp only [hexNumber?_control hc, hlow, hhigh, Bool.not_true, Bool.false_eq_true, if_false,
    Char.ofNat_toNat]

theorem quotedText_plain (paired : Bool) {c : Char} (hquote : c ≠ '"') (hescape : c ≠ '\\')
    (hcontrol : ¬ c.toNat < 0x20) (rest : List Char) :
    quotedText paired none (c :: rest) =
      (quotedText paired none rest).map fun (text, rest) => (c :: text, rest) := by
  rw [quotedText.eq_def]
  split
  case h_6 =>
    rename_i hcons
    obtain ⟨rfl, rfl⟩ := List.cons.inj hcons
    rw [if_neg (by decide), if_neg hquote, if_neg hcontrol]
  case h_1 => contradiction
  all_goals
    rename_i hcons
    exact absurd (List.cons.inj hcons).1 hescape

theorem quotedText_named (paired : Bool) {c e : Char} (he : named? e = some c)
    (rest : List Char) :
    quotedText paired none ('\\' :: e :: rest) =
      (quotedText paired none rest).map fun (text, rest) => (c :: text, rest) := by
  unfold named? at he
  split at he <;> cases he <;> rfl

/-- The ways to write a character: by a letter, by its number, or as itself. -/
theorem escape_cases (c : Char) :
    (∃ e, named? e = some c ∧ escape c = ['\\', e]) ∨
      (c.toNat < 0x20 ∧ escape c =
        ['\\', 'u', '0', '0', hexDigit (c.toNat / 16), hexDigit (c.toNat % 16)]) ∨
      (c ≠ '"' ∧ c ≠ '\\' ∧ ¬ c.toNat < 0x20 ∧ escape c = [c]) := by
  unfold escape
  by_cases hquote : c = '"'
  · subst hquote
    exact Or.inl ⟨'"', rfl, rfl⟩
  by_cases hescape : c = '\\'
  · subst hescape
    exact Or.inl ⟨'\\', rfl, rfl⟩
  rw [if_neg hquote, if_neg hescape]
  repeat
    split
    · rename_i hc
      subst hc
      exact Or.inl ⟨_, by rfl, rfl⟩
  split
  · rename_i hcontrol
    exact Or.inr (Or.inl ⟨hcontrol, rfl⟩)
  · rename_i hcontrol
    exact Or.inr (Or.inr ⟨hquote, hescape, hcontrol, rfl⟩)

theorem quotedText_escape (c : Char) (rest : List Char) :
    quotedText true none (escape c ++ rest) =
      (quotedText true none rest).map fun (text, rest) => (c :: text, rest) := by
  obtain ⟨e, he, htext⟩ | ⟨hcontrol, htext⟩ | ⟨hquote, hescape, hcontrol, htext⟩ := escape_cases c
  · rw [htext]
    exact quotedText_named true he rest
  · rw [htext]
    exact quotedText_control hcontrol rest
  · rw [htext]
    exact quotedText_plain true hquote hescape hcontrol rest

/-- A string is read up to its own closing quotation mark. -/
theorem quoted_flatMap_escape (chars rest : List Char) :
    quoted (chars.flatMap escape ++ '"' :: rest) = .ok (chars, rest) := by
  induction chars with
  | nil => rfl
  | cons c chars ih =>
      rw [quoted] at ih ⊢
      rw [List.flatMap_cons, List.append_assoc, quotedText_escape, ih]
      rfl

theorem quote_append (chars rest : List Char) :
    quote chars ++ rest = '"' :: (chars.flatMap escape ++ '"' :: rest) := by
  rw [quote, List.cons_append, List.append_assoc]
  rfl

theorem reads_text (s : String) : Reads text (quote s.toList) s := by
  intro rest
  rw [quote_append]
  show (quoted (s.toList.flatMap escape ++ '"' :: rest)).map _ = _
  rw [quoted_flatMap_escape, Except.map]
  simp only [String.ofList_toList]

end FactoryRoster.Json
