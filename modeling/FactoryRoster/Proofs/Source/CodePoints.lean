import FactoryRoster.Source.Escape
import Mathlib.Data.List.TakeWhile
import Mathlib.Data.Nat.Digits.Defs

/-!
# Code points in braces

An escape may give any count of numbers in braces, each in hexadecimal digits and with blanks
between them. It denotes the characters with these code points if every number is one, however many
digits it has. If any is not, the escape denotes nothing and is left as it is written
(`decode_numbers`). Working the numbers out in 32 bits, with a check for overflow at every step,
comes to the same (`HexNumber.word?_eq_checked`): what does not fit is no code point.
-/

namespace FactoryRoster.Source

/-! ### Words -/

theorem splitWords_append {word : List Char} (hword : ∀ c ∈ word, isSeparator c = false)
    (rest : List Char) :
    splitWords (word ++ rest) = (word ++ (splitWords rest).1, (splitWords rest).2) := by
  induction word with
  | nil => rfl
  | cons c word ih =>
      obtain ⟨hc, hmore⟩ := List.forall_mem_cons.mp hword
      simp only [List.cons_append, splitWords, ih hmore, hc, Bool.false_eq_true, if_false]

theorem words_blanks (n : Nat) (rest : List Char) :
    words (List.replicate n ' ' ++ rest) = words rest := by
  induction n with
  | zero => rfl
  | succ n ih => exact ih

section Word

variable {word : List Char} (hnonempty : word ≠ []) (hword : ∀ c ∈ word, isSeparator c = false)

include hnonempty hword

theorem words_self : words word = [word] := by
  have hsplit := splitWords_append hword []
  rw [List.append_nil] at hsplit
  simp [words, hsplit, splitWords, hnonempty]

theorem words_append_blank (rest : List Char) :
    words (word ++ ' ' :: rest) = word :: words rest := by
  have hblank : splitWords (' ' :: rest) = ([], words rest) := rfl
  simp [words, splitWords_append hword, hblank, hnonempty]

end Word

/-! ### Characters by their code points -/

theorem toNat_ofNat_of_isValidChar {n : Nat} (h : n.isValidChar) : (Char.ofNat n).toNat = n := by
  rw [Char.ofNat, dif_pos h]
  rfl

theorem scalar?_eq_some_iff {n : Nat} {c : Char} : scalar? n = some c ↔ n = c.toNat := by
  constructor
  · intro h
    rw [scalar?, Option.ite_none_right_eq_some] at h
    obtain ⟨hvalid, hc⟩ := h
    rw [← Option.some.inj hc, toNat_ofNat_of_isValidChar hvalid]
  · rintro rfl
    have hvalid : c.toNat.isValidChar := c.valid
    rw [scalar?, if_pos hvalid, Char.ofNat_toNat]

/-- The characters of some code points are all of them. -/
theorem scalars?_eq_some_iff {groups : List (List Char)} {chars : List Char} :
    scalars? groups = some chars ↔
      groups.map (number? 16) = chars.map fun c => some c.toNat := by
  rw [scalars?]
  induction groups generalizing chars with
  | nil => cases chars <;> simp
  | cons group groups ih =>
      cases chars with
      | nil => simp [Option.bind_eq_some_iff]
      | cons c chars => simp [Option.bind_eq_some_iff, scalar?_eq_some_iff, ih]

/-- Numbers are the code points of some characters exactly if each of them is one. -/
theorem exists_chars_iff {ns : List Nat} :
    (∃ chars : List Char, ns = chars.map Char.toNat) ↔ ∀ n ∈ ns, n.isValidChar := by
  constructor
  · rintro ⟨chars, rfl⟩ n hn
    obtain ⟨c, -, rfl⟩ := List.mem_map.mp hn
    exact c.valid
  · intro h
    refine ⟨ns.map Char.ofNat, ?_⟩
    calc
      ns = ns.map id := (List.map_id ns).symm
      _ = ns.map (Char.toNat ∘ Char.ofNat) :=
        List.map_congr_left fun n hn => (toNat_ofNat_of_isValidChar (h n hn)).symm
      _ = (ns.map Char.ofNat).map Char.toNat := List.map_map.symm

/-! ### Numbers of 32 bits -/

/-- A number in 32 bits, if it fits. -/
def checked (n : Nat) : Option UInt32 :=
  if h : n < UInt32.size then some (.ofNatLT n h) else none

theorem checked_toNat (w : UInt32) : checked w.toNat = some w := by
  rw [checked, dif_pos w.toNat_lt]
  rfl

theorem toNat_of_checked {n : Nat} {w : UInt32} (h : checked n = some w) : w.toNat = n := by
  unfold checked at h
  split at h
  · rw [← Option.some.inj h, UInt32.toNat_ofNatLT]
  · exact nomatch h

theorem checked_eq_none_iff {n : Nat} : checked n = none ↔ UInt32.size ≤ n := by
  simp [checked]

/-- Two checks, before a digit is added and after it, are one. -/
theorem checked_add (m d : Nat) :
    ((checked m).bind fun w => checked (w.toNat + d)) = checked (m + d) := by
  cases hword : checked m with
  | some w => rw [Option.bind_some, toNat_of_checked hword]
  | none =>
      have hsize := checked_eq_none_iff.mp hword
      rw [Option.bind_none, eq_comm, checked_eq_none_iff]
      exact Nat.le_add_right_of_le hsize

/-- No number beyond 32 bits is a code point. -/
theorem scalar?_eq_bind (n : Nat) : scalar? n = (checked n).bind fun w => scalar? w.toNat := by
  cases hword : checked n with
  | some w => rw [Option.bind_some, toNat_of_checked hword]
  | none =>
      have hsize := checked_eq_none_iff.mp hword
      rw [Option.bind_none, Option.eq_none_iff_forall_ne_some]
      intro c hc
      have hbound : c.toNat < UInt32.size := c.val.toNat_lt
      rw [scalar?_eq_some_iff.mp hc] at hsize
      omega

/-! ### Numbers in hexadecimal digits -/

/-- The hexadecimal digits in the order of their values, in lower case. -/
def hexDigits : List Char :=
  ['0', '1', '2', '3', '4', '5', '6', '7', '8', '9', 'a', 'b', 'c', 'd', 'e', 'f']

theorem toNat_lt_of_isHexDigit {d : Char} (h : isHexDigit d = true) : d.toNat < 103 := by
  simp only [isHexDigit, Char.isDigit, Bool.or_eq_true, Bool.and_eq_true, decide_eq_true_eq] at h
  rcases h with (⟨-, hhigh⟩ | ⟨-, hhigh⟩) | ⟨-, hhigh⟩
  all_goals exact Nat.lt_of_le_of_lt hhigh (by decide)

/-- What holds of the hexadecimal digits among the first characters holds of all of them. -/
theorem forall_isHexDigit {P : Char → Prop}
    (h : ∀ k < 103, isHexDigit (Char.ofNat k) = true → P (Char.ofNat k)) {d : Char}
    (hd : isHexDigit d = true) : P d := by
  have hfound := h d.toNat (toNat_lt_of_isHexDigit hd)
  rw [Char.ofNat_toNat] at hfound
  exact hfound hd

theorem isSeparator_of_isHexDigit {d : Char} (h : isHexDigit d = true) : isSeparator d = false :=
  forall_isHexDigit (P := fun d => isSeparator d = false) (by decide) h

theorem digitValue_lt_of_isHexDigit {d : Char} (h : isHexDigit d = true) : digitValue d < 16 :=
  forall_isHexDigit (P := fun d => digitValue d < 16) (by decide) h

/-- The value of a digit is its place among the digits. -/
theorem digitValue_eq_idxOf {d : Char} (h : isHexDigit d = true) :
    digitValue d = hexDigits.idxOf d.toLower :=
  forall_isHexDigit (P := fun d => digitValue d = hexDigits.idxOf d.toLower) (by decide) h

/-- Digits of a base spell a number. -/
theorem number?_eq {base : Nat} {digits : List Char} (hnonempty : digits ≠ [])
    (hdigits : ∀ d ∈ digits, isHexDigit d = true ∧ digitValue d < base) :
    number? base digits = some (numeral base digits) := by
  have hall : (digits.all fun c => isHexDigit c && digitValue c < base) = true := by
    simpa [List.all_eq_true] using hdigits
  obtain ⟨d, more, rfl⟩ := List.exists_cons_of_ne_nil hnonempty
  have hd : d ≠ '+' := by
    rintro rfl
    exact absurd (hdigits _ List.mem_cons_self).1 (by decide)
  unfold number?
  split
  · rename_i hplus
    exact absurd (List.cons.inj hplus).1 hd
  · simp [number?.spelled, hall]

/-- A number in hexadecimal digits of either case, as many as there may be. -/
structure HexNumber where
  digits : List Char
  nonempty : digits ≠ []
  hex : ∀ d ∈ digits, isHexDigit d = true

namespace HexNumber

/-- The value of a number; its last digit is the lowest. -/
def value (n : HexNumber) : Nat :=
  Nat.ofDigits 16 (n.digits.map fun d => hexDigits.idxOf d.toLower).reverse

/-- The value of a number in 32 bits, worked out from the first digit on with a check for overflow
at every multiplication and every addition. -/
def word? (n : HexNumber) : Option UInt32 :=
  n.digits.foldlM (fun w d =>
    (checked (16 * w.toNat)).bind fun shifted => checked (shifted.toNat + digitValue d)) 0

theorem isSeparator_of_mem (n : HexNumber) : ∀ d ∈ n.digits, isSeparator d = false :=
  fun d hd => isSeparator_of_isHexDigit (n.hex d hd)

theorem numeral_digits (n : HexNumber) : numeral 16 n.digits = n.value := by
  have hplaces : (n.digits.map fun d => hexDigits.idxOf d.toLower) = n.digits.map digitValue :=
    List.map_congr_left fun d hd => (digitValue_eq_idxOf (n.hex d hd)).symm
  rw [numeral, value, hplaces, Nat.ofDigits_eq_foldr, List.foldr_reverse, List.foldl_map]
  simp only [Nat.cast_id, Nat.add_comm]

theorem number?_digits (n : HexNumber) : number? 16 n.digits = some n.value := by
  rw [number?_eq n.nonempty fun d hd => ⟨n.hex d hd, digitValue_lt_of_isHexDigit (n.hex d hd)⟩,
    n.numeral_digits]

/-- Further digits never make a number smaller. -/
theorem le_foldl (digits : List Char) (m : Nat) :
    m ≤ digits.foldl (fun k d => 16 * k + digitValue d) m := by
  induction digits generalizing m with
  | nil => exact Nat.le_refl m
  | cons d digits ih =>
      calc
        m ≤ 16 * m + digitValue d := by omega
        _ ≤ _ := ih _

/-- Checking every step is checking the result: what does not fit at one step never fits again. -/
theorem foldlM_checked (digits : List Char) (w : UInt32) :
    digits.foldlM (fun w d => checked (16 * w.toNat + digitValue d)) w =
      checked (digits.foldl (fun k d => 16 * k + digitValue d) w.toNat) := by
  induction digits generalizing w with
  | nil => exact (checked_toNat w).symm
  | cons d digits ih =>
      rw [List.foldlM_cons, List.foldl_cons, Option.bind_eq_bind]
      cases hword : checked (16 * w.toNat + digitValue d) with
      | some next => rw [Option.bind_some, ih, toNat_of_checked hword]
      | none =>
          have hsize := checked_eq_none_iff.mp hword
          rw [Option.bind_none, eq_comm, checked_eq_none_iff]
          exact Nat.le_trans hsize (le_foldl digits _)

theorem word?_eq_checked (n : HexNumber) : n.word? = checked n.value := by
  simp only [word?, checked_add]
  rw [foldlM_checked, ← numeral_digits]
  rfl

end HexNumber

/-! ### Numbers in braces -/

/-- Numbers between braces, with the blanks around them. -/
structure NumberGroup where
  before : Nat
  first : HexNumber
  /-- The further numbers, each with the number of blanks before it but one. -/
  more : List (Nat × HexNumber)
  after : Nat

namespace NumberGroup

/-- The numbers of a group. -/
def numbers (g : NumberGroup) : List HexNumber :=
  g.first :: g.more.map Prod.snd

/-- What is written after the first number. -/
def tail (more : List (Nat × HexNumber)) (after : Nat) : List Char :=
  more.flatMap (fun m => ' ' :: List.replicate m.1 ' ' ++ m.2.digits) ++ List.replicate after ' '

/-- What is written between the braces. -/
def inner (g : NumberGroup) : List Char :=
  List.replicate g.before ' ' ++ (g.first.digits ++ tail g.more g.after)

/-- What is written after the backslash of an escape. -/
def body (g : NumberGroup) : List Char :=
  'u' :: '\x7b' :: g.inner ++ ['\x7d']

theorem words_tail (n : HexNumber) (more : List (Nat × HexNumber)) (after : Nat) :
    words (n.digits ++ tail more after) = n.digits :: more.map fun m => m.2.digits := by
  induction more generalizing n with
  | nil =>
      cases after with
      | zero =>
          have hself : n.digits ++ tail [] 0 = n.digits := List.append_nil _
          rw [hself, words_self n.nonempty n.isSeparator_of_mem]
          rfl
      | succ after =>
          have htail : tail [] (after + 1) = ' ' :: (List.replicate after ' ' ++ []) := by
            simp [tail, List.replicate_succ]
          rw [htail, words_append_blank n.nonempty n.isSeparator_of_mem, words_blanks]
          rfl
  | cons m more ih =>
      -- The first blank before a number ends the number before it; the further ones do not count.
      have htail : tail (m :: more) after =
          ' ' :: (List.replicate m.1 ' ' ++ (m.2.digits ++ tail more after)) := by
        simp [tail]
      rw [htail, words_append_blank n.nonempty n.isSeparator_of_mem, words_blanks, ih,
        List.map_cons]

/-- The words between the braces are the digits of the numbers. -/
theorem words_inner (g : NumberGroup) : words g.inner = g.numbers.map HexNumber.digits := by
  rw [inner, words_blanks, words_tail, numbers, List.map_cons, List.map_map]
  rfl

theorem inner_ne_nil (g : NumberGroup) : g.inner ≠ [] := by
  simp [inner, g.first.nonempty]

/-- Between the braces stand hexadecimal digits and blanks only. -/
theorem isHexDigit_of_mem (g : NumberGroup) :
    ∀ c ∈ g.inner, (isHexDigit c || c == ' ') = true := by
  intro c hc
  simp only [inner, tail, List.mem_append, List.mem_replicate, List.mem_flatMap,
    List.mem_cons] at hc
  rw [Bool.or_eq_true, beq_iff_eq]
  rcases hc with ⟨-, rfl⟩ | hc | ⟨m, -, (rfl | ⟨-, rfl⟩) | hc⟩ | ⟨-, rfl⟩
  · exact .inr rfl
  · exact .inl (g.first.hex c hc)
  · exact .inr rfl
  · exact .inr rfl
  · exact .inl (m.2.hex c hc)
  · exact .inr rfl

/-- An escape of numbers in braces ends with its closing brace. -/
theorem length?_body (g : NumberGroup) (rest : List Char) :
    Escape.length? (g.body ++ rest) = some g.body.length := by
  have htake : (g.inner ++ '\x7d' :: rest).takeWhile (fun c => isHexDigit c || c == ' ') =
      g.inner := by
    rw [List.takeWhile_append_of_pos g.isHexDigit_of_mem, List.takeWhile_cons_of_neg (by decide),
      List.append_nil]
  obtain ⟨c, more, hinner⟩ := List.exists_cons_of_ne_nil g.inner_ne_nil
  have hbody : g.body ++ rest = 'u' :: '\x7b' :: (g.inner ++ '\x7d' :: rest) := by simp [body]
  rw [hbody]
  simp only [Escape.length?, htake, List.drop_left]
  simp [hinner, body]

theorem groups?_inner (g : NumberGroup) :
    Escape.groups? ('\x7b' :: g.inner ++ ['\x7d']) = some (g.numbers.map HexNumber.digits) := by
  rw [List.cons_append, Escape.groups?, if_pos List.getLast?_concat, List.dropLast_concat,
    g.words_inner]

/-- An escape of numbers in braces denotes the characters with these code points, if there is one
for every number. -/
theorem denotation?_eq_some_iff (g : NumberGroup) {chars : List Char} :
    Escape.denotation? g.body = some chars ↔
      g.numbers.map HexNumber.value = chars.map Char.toNat := by
  have hnumbers : (g.numbers.map HexNumber.digits).map (number? 16) =
      (g.numbers.map HexNumber.value).map some := by
    rw [List.map_map, List.map_map]
    exact List.map_congr_left fun n _ => n.number?_digits
  have hchars : (chars.map fun c => some c.toNat) = (chars.map Char.toNat).map some :=
    List.map_map.symm
  rw [body, List.cons_append, Escape.denotation?, groups?_inner, Option.bind_some,
    scalars?_eq_some_iff, hnumbers, hchars]
  exact List.map_inj_right fun _ _ => Option.some.inj

theorem denotation?_eq_mapM (g : NumberGroup) :
    Escape.denotation? g.body =
      g.numbers.mapM fun n => n.word?.bind fun w => scalar? w.toNat := by
  have hscalar : (fun n : HexNumber => (number? 16 n.digits).bind scalar?) =
      fun n => n.word?.bind fun w => scalar? w.toNat := by
    funext n
    rw [n.number?_digits, Option.bind_some, scalar?_eq_bind, n.word?_eq_checked]
  rw [body, List.cons_append, Escape.denotation?, groups?_inner, Option.bind_some, scalars?,
    List.mapM_map, ← hscalar]
  rfl

theorem map_toNat_decode {g : NumberGroup} (h : ∀ n ∈ g.numbers, n.value.isValidChar) :
    (Escape.decode g.body).map Char.toNat = g.numbers.map HexNumber.value := by
  obtain ⟨chars, hchars⟩ := exists_chars_iff.mpr (List.forall_mem_map.mpr h)
  rw [Escape.decode, g.denotation?_eq_some_iff.mpr hchars, Option.getD_some, hchars]

theorem decode_eq_self {g : NumberGroup} {n : HexNumber} (hn : n ∈ g.numbers)
    (h : ¬n.value.isValidChar) : Escape.decode g.body = '\\' :: g.body := by
  have hnone : Escape.denotation? g.body = none := by
    rw [Option.eq_none_iff_forall_ne_some]
    intro chars hchars
    have hvalues := g.denotation?_eq_some_iff.mp hchars
    exact h (exists_chars_iff.mp ⟨chars, hvalues⟩ _ (List.mem_map_of_mem hn))
  rw [Escape.decode, hnone, Option.getD_none]

end NumberGroup

/-- An escape of numbers in braces is read as the characters with these code points if every number
is one of a character, and is left as it is written if any is a surrogate or out of range. The
numbers may be worked out in 32 bits. -/
theorem decode_numbers (g : NumberGroup) :
    ((∀ n ∈ g.numbers, n.value.isValidChar) →
        (Escape.decode g.body).map Char.toNat = g.numbers.map HexNumber.value) ∧
      ((∃ n ∈ g.numbers, 0xd800 ≤ n.value ∧ n.value ≤ 0xdfff ∨ 0x10ffff < n.value) →
        Escape.decode g.body = '\\' :: g.body) ∧
      Escape.denotation? g.body =
        g.numbers.mapM fun n => n.word?.bind fun w => scalar? w.toNat := by
  refine ⟨NumberGroup.map_toNat_decode, ?_, g.denotation?_eq_mapM⟩
  rintro ⟨n, hn, hvalue⟩
  have hinvalid : ¬n.value.isValidChar := by
    rw [Nat.isValidChar]
    omega
  exact NumberGroup.decode_eq_self hn hinvalid

/-- Leading zeros do no harm, and a number beyond 32 bits does not become the code point of what is
left of it in 32 bits. -/
theorem decode_numbers_wide :
    ((Nat.isValidChar 0x48 ∧ Nat.isValidChar 0x1f600) ∧
        (Escape.decode ['u', '\x7b', '0', '0', '0', '0', '0', '0', '0', '4', '8', ' ', ' ',
          '1', 'F', '6', '0', '0', '\x7d']).map Char.toNat = [0x48, 0x1f600]) ∧
      0x10ffff < 0x100000041 ∧
        Escape.decode ['u', '\x7b', '4', '8', ' ', '1', '0', '0', '0', '0', '0', '0', '4', '1',
          '\x7d'] = ['\\', 'u', '\x7b', '4', '8', ' ', '1', '0', '0', '0', '0', '0', '0', '4', '1',
          '\x7d'] := by
  let padded : HexNumber :=
    ⟨['0', '0', '0', '0', '0', '0', '0', '4', '8'], by decide, List.all_eq_true.mp rfl⟩
  let face : HexNumber := ⟨['1', 'F', '6', '0', '0'], by decide, List.all_eq_true.mp rfl⟩
  let plain : HexNumber := ⟨['4', '8'], by decide, List.all_eq_true.mp rfl⟩
  let wide : HexNumber :=
    ⟨['1', '0', '0', '0', '0', '0', '0', '4', '1'], by decide, List.all_eq_true.mp rfl⟩
  have hvalid : Nat.isValidChar 0x48 ∧ Nat.isValidChar 0x1f600 := by decide
  have hwide : 0x10ffff < wide.value := by decide
  refine ⟨⟨hvalid, (decode_numbers ⟨0, padded, [(1, face)], 0⟩).1 ?_⟩, by decide,
    (decode_numbers ⟨0, plain, [(0, wide)], 0⟩).2.1 ⟨wide, ?_, .inr hwide⟩⟩
  · exact List.forall_mem_cons.mpr ⟨hvalid.1, List.forall_mem_singleton.mpr hvalid.2⟩
  · exact List.mem_cons_of_mem _ List.mem_cons_self

/-- What is no number in braces is left as it is written, too. -/
example : Escape.decode ['u', '\x7b', 'z', 'z', '\x7d'] =
    ['\\', 'u', '\x7b', 'z', 'z', '\x7d'] := by
  decide

end FactoryRoster.Source
