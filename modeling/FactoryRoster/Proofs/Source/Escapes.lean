import FactoryRoster.Proofs.Source.CodePoints

/-!
# Escapes of characters

The escapes that denote characters: by a letter, by the character itself, by its code point, and
several by their code points in braces. Each is read to its end whatever follows it
(`Escaped.length?_body`), and as the characters it denotes (`Escaped.decode_body`).
-/

namespace FactoryRoster.Source

/-! ### Code points -/

/-- A character by the hexadecimal digits of its code point. -/
structure CodePoint where
  digits : List Char
  char : Char
  nonempty : digits ≠ []
  hex : ∀ d ∈ digits, isHexDigit d = true
  value : numeral 16 digits = char.toNat

namespace CodePoint

/-- The number that the digits spell. -/
def number (p : CodePoint) : HexNumber :=
  ⟨p.digits, p.nonempty, p.hex⟩

theorem value_number (p : CodePoint) : p.number.value = p.char.toNat := by
  rw [← p.number.numeral_digits]
  exact p.value

theorem exists_cons (p : CodePoint) : ∃ d more, p.digits = d :: more ∧ d ≠ '\x7b' := by
  obtain ⟨d, more, hp⟩ := List.exists_cons_of_ne_nil p.nonempty
  refine ⟨d, more, hp, ?_⟩
  rintro rfl
  exact absurd (p.hex _ (hp ▸ List.mem_cons_self)) (by decide)

end CodePoint

/-! ### Groups of code points -/

/-- The code points between the braces of an escape, with the blanks around them. -/
structure CodeGroup where
  before : Nat
  first : CodePoint
  /-- The further code points, each with the number of blanks before it but one. -/
  more : List (Nat × CodePoint)
  after : Nat

namespace CodeGroup

/-- The code points of a group. -/
def points (g : CodeGroup) : List CodePoint :=
  g.first :: g.more.map Prod.snd

/-- What is written after the first code point. -/
def tail (more : List (Nat × CodePoint)) (after : Nat) : List Char :=
  more.flatMap (fun m => ' ' :: List.replicate m.1 ' ' ++ m.2.digits) ++ List.replicate after ' '

/-- What is written between the braces. -/
def inner (g : CodeGroup) : List Char :=
  List.replicate g.before ' ' ++ (g.first.digits ++ tail g.more g.after)

/-- The numbers of a group, with the same blanks around them. -/
def numbers (g : CodeGroup) : NumberGroup :=
  ⟨g.before, g.first.number, g.more.map fun m => (m.1, m.2.number), g.after⟩

theorem inner_numbers (g : CodeGroup) : g.numbers.inner = g.inner := by
  have htail : NumberGroup.tail (g.more.map fun m => (m.1, m.2.number)) g.after =
      tail g.more g.after := by
    rw [NumberGroup.tail, List.flatMap_map]
    rfl
  rw [NumberGroup.inner, numbers, htail]
  rfl

theorem values_numbers (g : CodeGroup) :
    g.numbers.numbers.map HexNumber.value = (g.points.map CodePoint.char).map Char.toNat := by
  simp [NumberGroup.numbers, numbers, points, CodePoint.value_number]

end CodeGroup

/-! ### Escapes -/

/-- The letters that a backslash makes a character of, with that character. -/
def namedEscapes : List (Char × Char) :=
  [('n', '\n'), ('t', '\t'), ('s', ' '), ('r', '\r'), ('e', '\x1b'), ('a', '\x07'), ('b', '\x08'),
    ('f', '\x0c'), ('v', '\x0b')]

/-- A character that stands for itself after a backslash. -/
def isPlainEscape (c : Char) : Bool :=
  !c.isAlphanum && c != '\n' && c != '\r' && c != '\x00'

/-- An escape that denotes characters. -/
inductive Escaped where
  /-- A letter for a character. -/
  | named (letter c : Char) (h : (letter, c) ∈ namedEscapes)
  /-- A character for itself. -/
  | itself (c : Char) (h : isPlainEscape c = true)
  /-- A code point of four digits. -/
  | code (p : CodePoint) (h : p.digits.length = 4)
  /-- Code points in braces. -/
  | group (g : CodeGroup)

namespace Escaped

/-- What is written after the backslash. -/
def body : Escaped → List Char
  | named letter _ _ => [letter]
  | itself c _ => [c]
  | code p _ => 'u' :: p.digits
  | group g => 'u' :: '\x7b' :: g.inner ++ ['\x7d']

/-- The characters that an escape denotes. -/
def denoted : Escaped → List Char
  | named _ c _ => [c]
  | itself c _ => [c]
  | code p _ => [p.char]
  | group g => g.points.map CodePoint.char

theorem denoted_ne_nil (e : Escaped) : e.denoted ≠ [] := by
  cases e <;> simp [denoted, CodeGroup.points]

section Itself

variable {c : Char} (h : isPlainEscape c = true)

include h

theorem ne_of_isPlainEscape {d : Char} (hd : isPlainEscape d = false) : c ≠ d := by
  rintro rfl
  exact Bool.false_ne_true (hd.symm.trans h)

theorem isOctalDigit_of_isPlainEscape : isOctalDigit c = false := by
  simp only [isPlainEscape, Char.isAlphanum, Char.isDigit, Bool.and_eq_true, Bool.not_eq_true',
    Bool.or_eq_false_iff, Bool.and_eq_false_iff, decide_eq_false_iff_not] at h
  obtain ⟨⟨⟨⟨-, hdigit⟩, -⟩, -⟩, -⟩ := h
  rw [isOctalDigit, Bool.and_eq_false_iff, decide_eq_false_iff_not, decide_eq_false_iff_not]
  refine hdigit.imp (fun hlow hle => hlow hle) fun hhigh hle => hhigh ?_
  exact UInt32.le_trans hle (by decide)

theorem length?_itself (rest : List Char) : Escape.length? (c :: rest) = some 1 := by
  have hnul : c ≠ '\x00' := ne_of_isPlainEscape h (by decide)
  have hline : c ≠ '\n' := ne_of_isPlainEscape h (by decide)
  have hu : c ≠ 'u' := ne_of_isPlainEscape h (by decide)
  have hx : c ≠ 'x' := ne_of_isPlainEscape h (by decide)
  rw [Escape.length?.eq_def]
  split <;> simp_all [isOctalDigit_of_isPlainEscape]

theorem decode_itself : Escape.decode [c] = [c] := by
  have hletters : ∀ d ∈ ['n', 't', 's', 'r', 'e', 'a', 'b', 'f', 'v', '\n', 'u', 'x'], c ≠ d := by
    have hall : ['n', 't', 's', 'r', 'e', 'a', 'b', 'f', 'v', '\n', 'u', 'x'].all
        (fun d => !isPlainEscape d) = true := by decide
    intro d hd
    exact ne_of_isPlainEscape h (by simpa using List.all_eq_true.mp hall d hd)
  simp only [List.mem_cons, List.not_mem_nil, or_false, forall_eq_or_imp, forall_eq] at hletters
  simp only [Escape.decode, Escape.denotation?]
  split <;> simp_all [isOctalDigit_of_isPlainEscape]

end Itself

theorem length?_code {p : CodePoint} (h : p.digits.length = 4) (rest : List Char) :
    Escape.length? ('u' :: (p.digits ++ rest)) = some 5 := by
  have htake : (p.digits ++ rest).take 4 = p.digits := by rw [← h, List.take_left]
  have hdigits : p.digits.takeWhile isHexDigit = p.digits := List.takeWhile_eq_self_iff.mpr p.hex
  obtain ⟨d, more, hp, hbrace⟩ := p.exists_cons
  have hread : Escape.length? ('u' :: (p.digits ++ rest)) =
      if (((p.digits ++ rest).take 4).takeWhile isHexDigit).length == 4 then some 5 else none := by
    rw [hp, List.cons_append, Escape.length?]
    simpa using hbrace
  rw [hread, htake, hdigits, h]
  rfl

theorem length?_group (g : CodeGroup) (rest : List Char) :
    Escape.length? ('u' :: '\x7b' :: (g.inner ++ '\x7d' :: rest)) = some (g.inner.length + 3) := by
  rw [← g.inner_numbers]
  simpa [NumberGroup.body] using g.numbers.length?_body rest

theorem decode_code (p : CodePoint) : Escape.decode ('u' :: p.digits) = [p.char] := by
  obtain ⟨d, more, hp, hbrace⟩ := p.exists_cons
  have hwords : words p.digits = [p.digits] := words_self p.nonempty p.number.isSeparator_of_mem
  have hgroups : Escape.groups? p.digits = some [p.digits] := by
    rw [← hwords, hp, Escape.groups?]
    simpa using hbrace
  have hnumber : number? 16 p.digits = some p.char.toNat := by
    rw [← p.value_number]
    exact p.number.number?_digits
  have hchars : scalars? [p.digits] = some [p.char] :=
    scalars?_eq_some_iff.mpr (congrArg (fun n => [n]) hnumber)
  rw [Escape.decode, Escape.denotation?, hgroups, Option.bind_some, hchars, Option.getD_some]

theorem decode_group (g : CodeGroup) :
    Escape.decode ('u' :: '\x7b' :: g.inner ++ ['\x7d']) = g.points.map CodePoint.char := by
  rw [← g.inner_numbers, ← NumberGroup.body, Escape.decode,
    g.numbers.denotation?_eq_some_iff.mpr g.values_numbers, Option.getD_some]

/-- An escape ends where it does whatever follows it. -/
theorem length?_body (e : Escaped) (rest : List Char) :
    Escape.length? (e.body ++ rest) = some e.body.length := by
  cases e with
  | named letter c h =>
      simp only [namedEscapes, List.mem_cons, Prod.mk.injEq, List.not_mem_nil, or_false] at h
      rcases h with ⟨rfl, -⟩ | ⟨rfl, -⟩ | ⟨rfl, -⟩ | ⟨rfl, -⟩ | ⟨rfl, -⟩ | ⟨rfl, -⟩ | ⟨rfl, -⟩ |
        ⟨rfl, -⟩ | ⟨rfl, -⟩ <;> rfl
  | itself c h => exact length?_itself h rest
  | code p h => simpa [body, h] using length?_code h rest
  | group g => simpa [body] using length?_group g rest

/-- An escape is read as the characters it denotes. -/
theorem decode_body (e : Escaped) : Escape.decode e.body = e.denoted := by
  cases e with
  | named letter c h =>
      simp only [namedEscapes, List.mem_cons, Prod.mk.injEq, List.not_mem_nil, or_false] at h
      rcases h with ⟨rfl, rfl⟩ | ⟨rfl, rfl⟩ | ⟨rfl, rfl⟩ | ⟨rfl, rfl⟩ | ⟨rfl, rfl⟩ | ⟨rfl, rfl⟩ |
        ⟨rfl, rfl⟩ | ⟨rfl, rfl⟩ | ⟨rfl, rfl⟩ <;> rfl
  | itself c h => exact decode_itself h
  | code p h => exact decode_code p
  | group g => exact decode_group g

end Escaped

end FactoryRoster.Source
