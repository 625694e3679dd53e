import Mathlib.Data.List.TakeDrop
import FactoryRoster.Proofs.Json.Values

/-!
# The grammar of JSON

What JSON is, apart from any reader: numbers, strings, lists and objects, with blanks wherever the
format allows them. A value of this grammar is passed over, whatever it is, if what comes after it
may stand after a value (`Json.IsValue.dropValue`), and a string that spells a text is read as that
text (`Json.Spells.quoted`).
-/

namespace FactoryRoster.Json

/-- Blanks, of which there may be none. -/
def Blanks (cs : List Char) : Prop :=
  ∀ c ∈ cs, isBlank c = true

/-- A text that begins as it may after a value. -/
def Ends (cs : List Char) : Prop :=
  ∀ c ∈ cs.head?, isBlank c = true ∨ c = ',' ∨ c = ']' ∨ c = '\x7d'

theorem blanks_nil : Blanks [] := by
  intro c hc
  cases hc

theorem dropBlanks_append {gap : List Char} (hgap : Blanks gap) (cs : List Char) :
    dropBlanks (gap ++ cs) = dropBlanks cs := by
  induction gap with
  | nil => rfl
  | cons c gap ih =>
      have hc : isBlank c = true := hgap c List.mem_cons_self
      have hmore : Blanks gap := fun d hd => hgap d (List.mem_cons_of_mem c hd)
      rw [← ih hmore, List.cons_append, dropBlanks, List.dropWhile_cons_of_pos hc, ← dropBlanks]

theorem dropBlanks_append_cons {gap : List Char} (hgap : Blanks gap) {c : Char}
    (hc : isBlank c = false) (cs : List Char) : dropBlanks (gap ++ c :: cs) = c :: cs := by
  rw [dropBlanks_append hgap, dropBlanks_cons hc]

/-- A value ends at a comma or at a closing mark, with blanks before it. -/
theorem Ends.append_cons {gap : List Char} (hgap : Blanks gap) {c : Char}
    (hc : c = ',' ∨ c = ']' ∨ c = '\x7d') (rest : List Char) : Ends (gap ++ c :: rest) := by
  cases gap with
  | nil =>
      intro d hd
      cases hd
      exact Or.inr hc
  | cons b gap =>
      intro d hd
      cases hd
      exact Or.inl (hgap b List.mem_cons_self)

/-! ### Numbers -/

/-- Digits, of which there is at least one. -/
def Digits (ds : List Char) : Prop :=
  ds ≠ [] ∧ ∀ d ∈ ds, d.isDigit = true

inductive FractionText : List Char → Prop
  | none : FractionText []
  | digits {ds : List Char} (hds : Digits ds) : FractionText ('.' :: ds)

inductive ExponentText : List Char → Prop
  | none : ExponentText []
  | digits {e : Char} {sign ds : List Char} (he : e = 'e' ∨ e = 'E')
      (hsign : sign = [] ∨ sign = ['+'] ∨ sign = ['-']) (hds : Digits ds) :
      ExponentText (e :: (sign ++ ds))

/-- A number without its sign. -/
inductive NumberText : List Char → Prop
  | mk {whole fraction exponent : List Char} (hwhole : Digits whole)
      (hzero : whole.head? = some '0' → whole = ['0']) (hfraction : FractionText fraction)
      (hexponent : ExponentText exponent) : NumberText (whole ++ (fraction ++ exponent))

/-- A text that does not begin with a digit. -/
def NoDigit (cs : List Char) : Prop :=
  ∀ c ∈ cs.head?, c.isDigit = false

theorem Ends.ne {rest : List Char} (hrest : Ends rest) {c : Char} {cs : List Char}
    (hcs : rest = c :: cs) :
    c.isDigit = false ∧ c ≠ '.' ∧ c ≠ 'e' ∧ c ≠ 'E' := by
  subst hcs
  have hc := hrest c rfl
  simp only [isBlank, Bool.or_eq_true, beq_iff_eq] at hc
  rcases hc with ((((rfl | rfl) | rfl) | rfl) | rfl | rfl | rfl) <;> decide

theorem Ends.noDigit {rest : List Char} (hrest : Ends rest) : NoDigit rest := by
  cases rest with
  | nil =>
      intro c hc
      cases hc
  | cons c cs =>
      intro d hd
      cases hd
      exact (hrest.ne rfl).1

theorem span_digits {ds rest : List Char} (hds : ∀ d ∈ ds, d.isDigit = true)
    (hrest : NoDigit rest) : digits (ds ++ rest) = (ds, rest) := by
  rw [digits, List.span_eq_takeWhile_dropWhile, List.takeWhile_append_of_pos hds,
    List.dropWhile_append_of_pos hds]
  cases rest with
  | nil => simp
  | cons c cs =>
      have hc : ¬ c.isDigit = true := by
        rw [hrest c rfl]
        decide
      rw [List.takeWhile_cons_of_neg hc, List.dropWhile_cons_of_neg hc, List.append_nil]

theorem Digits.some {ds rest : List Char} (hds : Digits ds) (hrest : NoDigit rest) :
    someDigits (ds ++ rest) = .ok (ds, rest) := by
  obtain ⟨hne, hall⟩ := hds
  obtain ⟨d, ds, rfl⟩ := List.exists_cons_of_ne_nil hne
  rw [someDigits, span_digits hall hrest]

theorem ExponentText.exponent {cs rest : List Char} (h : ExponentText cs) (hrest : Ends rest) :
    ∃ n, exponent (cs ++ rest) = .ok (n, rest) := by
  cases h with
  | none =>
      refine ⟨0, ?_⟩
      cases rest with
      | nil => rfl
      | cons c cs =>
          obtain ⟨-, -, he, hE⟩ := hrest.ne rfl
          simp [Json.exponent, he, hE]
  | @digits e sign ds he hsign hds =>
      have hmark : (e = 'e' || e = 'E') = true := by simpa using he
      have hread := hds.some hrest.noDigit
      rcases hsign with rfl | rfl | rfl
      · refine ⟨decimalValue ds, ?_⟩
        obtain ⟨d, ds, rfl⟩ := List.exists_cons_of_ne_nil hds.1
        have hd : d.isDigit = true := hds.2 d List.mem_cons_self
        have hminus : d ≠ '-' := by
          rintro rfl
          exact absurd hd (by decide)
        have hplus : d ≠ '+' := by
          rintro rfl
          exact absurd hd (by decide)
        rw [List.cons_append] at hread
        show Json.exponent (e :: d :: (ds ++ rest)) = _
        rw [Json.exponent, if_pos hmark, hread]
        · rfl
        · intro cs heq
          exact hminus (List.cons.inj heq).1
        · intro cs heq
          exact hplus (List.cons.inj heq).1
      · refine ⟨decimalValue ds, ?_⟩
        show Json.exponent (e :: '+' :: (ds ++ rest)) = _
        rw [Json.exponent, if_pos hmark, hread]
        rfl
      · refine ⟨-decimalValue ds, ?_⟩
        show Json.exponent (e :: '-' :: (ds ++ rest)) = _
        rw [Json.exponent, if_pos hmark, hread]
        rfl

theorem ExponentText.head {cs rest : List Char} (h : ExponentText cs) (hrest : Ends rest) :
    NoDigit (cs ++ rest) ∧ ∀ more, cs ++ rest ≠ '.' :: more := by
  cases h with
  | none =>
      refine ⟨hrest.noDigit, ?_⟩
      intro more hmore
      exact (hrest.ne hmore).2.1 rfl
  | @digits e sign ds he hsign hds =>
      constructor
      · intro c hc
        cases hc
        rcases he with rfl | rfl <;> decide
      · intro more hmore
        obtain ⟨rfl, -⟩ := List.cons.inj hmore
        rcases he with he | he <;> exact absurd he (by decide)

theorem NumberText.dropNumber {cs rest : List Char} (h : NumberText cs) (hrest : Ends rest) :
    dropNumber (cs ++ rest) = .ok rest := by
  obtain ⟨hwhole, hzero, hfraction, hexponent⟩ := h
  rename_i whole fraction exponent
  obtain ⟨hdigit, hpoint⟩ := hexponent.head hrest
  obtain ⟨n, hn⟩ := hexponent.exponent hrest
  have hlead : (whole.length > 1 && whole.head? == some '0') = false := by
    rw [Bool.and_eq_false_imp]
    intro hlength
    rw [beq_eq_false_iff_ne]
    intro hhead
    rw [hzero hhead] at hlength
    exact absurd hlength (by decide)
  have hdecimal : ∃ d, decimal (whole ++ (fraction ++ (exponent ++ rest))) = .ok (d, rest) := by
    cases hfraction with
    | none =>
        refine ⟨⟨whole, [], n⟩, ?_⟩
        rw [List.nil_append, decimal, hwhole.some hdigit]
        simp only [bind, Except.bind, hlead, Bool.false_eq_true, if_false, hn]
    | @digits ds hds =>
        refine ⟨⟨whole, ds, n⟩, ?_⟩
        have hpoint' : NoDigit ('.' :: (ds ++ (exponent ++ rest))) := by
          intro c hc
          cases hc
          rfl
        rw [List.cons_append, decimal, hwhole.some hpoint']
        simp only [bind, Except.bind, hlead, Bool.false_eq_true, if_false, hds.some hdigit, hn]
  obtain ⟨d, hd⟩ := hdecimal
  rw [List.append_assoc, List.append_assoc, Json.dropNumber, hd]

/-! ### Strings -/

/-- What may stand between the quotation marks of a string. -/
inductive StringBody : List Char → Prop
  | nil : StringBody []
  | plain {c : Char} {body : List Char} (hquote : c ≠ '"') (hescape : c ≠ '\\')
      (hcontrol : ¬ c.toNat < 0x20) (h : StringBody body) : StringBody (c :: body)
  | named {e : Char} {body : List Char} (he : (named? e).isSome) (h : StringBody body) :
      StringBody ('\\' :: e :: body)
  | number {digits body : List Char} (hlength : digits.length = 4)
      (hdigits : ∀ d ∈ digits, isHexDigit d = true) (h : StringBody body) :
      StringBody ('\\' :: 'u' :: (digits ++ body))

/-- The ways to write a text between quotation marks. A character above U+FFFF that is written by
number takes two of them. -/
inductive Spells : List Char → List Char → Prop
  | nil : Spells [] []
  | plain {c : Char} {chars body : List Char} (hquote : c ≠ '"') (hescape : c ≠ '\\')
      (hcontrol : ¬ c.toNat < 0x20) (h : Spells chars body) : Spells (c :: chars) (c :: body)
  | named {c e : Char} {chars body : List Char} (he : named? e = some c) (h : Spells chars body) :
      Spells (c :: chars) ('\\' :: e :: body)
  | number {n : Nat} {digits chars body : List Char} (hlength : digits.length = 4)
      (hn : hexNumber? digits = some n) (hchar : n.isValidChar) (h : Spells chars body) :
      Spells (Char.ofNat n :: chars) ('\\' :: 'u' :: (digits ++ body))
  | pair {high low : Nat} {digits digits' chars body : List Char} (hlength : digits.length = 4)
      (hhigh : hexNumber? digits = some high) (hhighHalf : isHighHalf high = true)
      (hlength' : digits'.length = 4) (hlow : hexNumber? digits' = some low)
      (hlowHalf : isLowHalf low = true) (h : Spells chars body) :
      Spells (joinHalves high low :: chars)
        ('\\' :: 'u' :: (digits ++ '\\' :: 'u' :: (digits' ++ body)))

theorem quotedText_number (paired : Bool) (high : Option Nat) {n : Nat} {digits : List Char}
    (hlength : digits.length = 4) (hn : hexNumber? digits = some n) (rest : List Char) :
    quotedText paired high ('\\' :: 'u' :: (digits ++ rest)) =
      match high with
      | none =>
        if !paired then quotedText paired none rest
        else if isLowHalf n then .error .malformed
        else if isHighHalf n then quotedText paired (some n) rest
        else (quotedText paired none rest).map fun (text, rest) => (Char.ofNat n :: text, rest)
      | some h =>
        if isLowHalf n then
          (quotedText paired none rest).map fun (text, rest) => (joinHalves h n :: text, rest)
        else .error .malformed := by
  obtain ⟨a, b, c, d, rfl⟩ : ∃ a b c d, digits = [a, b, c, d] := by
    match digits, hlength with
    | [a, b, c, d], _ => exact ⟨a, b, c, d, rfl⟩
  show quotedText paired high ('\\' :: 'u' :: a :: b :: c :: d :: rest) = _
  rw [quotedText.eq_def]
  cases high <;> simp only [hn]

theorem Spells.quoted {chars body : List Char} (h : Spells chars body) (rest : List Char) :
    quoted (body ++ '"' :: rest) = .ok (chars, rest) := by
  rw [Json.quoted]
  induction h with
  | nil => rfl
  | plain hquote hescape hcontrol h ih =>
      rw [List.cons_append, quotedText_plain true hquote hescape hcontrol, ih]
      rfl
  | named he h ih =>
      rw [List.cons_append, List.cons_append, quotedText_named true he, ih]
      rfl
  | @number n digits chars body hlength hn hchar h ih =>
      have hlow : isLowHalf n = false := by
        rw [isLowHalf, Bool.and_eq_false_iff, decide_eq_false_iff_not, decide_eq_false_iff_not]
        rcases hchar with hchar | ⟨hchar, -⟩ <;> omega
      have hhigh : isHighHalf n = false := by
        rw [isHighHalf, Bool.and_eq_false_iff, decide_eq_false_iff_not, decide_eq_false_iff_not]
        rcases hchar with hchar | ⟨hchar, -⟩ <;> omega
      rw [List.cons_append, List.cons_append, List.append_assoc,
        quotedText_number true none hlength hn, ih]
      simp only [Bool.not_true, Bool.false_eq_true, if_false, hlow, hhigh]
      rfl
  | @pair high low digits digits' chars body hlength hhigh hhighHalf hlength' hlow hlowHalf h ih =>
      have hnotLow : isLowHalf high = false := by
        simp only [isHighHalf, Bool.and_eq_true, decide_eq_true_eq] at hhighHalf
        rw [isLowHalf, Bool.and_eq_false_iff, decide_eq_false_iff_not]
        omega
      rw [List.cons_append, List.cons_append, List.append_assoc, List.cons_append,
        List.cons_append, List.append_assoc, quotedText_number true none hlength hhigh]
      simp only [Bool.not_true, Bool.false_eq_true, if_false, hnotLow, hhighHalf, if_true]
      rw [quotedText_number true (some high) hlength' hlow, ih]
      simp only [hlowHalf, if_true]
      rfl

/-- A text is spelled as it is written by `quote`. -/
theorem spells_flatMap_escape (chars : List Char) : Spells chars (chars.flatMap escape) := by
  induction chars with
  | nil => exact .nil
  | cons c chars ih =>
      rw [List.flatMap_cons]
      obtain ⟨e, he, htext⟩ | ⟨hcontrol, htext⟩ | ⟨hquote, hescape, hcontrol, htext⟩ :=
        escape_cases c
      · rw [htext]
        exact .named he ih
      · have hchar : c.toNat.isValidChar := Or.inl (by omega)
        have hspells := Spells.number rfl (hexNumber?_control hcontrol) hchar ih
        rw [Char.ofNat_toNat] at hspells
        rw [htext]
        exact hspells
      · rw [htext]
        exact .plain hquote hescape hcontrol ih

theorem hexNumber?_of_all {digits : List Char} (h : ∀ d ∈ digits, isHexDigit d = true) :
    hexNumber? digits = some (numeral 16 digits) :=
  if_pos (List.all_eq_true.mpr h)

theorem StringBody.dropQuoted {body : List Char} (h : StringBody body) (rest : List Char) :
    dropQuoted (body ++ '"' :: rest) = .ok rest := by
  suffices hread : ∃ text, quotedText false none (body ++ '"' :: rest) = .ok (text, rest) by
    obtain ⟨text, htext⟩ := hread
    rw [Json.dropQuoted, htext]
    rfl
  induction h with
  | nil => exact ⟨[], rfl⟩
  | @plain c body hquote hescape hcontrol h ih =>
      obtain ⟨text, htext⟩ := ih
      refine ⟨c :: text, ?_⟩
      rw [List.cons_append, quotedText_plain false hquote hescape hcontrol, htext]
      rfl
  | @named e body he h ih =>
      obtain ⟨text, htext⟩ := ih
      obtain ⟨c, hc⟩ := Option.isSome_iff_exists.mp he
      refine ⟨c :: text, ?_⟩
      rw [List.cons_append, List.cons_append, quotedText_named false hc, htext]
      rfl
  | @number digits body hlength hdigits h ih =>
      obtain ⟨text, htext⟩ := ih
      refine ⟨text, ?_⟩
      rw [List.cons_append, List.cons_append, List.append_assoc,
        quotedText_number false none hlength (hexNumber?_of_all hdigits), htext]
      rfl

/-! ### Lists and objects -/

/-- Items with commas between them and blanks around each of them. -/
inductive Listed {α : Type} (Item : α → List Char → Prop) : List α → List Char → Prop
  | nil {gap : List Char} (hgap : Blanks gap) : Listed Item [] gap
  | single {x : α} {before item after : List Char} (hbefore : Blanks before) (hitem : Item x item)
      (hafter : Blanks after) : Listed Item [x] (before ++ (item ++ after))
  | cons {x y : α} {xs : List α} {before item after more : List Char} (hbefore : Blanks before)
      (hitem : Item x item) (hafter : Blanks after) (hmore : Listed Item (y :: xs) more) :
      Listed Item (x :: y :: xs) (before ++ (item ++ (after ++ ',' :: more)))

/-- The texts of a member, its key being written as `Key` has it. -/
inductive IsMember {κ : Type} (Key : κ → List Char → Prop) : κ × List Char → List Char → Prop
  | mk {key : κ} {body before after value : List Char} (hkey : Key key body)
      (hbefore : Blanks before) (hafter : Blanks after) :
      IsMember Key (key, value) ('"' :: (body ++ '"' :: (before ++ ':' :: (after ++ value))))

theorem IsMember.length_lt {κ : Type} {Key : κ → List Char → Prop} {member : κ × List Char}
    {written : List Char} (h : IsMember Key member written) : member.2.length < written.length := by
  cases h with
  | mk hkey hbefore hafter =>
      simp only [List.length_cons, List.length_append]
      omega

theorem IsMember.exists_quote {κ : Type} {Key : κ → List Char → Prop} {member : κ × List Char}
    {written : List Char} (h : IsMember Key member written) : ∃ cs, written = '"' :: cs := by
  cases h with
  | mk hkey hbefore hafter => exact ⟨_, rfl⟩

/-- The texts of the values of any shape. -/
inductive IsValue : List Char → Prop
  | null : IsValue ['n', 'u', 'l', 'l']
  | truth (b : Bool) : IsValue (truthText b)
  | number {cs : List Char} (h : NumberText cs) : IsValue cs
  | negative {cs : List Char} (h : NumberText cs) : IsValue ('-' :: cs)
  | string {body : List Char} (h : StringBody body) : IsValue ('"' :: (body ++ ['"']))
  | list {items : List (List Char)} {inner : List Char} (hitems : ∀ item ∈ items, IsValue item)
      (hinner : Listed Eq items inner) : IsValue ('[' :: (inner ++ [']']))
  | object {members : List (List Char × List Char)} {inner : List Char}
      (hkeys : ∀ m ∈ members, StringBody m.1) (hvalues : ∀ m ∈ members, IsValue m.2)
      (hinner : Listed (IsMember Eq) members inner) : IsValue ('\x7b' :: (inner ++ ['\x7d']))

/-- Whether a reader that yields nothing takes a text off, with blanks before it and whatever may
stand after a value. -/
def Drops (drop : List Char → Except Fault (List Char)) (written : List Char) : Prop :=
  ∀ ⦃before rest : List Char⦄, Blanks before → Ends rest →
    drop (before ++ (written ++ rest)) = .ok rest

theorem NumberText.exists_cons {cs : List Char} (h : NumberText cs) :
    ∃ d ds, cs = d :: ds ∧ d.isDigit = true := by
  cases h with
  | mk hwhole hzero hfraction hexponent =>
      obtain ⟨d, ds, rfl⟩ := List.exists_cons_of_ne_nil hwhole.1
      exact ⟨d, _, rfl, hwhole.2 d List.mem_cons_self⟩

theorem not_isBlank_of_isDigit {d : Char} (hd : d.isDigit = true) :
    isBlank d = false ∧ d ≠ ']' := by
  constructor
  · rw [Bool.eq_false_iff]
    intro hblank
    simp only [isBlank, Bool.or_eq_true, beq_iff_eq] at hblank
    rcases hblank with ((rfl | rfl) | rfl) | rfl <;> exact absurd hd (by decide)
  · rintro rfl
    exact absurd hd (by decide)

theorem IsValue.opens {written : List Char} (h : IsValue written) : Opens written := by
  cases h with
  | null => exact ⟨_, _, rfl, by decide, by decide⟩
  | truth b => cases b <;> exact ⟨_, _, rfl, by decide, by decide⟩
  | number h =>
      obtain ⟨d, ds, rfl, hd⟩ := h.exists_cons
      obtain ⟨hblank, hend⟩ := not_isBlank_of_isDigit hd
      exact ⟨d, ds, rfl, hblank, hend⟩
  | negative h => exact ⟨_, _, rfl, by decide, by decide⟩
  | string h => exact ⟨_, _, rfl, by decide, by decide⟩
  | list hitems hinner => exact ⟨_, _, rfl, by decide, by decide⟩
  | object hkeys hvalues hinner => exact ⟨_, _, rfl, by decide, by decide⟩

theorem Listed.exists_append {α : Type} {Item : α → List Char → Prop} {x : α} {xs : List α}
    {inner : List Char} (h : Listed Item (x :: xs) inner) :
    ∃ before item more, Blanks before ∧ Item x item ∧ inner = before ++ (item ++ more) := by
  cases h with
  | single hbefore hitem hafter => exact ⟨_, _, _, hbefore, hitem, rfl⟩
  | cons hbefore hitem hafter hmore => exact ⟨_, _, _, hbefore, hitem, rfl⟩

theorem dropItemsWithin_listed {items : List (List Char)} {inner : List Char}
    (hinner : Listed Eq items inner) (hne : items ≠ [])
    (hitems : ∀ item ∈ items, ∀ depth, 2 * item.length ≤ depth → Drops (dropValueWithin depth) item)
    {depth : Nat} (hdepth : 2 * inner.length < depth) (rest : List Char) :
    dropItemsWithin depth (inner ++ ']' :: rest) = .ok rest := by
  obtain ⟨depth, rfl⟩ := Nat.exists_eq_add_one_of_ne_zero (Nat.ne_zero_of_lt hdepth)
  induction hinner generalizing depth with
  | nil hgap => exact absurd rfl hne
  | @single item before _ after hbefore hitem hafter =>
      subst hitem
      simp only [List.length_append] at hdepth
      have hread := hitems item List.mem_cons_self depth (by omega) hbefore
        (Ends.append_cons hafter (.inr (.inl rfl)) rest)
      rw [List.append_assoc, List.append_assoc, dropItemsWithin, hread]
      simp only [bind, Except.bind, dropBlanks_append_cons hafter (by decide : isBlank ']' = false)]
  | @cons item next items before _ after more hbefore hitem hafter hmore ih =>
      subst hitem
      simp only [List.length_append, List.length_cons] at hdepth
      obtain ⟨depth, rfl⟩ : ∃ n, depth = n + 1 := ⟨depth - 1, by omega⟩
      rw [List.forall_mem_cons] at hitems
      have hread := hitems.1 (depth + 1) (by omega) hbefore
        (Ends.append_cons hafter (.inl rfl) (more ++ ']' :: rest))
      have hrest := ih (by simp) hitems.2 depth (by omega)
      rw [List.append_assoc, List.append_assoc, List.append_assoc, List.cons_append,
        dropItemsWithin, hread]
      simp only [bind, Except.bind, dropBlanks_append_cons hafter (by decide : isBlank ',' = false)]
      exact hrest

theorem dropMembersWithin_quote (depth : Nat) {before : List Char} (hbefore : Blanks before)
    (rest : List Char) :
    dropMembersWithin (depth + 1) (before ++ '"' :: rest) = (do
      let rest ← dropQuoted rest
      match dropBlanks rest with
      | ':' :: rest => do
        let rest ← dropValueWithin depth rest
        match dropBlanks rest with
        | ',' :: rest => dropMembersWithin depth rest
        | '\x7d' :: rest => .ok rest
        | rest => .error (unexpected rest)
      | rest => .error (unexpected rest)) := by
  rw [dropMembersWithin, dropBlanks_append_cons hbefore (by decide)]
  rfl

/-- One member is passed over, with whatever may come after its value. -/
theorem dropMembersWithin_isMember {member : List Char × List Char} {written : List Char}
    (h : IsMember Eq member written) (hkey : StringBody member.1) {depth : Nat}
    (hvalue : Drops (dropValueWithin depth) member.2) {before rest : List Char}
    (hbefore : Blanks before) (hrest : Ends rest) :
    dropMembersWithin (depth + 1) (before ++ (written ++ rest)) =
      match dropBlanks rest with
      | ',' :: rest => dropMembersWithin depth rest
      | '\x7d' :: rest => .ok rest
      | rest => .error (unexpected rest) := by
  cases h with
  | @mk key body gap gap' value hbody hgap hgap' =>
      subst hbody
      have htext : '"' :: (key ++ '"' :: (gap ++ ':' :: (gap' ++ value))) ++ rest =
          '"' :: (key ++ '"' :: (gap ++ ':' :: (gap' ++ (value ++ rest)))) := by simp
      rw [htext, dropMembersWithin_quote depth hbefore, hkey.dropQuoted]
      simp only [bind, Except.bind, dropBlanks_append_cons hgap (by decide : isBlank ':' = false)]
      rw [hvalue hgap' hrest]

theorem dropMembersWithin_listed {members : List (List Char × List Char)} {inner : List Char}
    (hinner : Listed (IsMember Eq) members inner) (hne : members ≠ [])
    (hkeys : ∀ m ∈ members, StringBody m.1)
    (hvalues : ∀ m ∈ members, ∀ depth, 2 * m.2.length ≤ depth → Drops (dropValueWithin depth) m.2)
    {depth : Nat} (hdepth : 2 * inner.length < depth) (rest : List Char) :
    dropMembersWithin depth (inner ++ '\x7d' :: rest) = .ok rest := by
  obtain ⟨depth, rfl⟩ := Nat.exists_eq_add_one_of_ne_zero (Nat.ne_zero_of_lt hdepth)
  induction hinner generalizing depth with
  | nil hgap => exact absurd rfl hne
  | @single member before written after hbefore hmember hafter =>
      have hlength := hmember.length_lt
      simp only [List.length_append] at hdepth
      have hvalue := hvalues member List.mem_cons_self depth (by omega)
      rw [List.append_assoc, List.append_assoc,
        dropMembersWithin_isMember hmember (hkeys member List.mem_cons_self) hvalue hbefore
          (Ends.append_cons hafter (.inr (.inr rfl)) rest),
        dropBlanks_append_cons hafter (by decide)]
      rfl
  | @cons member next members before written after more hbefore hmember hafter hmore ih =>
      have hlength := hmember.length_lt
      simp only [List.length_append, List.length_cons] at hdepth
      obtain ⟨depth, rfl⟩ : ∃ n, depth = n + 1 := ⟨depth - 1, by omega⟩
      rw [List.forall_mem_cons] at hkeys hvalues
      have hvalue := hvalues.1 (depth + 1) (by omega)
      have hrest := ih (by simp) hkeys.2 hvalues.2 depth (by omega)
      rw [List.append_assoc, List.append_assoc, List.append_assoc, List.cons_append,
        dropMembersWithin_isMember hmember hkeys.1 hvalue hbefore
          (Ends.append_cons hafter (.inl rfl) (more ++ '\x7d' :: rest)),
        dropBlanks_append_cons hafter (by decide)]
      exact hrest

theorem Listed.dropBlanks_nil {α : Type} {Item : α → List Char → Prop} {inner : List Char}
    (h : Listed Item [] inner) {c : Char} (hc : isBlank c = false) (rest : List Char) :
    dropBlanks (inner ++ c :: rest) = c :: rest := by
  cases h with
  | nil hgap => exact dropBlanks_append_cons hgap hc rest

theorem Listed.dropBlanks_cons {α : Type} {Item : α → List Char → Prop} {x : α} {xs : List α}
    {inner : List Char} (h : Listed Item (x :: xs) inner) (rest : List Char) :
    ∃ item more, Item x item ∧ ∀ c cs, item = c :: cs → isBlank c = false →
      dropBlanks (inner ++ rest) = c :: (cs ++ more) := by
  obtain ⟨before, item, more, hbefore, hitem, rfl⟩ := h.exists_append
  refine ⟨item, more ++ rest, hitem, ?_⟩
  rintro c cs rfl hc
  rw [List.append_assoc, List.append_assoc, List.cons_append, dropBlanks_append_cons hbefore hc]

theorem drops_of_cons {depth : Nat} {c : Char} {cs : List Char} (hc : isBlank c = false)
    (hdepth : 2 * (c :: cs).length ≤ depth)
    (h : ∀ n, 2 * cs.length < n → ∀ rest, Ends rest →
      dropValueWithin (n + 1) (c :: (cs ++ rest)) = .ok rest) :
    Drops (dropValueWithin depth) (c :: cs) := by
  intro before rest hbefore hrest
  rw [List.length_cons] at hdepth
  obtain ⟨depth, rfl⟩ : ∃ n, depth = n + 1 := ⟨depth - 1, by omega⟩
  have hread := h depth (by omega) rest hrest
  rw [dropValueWithin, dropBlanks_cons hc] at hread
  rw [List.cons_append, dropValueWithin, dropBlanks_append_cons hbefore hc]
  exact hread

theorem dropValueWithin_digit {d : Char} (hd : d.isDigit = true) (n : Nat) (cs : List Char) :
    dropValueWithin (n + 1) (d :: cs) = dropNumber (d :: cs) := by
  rw [dropValueWithin, dropBlanks_cons (not_isBlank_of_isDigit hd).1]
  split <;> simp_all

theorem dropValueWithin_bracket {items : List (List Char)} {inner : List Char}
    (hinner : Listed Eq items inner) (hopens : ∀ item ∈ items, Opens item)
    (hitems : ∀ item ∈ items, ∀ depth, 2 * item.length ≤ depth → Drops (dropValueWithin depth) item)
    {n : Nat} (hn : 2 * inner.length < n) (rest : List Char) :
    dropValueWithin (n + 1) ('[' :: (inner ++ ']' :: rest)) = .ok rest := by
  rw [dropValueWithin, dropBlanks_cons (by decide)]
  simp only
  cases items with
  | nil =>
      rw [hinner.dropBlanks_nil (by decide)]
      rfl
  | cons item items =>
      obtain ⟨_, more, rfl, hdrop⟩ := hinner.dropBlanks_cons (']' :: rest)
      obtain ⟨c, cs, hitem, hblank, hend⟩ := hopens _ List.mem_cons_self
      rw [hdrop c cs hitem hblank]
      split
      · rename_i heq
        exact absurd (List.cons.inj heq).1 hend
      · exact dropItemsWithin_listed hinner (by simp) hitems hn rest

theorem dropValueWithin_brace {members : List (List Char × List Char)} {inner : List Char}
    (hinner : Listed (IsMember Eq) members inner) (hkeys : ∀ m ∈ members, StringBody m.1)
    (hvalues : ∀ m ∈ members, ∀ depth, 2 * m.2.length ≤ depth → Drops (dropValueWithin depth) m.2)
    {n : Nat} (hn : 2 * inner.length < n) (rest : List Char) :
    dropValueWithin (n + 1) ('\x7b' :: (inner ++ '\x7d' :: rest)) = .ok rest := by
  rw [dropValueWithin, dropBlanks_cons (by decide)]
  simp only
  cases members with
  | nil =>
      rw [hinner.dropBlanks_nil (by decide)]
      rfl
  | cons member members =>
      obtain ⟨item, more, hmember, hdrop⟩ := hinner.dropBlanks_cons ('\x7d' :: rest)
      obtain ⟨cs, rfl⟩ := hmember.exists_quote
      rw [hdrop _ _ rfl (by decide)]
      exact dropMembersWithin_listed hinner (by simp) hkeys hvalues hn rest

/-- Every value is passed over, within twice its length. -/
theorem IsValue.drops {written : List Char} (h : IsValue written) (depth : Nat)
    (hdepth : 2 * written.length ≤ depth) : Drops (dropValueWithin depth) written := by
  induction h generalizing depth with
  | null =>
      apply drops_of_cons (by decide) hdepth
      intro n hn rest hrest
      rfl
  | truth b =>
      cases b <;>
      · apply drops_of_cons (by decide) hdepth
        intro n hn rest hrest
        rfl
  | number h =>
      obtain ⟨d, ds, rfl, hd⟩ := h.exists_cons
      apply drops_of_cons (not_isBlank_of_isDigit hd).1 hdepth
      intro n hn rest hrest
      rw [dropValueWithin_digit hd, ← List.cons_append, h.dropNumber hrest]
  | negative h =>
      apply drops_of_cons (by decide) hdepth
      intro n hn rest hrest
      exact h.dropNumber hrest
  | string h =>
      apply drops_of_cons (by decide) hdepth
      intro n hn rest hrest
      rw [List.append_assoc]
      exact h.dropQuoted rest
  | list hitems hinner ih =>
      apply drops_of_cons (by decide) hdepth
      intro n hn rest hrest
      rw [List.length_append] at hn
      rw [List.append_assoc]
      exact dropValueWithin_bracket hinner (fun item h => (hitems item h).opens) ih (by omega) rest
  | object hkeys hvalues hinner ih =>
      apply drops_of_cons (by decide) hdepth
      intro n hn rest hrest
      rw [List.length_append] at hn
      rw [List.append_assoc]
      exact dropValueWithin_brace hinner hkeys ih (by omega) rest

/-- Every value is passed over. -/
theorem IsValue.dropValue {written : List Char} (h : IsValue written) :
    Drops dropValue written := by
  intro before rest hbefore hrest
  rw [Json.dropValue]
  apply h.drops _ _ hbefore hrest
  simp only [List.length_append]
  omega

end FactoryRoster.Json
