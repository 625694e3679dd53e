import FactoryRoster.Proofs.Source.Delimited
import FactoryRoster.Proofs.Source.Spelled

/-!
# Names as literals

A name of ASCII letters, digits and underscores may be written as a symbol, as a string or as a
quoted symbol. Each of these literals is read as the name where an argument may begin, also if the
name is a reserved word.
-/

namespace FactoryRoster.Source

/-! ### Plain names -/

/-- A name of ASCII letters, digits and underscores. It may be a reserved word. -/
structure IsPlainName (name : List Char) : Prop where
  ne_nil : name ≠ []
  chars : ∀ c ∈ name, isPlainNameChar c = true

section Characters

variable {c : Char} (h : isPlainNameChar c = true)

include h

theorem not_mem_of_isPlainNameChar {marks : List Char}
    (hmarks : marks.all (!isPlainNameChar ·) = true) : c ∉ marks := by
  intro hc
  have hmark := List.all_eq_true.mp hmarks c hc
  rw [h] at hmark
  exact Bool.false_ne_true hmark

theorem toNat_lt_of_isPlainNameChar : c.toNat < 0x80 := by
  have hbound : ∀ last : Char, last.toNat < 0x80 → c.val ≤ last.val → c.toNat < 0x80 :=
    fun _ hlast hle => Nat.lt_of_le_of_lt (UInt32.le_iff_toNat_le.mp hle) hlast
  simp only [isPlainNameChar, Char.isAlphanum, Bool.or_eq_true, beq_iff_eq] at h
  obtain (halpha | hdigit) | rfl := h
  · rcases Bool.or_eq_true_iff.mp halpha with hupper | hlower
    · exact hbound 'Z' (by decide) (of_decide_eq_true hupper).2
    · exact hbound 'z' (by decide) (of_decide_eq_true (Bool.and_eq_true_iff.mp hlower).2)
  · exact hbound '9' (by decide) (of_decide_eq_true (Bool.and_eq_true_iff.mp hdigit).2)
  · decide

theorem isRaw_of_isPlainNameChar : isRaw c = true := by
  have hmarks : c ∉ ['\"', '\\', '#', '\r', '\x00'] := not_mem_of_isPlainNameChar h (by decide)
  rw [isRaw, List.contains_eq_mem, decide_eq_false hmarks, Bool.not_false]

theorem isSymbolChar_of_isPlainNameChar : isSymbolChar c = true := by
  have hlow : Char.ofNat (c.toNat % 256) = c := by
    have hlt := toNat_lt_of_isPlainNameChar h
    rw [Nat.mod_eq_of_lt (by omega), Char.ofNat_toNat]
  have hmarks : c ∉ ['\x00', '\n', '\r', '\t', ' '] ++ punctuation :=
    not_mem_of_isPlainNameChar h (by decide)
  simp only [List.mem_append, List.mem_cons, List.not_mem_nil, or_false, not_or] at hmarks
  simp [isSymbolChar, hlow, hmarks]

end Characters

namespace IsPlainName

theorem ne_empty {name : String} (h : IsPlainName name.toList) : name ≠ "" := by
  rintro rfl
  exact h.ne_nil rfl

variable {name : List Char} (h : IsPlainName name)

include h

/-! ### Symbols -/

theorem exists_cons : ∃ first more, name = first :: more ∧
    first ∉ [':', '\"', '\'', '@', '$'] := by
  obtain ⟨first, more, rfl⟩ := List.exists_cons_of_ne_nil h.ne_nil
  have hfirst : isPlainNameChar first = true := h.chars first List.mem_cons_self
  exact ⟨first, more, rfl, not_mem_of_isPlainNameChar hfirst (by decide)⟩

/-- The name of a symbol ends where the blank or the line after it does. -/
theorem symbolLength? {b : Char} (hb : b ∈ [' ', '\n']) (rest : List Char) :
    Source.symbolLength? (name ++ b :: rest) = some name.length := by
  obtain ⟨first, more, rfl, hmarks⟩ := h.exists_cons
  simp only [List.mem_cons, List.not_mem_nil, or_false, not_or] at hmarks
  have hfirst : isSymbolChar first = true :=
    isSymbolChar_of_isPlainNameChar (h.chars first List.mem_cons_self)
  have hrun : (more ++ b :: rest).takeWhile isSymbolChar = more := by
    have hmore : ∀ c ∈ more, isSymbolChar c = true := fun c hc =>
      isSymbolChar_of_isPlainNameChar (h.chars c (List.mem_cons_of_mem first hc))
    have hend : isSymbolChar b = false := by
      have hall : [' ', '\n'].all (!isSymbolChar ·) = true := by decide
      simpa using List.all_eq_true.mp hall b hb
    rw [List.takeWhile_append_of_pos hmore, List.takeWhile_cons, hend]
    simp
  have hbehind : (first :: (more ++ b :: rest)).drop (1 + more.length) = b :: rest := by
    rw [Nat.add_comm, List.drop_succ_cons, List.drop_left]
  have hfirst? : Source.symbolLength?.first? (first :: (more ++ b :: rest)) = some 1 := by
    rw [Source.symbolLength?.first?, if_pos hfirst]
  have hsetter : isSetterMark (b :: rest) = false := by
    rcases List.mem_pair.mp hb with rfl | rfl <;> rfl
  rw [List.cons_append, List.length_cons, Nat.add_comm, Source.symbolLength?.eq_def]
  extract_lets sigil
  have hsigil : sigil = 0 := by
    simp only [sigil]
    split <;> simp_all
  simp only [hsigil, List.drop_zero, hfirst?, Nat.zero_add, List.drop_succ_cons, hrun, hbehind]
  rcases List.mem_pair.mp hb with rfl | rfl <;> simp [hbehind, hsetter]

theorem primary_symbol {n : Nat} {s : Setting} {commands : Bool} {b : Char}
    (hb : b ∈ [' ', '\n']) {rest : List Char} {c c' : Cursor}
    (htext : c.text = ':' :: (name ++ b :: rest))
    (hgap : (Readers.upTo n).gap (c.at_ (b :: rest)) = some ((), c')) :
    Rules.primary (.upTo n) s commands c = some (⟨.string name, .value⟩, c') := by
  have hlength := h.symbolLength? hb rest
  have hadvance : Rules.advance (.upTo n) (name.length + 1) c = some ((), c') := by
    rw [Rules.advance, htext, List.drop_succ_cons, List.drop_left]
    exact hgap
  obtain ⟨first, more, rfl, hmarks⟩ := h.exists_cons
  simp only [List.mem_cons, List.not_mem_nil, or_false, not_or] at hmarks
  have houtline : outlineAhead? c.text = none := by
    rw [htext, List.cons_append, outlineAhead?, symbolOutline?] <;> simp_all
  rw [List.cons_append] at htext hlength
  rw [List.length_cons] at hadvance
  simp [-bind_pure_comp, primary_of_colon htext houtline, Rules.plainLiteral, Reader.bind_apply,
    Reader.get_apply, Reader.pure_apply, htext, hmarks, hlength, hadvance]

theorem argumentBefore_symbol {b : Char} (hb : b ∈ [' ', '\n']) (rest : List Char) :
    ArgumentBefore (':' :: name) (b :: rest) name where
  mark := ⟨':', by decide, name, rfl⟩
  begins := by
    have hlength := h.symbolLength? hb rest
    obtain ⟨first, more, rfl, hmarks⟩ := h.exists_cons
    simp only [List.mem_cons, List.not_mem_nil, or_false, not_or] at hmarks
    have hsymbol : beginsSymbol (first :: more ++ b :: rest) = true := by
      rw [List.cons_append] at hlength ⊢
      rw [beginsSymbol, hlength] <;> simp_all
    rw [List.cons_append]
    simp only [beginsOperand]
    split <;> simp_all
  primary htext _ hgap := ⟨.value, rfl, h.primary_symbol hb htext hgap⟩

end IsPlainName

/-! ### Strings and quoted symbols -/

section Bodies

variable {body : List Char} (h : ∀ c ∈ body, isPlainNameChar c = true)

include h

theorem reads_doubleQuotes_plain (symbol : Bool) : (doubleQuotes symbol).Reads body body := by
  induction body with
  | nil => exact .nil symbol
  | cons c body ih =>
      rw [List.forall_mem_cons] at h
      exact (ih h.2).raw (isRaw_of_isPlainNameChar h.1)

theorem enclosed_plain {d : Char} (hopener : isPlainNameChar d = false)
    (hcloser : isPlainNameChar (closerOf d) = false) : Enclosed d 0 body := by
  induction body with
  | nil => exact .nil
  | cons c body ih =>
      rw [List.forall_mem_cons] at h
      have hmarks : c ∉ ['\\', d, closerOf d] :=
        not_mem_of_isPlainNameChar h.1 (by simp [hopener, hcloser]; decide)
      simp only [List.mem_cons, List.not_mem_nil, or_false, not_or] at hmarks
      exact .plain hmarks.1 hmarks.2.1 hmarks.2.2 (ih h.2)

theorem escapedChars_plain : escapedChars body = [] := by
  fun_induction escapedChars body with
  | case1 c rest ih => exact absurd (h '\\' List.mem_cons_self) (by decide)
  | case2 c rest hc ih => exact ih fun other hother => h other (List.mem_cons_of_mem c hother)
  | case3 => rfl

theorem reads_uninterpolated_plain (form : Uninterpolated)
    (hopener : isPlainNameChar form.delimiter = false)
    (hcloser : isPlainNameChar (closerOf form.delimiter) = false) :
    form.outline.Reads body body := by
  have hreads := form.reads_of_enclosed (enclosed_plain h hopener hcloser)
  have hkept : unescapedBy form.drops body = body := by
    rw [unescapedBy_eq_self_iff, escapedChars_plain h]
    simp
  rw [hkept] at hreads
  exact hreads

end Bodies

/-! ### Spellings -/

/-- The literals that a name may be written as. -/
inductive NameSpelling where
  | symbol
  | doubleQuoted
  | singleQuoted
  | doubleQuotedSymbol
  | singleQuotedSymbol
  | percentString
  deriving DecidableEq, Repr

/-- What is written of a name. -/
def NameSpelling.written (name : List Char) : NameSpelling → List Char
  | symbol => ':' :: name
  | doubleQuoted => '\"' :: name ++ ['\"']
  | singleQuoted => '\'' :: name ++ ['\'']
  | doubleQuotedSymbol => ':' :: '\"' :: name ++ ['\"']
  | singleQuotedSymbol => ':' :: '\'' :: name ++ ['\'']
  | percentString => '%' :: 'q' :: '(' :: name ++ [')']

/-- Every spelling of a name is an argument that is read as the name. -/
theorem NameSpelling.isArgument_written {name : List Char} (h : IsPlainName name)
    (spelling : NameSpelling) : IsArgument (spelling.written name) name := by
  intro b hb rest
  cases spelling with
  | symbol => exact h.argumentBefore_symbol hb rest
  | doubleQuoted =>
      exact argumentBefore_of_reads (opens_doubleQuotes false)
        (reads_doubleQuotes_plain h.chars false) (fun _ => rfl) _
  | doubleQuotedSymbol =>
      exact argumentBefore_of_reads (opens_doubleQuotes true)
        (reads_doubleQuotes_plain h.chars true) (fun _ => rfl) _
  | singleQuoted =>
      exact argumentBefore_of_reads (Uninterpolated.opens .string)
        (reads_uninterpolated_plain h.chars .string rfl rfl) (fun _ => rfl) _
  | singleQuotedSymbol =>
      exact argumentBefore_of_reads (Uninterpolated.opens .symbol)
        (reads_uninterpolated_plain h.chars .symbol rfl rfl) (fun _ => rfl) _
  | percentString =>
      exact argumentBefore_of_reads (Uninterpolated.opens (.percentString '(' rfl))
        (reads_uninterpolated_plain h.chars (.percentString '(' rfl) rfl rfl) (fun _ => rfl) _

end FactoryRoster.Source
