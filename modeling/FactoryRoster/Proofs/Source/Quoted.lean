import FactoryRoster.Proofs.Source.Bodies

/-!
# Reading quoted texts

A text in single quotes is read as a literal of that text, whatever characters it is made of: no
character of it closes the quotes, and the backslashes that keep them from closing are dropped.
-/

namespace FactoryRoster.Source

/-! ### Escaped quotes -/

theorem escapeQuotes_cons (c : Char) (text : List Char) :
    escapeQuotes (c :: text) =
      (if c == '\\' || c == '\'' then ['\\', c] else [c]) ++ escapeQuotes text := rfl

theorem unescapeQuotes_escapeQuotes (text : List Char) :
    unescapeQuotes (escapeQuotes text) = text := by
  induction text with
  | nil => rfl
  | cons c text ih =>
      rw [escapeQuotes_cons]
      by_cases hc : (c == '\\' || c == '\'') = true
      · rw [if_pos hc]
        simp only [Bool.or_eq_true, beq_iff_eq] at hc
        rcases hc with rfl | rfl <;>
          simp only [List.cons_append, List.nil_append, unescapeQuotes, ih]
      · have hplain := Bool.not_eq_true _ ▸ hc
        rw [if_neg hc, List.singleton_append, unescapeQuotes_of_plain hplain, ih]

/-! ### Literals in single quotes -/

/-- The outline of a string in single quotes. -/
def singleQuotes : Outline :=
  ⟨.string, .single, '\'', '\''⟩

theorem special?_singleQuotes (c : Char) (rest : List Char) :
    singleQuotes.special? 0 c rest = if c == '\'' then some (.close rest) else none := by
  simp [Outline.special?, singleQuotes]

/-- Escaped quotes do not close a literal in single quotes. -/
theorem enclosed_escapeQuotes (text : List Char) : Enclosed '\'' 0 (escapeQuotes text) := by
  induction text with
  | nil => exact .nil
  | cons c text ih =>
      rw [escapeQuotes_cons]
      by_cases hc : (c == '\\' || c == '\'') = true
      · rw [if_pos hc]
        exact .pair c (by decide) ih
      · rw [if_neg hc]
        simp only [Bool.or_eq_true, beq_iff_eq, not_or] at hc
        exact .plain hc.1 hc.2 hc.2 ih

theorem escapeQuotes_ne_quote {text : List Char} (htext : text ≠ []) :
    ∃ c cs, escapeQuotes text = c :: cs ∧ c ≠ '\'' := by
  cases text with
  | nil => exact absurd rfl htext
  | cons c text =>
      rw [escapeQuotes_cons]
      by_cases hc : (c == '\\' || c == '\'') = true
      · exact ⟨_, _, by rw [if_pos hc]; rfl, by decide⟩
      · refine ⟨_, _, by rw [if_neg hc]; rfl, ?_⟩
        rintro rfl
        exact hc rfl

/-- A text in single quotes is read as that text. -/
theorem reads_escapeQuotes (text : List Char) : singleQuotes.Reads (escapeQuotes text) text := by
  have hunescaped : unescapedBy Uninterpolated.string.drops (escapeQuotes text) = text :=
    (unescapeQuotes_eq _).symm.trans (unescapeQuotes_escapeQuotes text)
  have hreads := Uninterpolated.string.reads_of_enclosed (enclosed_escapeQuotes text)
  rw [hunescaped] at hreads
  exact hreads

end FactoryRoster.Source
