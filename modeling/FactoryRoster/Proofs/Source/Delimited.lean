import FactoryRoster.Proofs.Source.Literals

/-!
# Literals without interpolation

Strings and symbols in single quotes, and those that a percent sign and a pair of delimiters of
their own set off.
-/

namespace FactoryRoster.Source

theorem Uninterpolated.opens (form : Uninterpolated) : form.outline.Opens form.opening := by
  cases form with
  | string => exact ⟨fun _ => rfl, ⟨'\'', by decide, _, rfl⟩, by decide⟩
  | symbol => exact ⟨fun _ => rfl, ⟨':', by decide, _, rfl⟩, by decide⟩
  | percentString d h =>
      refine ⟨fun rest => ?_, ⟨'%', by decide, _, rfl⟩, LiteralKind.noConfusion⟩
      simp [opening, outlineAhead?, percentOutline?, percentKind?, h]
      rfl
  | percentSymbol d h =>
      refine ⟨fun rest => ?_, ⟨'%', by decide, _, rfl⟩, LiteralKind.noConfusion⟩
      simp [opening, outlineAhead?, percentOutline?, percentKind?, h]
      rfl

/-- Exactly the enclosed bodies are read. Each is read without its backslashes before a backslash
and a single quote, or with all of them in a symbol after a percent sign. This is the text without
the escaping backslashes exactly if every character that a backslash stands before is treated alike
in both. -/
theorem readAsString_uninterpolated (form : Uninterpolated) (body : List Char) :
    ((∃ text, form.outline.Reads body text) ↔ Enclosed form.delimiter 0 body) ∧
      (Enclosed form.delimiter 0 body →
        ReadAsString (form.literal body) (unescapedBy form.drops body) ∧
        (ReadAsString (form.literal body) (unescapedBy form.escapes body) ↔
          ∀ c ∈ escapedChars body, form.drops c = form.escapes c)) := by
  refine ⟨?_, fun h => ?_⟩
  · simp only [form.reads_iff, exists_and_left, exists_eq, and_true]
  · have hread : ReadAsString (form.literal body) (unescapedBy form.drops body) :=
      readAsString_of_reads form.opens (form.reads_iff.mpr ⟨h, rfl⟩)
    exact ⟨hread, hread.iff_eq.trans (form.unescapedBy_drops_eq_iff body)⟩

/-- An escaped delimiter keeps its backslash, and in a symbol a doubled backslash stays doubled. -/
theorem readAsString_uninterpolated_parens :
    (Enclosed '(' 0 ['(', 'a', '\\', ')', ')'] ∧
      ReadAsString ['%', 'q', '(', '(', 'a', '\\', ')', ')', ')'] ['(', 'a', '\\', ')', ')'] ∧
      ¬ReadAsString ['%', 'q', '(', '(', 'a', '\\', ')', ')', ')'] ['(', 'a', ')', ')']) ∧
    Enclosed '(' 0 ['a', '\\', '\\'] ∧
      ReadAsString ['%', 's', '(', 'a', '\\', '\\', ')'] ['a', '\\', '\\'] ∧
      ¬ReadAsString ['%', 's', '(', 'a', '\\', '\\', ')'] ['a', '\\'] := by
  have hstring : Enclosed '(' 0 ['(', 'a', '\\', ')', ')'] :=
    .opens (by decide) (.plain (by decide) (by decide) (by decide)
      (.pair ')' (by decide) (.closes (by decide) .nil)))
  have hsymbol : Enclosed '(' 0 ['a', '\\', '\\'] :=
    .plain (by decide) (by decide) (by decide) (.pair '\\' (by decide) .nil)
  obtain ⟨hread, htext⟩ :=
    (readAsString_uninterpolated (.percentString '(' (by decide)) _).2 hstring
  obtain ⟨hread', htext'⟩ :=
    (readAsString_uninterpolated (.percentSymbol '(' (by decide)) _).2 hsymbol
  have hparen : ')' ∈ escapedChars ['(', 'a', '\\', ')', ')'] := List.mem_cons_self
  have hslash : '\\' ∈ escapedChars ['a', '\\', '\\'] := List.mem_cons_self
  exact ⟨⟨hstring, hread, fun h => absurd (htext.mp h _ hparen) (by decide)⟩,
    hsymbol, hread', fun h => absurd (htext'.mp h _ hslash) (by decide)⟩

end FactoryRoster.Source
