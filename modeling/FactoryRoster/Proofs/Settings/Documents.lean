import FactoryRoster.Proofs.Settings.Overrides

/-!
# Settings that are written and read back

The document of settings gives every setting and every convention, so that no default is taken: it
is read back to the settings that it was written from, whatever characters their texts have.
-/

namespace FactoryRoster

open Json

theorem Json.Takes.whole_alone {α : Type} {read : Reader α} {written : List Char} {value : α}
    (h : Takes read written value) : read.whole written = .ok value := by
  have hwhole := h.whole blanks_nil blanks_nil
  rwa [List.nil_append, List.append_nil] at hwhole

/-- A writer of which a reader takes everything back writes different texts of different values. -/
theorem Json.injective_of_reads {α : Type} {write : α → String} {read : String → Except Fault α}
    (h : ∀ x, read (write x) = .ok x) : Function.Injective write := by
  intro x y hsame
  have hread := h x
  rw [hsame, h y] at hread
  exact (Except.ok.inj hread).symm

namespace Conventions

/-- All the parts of conventions. -/
def given (c : Conventions) : layout.Given where
  parts := [.receiver c.receiver, .method c.method, .factoryWord c.factoryWord,
    .traitWord c.traitWord]
  nodup := by
    show ["registration_receiver", "registration_method", "fixture_keyword",
      "variant_keyword"].Nodup
    decide

theorem ofParts_given (c : Conventions) : ofParts c.given = c := rfl

theorem writes_text (c : Conventions) : layout.Writes c.given.parts c.text :=
  Layout.writes_objectText (.refl _)
    (.part (isText_quote c.receiver) (.part (isText_quote c.method)
      (.part (isText_quote c.factoryWord) (.part (isText_quote c.traitWord) .nil))))

theorem takes_read_text (c : Conventions) : Takes read c.text c := by
  have htakes := takes_read c.given c.writes_text
  rwa [ofParts_given] at htakes

theorem ofDocument_eq (c : Conventions) : ofDocument c.document = .ok c := by
  rw [ofDocument, document, String.toList_ofList]
  exact c.takes_read_text.whole_alone

end Conventions

namespace Settings

/-- All the parts of settings. -/
def given (s : Settings) : layout.Given where
  parts := [.directory s.directory, .extension s.extension, .gem s.gem, .parallel s.parallel,
    .conventions s.conventions.given]
  nodup := by
    show ["factories_dir", "extension", "gem_name", "parallel", "conventions"].Nodup
    decide

theorem ofParts_given (s : Settings) : ofParts s.given = s := rfl

theorem writes_text (s : Settings) : layout.Writes s.given.parts s.text :=
  Layout.writes_objectText (.refl _)
    (.part (isText_quote s.directory) (.part (isText_quote s.extension)
      (.part (isText_quote s.gem) (.part rfl (.part s.conventions.writes_text .nil)))))

theorem takes_read_text (s : Settings) : Takes read s.text s := by
  have htakes := takes_read s.given s.writes_text
  rwa [ofParts_given] at htakes

theorem ofDocument_eq (s : Settings) : ofDocument s.document = .ok s := by
  rw [ofDocument, document, String.toList_ofList]
  exact s.takes_read_text.whole_alone

/-- Settings and conventions are read back from their documents as they were written, so that
different ones have different documents. -/
theorem document_reads_back :
    (∀ s : Settings, ofDocument s.document = .ok s) ∧
      (∀ c : Conventions, Conventions.ofDocument c.document = .ok c) ∧
      Function.Injective document ∧ Function.Injective Conventions.document := by
  refine ⟨ofDocument_eq, Conventions.ofDocument_eq, ?_, ?_⟩
  · exact injective_of_reads ofDocument_eq
  · exact injective_of_reads Conventions.ofDocument_eq

end Settings

end FactoryRoster
