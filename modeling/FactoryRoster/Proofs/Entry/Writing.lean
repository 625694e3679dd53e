import FactoryRoster.Proofs.Scan.Documents

/-!
# Documents that are written

The document of a roster says all of it. A reader that tells an empty list of traits from none takes
every document back to the roster that it was written of (`Roster.reads_exactly`), so different
rosters have different documents, whatever their names look like. And as control characters are
escaped, a document is a single line.
-/

namespace FactoryRoster

open Json

namespace Entry

/-- The entry that a draft describes to the letter: an empty list of traits is one. -/
def exactly? (d : Draft) : Option Entry :=
  d.name.map fun name => ⟨name, d.traits.join⟩

/-- Reads an entry to the letter. -/
def readExactly : Json.Reader Entry :=
  Json.record fields {} exactly?

theorem reads_exactly (e : Entry) : Reads readExactly e.text e := by
  obtain ⟨name, traits⟩ := e
  cases traits with
  | none => exact reads_record (readsMembers_name name) (by simp) rfl
  | some traits => exact reads_record (readsMembers_nameAndTraits name traits) (by simp) rfl

end Entry

theorem Roster.reads_exactly (entries : Roster) :
    Reads (list Entry.readExactly) (listText (entries.map Entry.text)) entries := by
  have hlist : Reads (list Entry.readExactly) (listText (entries.map Entry.text))
      (entries.map id) := by
    apply reads_list
    · intro e _
      exact e.reads_exactly
    · intro e _
      exact opens_objectText _
  rwa [List.map_id] at hlist

theorem Roster.document_injective : Function.Injective Roster.document := by
  intro entries others h
  have htext := congrArg (fun document => (list Entry.readExactly).whole document.toList) h
  simp only [Roster.document, String.toList_ofList] at htext
  rw [(Roster.reads_exactly entries).whole, (Roster.reads_exactly others).whole] at htext
  exact Except.ok.inj htext

/-! ### Control characters -/

namespace Json

/-- A text without control characters. -/
def Printable (cs : List Char) : Prop :=
  ∀ c ∈ cs, 0x20 ≤ c.toNat

theorem printable_nil : Printable [] :=
  List.forall_mem_nil _

theorem Printable.append {cs ds : List Char} (hcs : Printable cs) (hds : Printable ds) :
    Printable (cs ++ ds) := fun c hc => (List.mem_append.mp hc).elim (hcs c) (hds c)

theorem Printable.cons {c : Char} {cs : List Char} (hc : 0x20 ≤ c.toNat) (hcs : Printable cs) :
    Printable (c :: cs) :=
  List.forall_mem_cons.mpr ⟨hc, hcs⟩

theorem printable_singleton {c : Char} (hc : 0x20 ≤ c.toNat) : Printable [c] :=
  .cons hc printable_nil

theorem Printable.flatMap {α : Type} {write : α → List Char} (h : ∀ x, Printable (write x))
    (xs : List α) : Printable (xs.flatMap write) := by
  intro c hc
  obtain ⟨x, -, hx⟩ := List.mem_flatMap.mp hc
  exact h x c hx

theorem printable_hexDigit : ∀ n < 16, 0x20 ≤ (hexDigit n).toNat := by decide

theorem printable_of_named? {e c : Char} (h : named? e = some c) : 0x20 ≤ e.toNat := by
  unfold named? at h
  split at h
  all_goals
    first
      | decide
      | cases h

/-- However a character is written, it is with characters that stand for themselves. -/
theorem printable_escape (c : Char) : Printable (escape c) := by
  have hmark : 0x20 ≤ '\\'.toNat := by decide
  obtain ⟨e, he, htext⟩ | ⟨hcontrol, htext⟩ | ⟨-, -, hcontrol, htext⟩ := escape_cases c
  · rw [htext]
    exact .cons hmark (printable_singleton (printable_of_named? he))
  · have hhigh := printable_hexDigit (c.toNat / 16) (by omega)
    have hlow := printable_hexDigit (c.toNat % 16) (by omega)
    rw [htext]
    exact .cons hmark (.cons (by decide) (.cons (by decide) (.cons (by decide)
      (.cons hhigh (printable_singleton hlow)))))
  · rw [htext]
    exact printable_singleton (Nat.le_of_not_lt hcontrol)

theorem printable_quote (text : List Char) : Printable (quote text) :=
  .cons (by decide)
    ((Printable.flatMap printable_escape text).append (printable_singleton (by decide)))

theorem printable_separated {items : List (List Char)} (h : ∀ item ∈ items, Printable item) :
    Printable (separated items) := by
  induction items with
  | nil => exact printable_nil
  | cons x items ih =>
      rw [List.forall_mem_cons] at h
      cases items with
      | nil => exact h.1
      | cons y items =>
          rw [separated_cons_cons]
          exact h.1.append (.cons (by decide) (ih h.2))

theorem printable_listText {items : List (List Char)} (h : ∀ item ∈ items, Printable item) :
    Printable (listText items) :=
  .cons (by decide) ((printable_separated h).append (printable_singleton (by decide)))

theorem printable_objectText {members : List (String × List Char)}
    (h : ∀ m ∈ members, Printable m.2) : Printable (objectText members) := by
  refine .cons (by decide) ((printable_separated ?_).append (printable_singleton (by decide)))
  intro item hitem
  obtain ⟨m, hm, rfl⟩ := List.mem_map.mp hitem
  exact (printable_quote _).append (.cons (by decide) (h m hm))

end Json

theorem Entry.printable_text (e : Entry) : Printable e.text := by
  obtain ⟨name, traits⟩ := e
  apply printable_objectText
  rw [List.forall_mem_cons]
  refine ⟨printable_quote _, ?_⟩
  cases traits with
  | none => simp
  | some traits =>
      simp only [Option.map_some, Option.toList_some, List.forall_mem_singleton]
      apply printable_listText
      intro item hitem
      obtain ⟨t, -, rfl⟩ := List.mem_map.mp hitem
      exact printable_quote _

/-- Different rosters have different documents, also if they differ only in an empty list of traits,
and no document has a control character in it. -/
theorem document_unambiguous :
    (∀ entries others, Roster.document entries = Roster.document others → entries = others) ∧
    ∀ entries, ∀ c ∈ (Roster.document entries).toList, 0x20 ≤ c.toNat := by
  refine ⟨fun _ _ h => Roster.document_injective h, fun entries => ?_⟩
  rw [Roster.document, String.toList_ofList]
  apply printable_listText
  intro item hitem
  obtain ⟨e, -, rfl⟩ := List.mem_map.mp hitem
  exact e.printable_text

/-- A name that looks like the end of one entry and the beginning of another makes one entry, and a
name of two lines stays on one. -/
theorem document_unambiguous_lookalike :
    [Entry.ofTraits "a" []] = [⟨"a", none⟩] ∧
    Roster.document [⟨"a\"\x7d,\x7b\"name\":\"b", none⟩] ≠
      Roster.document [⟨"a", none⟩, ⟨"b", none⟩] ∧
    Roster.document [⟨"a", some []⟩] ≠ Roster.document [⟨"a", none⟩] ∧
    '\n' ∉ (Roster.document [⟨"a\nb", none⟩]).toList := by
  refine ⟨document_unambiguous.1 _ _ rfl, fun h => ?_, fun h => ?_, fun h => ?_⟩
  · exact absurd (document_unambiguous.1 _ _ h) (by decide)
  · exact absurd (document_unambiguous.1 _ _ h) (by decide)
  · exact absurd (document_unambiguous.2 _ _ h) (by decide)

end FactoryRoster
