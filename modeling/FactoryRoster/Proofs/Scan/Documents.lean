import FactoryRoster.Entry.Document
import FactoryRoster.Proofs.Json.Values
import FactoryRoster.Proofs.Scan.Found

/-!
# Documents of rosters

A roster is read back from its document, whatever its names are. Only an empty list of traits is not
told from none; and as nothing that can be found has an empty list, whatever has been found is read
back as it was.
-/

namespace FactoryRoster

namespace Entry

open Json

/-- The entry without its list of traits if that is empty. -/
def withoutEmptyList (e : Entry) : Entry :=
  { e with traits := e.traits.filter (!·.isEmpty) }

theorem WellFormed.withoutEmptyList_eq {e : Entry} (h : e.WellFormed) : e.withoutEmptyList = e := by
  obtain ⟨name, traits⟩ := e
  cases traits with
  | none => rfl
  | some traits =>
      obtain ⟨hne, -⟩ := h.traits traits rfl
      cases traits with
      | nil => exact absurd rfl hne
      | cons t ts => rfl

theorem reads_traits (traits : List String) :
    Reads (nullable (list Json.text)) (listText (traits.map fun t => quote t.toList))
      (some traits) := by
  have hlist : Reads (list Json.text) (listText (traits.map fun t => quote t.toList))
      (traits.map id) := by
    apply reads_list
    · intro t _
      exact reads_text t
    · intro t _
      exact opens_quote t.toList
  rw [List.map_id] at hlist
  apply hlist.nullable
  · simp [listText]
  · exact ⟨'[', _, rfl, by decide, by decide⟩

theorem readsMembers_name (name : String) :
    ReadsMembers fields {} [("name", quote name.toList)] ⟨some name, none⟩ :=
  .cons rfl rfl ((reads_text name).ofReader _) (.nil _)

theorem readsMembers_nameAndTraits (name : String) (traits : List String) :
    ReadsMembers fields {}
      [("name", quote name.toList), ("traits", listText (traits.map fun t => quote t.toList))]
      ⟨some name, some (some traits)⟩ :=
  .cons rfl rfl ((reads_text name).ofReader _) <|
    .cons rfl rfl ((reads_traits traits).ofReader _) (.nil _)

/-- An entry is read back from its text, without its list of traits if that is empty. -/
theorem reads_text_entry (e : Entry) : Reads read e.text e.withoutEmptyList := by
  obtain ⟨name, traits⟩ := e
  cases traits with
  | none => exact reads_record (readsMembers_name name) (by simp) rfl
  | some traits =>
      apply reads_record (readsMembers_nameAndTraits name traits) (by simp)
      cases traits <;> rfl

end Entry

theorem Roster.reads_listText (entries : Roster) :
    Json.Reads (Json.list Entry.read) (Json.listText (entries.map Entry.text))
      (entries.map Entry.withoutEmptyList) := by
  apply Json.reads_list
  · intro e _
    exact e.reads_text_entry
  · intro e _
    exact Json.opens_objectText _

/-- The document of a roster is read back as that roster, but for empty lists of traits, which are
left out. A roster that has been found is read back as it is. -/
theorem ofDocument_document :
    (∀ entries : Roster,
      Roster.ofDocument (Roster.document entries) =
        .ok (entries.map Entry.withoutEmptyList)) ∧
    ∀ (s : Settings) (parse : Parser) (entries : Roster), s.Gives parse entries →
      Roster.ofDocument (Roster.document entries) = .ok entries := by
  have hread : ∀ entries : Roster, Roster.ofDocument (Roster.document entries) =
      .ok (entries.map Entry.withoutEmptyList) := by
    intro entries
    rw [Roster.ofDocument, Roster.document, String.toList_ofList]
    exact (Roster.reads_listText entries).whole
  refine ⟨hread, ?_⟩
  intro s parse entries h
  have hsame : entries.map Entry.withoutEmptyList = entries.map id := by
    apply List.map_congr_left
    intro e he
    exact (h.fromTrees.wellFormed e he).withoutEmptyList_eq
  rw [hread, hsame, List.map_id]

/-- A name of characters that have to be escaped is read back, and an empty list of traits is
not. -/
theorem ofDocument_document_oddName :
    Roster.ofDocument (Roster.document [⟨"\x00\"\\\n", some []⟩, ⟨"é", some ["\x1f"]⟩]) =
        .ok [⟨"\x00\"\\\n", none⟩, ⟨"é", some ["\x1f"]⟩] ∧
      ({} : Settings).Gives (fun _ _ => ⟨.ok nameless, []⟩) [⟨"user", none⟩] ∧
      Roster.ofDocument (Roster.document [⟨"user", none⟩]) = .ok [⟨"user", none⟩] := by
  have hgives : ({} : Settings).Gives (fun _ _ => ⟨.ok nameless, []⟩) [⟨"user", none⟩] :=
    .tree nameless
  exact ⟨ofDocument_document.1 _, hgives, ofDocument_document.2 _ _ _ hgives⟩

end FactoryRoster
