import FactoryRoster.Proofs.Scan.Isolation

/-!
# What can be found

Whichever way a roster is asked for, it is put together from the rosters of trees
(`Settings.Gives.fromTrees`). So what holds of every entry that a tree declares holds of every
entry there is: its name says something, and so does each of its traits.
-/

namespace FactoryRoster

/-- An entry as a scan gives it: nothing in it is empty, and no list stands for no traits. -/
structure Entry.WellFormed (e : Entry) : Prop where
  name : e.name ≠ ""
  traits : ∀ traits, e.traits = some traits → traits ≠ [] ∧ ∀ t ∈ traits, t ≠ ""

theorem Entry.wellFormed_ofTraits {name : String} {traits : List String} (hname : name ≠ "")
    (htraits : ∀ t ∈ traits, t ≠ "") : (ofTraits name traits).WellFormed where
  name := hname
  traits := by
    intro ts hts
    have hne := traits_ofTraits_ne_some_nil name traits
    rw [hts] at hne
    have hlist := traitList_ofTraits name traits
    rw [traitList, hts] at hlist
    obtain rfl : ts = traits := hlist
    refine ⟨?_, htraits⟩
    rintro rfl
    exact hne rfl

theorem Report.mem_join {α : Type} {reports : List (Report (List α))} {x : α} :
    x ∈ (join reports).value ↔ ∃ r ∈ reports, x ∈ r.value :=
  List.mem_flatMap

theorem Call.ne_empty_of_declaredName {c : Call} {name : String}
    (h : c.declaredName = .ok name) : name ≠ "" := by
  unfold declaredName at h
  split at h
  · cases h
  · split at h
    · cases h
    · rename_i hempty
      obtain rfl := Except.ok.inj h
      rintro rfl
      exact hempty rfl
  · cases h

namespace Conventions

variable {k : Conventions}

theorem ne_empty_of_mem_trait {c : Call} {t : String} (ht : t ∈ (trait c).value) : t ≠ "" := by
  unfold trait at ht
  split at ht
  · rename_i name hname
    obtain rfl := List.mem_singleton.mp ht
    exact Call.ne_empty_of_declaredName hname
  · cases ht

theorem ne_empty_of_mem_traits {statements : List Node} {t : String}
    (ht : t ∈ (k.traits statements).value) : t ≠ "" := by
  obtain ⟨r, hr, ht⟩ := Report.mem_join.mp ht
  obtain ⟨c, -, rfl⟩ := List.mem_map.mp hr
  exact ne_empty_of_mem_trait ht

theorem wellFormed_of_mem_factory {c : Call} {e : Entry} (he : e ∈ (k.factory c).value) :
    e.WellFormed := by
  unfold factory at he
  split at he
  · rename_i name hname
    obtain rfl := List.mem_singleton.mp he
    apply Entry.wellFormed_ofTraits
    · exact Call.ne_empty_of_declaredName hname
    · intro t ht
      exact ne_empty_of_mem_traits ht
  · cases he

theorem wellFormed_of_mem_entries {tree : Node} {e : Entry} (he : e ∈ (k.entries tree).value) :
    e.WellFormed := by
  unfold entries at he
  split at he
  · obtain ⟨r, hr, he⟩ := Report.mem_join.mp he
    obtain ⟨c, -, rfl⟩ := List.mem_map.mp hr
    exact wellFormed_of_mem_factory he
  · cases he

/-- A roster that is put together from the rosters of trees. -/
def FromTrees (k : Conventions) (entries : Roster) : Prop :=
  ∃ trees : List Node, entries = trees.flatMap fun tree => (k.entries tree).value

theorem FromTrees.nil : k.FromTrees [] :=
  ⟨[], rfl⟩

theorem FromTrees.entries (tree : Node) : k.FromTrees (k.entries tree).value :=
  ⟨[tree], (List.append_nil _).symm⟩

theorem FromTrees.append {first rest : Roster} (hfirst : k.FromTrees first)
    (hrest : k.FromTrees rest) : k.FromTrees (first ++ rest) := by
  obtain ⟨trees, rfl⟩ := hfirst
  obtain ⟨more, rfl⟩ := hrest
  exact ⟨trees ++ more, List.flatMap_append.symm⟩

theorem FromTrees.flatMap {α : Type} {found : α → Roster} (h : ∀ x, k.FromTrees (found x))
    (xs : List α) : k.FromTrees (xs.flatMap found) := by
  induction xs with
  | nil => exact .nil
  | cons x xs ih =>
      rw [List.flatMap_cons]
      exact (h x).append ih

theorem FromTrees.wellFormed {entries : Roster} (h : k.FromTrees entries) :
    ∀ e ∈ entries, e.WellFormed := by
  obtain ⟨trees, rfl⟩ := h
  intro e he
  obtain ⟨tree, -, he⟩ := List.mem_flatMap.mp he
  exact wellFormed_of_mem_entries he

end Conventions

namespace Settings

open Conventions

/-- A roster that is given for a tree, a source, a file, a directory or a project. -/
inductive Gives (s : Settings) (parse : Parser) : Roster → Prop
  | tree (tree : Node) : Gives s parse (s.conventions.entries tree).value
  | source {source origin : String} {entries : Roster}
      (h : (s.entriesInSource parse source origin).value = .ok entries) : Gives s parse entries
  | file {d : Disk} {p : Path} {entries : Roster}
      (h : (s.entriesInFile parse d p).value = .ok entries) : Gives s parse entries
  | directory {d : Disk} {base : Path} {entries : Roster}
      (h : (s.scanDirectory parse d base).value = some entries) : Gives s parse entries
  | project {d : Disk} {root : Path} {entries : Roster}
      (h : (s.scanProject parse d root).value = some entries) : Gives s parse entries

variable {s : Settings} {parse : Parser}

theorem fromTrees_of_collect {parsed : Report (Except SourceFault Node)} {entries : Roster}
    (h : (s.collect parsed).value = .ok entries) : s.conventions.FromTrees entries := by
  unfold collect at h
  split at h
  · rename_i tree _
    obtain rfl := Except.ok.inj h
    exact .entries tree
  · cases h

theorem fromTrees_entriesAt (d : Disk) (p : Path) :
    s.conventions.FromTrees (s.entriesAt parse d p) := by
  unfold entriesAt
  split
  · exact .nil
  · split
    · rename_i hentries
      exact fromTrees_of_collect hentries
    · exact .nil

theorem fromTrees_of_scanDirectory {d : Disk} {base : Path} {entries : Roster}
    (h : (s.scanDirectory parse d base).value = some entries) :
    s.conventions.FromTrees entries := by
  cases hbase : d.isDirectory base with
  | false =>
      rw [scanDirectory, hbase] at h
      cases h
  | true =>
      cases hfiles : d.factoryFiles base s.extension with
      | error fault =>
          -- a pattern that is refused gives a roster without entries
          simp only [scanDirectory, hbase, hfiles, Bool.not_true, Bool.false_eq_true, if_false] at h
          obtain rfl := Option.some.inj h
          exact .nil
      | ok files =>
          rw [s.scanDirectory_of_files parse d base hbase hfiles] at h
          obtain rfl := Option.some.inj h
          apply FromTrees.flatMap
          intro p
          rw [contribution_value]
          exact fromTrees_entriesAt d p

/-- Whatever a roster is asked for, the trees of sources are what it comes from. -/
theorem Gives.fromTrees {entries : Roster} (h : s.Gives parse entries) :
    s.conventions.FromTrees entries := by
  cases h with
  | tree tree => exact .entries tree
  | source h => exact fromTrees_of_collect h
  | file h => exact fromTrees_of_collect h
  | directory h => exact fromTrees_of_scanDirectory h
  | project h =>
      rw [scanProject_value] at h
      split at h
      · exact fromTrees_of_scanDirectory h
      · cases h

end Settings

/-- Every entry of a roster that is given for a tree, a source, a file, a directory or a project has
a name and, if it has a list of traits, at least one trait, and none of these is empty. -/
theorem wellFormed_of_gives (s : Settings) (parse : Parser) (entries : Roster)
    (h : s.Gives parse entries) : ∀ e ∈ entries, e.WellFormed :=
  h.fromTrees.wellFormed

/-- A registration of a factory none of whose traits has a name, and of one without a name. -/
def nameless : Node :=
  .program
    [.call (some (.identifier "FactoryBot")) "define" []
      (some
        [.call none "factory" [.string "user"]
          (some [.call none "trait" [.string ""] none, .call none "trait" [.identifier "t"] none]),
        .call none "factory" [.string ""] (some [.call none "trait" [.string "admin"] none])])]

/-- A parser that takes every file for one that makes that registration. -/
def ubiquitous : Parser := fun _ _ => ⟨.ok nameless, []⟩

/-- Of the two factories one is left, and it has no list of traits. -/
theorem wellFormed_of_gives_nameless :
    ({} : Settings).Gives (fun _ _ => ⟨.ok nameless, []⟩) [⟨"user", none⟩] ∧
      ∀ e ∈ [(⟨"user", none⟩ : Entry)], e.WellFormed := by
  have hsource : (({} : Settings).entriesInSource (fun _ _ => ⟨.ok nameless, []⟩) "" "").value =
      .ok [⟨"user", none⟩] := rfl
  exact ⟨.source hsource, wellFormed_of_gives _ _ _ (.source hsource)⟩

end FactoryRoster
