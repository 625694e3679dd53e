import FactoryRoster.Relative
import FactoryRoster.Proofs.Disk.Entries
import FactoryRoster.Proofs.Disk.Texts
import FactoryRoster.Proofs.Path.Remainders

/-!
# Names by components

Where no link can be followed, the name of a path from a directory is decided by components alone:
there is one just if the components of the directory begin those of the path and the others are
text, and it leads from the directory to the path again (`Disk.within_by_components`).
-/

namespace FactoryRoster

namespace Path

/-- Whether a component is text; only a name may be none. -/
def Component.isText : Component → Bool
  | .name gs => (text? gs).isSome
  | _ => true

theorem isText_component {s : List Glyph} :
    (component s).isText = true ↔ ∃ x, s = glyphs x := by
  unfold component
  split
  · rename_i habove
    exact iff_of_true rfl ⟨['.', '.'], habove⟩
  · exact isSome_text?_iff

/-- A path is text just if all its components are. -/
theorem isSome_text?_iff_components {p : Path} :
    (text? p).isSome = true ↔ ∀ c ∈ components p, c.isText = true := by
  rw [isSome_text?_iff, components_eq_segments, List.forall_mem_append]
  constructor
  · rintro ⟨text, rfl⟩
    constructor
    · cases (anatomy (glyphs text)).1 <;> simp [Anchor.components, Component.isText]
    · intro c hc
      obtain ⟨s, hs, rfl⟩ := List.mem_map.mp hc
      exact isText_component.mpr
        (Path.exists_glyphs_iff.mp ⟨text, rfl⟩ s (List.mem_of_mem_filter hs))
  · rintro ⟨-, hsegments⟩
    refine Path.exists_glyphs_iff.mpr fun s hs => ?_
    cases hidle : isIdle s with
    | true => exact exists_glyphs_of_isIdle hidle
    | false =>
        apply isText_component.mp
        apply hsegments
        exact List.mem_map_of_mem (List.mem_filter.mpr ⟨hs, by rw [hidle]; rfl⟩)

theorem GoesOn.head?_components {p : Path} (h : GoesOn p) : (components p).head? ≠ some .here := by
  intro hhead
  obtain ⟨cs, hp⟩ := List.head?_eq_some_iff.mp hhead
  have hanchor := anchor_of_components hp
  rw [h.anchor] at hanchor
  cases hanchor

theorem GoesOn.head? {p : Path} (h : GoesOn p) : p.head? ≠ some slash :=
  beq_eq_false_iff_ne.mp (isAbsolute_of_anchor h.anchor)

end Path

namespace Disk

open FactoryRoster.Path

variable {d : Disk} {p root : Path}

/-- Paths that do not both lead somewhere are compared as they are given. -/
theorem compared_of_not_resolved
    (h : (d.resolve p).isOk = false ∨ (d.resolve root).isOk = false) :
    d.compared p root = (p, root) := by
  unfold compared canonical
  cases hp : d.resolve p with
  | error obstacle => rfl
  | ok goal =>
      cases hroot : d.resolve root with
      | error obstacle => rfl
      | ok place =>
          rw [hp, hroot] at h
          rcases h with h | h <;> cases h

theorem within_eq_ok_iff (h : d.compared p root = (p, root)) {name : String} :
    d.within p root = .ok name ↔ below? p root = some (ofText name) := by
  simp only [within, h]
  constructor
  · intro hname
    cases hbelow : below? p root with
    | none =>
        rw [hbelow] at hname
        cases hname
    | some left =>
        rw [hbelow] at hname
        dsimp only at hname
        cases htext : text? left with
        | none =>
            rw [htext] at hname
            cases hname
        | some text =>
            rw [htext] at hname
            obtain rfl := Except.ok.inj hname
            rw [ofText, String.toList_ofList, glyphs_of_text? htext]
  · intro hbelow
    simp only [hbelow, ofText, text?_glyphs, String.ofList_toList]

theorem head?_glyphs_ne {text : List Char} (h : (glyphs text).head? ≠ some slash) :
    text.head? ≠ some '/' := by
  intro hhead
  rw [glyphs, List.head?_map, hhead] at h
  exact h rfl

theorem getLast?_glyphs_ne {text : List Char} (h : (glyphs text).getLast? ≠ some slash) :
    text.getLast? ≠ some '/' := by
  intro hlast
  rw [glyphs, List.getLast?_map, hlast] at h
  exact h rfl

/-- Where not both paths lead somewhere, a path has a name from a directory just if its components
begin with those of the directory and the others are text; and the name leads from the directory to
the components of the path. It has no slash at either end and no dot at its front, unless the
directory has no components. -/
theorem within_by_components (d : Disk) (p root : Path)
    (h : (d.resolve p).isOk = false ∨ (d.resolve root).isOk = false) :
    ((∃ name, d.within p root = .ok name) ↔
      ∃ rest, components p = components root ++ rest ∧ ∀ c ∈ rest, c.isText = true) ∧
    ∀ name, d.within p root = .ok name →
      components (join root (ofText name)) = components p ∧
      (components root ≠ [] → name.toList.head? ≠ some '/' ∧ name.toList.getLast? ≠ some '/' ∧
        (components (ofText name)).head? ≠ some .here) := by
  have hcompared := compared_of_not_resolved h
  have hname : ∀ name, d.within p root = .ok name →
      ∃ rest, components p = components root ++ rest ∧ components (ofText name) = rest ∧
        (root ≠ [] → GoesOn (ofText name)) := by
    intro name hname
    have hbelow := (within_eq_ok_iff hcompared).mp hname
    have hprefix : components root <+: components p := by
      by_contra hprefix
      rw [below?_eq_none hprefix] at hbelow
      cases hbelow
    obtain ⟨rest, hrest⟩ := hprefix
    obtain ⟨left, hleft, hcomponents, hgoesOn⟩ := exists_below? hrest.symm
    obtain rfl := Option.some.inj (hbelow.symm.trans hleft)
    exact ⟨rest, hrest.symm, hcomponents, hgoesOn⟩
  refine ⟨⟨?_, ?_⟩, ?_⟩
  · rintro ⟨name, hok⟩
    obtain ⟨rest, hrest, hcomponents, -⟩ := hname name hok
    refine ⟨rest, hrest, ?_⟩
    rw [← hcomponents]
    apply isSome_text?_iff_components.mp
    rw [ofText, text?_glyphs]
    rfl
  · rintro ⟨rest, hrest, htext⟩
    obtain ⟨left, hbelow, rfl, -⟩ := exists_below? hrest
    obtain ⟨text, rfl⟩ := isSome_text?_iff.mp (isSome_text?_iff_components.mpr htext)
    refine ⟨String.ofList text, (within_eq_ok_iff hcompared).mpr ?_⟩
    rw [hbelow, ofText, String.toList_ofList]
  · intro name hok
    obtain ⟨rest, hrest, hcomponents, hgoesOn⟩ := hname name hok
    refine ⟨?_, fun hroot => ?_⟩
    · rw [components_join hgoesOn, hcomponents, hrest]
    · have hon := hgoesOn (by
        rintro rfl
        exact hroot rfl)
      exact ⟨head?_glyphs_ne hon.head?, getLast?_glyphs_ne hon.back, hon.head?_components⟩

/-- Below a directory that is not on the disk, doubled slashes and dots do not count, but what is
between the names that are left stays as it was; and names are not cut in two. -/
theorem within_by_components_unspaced :
    ({} : Disk).within (ofText ".//a/./b/c//d.rb/.") (ofText "./a//b") = .ok "c//d.rb" ∧
      components (join (ofText "./a//b") (ofText "c//d.rb")) =
        components (ofText ".//a/./b/c//d.rb/.") ∧
      ¬ ∃ name, ({} : Disk).within (ofText "/a/bc") (ofText "/a/b") = .ok name := by
  have hname : ({} : Disk).within (ofText ".//a/./b/c//d.rb/.") (ofText "./a//b") =
      .ok "c//d.rb" := by decide
  refine ⟨hname, ?_, ?_⟩
  · exact ((within_by_components {} _ _ (by decide)).2 _ hname).1
  · rw [(within_by_components {} _ _ (by decide)).1]
    rintro ⟨rest, hrest, -⟩
    have hprefix : components (ofText "/a/b") <+: components (ofText "/a/bc") := ⟨rest, hrest.symm⟩
    exact absurd hprefix (by decide)

end Disk

end FactoryRoster
