import FactoryRoster.Proofs.Disk.Resolution

/-!
# Where entries are

Whatever slashes and dots the path of a directory was written with, an entry is where the way of the
directory leads on to by the entry's name (`Disk.Fits.resolve_along`), if its path is not too long.
-/

namespace FactoryRoster.Disk

open FactoryRoster.Path

variable {d : Disk} {n : Nat} {start : Place} {p : Path} {x : List Glyph}
  {names : List (List Glyph)}

/-- An entry is where the way of its directory leads on to by its name. -/
theorem exists_sameWay (d : Disk) (n : Nat) (start : Place) (p : Path) (hx : slash ∉ x) :
    ∃ ss, segments (entry p x) = ss ++ [x] ∧ d.SameWay n start (segments p) ss := by
  obtain ⟨ss, hentry, hp⟩ := exists_segments_entry p hx
  refine ⟨ss, hentry, ?_⟩
  rcases hp with hp | ⟨s, hs, hp⟩
  · rw [hp]
    exact .refl n start _
  · rw [hp]
    exact .idle hs n start _

theorem SameWay.entry {ss : List (List Glyph)} (h : d.SameWay n start (segments p) ss)
    (hx : slash ∉ x) : d.SameWay n start (segments (entry p x)) (ss ++ [x]) := by
  obtain ⟨ts, hentry, hts⟩ := exists_sameWay d n start p hx
  rw [hentry]
  exact (hts.symm.trans h).append _

theorem SameWay.along {ss : List (List Glyph)} (h : d.SameWay n start (segments p) ss)
    (hnames : ∀ x ∈ names, slash ∉ x) :
    d.SameWay n start (segments (along p names)) (ss ++ names) := by
  induction names generalizing p ss with
  | nil =>
      rw [List.append_nil]
      exact h
  | cons x names ih =>
      rw [List.forall_mem_cons] at hnames
      have htail := ih (h.entry hnames.1) hnames.2
      rw [List.append_assoc, List.singleton_append] at htail
      exact htail

/-- Where names lead from a path is where its way leads on to by them. -/
theorem resolveFrom_along {ss : List (List Glyph)} (h : d.SameWay n start (segments p) ss)
    (hne : names ≠ []) (hnames : ∀ x ∈ names, slash ∉ x) (last : Bool) :
    d.resolveFrom last n start (segments (along p names)) =
      d.resolveFrom last n start (ss ++ names) := by
  obtain ⟨front, x, rfl⟩ := (List.eq_nil_or_concat' names).resolve_left hne
  rw [List.forall_mem_append, List.forall_mem_singleton] at hnames
  obtain ⟨ts, hentry, hts⟩ := exists_sameWay d n start (Path.along p front) hnames.2
  have hfront := h.along hnames.1
  rw [along_append, ← List.append_assoc]
  change d.resolveFrom last n start (segments (Path.entry (Path.along p front) x)) = _
  rw [hentry]
  exact (hts.symm.trans hfront) last _ (by simp)

/-! ### Paths that lead somewhere -/

/-- A path that may lead somewhere, as far as its text goes. -/
structure Fits (p : Path) : Prop where
  nonempty : p ≠ []
  noNul : .char '\x00' ∉ p
  short : size p < pathLimit

theorem Fits.resolve_eq (h : Fits p) (d : Disk) (last : Bool) :
    d.resolve p last = d.resolveFrom last linkLimit (d.start p) (segments p) := by
  have hnul : p.contains (.char '\x00') = false := by
    rw [← Bool.not_eq_true, List.contains_iff_mem]
    exact h.noNul
  have hempty : p.isEmpty = false := by
    rw [List.isEmpty_eq_false_iff]
    exact h.nonempty
  simp only [resolve, hnul, hempty, Nat.not_le.mpr h.short, Bool.false_eq_true, if_false]

theorem Fits.of_resolve {last : Bool} {goal : Place} (h : d.resolve p last = .ok goal) :
    Fits p := by
  unfold resolve at h
  split at h
  · cases h
  · rename_i hnul
    split at h
    · cases h
    · rename_i hempty
      split at h
      · cases h
      · rename_i hshort
        refine ⟨?_, fun hmem => hnul ?_, Nat.not_le.mp hshort⟩
        · rintro rfl
          exact hempty rfl
        · exact List.contains_iff_mem.mpr hmem

theorem start_along (d : Disk) (p : Path) (hnames : ∀ x ∈ names, slash ∉ x) :
    d.start (along p names) = d.start p := by
  simp only [Disk.start, isAbsolute_along p hnames]

theorem Fits.here : Fits Path.here :=
  ⟨by decide, by decide, by decide⟩

/-- A path fits if the path of an entry in it does. -/
theorem Fits.of_entry (h : Fits (entry p x)) (hp : p ≠ []) : Fits p := by
  by_cases hdot : p = Path.here
  · subst hdot
    exact .here
  · refine ⟨hp, fun hnul => h.noNul ?_, Nat.lt_of_le_of_lt ?_ h.short⟩
    · unfold Path.entry
      rw [if_neg hdot]
      split <;> exact List.mem_append_left _ hnul
    · rw [size_entry]
      exact Nat.le_trans (size_le_sizeBefore hdot) (Nat.le_add_right _ _)

theorem Fits.of_along (h : Fits (along p names)) (hp : p ≠ []) (hnames : ∀ x ∈ names, x ≠ []) :
    Fits p := by
  induction names generalizing p with
  | nil => exact h
  | cons x names ih =>
      rw [List.forall_mem_cons] at hnames
      exact (ih h (entry_ne_nil p hnames.1) hnames.2).of_entry hp

/-- Where names lead from a path. -/
theorem Fits.resolve_along (h : Fits (along p names)) (hne : names ≠ [])
    (hnames : ∀ x ∈ names, slash ∉ x) (d : Disk) (last : Bool) :
    d.resolve (along p names) last =
      d.resolveFrom last linkLimit (d.start p) (segments p ++ names) := by
  rw [h.resolve_eq, start_along d p hnames]
  exact resolveFrom_along (.refl _ _ _) hne hnames last

/-- What names lead to is in a directory, as an entry of the first of these names. -/
theorem exists_entry (hp : p ≠ []) (hx : IsName x) (hnames : ∀ y ∈ names, IsName y) {goal : Place}
    (h : d.resolve (along p (x :: names)) = .ok goal) :
    ∃ place m, d.resolve p = .ok place ∧ d.item? place = some .directory ∧
      d.item? (place ++ [x]) ≠ none ∧ d.resolveFrom true m place (x :: names) = .ok goal := by
  have hfits := Fits.of_resolve h
  have hall : ∀ y ∈ x :: names, IsName y := List.forall_mem_cons.mpr ⟨hx, hnames⟩
  have hfits' := hfits.of_along hp fun y hy => (hall y hy).nonempty
  rw [hfits.resolve_along (by simp) fun y hy => (hall y hy).noSlash] at h
  obtain ⟨place, m, -, hplace, hdirectory, -, hrest⟩ := exists_directory (by simp) h
  exact ⟨place, m, by rw [hfits'.resolve_eq, hplace], hdirectory, item?_of_resolveFrom hx hrest,
    hrest⟩

end FactoryRoster.Disk
