import FactoryRoster.Proofs.Path.Remainders
import FactoryRoster.Proofs.Scan.Ranks

/-!
# Paths of walks as they are written

The path of a walk is written after the path of its directory (`Disk.written`). A search finds the
walk by another path, with fewer dots and slashes in it (`Disk.reached`). That path is no longer, it
has the same names, and it leads to the same.
-/

namespace FactoryRoster

namespace Disk

open Glob FactoryRoster.Path

variable {d : Disk} {base : Path} {w : Walk}

/-- The path of a walk below a directory, written after the directory's own. -/
def written (base : Path) (w : Walk) : Path :=
  if w = [] then base else Path.join base (ofSegments w)

/-- A directory's path with a slash at its end. -/
def ahead (base : Path) : Path :=
  if base.getLast? = some slash then base else base ++ [slash]

theorem written_nil (base : Path) : written base [] = base :=
  if_pos rfl

theorem ahead_slash {rest : Path} (hrest : rest ≠ []) :
    ahead (slash :: rest) = slash :: ahead rest := by
  obtain ⟨g, rest, rfl⟩ := List.exists_cons_of_ne_nil hrest
  rw [ahead, ahead, List.getLast?_cons_cons]
  split <;> rfl

theorem ofSegments_ne_nil (hw : w ≠ []) (hnames : ∀ x ∈ w, IsName x) : ofSegments w ≠ [] := by
  intro hnil
  have hsegments := segments_ofSegments hw fun x hx => (hnames x hx).noSlash
  rw [hnil] at hsegments
  have hempty : [] ∈ w := by
    rw [← hsegments]
    exact List.mem_singleton_self _
  exact (hnames [] hempty).nonempty rfl

theorem isAbsolute_ofSegments (hw : w ≠ []) (hnames : ∀ x ∈ w, IsName x) :
    isAbsolute (ofSegments w) = false := by
  rw [Bool.eq_false_iff]
  intro habsolute
  obtain ⟨rest, hrest⟩ := exists_of_isAbsolute habsolute
  have hsegments := segments_ofSegments hw fun x hx => (hnames x hx).noSlash
  rw [hrest, segments_slash] at hsegments
  have hempty : [] ∈ w := by
    rw [← hsegments]
    exact List.mem_cons_self
  exact (hnames [] hempty).nonempty rfl

theorem written_eq (hbase : base ≠ []) (hw : w ≠ []) (hnames : ∀ x ∈ w, IsName x) :
    written base w = ahead base ++ ofSegments w := by
  have hempty : base.isEmpty = false := by simpa using hbase
  rw [written, if_neg hw, Path.join, isAbsolute_ofSegments hw hnames, hempty, ahead]
  by_cases hslash : base.getLast? = some slash
  · simp [hslash]
  · simp [hslash]

/-! ### Where they lead -/

theorem isAbsolute_ahead (hbase : base ≠ []) (p : Path) :
    isAbsolute (ahead base ++ p) = isAbsolute base := by
  obtain ⟨g, rest, rfl⟩ := List.exists_cons_of_ne_nil hbase
  unfold ahead
  split <;> rfl

/-- The segments of a path of a walk are those of the directory's path, but for an empty one at the
end, and the names. -/
theorem exists_segments_ahead (base : Path) (hw : w ≠ []) (hnames : ∀ x ∈ w, IsName x) :
    ∃ ss, segments (ahead base ++ ofSegments w) = ss ++ w ∧ ss ≠ [] ∧
      (segments base = ss ∨ segments base = ss ++ [[]]) := by
  have hsegments := segments_ofSegments hw fun x hx => (hnames x hx).noSlash
  unfold ahead
  split
  · rename_i hlast
    obtain ⟨front, rfl⟩ := List.getLast?_eq_some_iff.mp hlast
    refine ⟨segments front, ?_, segments_ne_nil front, .inr (segments_append_slash _ _)⟩
    rw [List.append_assoc, List.singleton_append, segments_append_slash, hsegments]
  · refine ⟨segments base, ?_, segments_ne_nil base, .inl rfl⟩
    rw [List.append_assoc, List.singleton_append, segments_append_slash, hsegments]

/-- The names of a walk come after segments that lead where the directory's do. -/
theorem exists_sameWay_ahead (base : Path) (hw : w ≠ []) (hnames : ∀ x ∈ w, IsName x) :
    ∃ ss, segments (ahead base ++ ofSegments w) = ss ++ w ∧
      ∀ (d : Disk) n start, d.SameWay n start (segments base) ss := by
  obtain ⟨ss, hss, -, hbase | hbase⟩ := exists_segments_ahead base hw hnames
  · refine ⟨ss, hss, fun d n start => ?_⟩
    rw [hbase]
    exact .refl n start _
  · refine ⟨ss, hss, fun d n start => ?_⟩
    rw [hbase]
    exact .idle rfl n start _

/-- A search gets to a directory by the way that its path says. -/
theorem sameWay_baseSpot (d : Disk) (n : Nat) (start : Place) (base : Path) :
    d.SameWay n start (segments (baseSpot base)) (segments base) := by
  have hparts : d.SameWay n start (segments (baseSpot base))
      (segments (startOf base) ++ partsOf base) :=
    (SameWay.refl n start _).along fun _ => noSlash_of_mem_partsOf
  apply hparts.trans
  intro last us hus
  cases habsolute : isAbsolute base with
  | true =>
      obtain ⟨rest, rfl⟩ := exists_of_isAbsolute habsolute
      rw [segments_slash]
      change d.resolveFrom last n start ([] :: [] :: (segments rest ++ us)) =
        d.resolveFrom last n start ([] :: (segments rest ++ us))
      exact resolveFrom_idle rfl _
  | false =>
      rw [startOf_of_relative habsolute, partsOf_of_relative habsolute]
      obtain ⟨s, ss, hsegments⟩ := List.exists_cons_of_ne_nil (segments_ne_nil base)
      rw [hsegments]
      exact resolveFrom_idle (by decide) _

/-- A walk leads to the same by the path that it is found by. -/
theorem resolve_written (hw : w ≠ []) (hnames : ∀ x ∈ w, IsName x) (hbase : base ≠ [])
    (hwritten : Fits (written base w)) (hreached : Fits (reached base w)) :
    d.resolve (written base w) = d.resolve (reached base w) := by
  have hslash : ∀ x ∈ w, slash ∉ x := fun x hx => (hnames x hx).noSlash
  have hstart : d.start (written base w) = d.start base := by
    rw [written_eq hbase hw hnames]
    simp only [Disk.start, isAbsolute_ahead hbase]
  have hstart' : d.start (baseSpot base) = d.start base := by
    simp only [Disk.start, isAbsolute_baseSpot]
  obtain ⟨ss, hsegments, hss⟩ := exists_sameWay_ahead base hw hnames
  calc
    d.resolve (written base w)
        = d.resolveFrom true linkLimit (d.start base) (ss ++ w) := by
      rw [hwritten.resolve_eq, hstart, written_eq hbase hw hnames, hsegments]
    _ = d.resolveFrom true linkLimit (d.start base) (segments base ++ w) :=
      (hss d _ _ true _ hw).symm
    _ = d.resolveFrom true linkLimit (d.start base) (segments (baseSpot base) ++ w) :=
      (sameWay_baseSpot d _ _ base true _ hw).symm
    _ = d.resolve (reached base w) := by
      rw [reached, hreached.resolve_along hw hslash, hstart']

/-! ### How long they are -/

theorem sizeBefore_along_le (p rest : Path) :
    sizeBefore (along p (segments rest)) ≤ sizeBefore p + size (ahead rest) := by
  have hbound : ∀ front : Path,
      sizeBefore (along p (segments front)) ≤ sizeBefore p + size (front ++ [slash]) := by
    intro front
    have hbefore := sizeBefore_le (along p (segments front))
    have hsize := size_along_le p (segments_ne_nil front)
    rw [ofSegments_segments] at hsize
    rw [size_concat_slash]
    omega
  unfold ahead
  split
  · rename_i hlast
    obtain ⟨front, rfl⟩ := List.getLast?_eq_some_iff.mp hlast
    rw [segments_append_slash, along_append]
    change sizeBefore (entry (along p (segments front)) []) ≤ _
    rw [sizeBefore_entry_nil]
    exact hbound front
  · exact hbound rest

/-- What stands before the names of a walk is no longer than in the path as it is written. -/
theorem sizeBefore_baseSpot_le (base : Path) : sizeBefore (baseSpot base) ≤ size (ahead base) := by
  cases habsolute : isAbsolute base with
  | true =>
      obtain ⟨rest, rfl⟩ := exists_of_isAbsolute habsolute
      by_cases hroot : rest = []
      · subst hroot
        decide
      · rw [ahead_slash hroot, size_cons_slash]
        exact sizeBefore_along_le [slash] rest
  | false =>
      have hbound := sizeBefore_along_le here base
      rw [baseSpot, startOf_of_relative habsolute, partsOf_of_relative habsolute]
      have hdot : sizeBefore here = 0 := rfl
      omega

theorem noNul_of_ofSegments (hw : w ≠ []) (hnames : ∀ x ∈ w, IsName x)
    (hnul : .char '\x00' ∉ ofSegments w) : ∀ x ∈ w, .char '\x00' ∉ x := by
  intro x hx hmem
  apply hnul
  apply mem_of_mem_segments (s := x) _ hmem
  rw [segments_ofSegments hw fun y hy => (hnames y hy).noSlash]
  exact hx

/-- What may lead somewhere as it is written may do so by the path that it is found by. -/
theorem fits_reached (hw : w ≠ []) (hnames : ∀ x ∈ w, IsName x) (hbase : base ≠ [])
    (hspot : Fits (baseSpot base)) (hwritten : Fits (written base w)) : Fits (reached base w) where
  nonempty := along_ne_nil hspot.nonempty fun x hx => (hnames x hx).nonempty
  noNul := by
    intro hnul
    have hafter : .char '\x00' ∉ ofSegments w := by
      intro h
      apply hwritten.noNul
      rw [written_eq hbase hw hnames]
      exact List.mem_append_right _ h
    rcases mem_along hnul with hnul | ⟨x, hx, hnul⟩ | hnul
    · exact hspot.noNul hnul
    · exact noNul_of_ofSegments hw hnames hafter x hx hnul
    · exact absurd hnul (by decide)
  short := by
    have hshort := hwritten.short
    have hsize := size_along_le (baseSpot base) hw
    have hbefore := sizeBefore_baseSpot_le base
    rw [written_eq hbase hw hnames, size_append] at hshort
    rw [reached]
    omega

theorem fits_written (hw : w ≠ []) (hnames : ∀ x ∈ w, IsName x) (hbase : Fits base)
    (hreached : Fits (reached base w)) (hshort : size (written base w) < pathLimit) :
    Fits (written base w) where
  nonempty := by
    rw [written_eq hbase.nonempty hw hnames]
    simp [ofSegments_ne_nil hw hnames]
  noNul := by
    intro hnul
    rw [written_eq hbase.nonempty hw hnames] at hnul
    rcases List.mem_append.mp hnul with hnul | hnul
    · unfold ahead at hnul
      split at hnul
      · exact hbase.noNul hnul
      · rcases List.mem_append.mp hnul with hnul | hnul
        · exact hbase.noNul hnul
        · exact absurd hnul (by decide)
    · rcases mem_ofSegments hnul with hnul | ⟨x, hx, hnul⟩
      · exact absurd hnul (by decide)
      · exact hreached.noNul (mem_along_of_mem hw hnames hx hnul)
  short := hshort

/-! ### Their components -/

theorem filter_anchor (p : Path) :
    (anatomy p).1.components.filter (· ≠ .here) = if isAbsolute p then [.root] else [] := by
  rw [Path.isAbsolute_eq]
  cases (anatomy p).1 <;> rfl

/-- The components of a path without its anchor, if that is a dot. -/
theorem filter_components (p : Path) :
    (components p).filter (· ≠ .here) =
      (if isAbsolute p then [.root] else []) ++ (counting (segments p)).map component := by
  rw [components_eq_segments, List.filter_append, filter_anchor]
  congr 1
  apply List.filter_eq_self.mpr
  intro c hc
  obtain ⟨s, -, rfl⟩ := List.mem_map.mp hc
  unfold component
  split <;> simp

theorem counting_partsOf (base : Path) : counting (partsOf base) = counting (segments base) := by
  cases habsolute : isAbsolute base with
  | true =>
      obtain ⟨rest, rfl⟩ := exists_of_isAbsolute habsolute
      rw [segments_slash]
      exact (counting_cons_of_idle rfl _).symm
  | false => rw [partsOf_of_relative habsolute]

/-- The components of the path that a walk is found by are the directory's, but for a dot at the
front, and the names. -/
theorem components_reached (hw : w ≠ []) (hnames : ∀ x ∈ w, IsName x) (hmoves : ¬ Stalled base) :
    components (reached base w) = (components base).filter (· ≠ .here) ++ w.map .name := by
  have hself : (components (reached base w)).filter (· ≠ .here) = components (reached base w) := by
    apply List.filter_eq_self.mpr
    intro c hc
    have hhere := here_not_mem_components (head?_segments_reached hmoves hw hnames)
    simpa using fun h : c = .here => hhere (h ▸ hc)
  have hwalk : w.map component = w.map .name :=
    List.map_congr_left fun x hx => component_name (hnames x hx)
  rw [← hself, filter_components, filter_components, isAbsolute_reached base hnames,
    counting_segments_reached base hnames, counting_partsOf, List.map_append, hwalk,
    List.append_assoc]

end Disk

end FactoryRoster
