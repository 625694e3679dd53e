import FactoryRoster.Path

/-!
# Taking a prefix off a path

A prefix is taken off by its components, so what is left of a path are the segments after it,
however many segments that do not count there are on the way (`Path.below?_of_anatomy`).
-/

namespace FactoryRoster.Path

theorem segments_ne_nil (p : Path) : segments p ≠ [] := by
  cases p with
  | nil => simp [segments]
  | cons g p =>
      rw [segments]
      split
      · simp
      · split <;> simp

/-- The segments that count. -/
def counting (ss : List (List Glyph)) : List (List Glyph) :=
  ss.filter (!isIdle ·)

theorem counting_append (ss ts : List (List Glyph)) :
    counting (ss ++ ts) = counting ss ++ counting ts :=
  List.filter_append ss ts

theorem counting_of_forall {ss : List (List Glyph)} (h : ∀ s ∈ ss, isIdle s = false) :
    counting ss = ss :=
  List.filter_eq_self.mpr fun s hs => by rw [h s hs]; rfl

theorem counting_cons_of_idle {s : List Glyph} (hs : isIdle s = true) (ss : List (List Glyph)) :
    counting (s :: ss) = counting ss :=
  List.filter_cons_of_neg (by simp [hs])

theorem counting_cons_of_not_idle {s : List Glyph} (hs : isIdle s = false)
    (ss : List (List Glyph)) : counting (s :: ss) = s :: counting ss :=
  List.filter_cons_of_pos (by simp [hs])

theorem trimFront_of_forall {ss : List (List Glyph)} (h : ∀ s ∈ ss, isIdle s = false) :
    trimFront ss = ss := by
  cases ss with
  | nil => rfl
  | cons s ss => rw [trimFront, List.dropWhile_cons_of_neg (by simp [h s List.mem_cons_self])]

theorem trimEnd_of_forall {ss : List (List Glyph)} (h : ∀ s ∈ ss, isIdle s = false) :
    trimEnd ss = ss := by
  rw [trimEnd, trimFront_of_forall fun s hs => h s (List.mem_reverse.mp hs), List.reverse_reverse]

theorem trimFront_append_of_idle {ss : List (List Glyph)} (h : counting ss = [])
    (ts : List (List Glyph)) : trimFront (ss ++ ts) = trimFront ts := by
  induction ss with
  | nil => rfl
  | cons s ss ih =>
      cases hs : isIdle s with
      | false =>
          rw [counting_cons_of_not_idle hs] at h
          cases h
      | true =>
          rw [counting_cons_of_idle hs] at h
          rw [List.cons_append, trimFront, List.dropWhile_cons_of_pos hs]
          exact ih h

/-- What counts of the first segments is what is dropped. -/
theorem trimFront_dropComponents (ss ts : List (List Glyph)) :
    trimFront (dropComponents (counting ss).length (ss ++ ts)) = trimFront ts := by
  induction ss with
  | nil =>
      have hzero : dropComponents 0 ts = ts := by cases ts <;> rfl
      exact congrArg trimFront hzero
  | cons s ss ih =>
      cases hs : isIdle s with
      | false =>
          rw [counting_cons_of_not_idle hs, List.length_cons, List.cons_append, dropComponents, hs]
          exact ih
      | true =>
          rw [counting_cons_of_idle hs]
          by_cases hcounting : counting ss = []
          · rw [hcounting]
            have hidle : counting (s :: ss) = [] := by rw [counting_cons_of_idle hs, hcounting]
            exact trimFront_append_of_idle hidle ts
          · obtain ⟨n, hn⟩ := Nat.exists_eq_add_one_of_ne_zero
              (fun hzero => hcounting (List.eq_nil_of_length_eq_zero hzero))
            rw [hn] at ih ⊢
            rw [List.cons_append, dropComponents, hs]
            exact ih

theorem components_eq (p : Path) :
    components p = (anatomy p).1.components ++ (counting (anatomy p).2).map component := rfl

theorem components_eq_segments (p : Path) :
    components p =
      (anatomy p).1.components ++ (counting (segments p)).map component := by
  rw [components_eq]
  congr 2
  unfold anatomy
  split
  · rename_i heq
    rw [heq, counting_cons_of_idle (s := []) rfl]
  · rename_i s ss _ heq
    rw [heq]
    split
    · rename_i hhere
      rw [hhere, counting_cons_of_idle (s := here) (by decide)]
    · rfl
  · rename_i heq
    rw [heq]

/-- A prefix with the same anchor leaves the segments after it. -/
theorem below?_of_anatomy {p base : Path} {anchor : Anchor} {ss ts us : List (List Glyph)}
    (hp : anatomy p = (anchor, ss ++ ts)) (hbase : anatomy base = (anchor, us))
    (hsame : counting ss = counting us) (hts : ∀ s ∈ ts, isIdle s = false)
    (hstart : components base ≠ []) : below? p base = some (ofSegments ts) := by
  have hcomponents : components p = components base ++ ts.map component := by
    rw [components_eq, components_eq, hp, hbase]
    simp only [counting_append, counting_of_forall hts, hsame, List.map_append, List.append_assoc]
  have hcount : (components base).length - anchor.components.length = (counting ss).length := by
    rw [components_eq, hbase, hsame, List.length_append, List.length_map, Nat.add_sub_cancel_left]
  have hprefix : (components base).isPrefixOf (components p) = true := by
    rw [hcomponents, List.isPrefixOf_iff_prefix]
    exact List.prefix_append _ _
  have hempty : (components base).isEmpty = false := by
    rw [List.isEmpty_eq_false_iff]
    exact hstart
  simp only [below?, hprefix, hempty, hp, hcount, trimFront_dropComponents,
    trimFront_of_forall hts, trimEnd_of_forall hts, if_true, Bool.false_eq_true, if_false]

/-- What does not begin with the components of a path is not below it. -/
theorem below?_eq_none {p base : Path} (h : ¬ components base <+: components p) :
    below? p base = none := by
  rw [← List.isPrefixOf_iff_prefix] at h
  simp only [below?, h, Bool.false_eq_true, if_false]

theorem component_injective : Function.Injective component := by
  intro s t h
  unfold component at h
  split at h
  · rename_i hs
    split at h
    · rename_i ht
      rw [hs, ht]
    · cases h
  · split at h
    · cases h
    · exact Component.name.inj h

/-! ### Anchors -/

theorem anatomy_of_root {p : Path} {s : List Glyph} {ss : List (List Glyph)}
    (h : segments p = [] :: s :: ss) : anatomy p = (.root, s :: ss) := by
  rw [anatomy, h]

theorem anatomy_of_here {p : Path} {ss : List (List Glyph)} (h : segments p = here :: ss) :
    anatomy p = (.here, ss) := by
  rw [anatomy, h]
  rfl

theorem anatomy_of_name {p : Path} {s : List Glyph} {ss : List (List Glyph)}
    (h : segments p = s :: ss) (hs : isIdle s = false) : anatomy p = (.none, s :: ss) := by
  obtain ⟨hempty, hhere⟩ : s ≠ [] ∧ s ≠ here := by simpa [isIdle] using hs
  obtain ⟨g, s, rfl⟩ := List.exists_cons_of_ne_nil hempty
  rw [anatomy, h]
  exact if_neg hhere

theorem anatomy_ne_here {p : Path} (h : (segments p).head? ≠ some here) :
    (anatomy p).1 ≠ .here := by
  unfold anatomy
  split
  · simp
  · rename_i s ss _ heq
    rw [heq, List.head?_cons, ne_eq, Option.some.injEq] at h
    rw [if_neg h]
    simp
  · simp

theorem here_not_mem_components {p : Path} (h : (segments p).head? ≠ some here) :
    .here ∉ components p := by
  have hanchor := anatomy_ne_here h
  rw [components_eq, List.mem_append, not_or]
  constructor
  · cases hp : (anatomy p).1 with
    | root => simp [Anchor.components]
    | here => exact absurd hp hanchor
    | none => simp [Anchor.components]
  · rw [List.mem_map]
    rintro ⟨s, -, hs⟩
    unfold component at hs
    split at hs <;> cases hs

end FactoryRoster.Path
