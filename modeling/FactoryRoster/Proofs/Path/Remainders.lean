import Mathlib.Data.List.DropRight
import FactoryRoster.Proofs.Path.Below

/-!
# What is left of a path

After a prefix of its components, what is left of a path is the path of its other components
(`Path.exists_below?`). It has no anchor and no slash at its end, so that it leads on from the
prefix to all the components again (`Path.components_join`), unless there is no prefix, and all is
left.
-/

namespace FactoryRoster.Path

/-! ### Segments between slashes -/

theorem segments_of_not_mem {s : List Glyph} (h : slash ∉ s) : segments s = [s] := by
  induction s with
  | nil => rfl
  | cons g s ih =>
      rw [List.mem_cons, not_or] at h
      rw [segments, if_neg (Ne.symm h.1), ih h.2]

theorem segments_append_slash (p q : Path) :
    segments (p ++ slash :: q) = segments p ++ segments q := by
  induction p with
  | nil => simp [segments]
  | cons g p ih =>
      simp only [List.cons_append, segments, ih]
      split
      · rfl
      · cases hp : segments p with
        | nil => exact absurd hp (segments_ne_nil p)
        | cons s ss => rfl

theorem slash_not_mem_of_mem_segments {p : Path} {s : List Glyph} (h : s ∈ segments p) :
    slash ∉ s := by
  induction p generalizing s with
  | nil =>
      rw [segments, List.mem_singleton] at h
      simp [h]
  | cons g p ih =>
      rw [segments] at h
      split at h
      · rcases List.mem_cons.mp h with rfl | h
        · simp
        · exact ih h
      · rename_i hg
        cases hp : segments p with
        | nil => exact absurd hp (segments_ne_nil p)
        | cons t ts =>
            rw [hp] at h ih
            rcases List.mem_cons.mp h with rfl | h
            · rw [List.mem_cons, not_or]
              exact ⟨Ne.symm hg, ih List.mem_cons_self⟩
            · exact ih (List.mem_cons_of_mem _ h)

theorem segments_ofSegments {ss : List (List Glyph)} (hne : ss ≠ []) (h : ∀ s ∈ ss, slash ∉ s) :
    segments (ofSegments ss) = ss := by
  induction ss with
  | nil => exact absurd rfl hne
  | cons s ss ih =>
      rw [List.forall_mem_cons] at h
      cases ss with
      | nil => exact segments_of_not_mem h.1
      | cons t ts =>
          have hcons : ofSegments (s :: t :: ts) = s ++ slash :: ofSegments (t :: ts) := by
            rw [ofSegments]
            simp
          rw [hcons, segments_append_slash, segments_of_not_mem h.1, ih (by simp) h.2]
          rfl

/-! ### Anchors -/

/-- How a path can begin. -/
theorem anatomy_cases (p : Path) :
    (∃ s ss, segments p = [] :: s :: ss ∧ anatomy p = (.root, s :: ss)) ∨
      (∃ ss, segments p = here :: ss ∧ anatomy p = (.here, ss)) ∨
      (∃ s ss, segments p = s :: ss ∧ isIdle s = false ∧ anatomy p = (.none, s :: ss)) ∨
      p = [] := by
  obtain ⟨s, ss, hp⟩ := List.exists_cons_of_ne_nil (segments_ne_nil p)
  by_cases hempty : s = []
  · subst hempty
    cases ss with
    | cons s ss => exact .inl ⟨s, ss, hp, anatomy_of_root hp⟩
    | nil =>
        cases p with
        | nil => exact .inr (.inr (.inr rfl))
        | cons g p =>
            rw [segments] at hp
            split at hp
            · exact absurd (List.cons.inj hp).2 (segments_ne_nil p)
            · split at hp <;> cases hp
  · by_cases hhere : s = here
    · subst hhere
      exact .inr (.inl ⟨ss, hp, anatomy_of_here hp⟩)
    · have hs : isIdle s = false := by simp [isIdle, hempty, hhere]
      exact .inr (.inr (.inl ⟨s, ss, hp, hs, anatomy_of_name hp hs⟩))

theorem slash_not_mem_of_mem_anatomy {p : Path} {s : List Glyph} (h : s ∈ (anatomy p).2) :
    slash ∉ s := by
  have hmem : s ∈ segments p := by
    rcases anatomy_cases p with ⟨t, ss, hss, hp⟩ | ⟨ss, hss, hp⟩ | ⟨t, ss, hss, -, hp⟩ | rfl
    · rw [hp] at h
      rw [hss]
      exact List.mem_cons_of_mem _ h
    · rw [hp] at h
      rw [hss]
      exact List.mem_cons_of_mem _ h
    · rw [hp] at h
      rw [hss]
      exact h
    · exact h
  exact slash_not_mem_of_mem_segments hmem

/-- Only the empty path has no components. -/
theorem eq_nil_of_components {p : Path} (h : components p = []) : p = [] := by
  rcases anatomy_cases p with ⟨s, ss, -, hp⟩ | ⟨ss, -, hp⟩ | ⟨s, ss, -, hs, hp⟩ | hp
  · rw [components_eq, hp] at h
    cases h
  · rw [components_eq, hp] at h
    cases h
  · rw [components_eq, hp, counting_cons_of_not_idle hs] at h
    cases h
  · exact hp

/-- What a path with a component at its front starts from. -/
def Component.anchor : Component → Anchor
  | .root => .root
  | .here => .here
  | _ => .none

theorem anchor_component (s : List Glyph) : (component s).anchor = .none := by
  unfold component
  split <;> rfl

theorem anchor_of_components {p : Path} {c : Component} {cs : List Component}
    (h : components p = c :: cs) : (anatomy p).1 = c.anchor := by
  rw [components_eq] at h
  cases hp : (anatomy p).1 with
  | root | here =>
      rw [hp] at h
      obtain ⟨rfl, -⟩ := List.cons.inj h
      rfl
  | none =>
      rw [hp] at h
      have hmem : c ∈ (counting (anatomy p).2).map component := by
        have hall : (counting (anatomy p).2).map component = c :: cs := h
        rw [hall]
        exact List.mem_cons_self
      obtain ⟨s, -, rfl⟩ := List.mem_map.mp hmem
      exact (anchor_component s).symm

theorem anchor_slash (p : Path) : (anatomy (slash :: p)).1 = .root := by
  obtain ⟨s, ss, hp⟩ := List.exists_cons_of_ne_nil (segments_ne_nil p)
  have hroot : segments (slash :: p) = [] :: s :: ss := by rw [segments, if_pos rfl, hp]
  rw [anatomy_of_root hroot]

/-- A path is absolute just if it is anchored at the root. -/
theorem isAbsolute_eq (p : Path) : isAbsolute p = decide ((anatomy p).1 = .root) := by
  cases p with
  | nil => rfl
  | cons g p =>
      by_cases hg : g = slash
      · subst hg
        rw [anchor_slash]
        rfl
      · have hfirst : (segments (g :: p)).head? ≠ some [] := by
          rw [segments, if_neg hg]
          split <;> simp
        have hrelative : isAbsolute (g :: p) = false := by simp [isAbsolute, hg]
        rw [hrelative]
        rcases anatomy_cases (g :: p) with ⟨s, ss, hp, -⟩ | ⟨ss, -, h⟩ | ⟨s, ss, -, -, h⟩ | h
        · rw [hp] at hfirst
          exact absurd rfl hfirst
        · rw [h]
          rfl
        · rw [h]
          rfl
        · cases h

theorem isAbsolute_of_anchor {p : Path} (h : (anatomy p).1 = .none) : isAbsolute p = false := by
  rw [isAbsolute_eq, h]
  rfl

/-- Segments at the end of a path do not change its anchor. -/
theorem anchor_append_slash {p : Path} (hp : p ≠ []) (q : Path) :
    (anatomy (p ++ slash :: q)).1 = (anatomy p).1 := by
  rcases anatomy_cases p with ⟨s, ss, hs, h⟩ | ⟨ss, hs, h⟩ | ⟨s, ss, hs, hidle, h⟩ | h
  · rw [h, anatomy_of_root (by rw [segments_append_slash, hs]; rfl)]
  · rw [h, anatomy_of_here (by rw [segments_append_slash, hs]; rfl)]
  · rw [h, anatomy_of_name (by rw [segments_append_slash, hs]; rfl) hidle]
  · exact absurd h hp

/-! ### Segments without idle ends -/

theorem mem_of_mem_trimFront {s : List Glyph} {ss : List (List Glyph)} (h : s ∈ trimFront ss) :
    s ∈ ss :=
  (List.dropWhile_sublist _).subset h

theorem trimEnd_isPrefix (ss : List (List Glyph)) : trimEnd ss <+: ss :=
  List.rdropWhile_prefix isIdle ss

theorem counting_trimFront (ss : List (List Glyph)) : counting (trimFront ss) = counting ss := by
  induction ss with
  | nil => rfl
  | cons s ss ih =>
      cases hs : isIdle s with
      | false => rw [trimFront, List.dropWhile_cons_of_neg (by simp [hs])]
      | true =>
          rw [trimFront, List.dropWhile_cons_of_pos hs, counting_cons_of_idle hs]
          exact ih

theorem counting_trimEnd (ss : List (List Glyph)) : counting (trimEnd ss) = counting ss := by
  have hreverse : ∀ ts, counting ts.reverse = (counting ts).reverse := fun ts =>
    List.filter_reverse
  rw [trimEnd, hreverse, counting_trimFront, hreverse, List.reverse_reverse]

theorem counting_dropComponents (count : Nat) (ss : List (List Glyph)) :
    counting (dropComponents count ss) = (counting ss).drop count := by
  induction ss generalizing count with
  | nil => cases count <;> simp [dropComponents, counting]
  | cons s ss ih =>
      cases count with
      | zero => rfl
      | succ count =>
          cases hs : isIdle s with
          | false =>
              rw [dropComponents, hs, counting_cons_of_not_idle hs, List.drop_succ_cons]
              exact ih count
          | true =>
              rw [dropComponents, hs, counting_cons_of_idle hs]
              exact ih (count + 1)

theorem mem_of_mem_dropComponents {count : Nat} {s : List Glyph} {ss : List (List Glyph)}
    (h : s ∈ dropComponents count ss) : s ∈ ss := by
  induction ss generalizing count with
  | nil => cases count <;> exact h
  | cons t ss ih =>
      cases count with
      | zero => exact h
      | succ count =>
          rw [dropComponents] at h
          exact List.mem_cons_of_mem t (ih h)

/-- Segments of a path of which neither the first nor the last is idle. -/
structure Snug (ss : List (List Glyph)) : Prop where
  noSlash : ∀ s ∈ ss, slash ∉ s
  front : ∀ s ∈ ss.head?, isIdle s = false
  back : ∀ s ∈ ss.getLast?, isIdle s = false

theorem Snug.trimEnd {ss : List (List Glyph)} (h : ∀ s ∈ ss, slash ∉ s)
    (hfront : ∀ s ∈ ss.head?, isIdle s = false) : Snug (trimEnd ss) where
  noSlash s hs := h s ((trimEnd_isPrefix ss).subset hs)
  front s hs := by
    obtain ⟨ts, hts⟩ := trimEnd_isPrefix ss
    apply hfront
    rw [← hts, List.head?_append, hs]
    rfl
  back s hs := by
    obtain ⟨ts, hts⟩ := List.getLast?_eq_some_iff.mp hs
    have hne : Path.trimEnd ss ≠ [] := by simp [hts]
    have hlast : (Path.trimEnd ss).getLast hne = s := by simp [hts]
    rw [← hlast]
    exact Bool.eq_false_iff.mpr (List.rdropWhile_last_not isIdle ss hne)

theorem Snug.trim {ss : List (List Glyph)} (h : ∀ s ∈ ss, slash ∉ s) :
    Snug (Path.trimEnd (trimFront ss)) := by
  refine Snug.trimEnd (fun s hs => h s (mem_of_mem_trimFront hs)) fun s hs => ?_
  have hnot := List.head?_dropWhile_not isIdle ss
  rw [← trimFront, hs] at hnot
  exact hnot

/-- A path that goes on from another one: it has no anchor, and no slash at its end. -/
structure GoesOn (p : Path) : Prop where
  anchor : (anatomy p).1 = .none
  back : p.getLast? ≠ some slash

theorem Snug.segments_eq {ss : List (List Glyph)} (h : Snug ss) (hne : ss ≠ []) :
    segments (ofSegments ss) = ss :=
  segments_ofSegments hne h.noSlash

theorem Snug.anatomy_eq {ss : List (List Glyph)} (h : Snug ss) (hne : ss ≠ []) :
    anatomy (ofSegments ss) = (.none, ss) := by
  have hsegments := h.segments_eq hne
  obtain ⟨s, ss, rfl⟩ := List.exists_cons_of_ne_nil hne
  exact anatomy_of_name hsegments (h.front s rfl)

theorem Snug.components_eq {ss : List (List Glyph)} (h : Snug ss) :
    components (ofSegments ss) = (counting ss).map component := by
  by_cases hne : ss = []
  · rw [hne]
    rfl
  · rw [Path.components_eq, h.anatomy_eq hne]
    rfl

theorem Snug.goesOn {ss : List (List Glyph)} (h : Snug ss) : GoesOn (ofSegments ss) := by
  by_cases hne : ss = []
  · subst hne
    exact ⟨rfl, by simp [ofSegments]⟩
  · refine ⟨by rw [h.anatomy_eq hne], fun hlast => ?_⟩
    obtain ⟨p, hp⟩ := List.getLast?_eq_some_iff.mp hlast
    have hsegments := h.segments_eq hne
    rw [hp, segments_append_slash] at hsegments
    have hidle := h.back [] (by rw [← hsegments]; simp [segments])
    cases hidle

/-! ### What is left -/

theorem components_of_root {ss : List (List Glyph)} (h : ∀ s ∈ ss, slash ∉ s) :
    components (slash :: ofSegments ss) = .root :: (counting ss).map component := by
  cases ss with
  | nil => rfl
  | cons s ss =>
      have hp : anatomy (slash :: ofSegments (s :: ss)) = (.root, s :: ss) := by
        refine anatomy_of_root ?_
        rw [segments, if_pos rfl, segments_ofSegments (by simp) h]
      rw [components_eq, hp]
      rfl

theorem components_of_here {ss : List (List Glyph)} (h : ∀ s ∈ ss, slash ∉ s) :
    components (ofSegments (here :: ss)) = .here :: (counting ss).map component := by
  have hall : ∀ s ∈ here :: ss, slash ∉ s := by
    rw [List.forall_mem_cons]
    exact ⟨by decide, h⟩
  rw [components_eq, anatomy_of_here (segments_ofSegments (by simp) hall)]
  rfl

/-- Without the idle segments at its end, a path has the same components. -/
theorem components_withoutTail (p : Path) : components (withoutTail p) = components p := by
  have hnoSlash : ∀ s ∈ trimEnd (anatomy p).2, slash ∉ s := fun s hs =>
    slash_not_mem_of_mem_anatomy ((trimEnd_isPrefix _).subset hs)
  rcases anatomy_cases p with ⟨s, ss, -, hp⟩ | ⟨ss, -, hp⟩ | ⟨s, ss, -, hs, hp⟩ | rfl
  · rw [hp] at hnoSlash
    have hleft : withoutTail p = slash :: ofSegments (trimEnd (s :: ss)) := by
      rw [withoutTail, hp]
      rfl
    rw [hleft, components_of_root hnoSlash, counting_trimEnd, components_eq, hp]
    rfl
  · rw [hp] at hnoSlash
    have hleft : withoutTail p = ofSegments (here :: trimEnd ss) := by
      rw [withoutTail, hp]
      dsimp only
      split
      · rename_i hnone
        rw [hnone]
        rfl
      · rfl
    rw [hleft, components_of_here hnoSlash, counting_trimEnd, components_eq, hp]
    rfl
  · have hsnug : Snug (trimEnd (s :: ss)) := by
      refine .trimEnd (fun t ht => slash_not_mem_of_mem_anatomy (p := p) ?_) ?_
      · rw [hp]
        exact ht
      · simpa using hs
    have hleft : withoutTail p = ofSegments (trimEnd (s :: ss)) := by
      rw [withoutTail, hp]
      rfl
    rw [hleft, hsnug.components_eq, counting_trimEnd, components_eq, hp]
    rfl
  · rfl

section Prefixes

variable {p base : Path} {rest : List Component} (h : components p = components base ++ rest)
  (hbase : components base ≠ [])

include h hbase

/-- A path that begins with the components of another one has its anchor. -/
theorem anchor_of_prefix : (anatomy p).1 = (anatomy base).1 := by
  obtain ⟨c, cs, hc⟩ := List.exists_cons_of_ne_nil hbase
  rw [hc, List.cons_append] at h
  rw [anchor_of_components hc, anchor_of_components h]

/-- The segments that count of a path begin with those of a path with whose components it begins. -/
theorem exists_counting_of_prefix :
    ∃ ts, counting (segments p) = counting (segments base) ++ ts ∧ ts.map component = rest := by
  have hanchor := anchor_of_prefix h hbase
  rw [components_eq_segments, components_eq_segments base, hanchor, List.append_assoc] at h
  obtain ⟨ss, ts, hp, hss, hts⟩ := List.map_eq_append_iff.mp (List.append_cancel_left h)
  rw [List.map_injective_iff.mpr component_injective hss] at hp
  exact ⟨ts, hp, hts⟩

/-- What is left of a path after the components of another one, if there are any. -/
theorem below?_eq_some :
    ∃ ss, below? p base = some (ofSegments ss) ∧ Snug ss ∧ (counting ss).map component = rest := by
  have hanchor := anchor_of_prefix h hbase
  have hcount : (components base).length - (anatomy p).1.components.length =
      (counting (anatomy base).2).length := by
    rw [hanchor, components_eq, List.length_append, List.length_map, Nat.add_sub_cancel_left]
  have hrest : (counting (anatomy p).2).map component =
      (counting (anatomy base).2).map component ++ rest := by
    rw [components_eq, components_eq, hanchor, List.append_assoc] at h
    exact List.append_cancel_left h
  have hnoSlash : ∀ s ∈ dropComponents (counting (anatomy base).2).length (anatomy p).2,
      slash ∉ s := fun s hs => slash_not_mem_of_mem_anatomy (mem_of_mem_dropComponents hs)
  refine ⟨_, ?_, .trim hnoSlash, ?_⟩
  · have hprefix : (components base).isPrefixOf (components p) = true := by
      rw [h, List.isPrefixOf_iff_prefix]
      exact List.prefix_append _ _
    have hempty : (components base).isEmpty = false := by
      rw [List.isEmpty_eq_false_iff]
      exact hbase
    simp only [below?, hprefix, hempty, hcount, if_true, Bool.false_eq_true, if_false]
  · rw [counting_trimEnd, counting_trimFront, counting_dropComponents, List.map_drop, hrest]
    exact List.drop_left' (List.length_map ..)

end Prefixes

/-- What is left of a path after the components of another one has the other components. -/
theorem exists_below? {p base : Path} {rest : List Component}
    (h : components p = components base ++ rest) :
    ∃ left, below? p base = some left ∧ components left = rest ∧ (base ≠ [] → GoesOn left) := by
  by_cases hbase : components base = []
  · refine ⟨withoutTail p, ?_, ?_, fun hne => absurd (eq_nil_of_components hbase) hne⟩
    · simp [below?, hbase]
    · rw [components_withoutTail, h, hbase, List.nil_append]
  · obtain ⟨ss, hbelow, hss, hrest⟩ := below?_eq_some h hbase
    exact ⟨ofSegments ss, hbelow, by rw [hss.components_eq, hrest], fun _ => hss.goesOn⟩

theorem GoesOn.components_append_slash {left : Path} (h : GoesOn left) (p : Path) :
    components (p ++ slash :: left) = (anatomy (p ++ slash :: left)).1.components ++
      ((counting (segments p)).map component ++ components left) := by
  rw [components_eq_segments, segments_append_slash, counting_append, List.map_append,
    components_eq_segments left, h.anchor]
  rfl

/-- Read from another path, a path has the components of both. -/
theorem components_join {base left : Path} (h : base ≠ [] → GoesOn left) :
    components (join base left) = components base ++ components left := by
  by_cases hbase : base = []
  · subst hbase
    have hjoin : join [] left = left := by
      unfold join
      split <;> rfl
    rw [hjoin]
    rfl
  · have habsolute := isAbsolute_of_anchor (h hbase).anchor
    have happend := (h hbase).components_append_slash
    by_cases hlast : base.getLast? = some slash
    · obtain ⟨front, rfl⟩ := List.getLast?_eq_some_iff.mp hlast
      have hjoin : join (front ++ [slash]) left = front ++ slash :: left := by
        simp [join, habsolute]
      have hanchor : (anatomy (front ++ slash :: left)).1 = (anatomy (front ++ [slash])).1 := by
        cases front with
        | nil => rw [List.nil_append, List.nil_append, anchor_slash, anchor_slash]
        | cons g front => rw [anchor_append_slash (by simp), anchor_append_slash (by simp)]
      have hcounting : counting (segments (front ++ [slash])) = counting (segments front) := by
        rw [segments_append_slash, counting_append]
        exact List.append_nil _
      rw [hjoin, happend, hanchor, components_eq_segments (front ++ [slash]), hcounting,
        List.append_assoc]
    · have hjoin : join base left = base ++ slash :: left := by
        simp [join, habsolute, hbase, hlast]
      rw [hjoin, happend, anchor_append_slash hbase, components_eq_segments base,
        List.append_assoc]

end FactoryRoster.Path
