import FactoryRoster.Proofs.Path.Remainders

/-!
# Paths of entries

A search writes the path of an entry by adding its name to the path of its directory (`Path.entry`).
The segments of the entry's path are then those of the directory's path and the name, but for a last
segment of the directory's path that does not count. So names that are added one after the other
(`Path.along`) are the last segments of the path, and what counts before them stays as it was.
-/

namespace FactoryRoster

/-- A name that an entry of a directory may have. -/
structure IsName (x : List Glyph) : Prop where
  nonempty : x ≠ []
  noSlash : Path.slash ∉ x
  notHere : x ≠ Path.here
  notAbove : x ≠ Path.above

theorem isName_iff {x : List Glyph} :
    IsName x ↔ x ≠ [] ∧ Path.slash ∉ x ∧ x ≠ Path.here ∧ x ≠ Path.above := by
  constructor
  · intro h
    exact ⟨h.nonempty, h.noSlash, h.notHere, h.notAbove⟩
  · rintro ⟨hempty, hslash, hhere, habove⟩
    exact ⟨hempty, hslash, hhere, habove⟩

instance (x : List Glyph) : Decidable (IsName x) :=
  decidable_of_iff _ isName_iff.symm

theorem IsName.not_isIdle {x : List Glyph} (h : IsName x) : Path.isIdle x = false := by
  simp [Path.isIdle, h.nonempty, h.notHere]

namespace Path

variable {p : Path} {x : List Glyph} {names : List (List Glyph)}

theorem component_name (hx : IsName x) : component x = .name x :=
  if_neg hx.notAbove

theorem not_isIdle_of_names (hnames : ∀ x ∈ names, IsName x) : ∀ x ∈ names, isIdle x = false :=
  fun x hx => (hnames x hx).not_isIdle

theorem name_injective : Function.Injective Component.name :=
  fun _ _ => Component.name.inj

/-! ### Segments between slashes -/

theorem segments_slash (p : Path) : segments (slash :: p) = [] :: segments p :=
  segments_append_slash [] p

theorem ofSegments_cons_cons (s t : List Glyph) (ss : List (List Glyph)) :
    ofSegments (s :: t :: ss) = s ++ slash :: ofSegments (t :: ss) := by
  rw [ofSegments]
  simp

theorem ofSegments_segments (p : Path) : ofSegments (segments p) = p := by
  induction p with
  | nil => rfl
  | cons g p ih =>
      obtain ⟨s, ss, hp⟩ := List.exists_cons_of_ne_nil (segments_ne_nil p)
      rw [hp] at ih
      rw [segments, hp]
      split
      · rename_i hg
        rw [ofSegments_cons_cons, ih, hg, List.nil_append]
      · cases ss with
        | nil => exact congrArg (g :: ·) ih
        | cons t ss =>
            rw [ofSegments_cons_cons] at ih
            dsimp only
            rw [ofSegments_cons_cons, List.cons_append, ih]

theorem ofSegments_append {ss ts : List (List Glyph)} (hss : ss ≠ []) (hts : ts ≠ []) :
    ofSegments (ss ++ ts) = ofSegments ss ++ slash :: ofSegments ts := by
  obtain ⟨t, ts, rfl⟩ := List.exists_cons_of_ne_nil hts
  induction ss with
  | nil => exact absurd rfl hss
  | cons s ss ih =>
      cases ss with
      | nil => exact ofSegments_cons_cons s t ts
      | cons u ss =>
          rw [List.cons_append, List.cons_append, ofSegments_cons_cons, ← List.cons_append,
            ih (by simp), ofSegments_cons_cons, List.append_assoc, List.cons_append]

theorem mem_ofSegments {g : Glyph} {ss : List (List Glyph)} (hg : g ∈ ofSegments ss) :
    g = slash ∨ ∃ s ∈ ss, g ∈ s := by
  induction ss with
  | nil => cases hg
  | cons s ss ih =>
      cases ss with
      | nil => exact .inr ⟨s, List.mem_cons_self, hg⟩
      | cons t ss =>
          rw [ofSegments_cons_cons, List.mem_append, List.mem_cons] at hg
          rcases hg with hg | hg | hg
          · exact .inr ⟨s, List.mem_cons_self, hg⟩
          · exact .inl hg
          · rcases ih hg with hg | ⟨u, hu, hg⟩
            · exact .inl hg
            · exact .inr ⟨u, List.mem_cons_of_mem s hu, hg⟩

/-- Every glyph of a path is a slash or in one of its segments. -/
theorem mem_segments_of_mem {g : Glyph} (h : g ∈ p) :
    g = slash ∨ ∃ s ∈ segments p, g ∈ s := by
  rw [← ofSegments_segments p] at h
  exact mem_ofSegments h

theorem mem_of_mem_segments {s : List Glyph} {g : Glyph} (hs : s ∈ segments p) (hg : g ∈ s) :
    g ∈ p := by
  induction p generalizing s with
  | nil =>
      rw [segments, List.mem_singleton] at hs
      simp [hs] at hg
  | cons f p ih =>
      obtain ⟨t, ts, hp⟩ := List.exists_cons_of_ne_nil (segments_ne_nil p)
      rw [segments, hp] at hs
      rw [hp] at ih
      split at hs
      · rcases List.mem_cons.mp hs with rfl | hs
        · cases hg
        · exact List.mem_cons_of_mem f (ih hs hg)
      · rcases List.mem_cons.mp hs with rfl | hs
        · rcases List.mem_cons.mp hg with rfl | hg
          · exact List.mem_cons_self
          · exact List.mem_cons_of_mem f (ih List.mem_cons_self hg)
        · exact List.mem_cons_of_mem f (ih (List.mem_cons_of_mem t hs) hg)

/-! ### Names that are added to a path -/

/-- The path of what some names lead to from a path. -/
def along (p : Path) (names : List (List Glyph)) : Path :=
  names.foldl entry p

theorem along_cons (p : Path) (x : List Glyph) (names : List (List Glyph)) :
    along p (x :: names) = along (entry p x) names := rfl

theorem along_append (p : Path) (names more : List (List Glyph)) :
    along p (names ++ more) = along (along p names) more :=
  List.foldl_append

/-- The segments of the path of an entry are its name and those of its directory, but for a last one
of these that does not count. -/
theorem exists_segments_entry (p : Path) (hx : slash ∉ x) :
    ∃ ss, segments (entry p x) = ss ++ [x] ∧
      (segments p = ss ∨ ∃ s, isIdle s = true ∧ segments p = ss ++ [s]) := by
  by_cases hdot : p = here
  · subst hdot
    exact ⟨[], segments_of_not_mem hx, .inr ⟨here, by decide, rfl⟩⟩
  by_cases hempty : p = []
  · subst hempty
    exact ⟨[], segments_of_not_mem hx, .inr ⟨[], by decide, rfl⟩⟩
  obtain ⟨front, g, rfl⟩ := List.eq_nil_or_concat' p |>.resolve_left hempty
  by_cases hg : g = slash
  · subst hg
    refine ⟨segments front, ?_, .inr ⟨[], by decide, ?_⟩⟩
    · have hentry : entry (front ++ [slash]) x = front ++ slash :: x := by
        simp [entry, hdot]
      rw [hentry, segments_append_slash, segments_of_not_mem hx]
    · rw [segments_append_slash]
      rfl
  · refine ⟨segments (front ++ [g]), ?_, .inl rfl⟩
    have hentry : entry (front ++ [g]) x = front ++ [g] ++ slash :: x := by
      simp [entry, hdot, hg]
    rw [hentry, segments_append_slash, segments_of_not_mem hx]

theorem counting_segments_entry (p : Path) (hx : slash ∉ x) :
    counting (segments (entry p x)) = counting (segments p) ++ counting [x] := by
  obtain ⟨ss, hss, hp⟩ := exists_segments_entry p hx
  rw [hss, counting_append]
  congr 1
  rcases hp with hp | ⟨s, hs, hp⟩
  · rw [hp]
  · rw [hp, counting_append, counting_cons_of_idle hs]
    exact (List.append_nil _).symm

theorem counting_segments_along (p : Path) (hnames : ∀ x ∈ names, slash ∉ x) :
    counting (segments (along p names)) = counting (segments p) ++ counting names := by
  induction names generalizing p with
  | nil => exact (List.append_nil _).symm
  | cons x names ih =>
      rw [List.forall_mem_cons] at hnames
      rw [along_cons, ih _ hnames.2, counting_segments_entry p hnames.1, List.append_assoc,
        ← counting_append]
      rfl

/-- Names are added to a path that ends in a name. -/
theorem segments_along {ss : List (List Glyph)} (hx : IsName x) (hp : segments p = ss ++ [x])
    (hnames : ∀ x ∈ names, IsName x) : segments (along p names) = ss ++ x :: names := by
  induction names generalizing p ss x with
  | nil => exact hp
  | cons y names ih =>
      rw [List.forall_mem_cons] at hnames
      obtain ⟨ts, hentry, hsame | ⟨s, hs, hsame⟩⟩ := exists_segments_entry p hnames.1.noSlash
      · rw [← hsame, hp] at hentry
        rw [along_cons, ih hnames.1 hentry hnames.2, List.append_assoc]
        rfl
      · rw [hp] at hsame
        have hlast : x = s := (List.append_singleton_inj.mp hsame).2
        rw [← hlast, hx.not_isIdle] at hs
        cases hs

/-- The last segments of what names lead to are the names. -/
theorem exists_segments_along (p : Path) (hne : names ≠ []) (hnames : ∀ x ∈ names, IsName x) :
    ∃ ss, segments (along p names) = ss ++ names ∧ counting ss = counting (segments p) := by
  obtain ⟨x, names, rfl⟩ := List.exists_cons_of_ne_nil hne
  rw [List.forall_mem_cons] at hnames
  obtain ⟨ss, hentry, hp⟩ := exists_segments_entry p hnames.1.noSlash
  refine ⟨ss, segments_along hnames.1 hentry hnames.2, ?_⟩
  rcases hp with hp | ⟨s, hs, hp⟩
  · rw [hp]
  · rw [hp, counting_append, counting_cons_of_idle hs]
    exact (List.append_nil _).symm

theorem mem_entry (x : List Glyph) {g : Glyph} (hg : g ∈ entry p x) :
    g ∈ p ∨ g ∈ x ∨ g = slash := by
  unfold entry at hg
  split at hg
  · exact .inr (.inl hg)
  · split at hg
    · rcases List.mem_append.mp hg with hg | hg
      · exact .inl hg
      · exact .inr (.inl hg)
    · simp only [List.mem_append, List.mem_cons] at hg
      rcases hg with hg | hg | hg
      · exact .inl hg
      · exact .inr (.inr hg)
      · exact .inr (.inl hg)

theorem mem_along {g : Glyph} (hg : g ∈ along p names) :
    g ∈ p ∨ (∃ x ∈ names, g ∈ x) ∨ g = slash := by
  induction names generalizing p with
  | nil => exact .inl hg
  | cons x names ih =>
      rcases ih hg with hg | ⟨y, hy, hg⟩ | hg
      · rcases mem_entry x hg with hg | hg | hg
        · exact .inl hg
        · exact .inr (.inl ⟨x, List.mem_cons_self, hg⟩)
        · exact .inr (.inr hg)
      · exact .inr (.inl ⟨y, List.mem_cons_of_mem x hy, hg⟩)
      · exact .inr (.inr hg)

theorem mem_along_of_mem (hne : names ≠ []) (hnames : ∀ x ∈ names, IsName x) (hx : x ∈ names)
    {g : Glyph} (hg : g ∈ x) : g ∈ along p names := by
  obtain ⟨ss, hss, -⟩ := exists_segments_along p hne hnames
  refine mem_of_mem_segments (s := x) ?_ hg
  rw [hss]
  exact List.mem_append_right ss hx

theorem entry_ne_nil (p : Path) (hx : x ≠ []) : entry p x ≠ [] := by
  unfold entry
  split
  · exact hx
  · split <;> simp [hx]

theorem along_ne_nil (hp : p ≠ []) (hnames : ∀ x ∈ names, x ≠ []) : along p names ≠ [] := by
  induction names generalizing p with
  | nil => exact hp
  | cons x names ih =>
      rw [List.forall_mem_cons] at hnames
      exact ih (entry_ne_nil p hnames.1) hnames.2

theorem entry_eq_here (hp : p ≠ []) (h : entry p x = here) : p = here ∧ x = here := by
  unfold entry at h
  split at h
  · rename_i hdot
    exact ⟨hdot, h⟩
  · rename_i hdot
    obtain ⟨g, p, rfl⟩ := List.exists_cons_of_ne_nil hp
    split at h
    · -- nothing before the dot ends with a slash
      rename_i hlast
      obtain ⟨rfl, hrest⟩ := List.cons.inj h
      obtain ⟨rfl, -⟩ := List.append_eq_nil_iff.mp hrest
      exact absurd rfl hdot
    · obtain ⟨-, hrest⟩ := List.cons.inj h
      simp at hrest

/-- An empty name puts nothing before what follows. -/
theorem entry_entry_nil (p : Path) (x : List Glyph) : entry (entry p []) x = entry p x := by
  by_cases hdot : p = here
  · subst hdot
    rfl
  by_cases hempty : p = []
  · subst hempty
    rfl
  by_cases hlast : p.getLast? = some slash
  · have hentry : entry p [] = p := by simp [entry, hdot, hlast]
    rw [hentry]
  · have hentry : entry p [] = p ++ [slash] := by simp [entry, hdot, hempty, hlast]
    have hdot' : p ++ [slash] ≠ here := by
      intro h
      have hlast' := congrArg List.getLast? h
      rw [List.getLast?_concat] at hlast'
      exact absurd hlast' (by decide)
    rw [hentry]
    simp [entry, hdot, hdot', hempty, hlast]

/-! ### What a path begins with -/

theorem isAbsolute_entry (p : Path) (hx : slash ∉ x) :
    isAbsolute (entry p x) = isAbsolute p := by
  have hname : isAbsolute x = false := by
    rw [isAbsolute, beq_eq_false_iff_ne]
    intro h
    exact hx (List.mem_of_head? h)
  unfold entry
  split
  · rename_i hdot
    rw [hname, hdot]
    rfl
  · cases p with
    | nil => exact hname
    | cons g p => split <;> rfl

theorem isAbsolute_along (p : Path) (hnames : ∀ x ∈ names, slash ∉ x) :
    isAbsolute (along p names) = isAbsolute p := by
  induction names generalizing p with
  | nil => rfl
  | cons x names ih =>
      rw [List.forall_mem_cons] at hnames
      rw [along_cons, ih _ hnames.2, isAbsolute_entry p hnames.1]

theorem head?_segments_entry (hp : p ≠ []) (hdot : p ≠ here) (hx : slash ∉ x) :
    (segments (entry p x)).head? = (segments p).head? := by
  obtain ⟨ss, hentry, hsame⟩ := exists_segments_entry p hx
  cases ss with
  | cons s ss => rcases hsame with hsame | ⟨t, -, hsame⟩ <;> rw [hentry, hsame] <;> rfl
  | nil =>
      -- a path of one segment that does not count is empty or a dot
      rcases hsame with hsame | ⟨s, hs, hsame⟩
      · exact absurd hsame (segments_ne_nil p)
      · have hpath := ofSegments_segments p
        rw [hsame] at hpath
        obtain rfl : s = p := hpath
        have hidle : s = [] ∨ s = here := by simpa [isIdle] using hs
        exact (hidle.elim hp hdot).elim

theorem head?_segments_along (hp : p ≠ []) (hdot : p ≠ here) (hnames : ∀ x ∈ names, slash ∉ x) :
    (segments (along p names)).head? = (segments p).head? := by
  induction names generalizing p with
  | nil => rfl
  | cons x names ih =>
      rw [List.forall_mem_cons] at hnames
      have hentry : entry p x ≠ [] := by
        unfold entry
        rw [if_neg hdot]
        split <;> simp [hp]
      have hdot' : entry p x ≠ here := fun h => hdot (entry_eq_here hp h).1
      rw [along_cons, ih hentry hdot' hnames.2, head?_segments_entry hp hdot hnames.1]

/-! ### Sizes -/

theorem size_append (p q : Path) : size (p ++ q) = size p + size q := by
  have hfold : ∀ (gs : List Glyph) (k : Nat),
      gs.foldl (fun n g => n + g.size) k = k + gs.foldl (fun n g => n + g.size) 0 := by
    intro gs
    induction gs with
    | nil => intro k; rfl
    | cons g gs ih =>
        intro k
        rw [List.foldl_cons, List.foldl_cons, ih, ih (0 + g.size)]
        omega
  rw [size, List.foldl_append, hfold]
  rfl

theorem size_cons_slash (p : Path) : size (slash :: p) = 1 + size p :=
  size_append [slash] p

theorem size_concat_slash (p : Path) : size (p ++ [slash]) = size p + 1 :=
  size_append p [slash]

theorem size_ofSegments_cons (s : List Glyph) {ss : List (List Glyph)} (hss : ss ≠ []) :
    size (ofSegments (s :: ss)) = size s + 1 + size (ofSegments ss) := by
  obtain ⟨t, ss, rfl⟩ := List.exists_cons_of_ne_nil hss
  rw [ofSegments_cons_cons, size_append, size_cons_slash, Nat.add_assoc]

theorem size_le_size_ofSegments (s : List Glyph) (ss : List (List Glyph)) :
    size s ≤ size (ofSegments (s :: ss)) := by
  by_cases hss : ss = []
  · subst hss
    exact Nat.le_refl _
  · rw [size_ofSegments_cons s hss]
    omega

/-- How many bytes stand before a name in the path of an entry. -/
def sizeBefore (p : Path) : Nat :=
  if p = here ∨ p = [] then 0
  else if p.getLast? = some slash then size p
  else size p + 1

theorem size_entry (p : Path) (x : List Glyph) : size (entry p x) = sizeBefore p + size x := by
  unfold entry sizeBefore
  by_cases hdot : p = here
  · simp [hdot]
  · by_cases hempty : p = []
    · subst hempty
      simp [here]
    · by_cases hlast : p.getLast? = some slash
      · simp [hdot, hempty, hlast, size_append]
      · rw [if_neg hdot, if_neg (by simp [hempty, hlast]), if_neg (by simp [hdot, hempty]),
          if_neg hlast, size_append, size_cons_slash]
        omega

theorem size_le_sizeBefore (h : p ≠ here) : size p ≤ sizeBefore p := by
  unfold sizeBefore
  by_cases hempty : p = []
  · subst hempty
    exact Nat.zero_le _
  · rw [if_neg (by simp [h, hempty])]
    split <;> omega

theorem sizeBefore_le (p : Path) : sizeBefore p ≤ size p + 1 := by
  unfold sizeBefore
  split
  · exact Nat.zero_le _
  · split <;> omega

theorem size_along_le (p : Path) (hne : names ≠ []) :
    size (along p names) ≤ sizeBefore p + size (ofSegments names) := by
  induction names generalizing p with
  | nil => exact absurd rfl hne
  | cons x names ih =>
      rw [along_cons]
      by_cases hmore : names = []
      · subst hmore
        exact Nat.le_of_eq (size_entry p x)
      · have hrest := ih (entry p x) hmore
        have hbefore := sizeBefore_le (entry p x)
        rw [size_entry] at hbefore
        rw [size_ofSegments_cons x hmore]
        omega

theorem sizeBefore_entry_nil (p : Path) : sizeBefore (entry p []) = sizeBefore p := by
  have hnext := congrArg size (entry_entry_nil p [])
  rw [size_entry, size_entry p] at hnext
  exact Nat.add_right_cancel hnext

end Path

end FactoryRoster
