import FactoryRoster.Proofs.Disk.Bases
import FactoryRoster.Proofs.Path.Below
import FactoryRoster.Relative

/-!
# Labels below a directory

The label of what a walk leads to is the walk itself, with slashes between its names, if the
directory's path does not begin with a dot. A dot at the front is no part of the paths that a search
finds, so there the label is taken from where the links lead, or is the whole path if that is
elsewhere (`Disk.label_of_dotted_append`, `Disk.label_of_dotted_elsewhere`).
-/

namespace FactoryRoster.Disk

open Glob FactoryRoster.Path

/-- A directory's path that begins with a dot segment. -/
def Dotted (base : Path) : Prop :=
  (segments base).head? = some here

instance (base : Path) : Decidable (Dotted base) :=
  inferInstanceAs (Decidable (_ = _))

/-- Names with slashes between them, as they are shown. -/
def joined (names : List (List Glyph)) : List Char :=
  shownText (ofSegments names)

variable {d : Disk} {place : Place} {base : Path} {w : Walk}

/-! ### The front of a walk -/

theorem noSlash_of_mem_partsOf_append (hnames : ∀ x ∈ w, IsName x) :
    ∀ s ∈ partsOf base ++ w, slash ∉ s := by
  rw [List.forall_mem_append]
  exact ⟨fun _ => noSlash_of_mem_partsOf, fun x hx => (hnames x hx).noSlash⟩

theorem reached_eq (base : Path) (w : Walk) :
    reached base w = along (startOf base) (partsOf base ++ w) := by
  rw [reached, baseSpot, along_append]

theorem isAbsolute_startOf (base : Path) : isAbsolute (startOf base) = isAbsolute base := by
  unfold startOf
  split
  · rename_i habsolute
    rw [habsolute]
    rfl
  · rename_i hrelative
    rw [Bool.eq_false_iff.mpr hrelative]
    rfl

theorem isAbsolute_baseSpot (base : Path) : isAbsolute (baseSpot base) = isAbsolute base := by
  rw [baseSpot, isAbsolute_along _ fun _ => noSlash_of_mem_partsOf, isAbsolute_startOf]

theorem isAbsolute_reached (base : Path) (hnames : ∀ x ∈ w, IsName x) :
    isAbsolute (reached base w) = isAbsolute base := by
  rw [reached, isAbsolute_along _ fun x hx => (hnames x hx).noSlash, isAbsolute_baseSpot]

theorem counting_segments_baseSpot (base : Path) :
    counting (segments (baseSpot base)) = counting (partsOf base) := by
  have hstart : counting (segments (startOf base)) = [] := by
    unfold startOf
    split <;> rfl
  rw [baseSpot, counting_segments_along _ fun _ => noSlash_of_mem_partsOf, hstart, List.nil_append]

/-! ### Directories without a dot at the front -/

theorem anatomy_of_absolute (rest : Path) : anatomy (slash :: rest) = (.root, segments rest) := by
  obtain ⟨s, ss, hrest⟩ := List.exists_cons_of_ne_nil (segments_ne_nil rest)
  rw [hrest]
  refine anatomy_of_root ?_
  rw [segments_slash, hrest]

theorem below?_of_absolute {rest : Path} (hw : w ≠ []) (hnames : ∀ x ∈ w, IsName x) :
    below? (reached (slash :: rest) w) (slash :: rest) = some (ofSegments w) := by
  have habsolute : isAbsolute (reached (slash :: rest) w) = true :=
    isAbsolute_reached (slash :: rest) hnames
  obtain ⟨below, hbelow⟩ := exists_of_isAbsolute habsolute
  obtain ⟨ss, hss, hcounting⟩ := exists_segments_along (baseSpot (slash :: rest)) hw hnames
  change segments (reached (slash :: rest) w) = _ at hss
  rw [hbelow, segments_slash] at hss
  cases ss with
  | nil =>
      -- the first name of the walk is not empty
      have hempty : [] ∈ w := by
        rw [List.nil_append] at hss
        rw [← hss]
        exact List.mem_cons_self
      exact absurd rfl (hnames [] hempty).nonempty
  | cons s ss =>
      rw [List.cons_append] at hss
      obtain ⟨rfl, hsegments⟩ := List.cons.inj hss
      have hparts : partsOf (slash :: rest) = segments rest := rfl
      rw [counting_cons_of_idle rfl, counting_segments_baseSpot, hparts] at hcounting
      have hp : anatomy (slash :: below) = (.root, ss ++ w) := by
        rw [anatomy_of_absolute, hsegments]
      rw [hbelow]
      refine below?_of_anatomy hp (anatomy_of_absolute rest) hcounting
        (not_isIdle_of_names hnames) ?_
      rw [components_eq, anatomy_of_absolute]
      simp [Anchor.components]

/-- A path that does not begin with a slash does not begin with an empty segment. -/
theorem first_ne_nil (hrelative : isAbsolute base = false) (hbase : base ≠ []) {s : List Glyph}
    {ss : List (List Glyph)} (hsegments : segments base = s :: ss) : s ≠ [] := by
  rintro rfl
  have hpath := ofSegments_segments base
  rw [hsegments] at hpath
  cases ss with
  | nil => exact hbase hpath.symm
  | cons t ss =>
      rw [ofSegments_cons_cons] at hpath
      rw [← hpath] at hrelative
      cases hrelative

theorem below?_of_relative (hrelative : isAbsolute base = false) (hbase : base ≠ [])
    (hdot : ¬ Dotted base) (hw : w ≠ []) (hnames : ∀ x ∈ w, IsName x) :
    below? (reached base w) base = some (ofSegments w) := by
  have hpartsOf := partsOf_of_relative hrelative
  obtain ⟨s, rest, hparts⟩ := List.exists_cons_of_ne_nil (segments_ne_nil base)
  have hsdot : s ≠ here := fun hs => hdot (by rw [Dotted, hparts, hs]; rfl)
  have hsempty := first_ne_nil hrelative hbase hparts
  have hidle : isIdle s = false := by simp [isIdle, hsempty, hsdot]
  have hslashes : ∀ t ∈ s :: (rest ++ w), slash ∉ t := by
    have hall : ∀ t ∈ partsOf base ++ w, slash ∉ t := noSlash_of_mem_partsOf_append hnames
    rwa [hpartsOf, hparts] at hall
  rw [List.forall_mem_cons] at hslashes
  obtain ⟨ss, hss, hcounting⟩ := exists_segments_along (baseSpot base) hw hnames
  change segments (reached base w) = _ at hss
  have hhead : (segments (reached base w)).head? = some s := by
    rw [reached_eq, startOf_of_relative hrelative, hpartsOf, hparts]
    change (segments (along s (rest ++ w))).head? = some s
    rw [head?_segments_along hsempty hsdot hslashes.2, segments_of_not_mem hslashes.1]
    rfl
  rw [hss] at hhead
  rw [counting_segments_baseSpot, hpartsOf, hparts] at hcounting
  cases ss with
  | nil =>
      rw [counting_cons_of_not_idle hidle] at hcounting
      cases hcounting
  | cons t ss =>
      obtain rfl : t = s := Option.some.inj hhead
      have hp : anatomy (reached base w) = (.none, t :: ss ++ w) := anatomy_of_name hss hidle
      have hbase' : anatomy base = (.none, t :: rest) := anatomy_of_name hparts hidle
      refine below?_of_anatomy hp hbase' hcounting (not_isIdle_of_names hnames) ?_
      rw [components_eq, hbase', counting_cons_of_not_idle hidle]
      simp [Anchor.components]

/-- What is left of the path that a walk is found by are its names, if the directory's path does not
begin with a dot. -/
theorem below?_reached (hbase : base ≠ []) (hdot : ¬ Dotted base) (hw : w ≠ [])
    (hnames : ∀ x ∈ w, IsName x) : below? (reached base w) base = some (ofSegments w) := by
  cases habsolute : isAbsolute base with
  | true =>
      obtain ⟨rest, rfl⟩ := exists_of_isAbsolute habsolute
      exact below?_of_absolute hw hnames
  | false => exact below?_of_relative habsolute hbase hdot hw hnames

/-! ### Directories with a dot at the front -/

theorem head?_of_not_stops {parts : List (List Glyph)} (hparts : ∀ s ∈ parts, slash ∉ s)
    (hstops : stops parts = false) (hw : w ≠ []) (hnames : ∀ x ∈ w, IsName x) :
    (segments (along here (parts ++ w))).head? ≠ some here := by
  have hfirst : ∀ (s : List Glyph) (rest : List (List Glyph)), s ≠ [] → s ≠ here →
      (∀ t ∈ s :: rest, slash ∉ t) →
      (segments (along here (s :: rest))).head? ≠ some here := by
    intro s rest hempty hdot hslash
    rw [List.forall_mem_cons] at hslash
    change (segments (along s rest)).head? ≠ some here
    rw [head?_segments_along hempty hdot hslash.2, segments_of_not_mem hslash.1]
    simpa using hdot
  have hslashes : ∀ x ∈ w, slash ∉ x := fun x hx => (hnames x hx).noSlash
  induction parts with
  | nil =>
      obtain ⟨x, names, rfl⟩ := List.exists_cons_of_ne_nil hw
      have hx := hnames x List.mem_cons_self
      exact hfirst x names hx.nonempty hx.notHere hslashes
  | cons s parts ih =>
      rw [List.forall_mem_cons] at hparts
      by_cases hdot : s = here
      · subst hdot
        exact ih hparts.2 hstops
      · have hempty : s ≠ [] := by
          rintro rfl
          cases hstops
        refine hfirst s (parts ++ w) hempty hdot ?_
        rw [List.forall_mem_cons, List.forall_mem_append]
        exact ⟨hparts.1, hparts.2, hslashes⟩

/-- What a search finds does not begin with the dot of the directory's path. -/
theorem head?_segments_reached (hmoves : ¬ Stalled base) (hw : w ≠ [])
    (hnames : ∀ x ∈ w, IsName x) : (segments (reached base w)).head? ≠ some here := by
  cases habsolute : isAbsolute base with
  | true =>
      rw [← isAbsolute_reached base hnames] at habsolute
      obtain ⟨rest, hrest⟩ := exists_of_isAbsolute habsolute
      rw [hrest, segments_slash, List.head?_cons]
      exact fun h => absurd (Option.some.inj h) (by decide)
  | false =>
      have hstops : stops (partsOf base) = false :=
        Bool.eq_false_iff.mpr fun hstops => hmoves ⟨habsolute, hstops⟩
      rw [reached_eq, startOf_of_relative habsolute]
      exact head?_of_not_stops (fun _ => noSlash_of_mem_partsOf) hstops hw hnames

theorem below?_of_dotted (hdot : Dotted base) (hmoves : ¬ Stalled base) (hw : w ≠ [])
    (hnames : ∀ x ∈ w, IsName x) : below? (reached base w) base = none := by
  obtain ⟨s, parts, hparts⟩ := List.exists_cons_of_ne_nil (segments_ne_nil base)
  obtain rfl : s = here := by simpa [Dotted, hparts] using hdot
  refine below?_eq_none fun hprefix => ?_
  apply here_not_mem_components (head?_segments_reached hmoves hw hnames)
  apply hprefix.subset
  rw [components_eq, anatomy_of_here hparts]
  exact List.mem_cons_self

/-! ### Paths without links -/

theorem Tidy.isName_of_item? (hd : d.Tidy) (hplace : d.item? place ≠ none) :
    ∀ x ∈ place, IsName x := by
  by_cases hroot : place = []
  · simp [hroot]
  · exact hd.names place (mem_places_of_item? hroot hplace)

theorem anatomy_placePath (hplace : place ≠ []) (hnames : ∀ x ∈ place, IsName x) :
    anatomy (placePath place) = (.root, place) := by
  rw [placePath, anatomy_of_absolute,
    segments_ofSegments hplace fun x hx => (hnames x hx).noSlash]

theorem components_placePath (hnames : ∀ x ∈ place, IsName x) :
    components (placePath place) = .root :: place.map component := by
  by_cases hplace : place = []
  · subst hplace
    rfl
  · rw [components_eq, anatomy_placePath hplace hnames,
      counting_of_forall (not_isIdle_of_names hnames)]
    rfl

theorem below?_placePath_append {rest : Place} (hrest : rest ≠ [])
    (hnames : ∀ x ∈ place ++ rest, IsName x) :
    below? (placePath (place ++ rest)) (placePath place) = some (ofSegments rest) := by
  have hgoal := anatomy_placePath (by simp [hrest]) hnames
  rw [List.forall_mem_append] at hnames
  by_cases hplace : place = []
  · subst hplace
    have hroot : anatomy (placePath []) = (.root, [[]]) := rfl
    exact below?_of_anatomy hgoal hroot rfl (not_isIdle_of_names hnames.2) (by decide)
  · refine below?_of_anatomy hgoal (anatomy_placePath hplace hnames.1) rfl
      (not_isIdle_of_names hnames.2) ?_
    rw [components_placePath hnames.1]
    simp

theorem below?_placePath_eq_none {goal : Place} (hplace : ∀ x ∈ place, IsName x)
    (hgoal : ∀ x ∈ goal, IsName x) (h : ¬ place <+: goal) :
    below? (placePath goal) (placePath place) = none := by
  refine below?_eq_none fun hprefix => h ?_
  rw [components_placePath hplace, components_placePath hgoal, List.cons_prefix_cons] at hprefix
  exact (List.prefix_map_iff_of_injective component_injective).mp hprefix.2

/-! ### Labels -/

theorem shown_eq_backslash {g : Glyph} : g.shown = '\\' ↔ g = .char '\\' := by
  cases g with
  | char c => exact ⟨fun h => congrArg Glyph.char h, Glyph.char.inj⟩
  | broken bytes => exact ⟨fun h => absurd (show '\uFFFD' = '\\' from h) (by decide), nofun⟩

theorem withSlashes_of_not_mem {text : List Char} (h : '\\' ∉ text) :
    withSlashes (String.ofList text) = String.ofList text := by
  have hmap : (text.map fun c => if c = '\\' then '/' else c) = text.map id := by
    refine List.map_congr_left fun c hc => if_neg ?_
    rintro rfl
    exact h hc
  rw [withSlashes, String.toList_ofList, hmap, List.map_id]

theorem backslash_not_mem_joined (hplain : ∀ x ∈ w, .char '\\' ∉ x) : '\\' ∉ joined w := by
  intro hmem
  obtain ⟨g, hg, hshown⟩ := List.mem_map.mp hmem
  rw [shown_eq_backslash.mp hshown] at hg
  rcases mem_ofSegments hg with hg | ⟨x, hx, hg⟩
  · exact absurd hg (by decide)
  · exact hplain x hx hg

/-- A walk is labelled by its names, whatever links there are on it, if the directory's path does
not begin with a dot. -/
theorem label_of_not_dotted (hbase : base ≠ []) (hdot : ¬ Dotted base) (hw : w ≠ [])
    (hnames : ∀ x ∈ w, IsName x) (hplain : ∀ x ∈ w, .char '\\' ∉ x) :
    d.label (reached base w) base = String.ofList (joined w) := by
  rw [label, below?_reached hbase hdot hw hnames]
  exact withSlashes_of_not_mem (backslash_not_mem_joined hplain)

section Within

variable {p root : Path} {goal : Place} (hp : d.resolve p = .ok goal)
  (hroot : d.resolve root = .ok place)

include hp hroot

theorem within_of_below? {text : List Char}
    (h : below? (placePath goal) (placePath place) = some (glyphs text)) :
    d.within p root = .ok (String.ofList text) := by
  simp only [within, compared, canonical, hp, hroot, Except.map, h, text?_glyphs]

theorem within_of_below?_eq_none (h : below? (placePath goal) (placePath place) = none) :
    d.within p root = .error (.outside (placePath goal).shown (placePath place).shown) := by
  simp only [within, compared, canonical, hp, hroot, Except.map, h]

end Within

/-- Below a directory whose path begins with a dot, a walk is labelled by where it leads, if that is
below the directory too and the names there are text. -/
theorem label_of_dotted_append (hd : d.Tidy) (hdot : Dotted base) (hmoves : ¬ Stalled base)
    (hw : w ≠ []) (hnames : ∀ x ∈ w, IsName x) (hbase : d.resolve base = .ok place)
    {rest : Place} (hrest : rest ≠ []) (htext : ∃ text, ofSegments rest = glyphs text)
    (hgoal : d.resolve (reached base w) = .ok (place ++ rest))
    (hitem : d.item? (place ++ rest) ≠ none) :
    d.label (reached base w) base = String.ofList (joined rest) := by
  have hbelow := below?_placePath_append hrest (hd.isName_of_item? hitem)
  obtain ⟨text, htext⟩ := htext
  rw [htext] at hbelow
  rw [label, below?_of_dotted hdot hmoves hw hnames]
  dsimp only
  rw [within_of_below? hgoal hbase hbelow, joined, htext, shownText_glyphs]

/-- Below a directory whose path begins with a dot, a walk that leads elsewhere is labelled by the
whole path that it is found by. -/
theorem label_of_dotted_elsewhere (hd : d.Tidy) (hdot : Dotted base) (hmoves : ¬ Stalled base)
    (hw : w ≠ []) (hnames : ∀ x ∈ w, IsName x) (hbase : d.resolve base = .ok place)
    (hplace : d.item? place ≠ none) {goal : Place}
    (hgoal : d.resolve (reached base w) = .ok goal) (hitem : d.item? goal ≠ none)
    (helsewhere : ¬ place <+: goal) :
    d.label (reached base w) base = withSlashes (reached base w).shown := by
  have hnone := below?_placePath_eq_none (hd.isName_of_item? hplace) (hd.isName_of_item? hitem)
    helsewhere
  rw [label, below?_of_dotted hdot hmoves hw hnames]
  dsimp only
  rw [within_of_below?_eq_none hgoal hbase hnone]

end FactoryRoster.Disk
