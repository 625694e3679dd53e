import Mathlib.Data.List.Induction
import Mathlib.Data.List.Infix
import FactoryRoster.Proofs.Disk.Frames
import FactoryRoster.Proofs.Disk.Labels
import FactoryRoster.Proofs.Disk.Within

/-!
# Two routes to one name

A path can be named from a directory by its text, or by where both of them lead. Below the directory
the two are the same if the path goes on by names alone that are text and meets no link there, by
whatever links, dots and doubled slashes the directory itself is reached
(`Disk.within_agrees_with_label`).
-/

namespace FactoryRoster

namespace Disk

open FactoryRoster.Path Glob

variable {d : Disk} {n : Nat} {start place goal : Place}

/-! ### Segments that count -/

theorem counting_concat_of_idle {s : List Glyph} (hs : isIdle s = true) (ss : List (List Glyph)) :
    counting (ss ++ [s]) = counting ss := by
  rw [counting_append, counting_cons_of_idle hs]
  exact List.append_nil _

theorem counting_concat_of_not_idle {s : List Glyph} (hs : isIdle s = false)
    (ss : List (List Glyph)) : counting (ss ++ [s]) = counting ss ++ [s] := by
  rw [counting_append, counting_cons_of_not_idle hs]
  rfl

/-- Segments that do not count may be left out where others follow. -/
theorem SameWay.counting (d : Disk) (n : Nat) (start : Place) (ss : List (List Glyph)) :
    d.SameWay n start ss (counting ss) := by
  induction ss using List.reverseRecOn with
  | nil => exact .refl n start []
  | append_singleton ss s ih =>
      cases hs : isIdle s with
      | true =>
          rw [counting_concat_of_idle hs]
          exact (SameWay.idle hs n start ss).trans ih
      | false =>
          rw [counting_concat_of_not_idle hs]
          exact ih.append [s]

/-- What segments lead to, those of them that count lead to. -/
theorem resolveFrom_counting {ss : List (List Glyph)}
    (h : d.resolveFrom true n start ss = .ok goal) :
    d.resolveFrom true n start (Path.counting ss) = .ok goal := by
  induction ss using List.reverseRecOn generalizing goal with
  | nil => exact h
  | append_singleton ss s ih =>
      cases hs : isIdle s with
      | true =>
          obtain ⟨before, m, -, hbefore, hdirectory, -, hrest⟩ := exists_directory (by simp) h
          rw [resolveFrom_of_place (turn_of_isIdle hdirectory hs), resolveFrom_nil] at hrest
          obtain rfl := Except.ok.inj hrest
          rw [counting_concat_of_idle hs]
          exact ih hbefore
      | false =>
          rw [counting_concat_of_not_idle hs, ← SameWay.counting d n start ss true [s] (by simp)]
          exact h

/-- Names that are no links lead to the entry of these names. -/
theorem resolveFrom_names {names : Place} (hnames : ∀ x ∈ names, IsName x)
    (hlinks : ∀ way target, way <+: names → d.item? (place ++ way) ≠ some (.link target))
    (hplace : d.item? place ≠ none) (h : d.resolveFrom true n place names = .ok goal) :
    goal = place ++ names ∧ d.item? goal ≠ none := by
  induction names generalizing place with
  | nil =>
      rw [resolveFrom_nil] at h
      obtain rfl := Except.ok.inj h
      exact ⟨(List.append_nil place).symm, hplace⟩
  | cons x names ih =>
      rw [List.forall_mem_cons] at hnames
      rcases turn_cases (d := d) hnames.1.not_isIdle hnames.1.notAbove place with
        ⟨obstacle, hturn⟩ | ⟨target, hitem, -⟩ | ⟨hitem, hturn⟩
      · rw [resolveFrom_of_blocked hturn] at h
        cases h
      · exact absurd hitem (hlinks [x] target (by simp))
      · rw [resolveFrom_of_place hturn] at h
        have hafter : ∀ way target, way <+: names →
            d.item? (place ++ [x] ++ way) ≠ some (.link target) := by
          intro way target hway
          rw [List.append_assoc]
          exact hlinks (x :: way) target (List.cons_prefix_cons.mpr ⟨rfl, hway⟩)
        obtain ⟨hgoal, hgoalItem⟩ := ih hnames.2 hafter hitem h
        rw [hgoal, List.append_assoc] at hgoalItem ⊢
        exact ⟨rfl, hgoalItem⟩

/-! ### Paths below a directory -/

theorem resolveFrom_of_resolve {p : Path} (h : d.resolve p = .ok goal) :
    d.resolveFrom true linkLimit (d.start p) (segments p) = .ok goal := by
  rw [← (Fits.of_resolve h).resolve_eq]
  exact h

theorem components_ne_nil_of_resolve {p : Path} (h : d.resolve p = .ok goal) :
    components p ≠ [] := by
  intro hp
  obtain rfl := eq_nil_of_components hp
  cases h

/-- What comes after segments goes on from where they lead. -/
theorem exists_resolveFrom_after {ss ts : List (List Glyph)}
    (hss : d.resolveFrom true n start ss = .ok place)
    (h : d.resolveFrom true n start (ss ++ ts) = .ok goal) :
    ∃ m, d.resolveFrom true m place ts = .ok goal := by
  by_cases hts : ts = []
  · rw [hts, List.append_nil, hss] at h
    exact ⟨n, by rw [hts, resolveFrom_nil, h]⟩
  · obtain ⟨before, m, -, hbefore, -, -, hrest⟩ := exists_directory hts h
    rw [hss] at hbefore
    obtain rfl := Except.ok.inj hbefore
    exact ⟨m, hrest⟩

/-- Segments that count are names, if they do not lead up. -/
theorem isName_of_mem_counting {p : Path} {ts : List (List Glyph)}
    (hts : ∀ s ∈ ts, s ∈ counting (segments p)) (habove : .above ∉ ts.map component) :
    ∀ s ∈ ts, IsName s := by
  intro s hs
  obtain ⟨hmem, hidle⟩ := List.mem_filter.mp (hts s hs)
  refine ⟨?_, slash_not_mem_of_mem_segments hmem, ?_, ?_⟩
  · rintro rfl
    cases hidle
  · rintro rfl
    cases hidle
  · rintro rfl
    exact habove (List.mem_map.mpr ⟨Path.above, hs, rfl⟩)

/-- In a path of which the components are names there is nothing else than the names, slashes and
dots. -/
theorem mem_of_components_names {p : Path} {names : Place} (h : components p = names.map .name)
    {g : Glyph} (hg : g ∈ p) : g = slash ∨ g = .char '.' ∨ ∃ x ∈ names, g ∈ x := by
  rcases mem_segments_of_mem hg with hslash | ⟨s, hs, hmem⟩
  · exact .inl hslash
  · cases hidle : isIdle s with
    | true =>
        have hempty : s = [] ∨ s = here := by simpa [isIdle] using hidle
        rcases hempty with rfl | rfl
        · cases hmem
        · exact .inr (.inl (List.mem_singleton.mp hmem))
    | false =>
        have hcomponent : component s ∈ components p := by
          rw [components_eq_segments]
          exact List.mem_append_right _
            (List.mem_map_of_mem (List.mem_filter.mpr ⟨hs, by rw [hidle]; rfl⟩))
        rw [h] at hcomponent
        obtain ⟨x, hx, hname⟩ := List.mem_map.mp hcomponent
        unfold component at hname
        split at hname
        · cases hname
        · rw [← Component.name.inj hname] at hmem
          exact .inr (.inr ⟨x, hx, hmem⟩)

/-- Where the names below a directory lead, if there are no links among them. -/
theorem exists_names_below {p root : Path} {rest : List Component}
    (hroot : d.resolve root = .ok place) (hp : d.resolve p = .ok goal)
    (hplace : d.item? place ≠ none)
    (hrest : components p = components root ++ rest) (habove : .above ∉ rest)
    (hlinks : ∀ (names : Place) (target : Path),
      names.map .name <+: rest → d.item? (place ++ names) ≠ some (.link target)) :
    ∃ names : Place, rest = names.map .name ∧ goal = place ++ names ∧ d.item? goal ≠ none := by
  have hne := components_ne_nil_of_resolve hroot
  obtain ⟨names, hcounting, rfl⟩ := exists_counting_of_prefix hrest hne
  have hmem : ∀ s ∈ names, s ∈ counting (segments p) := by
    intro s hs
    rw [hcounting]
    exact List.mem_append_right _ hs
  have hnames := isName_of_mem_counting hmem habove
  have hnamed : names.map component = names.map .name :=
    List.map_congr_left fun x hx => component_name (hnames x hx)
  rw [hnamed] at hrest hlinks ⊢
  have hstart : d.start p = d.start root := by
    simp only [Disk.start, isAbsolute_eq, anchor_of_prefix hrest hne]
  have hway := resolveFrom_counting (resolveFrom_of_resolve hp)
  rw [hcounting, hstart] at hway
  obtain ⟨m, hafter⟩ :=
    exists_resolveFrom_after (resolveFrom_counting (resolveFrom_of_resolve hroot)) hway
  have hfree : ∀ way target, way <+: names → d.item? (place ++ way) ≠ some (.link target) :=
    fun way target hway => hlinks way target (hway.map _)
  exact ⟨names, rfl, resolveFrom_names hnames hfree hplace hafter⟩

/-- What is left of where the path leads, after where the directory is, has the names below it. -/
theorem exists_left_of_names (hd : d.Tidy) {names : Place}
    (hnames : d.item? (place ++ names) ≠ none) :
    ∃ left, below? (placePath (place ++ names)) (placePath place) = some left ∧
      components left = names.map .name := by
  have hall := hd.isName_of_item? hnames
  rw [List.forall_mem_append] at hall
  have hnamed : names.map component = names.map .name :=
    List.map_congr_left fun x hx => component_name (hall.2 x hx)
  have hcomponents : components (placePath (place ++ names)) =
      components (placePath place) ++ names.map .name := by
    rw [components_placePath (hd.isName_of_item? hnames), components_placePath hall.1,
      List.map_append, hnamed]
    rfl
  obtain ⟨left, hleft, hcomponents', -⟩ := exists_below? hcomponents
  exact ⟨left, hleft, hcomponents'⟩

theorem within_of_below?_not_text {p root left : Path} (hp : d.resolve p = .ok goal)
    (hroot : d.resolve root = .ok place)
    (h : below? (placePath goal) (placePath place) = some left) (hleft : text? left = none) :
    d.within p root = .error .notText := by
  simp only [within, compared, canonical, hp, hroot, Except.map, h, hleft]

/-- On a disk without backslashes in its names, a path below a directory has a name from there by
where the two lead just if the names below the directory are text. It then has the components of the
label that is taken from the path as it is written: those that the path has after the components of
the directory. Else the label shows these components, and there is no name by where the two lead.
For this the path may not lead up nor meet a link below the directory; the directory itself may be
reached in any way. -/
theorem within_agrees_with_label (hd : d.Tidy)
    (hplain : ∀ q ∈ d.items.map Prod.fst, ∀ x ∈ q, .char '\\' ∉ x) {p root : Path}
    (hroot : d.resolve root = .ok place) (hdirectory : d.item? place = some .directory)
    (hp : d.resolve p = .ok goal) {rest : List Component}
    (hrest : components p = components root ++ rest) (habove : .above ∉ rest)
    (hlinks : ∀ (names : Place) (target : Path),
      names.map .name <+: rest → d.item? (place ++ names) ≠ some (.link target)) :
    ((∀ c ∈ rest, c.isText = true) →
      ∃ name, d.within p root = .ok name ∧ components (ofText name) = rest ∧
        components (ofText (d.label p root)) = rest) ∧
    ((∃ c ∈ rest, c.isText = false) →
      d.within p root = .error .notText ∧
        ∃ left, d.label p root = withSlashes left.shown ∧ components left = rest) := by
  have hplace : d.item? place ≠ none := by simp [hdirectory]
  obtain ⟨names, rfl, rfl, hitem⟩ := exists_names_below hroot hp hplace hrest habove hlinks
  -- by where the two lead
  obtain ⟨left, hleft, hcomponents⟩ := exists_left_of_names hd hitem
  -- by the path as it is written
  obtain ⟨label, hlabel, hcomponents', -⟩ := exists_below? hrest
  have hshown : d.label p root = withSlashes label.shown := by
    rw [Disk.label, hlabel]
  constructor
  · intro htext
    obtain ⟨text, rfl⟩ := isSome_text?_iff.mp
      (isSome_text?_iff_components.mpr (hcomponents ▸ htext))
    obtain ⟨text', rfl⟩ := isSome_text?_iff.mp
      (isSome_text?_iff_components.mpr (hcomponents' ▸ htext))
    have hplain' : '\\' ∉ text' := by
      intro hmem
      rcases mem_of_components_names hcomponents' (mem_glyphs.mpr hmem) with hc | hc | ⟨x, hx, hc⟩
      · exact absurd hc (by decide)
      · exact absurd hc (by decide)
      · have hlisted : place ++ names ∈ d.items.map Prod.fst :=
          mem_places_of_item? (List.append_ne_nil_of_right_ne_nil _ (List.ne_nil_of_mem hx)) hitem
        exact hplain _ hlisted x (List.mem_append_right _ hx) hc
    refine ⟨String.ofList text, within_of_below? hp hroot hleft, ?_, ?_⟩
    · rw [ofText, String.toList_ofList, hcomponents]
    · rw [hshown, Path.shown, shownText_glyphs, withSlashes_of_not_mem hplain', ofText,
        String.toList_ofList, hcomponents']
  · rintro ⟨c, hc, hbroken⟩
    refine ⟨within_of_below?_not_text hp hroot hleft ?_, label, hshown, hcomponents'⟩
    rw [← Option.not_isSome_iff_eq_none, isSome_text?_iff_components, hcomponents]
    intro htext
    rw [htext c hc] at hbroken
    cases hbroken

/-- A directory with a file some way below it, and a link to it. -/
def detour : Disk where
  items :=
    [([['s']], .directory), ([['s'], ['f']], .directory), ([['s'], ['f'], ['g']], .directory),
      ([['s'], ['f'], ['g'], ['a', '.', 'r', 'b']], .file []),
      ([['l']], .link ['s', '/', 'f', '/', 'g', '/', '.', '.'])]

/-- The directory is reached through the link, up, and down again. -/
theorem within_agrees_with_label_detour :
    detour.Tidy ∧ (∀ q ∈ detour.items.map Prod.fst, ∀ x ∈ q, .char '\\' ∉ x) ∧
    detour.resolve (ofText "./l//../f") = .ok [['s'], ['f']] ∧
    detour.resolve (ofText "./l/.././/f/./g//a.rb") =
      .ok [['s'], ['f'], ['g'], ['a', '.', 'r', 'b']] ∧
    detour.label (ofText "./l/.././/f/./g//a.rb") (ofText "./l//../f") = "g//a.rb" ∧
    ∃ name, detour.within (ofText "./l/.././/f/./g//a.rb") (ofText "./l//../f") = .ok name ∧
      components (ofText name) = components (ofText "g//a.rb") := by
  have htidy : detour.Tidy := by decide
  have hplain : ∀ q ∈ detour.items.map Prod.fst, ∀ x ∈ q, .char '\\' ∉ x := by decide +kernel
  have hroot : detour.resolve (ofText "./l//../f") = .ok [['s'], ['f']] := by decide +kernel
  have hp : detour.resolve (ofText "./l/.././/f/./g//a.rb") =
      .ok [['s'], ['f'], ['g'], ['a', '.', 'r', 'b']] := by decide +kernel
  have hlabel : detour.label (ofText "./l/.././/f/./g//a.rb") (ofText "./l//../f") = "g//a.rb" := by
    decide +kernel
  have hrest : components (ofText "./l/.././/f/./g//a.rb") = components (ofText "./l//../f") ++
      ([['g'], ['a', '.', 'r', 'b']] : Place).map .name := by decide +kernel
  have hlinks : ∀ (names : Place) (target : Path),
      names.map .name <+: ([['g'], ['a', '.', 'r', 'b']] : Place).map Component.name →
      detour.item? (([['s'], ['f']] : Place) ++ names) ≠ some (.link target) := by
    intro names target hnames
    rw [List.prefix_map_iff_of_injective name_injective, ← List.mem_inits] at hnames
    have hnone : ∀ way ∈ ([['g'], ['a', '.', 'r', 'b']] : Place).inits,
        (detour.item? (([['s'], ['f']] : Place) ++ way) = some .directory ∨
          detour.item? (([['s'], ['f']] : Place) ++ way) = some (.file [])) := by decide +kernel
    rcases hnone names hnames with hitem | hitem <;>
    · rw [hitem]
      simp
  obtain ⟨name, hname, hcomponents, hsame⟩ :=
    (within_agrees_with_label htidy hplain hroot (by decide) hp hrest (by decide) hlinks).1
      (by decide)
  refine ⟨htidy, hplain, hroot, hp, hlabel, name, hname, ?_⟩
  rw [hcomponents, ← hsame, hlabel]

/-- A name with a byte that is no text. -/
def garbledName : List Glyph := [.broken [0xff], '.', 'r', 'b']

/-- A directory with a file of that name. -/
def garbled : Disk where
  items := [([['f']], .directory), ([['f'], garbledName], .file [])]

/-- The file is right below the directory, and has no name from there by where the two lead. -/
theorem not_within_garbled :
    garbled.Tidy ∧ (∀ q ∈ garbled.items.map Prod.fst, ∀ x ∈ q, .char '\\' ∉ x) ∧
    garbled.resolve (ofText "f") = .ok [['f']] ∧ garbled.item? [['f']] = some .directory ∧
    garbled.resolve (ofText "f/" ++ garbledName) = .ok [['f'], garbledName] ∧
    garbled.item? [['f'], garbledName] = some (.file []) ∧
    components (ofText "f/" ++ garbledName) = components (ofText "f") ++ [.name garbledName] ∧
    ¬ ∃ name, garbled.within (ofText "f/" ++ garbledName) (ofText "f") = .ok name := by
  refine ⟨by decide, by decide, by decide, by decide, by decide, by decide, by decide, ?_⟩
  rintro ⟨name, hname⟩
  have hstray : garbled.within (ofText "f/" ++ garbledName) (ofText "f") = .error .notText := by
    decide
  rw [hstray] at hname
  cases hname

end Disk

end FactoryRoster
