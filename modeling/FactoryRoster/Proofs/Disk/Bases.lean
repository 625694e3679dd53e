import FactoryRoster.Proofs.Disk.Walks
import FactoryRoster.Proofs.Glob.Escaped

/-!
# Searching from a directory as it is written

A search for the files of a directory goes along the parts of its path, as they are written, and
reaches the directory there (`Disk.Leads.search_parts`), if they are text and each directory before
a part with special characters gives its names (`Disk.Passes`). What it finds are the walks below
the directory, each written after the path that is left of the directory's own. Dots at the front of
that path are not written, and if nothing but a slash comes after them, there is nothing to go on
with (`Disk.Stalled`).
-/

namespace FactoryRoster.Disk

open Glob FactoryRoster.Path

/-- Where the search from a directory's path starts. -/
def startOf (base : Path) : Path :=
  if isAbsolute base then [slash] else here

/-- The path before the names below a directory, as it is written in what a search finds. -/
def baseSpot (base : Path) : Path :=
  along (startOf base) (partsOf base)

/-- The path that a walk below a directory is found by. -/
def reached (base : Path) (w : Walk) : Path :=
  along (baseSpot base) w

/-- Whether the part after the dots at the front is empty. -/
def stops (parts : List (List Glyph)) : Bool :=
  (parts.dropWhile (· == here)).head? == some []

/-- A directory's path of which nothing is left to search from: dots, with a slash after their own
slash or at the end. -/
def Stalled (base : Path) : Prop :=
  isAbsolute base = false ∧ stops (partsOf base) = true

instance (base : Path) : Decidable (Stalled base) :=
  inferInstanceAs (Decidable (_ ∧ _))

/-- Whether a search gets along parts from a path: an entry whose name has special characters in it
is looked for among the names in its directory. -/
def Passes (d : Disk) : Path → List (List Glyph) → Prop
  | _, [] => True
  | p, s :: parts => (HasSpecial s → d.Lists p) ∧ Passes d (entry p s) parts

instance decidablePasses (d : Disk) : (p : Path) → (parts : List (List Glyph)) →
    Decidable (d.Passes p parts)
  | _, [] => .isTrue trivial
  | p, s :: parts =>
    have := decidablePasses d (entry p s) parts
    inferInstanceAs (Decidable ((HasSpecial s → d.Lists p) ∧ d.Passes (entry p s) parts))

/-- Whether a search gets to a directory by its path. -/
structure Searchable (d : Disk) (base : Path) : Prop where
  moves : ¬ Stalled base
  passes : d.Passes (startOf base) (partsOf base)

instance (d : Disk) (base : Path) : Decidable (d.Searchable base) :=
  decidable_of_iff (¬ Stalled base ∧ d.Passes (startOf base) (partsOf base))
    ⟨fun h => ⟨h.1, h.2⟩, fun h => ⟨h.moves, h.passes⟩⟩

/-- A path from which parts lead to the directory at a place, short enough to be searched. -/
structure Leads (d : Disk) (place : Place) (p : Path) (parts : List (List Glyph)) : Prop where
  fits : Fits p
  noNul : ∀ s ∈ parts, .char '\x00' ∉ s
  noSlash : ∀ s ∈ parts, slash ∉ s
  short : parts ≠ [] → sizeBefore p + size (ofSegments parts) < pathLimit
  moves : p = here → stops parts = false
  resolved : d.resolveFrom true linkLimit (d.start p) (segments p ++ parts) = .ok place
  directory : d.item? place = some .directory

variable {d : Disk} {place : Place} {p base : Path} {s : List Glyph} {parts : List (List Glyph)}

theorem startOf_of_relative (h : isAbsolute base = false) : startOf base = here :=
  if_neg (by simp [h])

theorem partsOf_of_relative (h : isAbsolute base = false) : partsOf base = segments base :=
  congrArg segments (if_neg (by simp [h]))

theorem exists_of_isAbsolute (h : isAbsolute base = true) : ∃ rest, base = slash :: rest :=
  List.head?_eq_some_iff.mp (beq_iff_eq.mp h)

theorem noSlash_of_mem_partsOf (hs : s ∈ partsOf base) : slash ∉ s :=
  slash_not_mem_of_mem_segments hs

/-! ### One part -/

theorem stops_cons_nil (parts : List (List Glyph)) : stops ([] :: parts) = true := rfl

theorem Leads.fits_entry (h : d.Leads place p (s :: parts)) : Fits (entry p s) where
  nonempty := by
    intro hnil
    unfold Path.entry at hnil
    split at hnil
    · rename_i hdot
      have hmoves := h.moves hdot
      rw [hnil, stops_cons_nil] at hmoves
      cases hmoves
    · split at hnil <;> exact absurd hnil (by simp [h.fits.nonempty])
  noNul := by
    intro hnul
    rcases mem_entry s hnul with hnul | hnul | hnul
    · exact h.fits.noNul hnul
    · exact h.noNul s List.mem_cons_self hnul
    · exact absurd hnul (by decide)
  short := by
    have hshort := h.short (by simp)
    have hle := size_le_size_ofSegments s parts
    rw [size_entry]
    omega

theorem Leads.resolved_entry (h : d.Leads place p (s :: parts)) :
    d.resolveFrom true linkLimit (d.start p) (segments (entry p s) ++ parts) = .ok place := by
  have hslash := h.noSlash s List.mem_cons_self
  have hresolved := h.resolved
  rw [← List.singleton_append, ← List.append_assoc] at hresolved
  rw [← hresolved]
  by_cases hparts : parts = []
  · subst hparts
    have hnames : ∀ x ∈ [s], slash ∉ x := by simpa using hslash
    rw [List.append_nil, List.append_nil]
    exact resolveFrom_along (.refl _ _ _) (by simp) hnames true
  · exact (SameWay.refl _ _ _).entry hslash true parts hparts

theorem Leads.below (h : d.Leads place p (s :: parts)) : d.Leads place (entry p s) parts where
  fits := h.fits_entry
  noNul t ht := h.noNul t (List.mem_cons_of_mem s ht)
  noSlash t ht := h.noSlash t (List.mem_cons_of_mem s ht)
  short hparts := by
    have hshort := h.short (by simp)
    have hle := sizeBefore_le (entry p s)
    rw [size_ofSegments_cons s hparts] at hshort
    rw [size_entry] at hle
    omega
  moves hnext := by
    obtain ⟨hdot, rfl⟩ := entry_eq_here h.fits.nonempty hnext
    exact h.moves hdot
  resolved := by
    have hnames : ∀ x ∈ [s], slash ∉ x := by simpa using h.noSlash s List.mem_cons_self
    have hstart : d.start (entry p s) = d.start p := start_along d p hnames
    rw [hstart]
    exact h.resolved_entry
  directory := h.directory

theorem Leads.along_append {more : List (List Glyph)} (h : d.Leads place p (parts ++ more)) :
    d.Leads place (along p parts) more := by
  induction parts generalizing p with
  | nil => exact h
  | cons s parts ih => exact ih h.below

theorem Leads.along (h : d.Leads place p parts) : d.Leads place (along p parts) [] :=
  (show d.Leads place p (parts ++ []) by rwa [List.append_nil]).along_append

theorem Leads.resolve_of_nil (h : d.Leads place p []) : d.resolve p = .ok place := by
  have hresolved := h.resolved
  rw [List.append_nil] at hresolved
  rw [h.fits.resolve_eq, hresolved]

theorem Leads.resolve_along (h : d.Leads place p parts) :
    d.resolve (Path.along p parts) = .ok place :=
  h.along.resolve_of_nil

/-- A last part that does not count leads nowhere else. -/
theorem Leads.resolve_of_idle (h : d.Leads place p [s]) (hs : isIdle s = true) :
    d.resolve p = .ok place := by
  obtain ⟨here, m, -, hhere, hdirectory, -, hrest⟩ := Disk.exists_directory (by simp) h.resolved
  rw [resolveFrom_of_place (turn_of_isIdle hdirectory hs), resolveFrom_nil] at hrest
  rw [h.fits.resolve_eq, hhere, hrest]

/-- There is a directory all the way along the parts. -/
theorem Leads.isDirectory (h : d.Leads place p parts) : d.isDirectory p = true := by
  by_cases hparts : parts = []
  · subst hparts
    exact isDirectory_eq_true.mpr ⟨place, h.resolve_of_nil, h.directory⟩
  · obtain ⟨here, m, -, hhere, hdirectory, -⟩ := Disk.exists_directory hparts h.resolved
    exact isDirectory_eq_true.mpr ⟨here, by rw [h.fits.resolve_eq, hhere], hdirectory⟩

/-- The name of a part that is no dots is the name of an entry. -/
theorem Leads.exists_item (h : d.Leads place p (s :: parts)) (hs : IsName s) :
    ∃ here, d.resolve p = .ok here ∧ d.item? (here ++ [s]) ≠ none := by
  obtain ⟨here, m, -, hhere, -, -, hrest⟩ := Disk.exists_directory (by simp) h.resolved
  exact ⟨here, by rw [h.fits.resolve_eq, hhere], item?_of_resolveFrom hs hrest⟩

theorem exists?_of_isDirectory (h : d.isDirectory p = true) : d.exists? p = true := by
  obtain ⟨goal, hgoal, -⟩ := isDirectory_eq_true.mp h
  have hfits := Fits.of_resolve hgoal
  rw [hfits.resolve_eq] at hgoal
  rw [exists?, hfits.resolve_eq]
  exact d.resolveFrom_isOk hgoal

/-! ### The search along parts -/

theorem isName_of_hasSpecial (hspecial : HasSpecial s) (hslash : slash ∉ s) : IsName s where
  nonempty := by
    rintro rfl
    exact absurd hspecial (by decide)
  noSlash := hslash
  notHere := by
    rintro rfl
    exact absurd hspecial (by decide)
  notAbove := by
    rintro rfl
    exact absurd hspecial (by decide)

/-- An escaped name matches the name itself. -/
theorem matchesGlyphs_only {text : List Char} {x : List Glyph} :
    matchesGlyphs (text.map only) x = true ↔ x = glyphs text := by
  rw [matchesGlyphs_eq_true]
  constructor
  · rintro ⟨other, rfl, hmatch⟩
    rw [matchesName_only.mp hmatch]
  · rintro rfl
    exact ⟨text, rfl, matchesName_only.mpr rfl⟩

theorem specialNames_only {text : List Char} (hname : IsName (glyphs text)) :
    specialNames (text.map only) = [] := by
  unfold specialNames
  split
  · refine List.filter_eq_nil_iff.mpr fun x hx => ?_
    rw [matchesGlyphs_only]
    rintro rfl
    rcases List.mem_pair.mp hx with hx | hx
    · exact hname.notHere hx
    · exact hname.notAbove hx
  · rfl

theorem filter_matchesGlyphs_only {text : List Char} {names : List (List Glyph)}
    (hnodup : names.Nodup) (hmem : glyphs text ∈ names) :
    names.filter (matchesGlyphs (text.map only)) = [glyphs text] := by
  have hfilter : names.filter (matchesGlyphs (text.map only)) =
      names.filter (· == glyphs text) := by
    refine List.filter_congr fun x _ => ?_
    rw [Bool.eq_iff_iff, matchesGlyphs_only, beq_iff_eq]
  rw [hfilter, List.filter_beq, List.count_eq_one_of_mem hnodup hmem]
  rfl

/-- A directory is seen as one, by whichever spot of its path. -/
theorem entrySpot_eq_spot (hp : p ≠ []) (hs : IsName s) (h : d.isDirectory (entry p s) = true) :
    d.entrySpot p s = d.spot (entry p s) := by
  have hpath := d.path_entrySpot p s
  have hsees := sees_entrySpot (d := d) hp hs
  rw [Sees, hpath] at hsees
  rw [spot, h, ← hsees h, ← hpath]

theorem inListing_of_listing {α : Type} {visit : List (List Glyph) → List (Except Refusal α)}
    {names : List (List Glyph)} (h : d.listing p = .ok names) :
    d.inListing (d.spot p) visit = visit names := by
  have hdirectory : (d.spot p).directory = true := (lists_of_listing h).isDirectory
  have hlisting : d.listing (d.spot p).path = .ok names := h
  simp only [inListing, hdirectory, hlisting, if_true]

/-- Of a directory that does not give its names, it is said so and nothing else. -/
theorem exists_inListing_eq {α : Type} {visit : List (List Glyph) → List (Except Refusal α)}
    (hdirectory : d.isDirectory p = true) (h : ¬ d.Lists p) :
    ∃ obstacle, d.inListing (d.spot p) visit = [.error (p, obstacle)] := by
  cases hlisting : d.listing p with
  | ok names => exact absurd (lists_of_listing hlisting) h
  | error obstacle =>
      refine ⟨obstacle, ?_⟩
      have hspot : (d.spot p).directory = true := hdirectory
      have hpath : d.listing (d.spot p).path = .error obstacle := hlisting
      simp only [inListing, hspot, hpath, if_true]
      rfl

/-- A part without special characters is gone to by its name. -/
theorem Leads.search_plain (h : d.Leads place p (s :: parts)) (htext : ∃ text, s = glyphs text)
    (hplain : ¬ HasSpecial s) (steps : List Step) :
    d.search false (partStep s :: steps) (d.spot p) =
      d.search false steps (d.spot (entry p s)) := by
  obtain ⟨text, rfl⟩ := htext
  have hspot : (d.spot p).directory = true := h.isDirectory
  have hexists : d.exists? (entry (d.spot p).path (glyphs text)) = true :=
    exists?_of_isDirectory h.below.isDirectory
  rw [partStep, if_neg hplain, shownText_glyphs]
  simp only [search, hspot, hexists, ite_self, if_true]
  rfl

/-- A part with special characters is found among the names in its directory. -/
theorem Leads.search_special (hd : d.Tidy) (h : d.Leads place p (s :: parts))
    (htext : ∃ text, s = glyphs text) (hspecial : HasSpecial s) (hlists : d.Lists p)
    (steps : List Step) :
    d.search false (partStep s :: steps) (d.spot p) =
      d.search false steps (d.spot (entry p s)) := by
  have hname := isName_of_hasSpecial hspecial (h.noSlash s List.mem_cons_self)
  obtain ⟨names, hlisting⟩ := hlists.exists_listing
  obtain ⟨here, hhere, -, -, hperm⟩ := listing_eq_ok hlisting
  obtain ⟨here', hhere', hitem⟩ := h.exists_item hname
  obtain rfl : here' = here := Except.ok.inj (hhere'.symm.trans hhere)
  have hmem : s ∈ names := hperm.mem_iff.mpr (mem_names_of_item? hitem)
  have hnodup : names.Nodup := hperm.nodup_iff.mpr (hd.nodup_names _)
  obtain ⟨text, rfl⟩ := htext
  rw [partStep, if_pos hspecial, shownText_glyphs, search, inListing_of_listing hlisting,
    specialNames_only hname, filter_matchesGlyphs_only hnodup hmem]
  change d.search false steps (d.entrySpot p (glyphs text)) ++ [] = _
  rw [List.append_nil, entrySpot_eq_spot h.fits.nonempty hname h.below.isDirectory]

theorem Leads.search_part (hd : d.Tidy) (h : d.Leads place p (s :: parts))
    (htext : ∃ text, s = glyphs text) (hlists : HasSpecial s → d.Lists p) (steps : List Step) :
    d.search false (partStep s :: steps) (d.spot p) =
      d.search false steps (d.spot (entry p s)) := by
  by_cases hspecial : HasSpecial s
  · exact h.search_special hd htext hspecial (hlists hspecial) steps
  · exact h.search_plain htext hspecial steps

/-- A search goes along the parts of a path to the directory that they lead to. -/
theorem Leads.search_parts (hd : d.Tidy) (h : d.Leads place p parts)
    (htext : ∀ s ∈ parts, ∃ text, s = glyphs text) (hpasses : d.Passes p parts)
    (steps : List Step) :
    d.search false (parts.map partStep ++ steps) (d.spot p) =
      d.search false steps (d.spot (Path.along p parts)) := by
  induction parts generalizing p with
  | nil => rfl
  | cons s parts ih =>
      rw [List.forall_mem_cons] at htext
      rw [List.map_cons, List.cons_append, h.search_part hd htext.1 hpasses.1,
        ih h.below htext.2 hpasses.2, along_cons]

/-- Nothing is found if a directory on the way does not give its names where they are needed. -/
theorem Leads.foundIn_search_eq_nil (hd : d.Tidy) (h : d.Leads place p parts)
    (htext : ∀ s ∈ parts, ∃ text, s = glyphs text) (hpasses : ¬ d.Passes p parts)
    (steps : List Step) :
    foundIn (d.search false (parts.map partStep ++ steps) (d.spot p)) = [] := by
  induction parts generalizing p with
  | nil => exact absurd trivial hpasses
  | cons s parts ih =>
      rw [List.forall_mem_cons] at htext
      rw [List.map_cons, List.cons_append]
      by_cases hlists : HasSpecial s → d.Lists p
      · rw [h.search_part hd htext.1 hlists]
        exact ih h.below htext.2 fun hrest => hpasses ⟨hlists, hrest⟩
      · rw [Classical.not_imp] at hlists
        rw [partStep, if_pos hlists.1, search]
        obtain ⟨obstacle, hrefused⟩ := exists_inListing_eq h.isDirectory hlists.2
        rw [hrefused]
        rfl

/-- Nothing is found if nothing is left to go on with. -/
theorem search_stops (hparts : stops parts = true) (steps : List Step) :
    d.search false (parts.map partStep ++ steps) (d.spot here) = [] := by
  induction parts with
  | nil => cases hparts
  | cons s parts ih =>
      by_cases hdot : s = here
      · subst hdot
        have hstep : partStep here = .name ['.'] := rfl
        have hnext : entry (d.spot here).path (glyphs ['.']) = here := rfl
        rw [List.map_cons, List.cons_append, hstep, search]
        change (if _ then
          d.search false _ (d.spot (entry (d.spot here).path (glyphs ['.']))) else _) = _
        rw [hnext, ih hparts]
        exact ite_self _
      · have hempty : s = [] := by
          simpa [stops, hdot] using hparts
        subst hempty
        have hmissing : d.exists? (entry (d.spot here).path (glyphs [])) = false := rfl
        have hstep : partStep [] = .name [] := rfl
        rw [List.map_cons, List.cons_append, hstep, search]
        simp [hmissing]

/-! ### The parts of a directory's path -/

theorem leads_of_path {rest : Path} (hp : Fits p) (hnul : .char '\x00' ∉ rest)
    (hshort : sizeBefore p + size rest < pathLimit)
    (hmoves : p = here → stops (segments rest) = false)
    (hresolved : d.resolveFrom true linkLimit (d.start p) (segments p ++ segments rest) = .ok place)
    (hdirectory : d.item? place = some .directory) :
    d.Leads place p (segments rest) where
  fits := hp
  noNul s hs hc := hnul (mem_of_mem_segments hs hc)
  noSlash s hs := slash_not_mem_of_mem_segments hs
  short _ := by rwa [ofSegments_segments]
  moves := hmoves
  resolved := hresolved
  directory := hdirectory

theorem leads_of_absolute {rest : Path} (hbase : d.resolve (slash :: rest) = .ok place)
    (hdirectory : d.item? place = some .directory) :
    d.Leads place [slash] (segments rest) := by
  have hfits := Fits.of_resolve hbase
  refine leads_of_path ⟨by simp, by decide, by decide⟩ ?_ ?_ (by simp [here, slash]) ?_ hdirectory
  · exact fun hnul => hfits.noNul (List.mem_cons_of_mem _ hnul)
  · have hbefore : sizeBefore [slash] = 1 := rfl
    rw [hbefore, ← size_cons_slash]
    exact hfits.short
  · obtain ⟨s, ss, hrest⟩ := List.exists_cons_of_ne_nil (segments_ne_nil rest)
    rw [hfits.resolve_eq, segments_slash, hrest] at hbase
    rw [hrest]
    exact (resolveFrom_idle rfl _).trans hbase

theorem leads_of_relative (hrelative : isAbsolute base = false)
    (hbase : d.resolve base = .ok place) (hdirectory : d.item? place = some .directory)
    (hmoves : stops (segments base) = false) : d.Leads place here (segments base) := by
  have hfits := Fits.of_resolve hbase
  refine leads_of_path .here hfits.noNul ?_ (fun _ => hmoves) ?_ hdirectory
  · have hbefore : sizeBefore here = 0 := rfl
    rw [hbefore, Nat.zero_add]
    exact hfits.short
  · have hcurrent : d.start base = d.start here := by
      simp only [Disk.start, hrelative]
      rfl
    obtain ⟨s, ss, hsegments⟩ := List.exists_cons_of_ne_nil (segments_ne_nil base)
    rw [hfits.resolve_eq, hcurrent, hsegments] at hbase
    rw [hsegments]
    exact (resolveFrom_idle (by decide) _).trans hbase

/-- The parts of a directory's path lead to the directory. -/
theorem leads_of_base (hbase : d.resolve base = .ok place)
    (hdirectory : d.item? place = some .directory) (hmoves : ¬ Stalled base) :
    d.Leads place (startOf base) (partsOf base) := by
  cases habsolute : isAbsolute base with
  | true =>
      obtain ⟨rest, rfl⟩ := exists_of_isAbsolute habsolute
      exact leads_of_absolute hbase hdirectory
  | false =>
      have hparts := partsOf_of_relative habsolute
      rw [startOf_of_relative habsolute, hparts]
      refine leads_of_relative habsolute hbase hdirectory ?_
      rw [← hparts]
      exact Bool.eq_false_iff.mpr fun hstops => hmoves ⟨habsolute, hstops⟩

theorem text_of_mem_partsOf (htext : ∃ text, base = glyphs text) :
    ∀ s ∈ partsOf base, ∃ text, s = glyphs text := by
  apply Path.exists_glyphs_iff.mp
  obtain ⟨text, rfl⟩ := htext
  split
  · exact ⟨text.drop 1, List.map_drop.symm⟩
  · exact ⟨text, rfl⟩

end FactoryRoster.Disk
