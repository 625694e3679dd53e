import Mathlib.Data.List.Infix
import FactoryRoster.Proofs.Disk.Labels
import FactoryRoster.Scan

/-!
# The files of a scan

The factory files below a directory are the files that the walks below it lead to, if the last name
of the walk ends in the extension. Each walk counts once, whatever it leads to.
-/

namespace FactoryRoster.Disk

open Glob FactoryRoster.Path

/-- A name that ends in a dot and an extension. Only a text does. -/
def EndsIn (extension : List Char) (name : List Glyph) : Prop :=
  ∃ text, name = glyphs text ∧ ('.' :: extension) <:+ text

theorem matchesGlyphs_nameTokens {extension : List Char} {name : List Glyph} :
    matchesGlyphs (nameTokens extension) name = true ↔ EndsIn extension name := by
  rw [matchesGlyphs_eq_true]
  simp only [matchesName_nameTokens, EndsIn]

instance (extension : List Char) (name : List Glyph) : Decidable (EndsIn extension name) :=
  decidable_of_iff _ matchesGlyphs_nameTokens

/-- A walk to a factory file below a directory, through directories that give their names. -/
structure IsFileWalk (d : Disk) (base : Path) (extension : List Char) (w : Walk) : Prop where
  nonempty : w ≠ []
  names : ∀ x ∈ w, IsName x
  ending : EndsIn extension (w.getLastD [])
  lists : ∀ v, v <+: w → v ≠ w → d.Lists (reached base v)
  file : d.isFile (reached base w) = true

instance (d : Disk) (base : Path) (extension : List Char) (w : Walk) :
    Decidable (d.IsFileWalk base extension w) :=
  decidable_of_iff (w ≠ [] ∧ (∀ x ∈ w, IsName x) ∧ EndsIn extension (w.getLastD []) ∧
      (∀ v ∈ w.inits, v ≠ w → d.Lists (reached base v)) ∧ d.isFile (reached base w) = true)
    ⟨fun ⟨hne, hnames, hending, hlists, hfile⟩ =>
        ⟨hne, hnames, hending, fun v hv => hlists v ((List.mem_inits v w).mpr hv), hfile⟩,
      fun h => ⟨h.nonempty, h.names, h.ending,
        fun v hv => h.lists v ((List.mem_inits v w).mp hv), h.file⟩⟩

/-- The walks to the factory files below a directory, as a search comes upon them. -/
def fileWalks (d : Disk) (base : Path) (extension : List Char) : List Walk :=
  if d.Searchable base then
    (d.walksBelow d.greatestDepth (d.spot (baseSpot base))).filter fun w =>
      d.isFile (reached base w) && matchesGlyphs (nameTokens extension) (w.getLastD [])
  else []

variable {d : Disk} {place : Place} {base : Path} {extension : List Char} {w : Walk}

theorem baseSpot_ne_nil (hbase : d.isDirectory base = true) (hmoves : ¬ Stalled base) :
    baseSpot base ≠ [] := by
  obtain ⟨place, hplace, hdirectory⟩ := isDirectory_eq_true.mp hbase
  exact (leads_of_base hplace hdirectory hmoves).along.fits.nonempty

theorem mem_fileWalks (hd : d.Tidy) (hbase : d.isDirectory base = true) :
    w ∈ d.fileWalks base extension ↔ d.Searchable base ∧ d.IsFileWalk base extension w := by
  unfold fileWalks
  split
  · rename_i hsearchable
    rw [List.mem_filter, Bool.and_eq_true, matchesGlyphs_nameTokens, and_iff_right hsearchable]
    constructor
    · rintro ⟨hw, hfile, hending⟩
      exact ⟨walksBelow_ne_nil hw, hd.isName_of_mem_walk hw, hending, lists_of_mem_walk hw, hfile⟩
    · intro hw
      obtain ⟨goal, bytes, hgoal, -⟩ := isFile_eq_true.mp hw.file
      have hdepth := length_lt_greatestDepth hw.names hgoal
      refine ⟨?_, hw.file, hw.ending⟩
      exact mem_walksBelow (baseSpot_ne_nil hbase hsearchable.moves) (d.sees_spot _) hw.nonempty
        hw.names (by omega) hgoal hw.lists
  · rename_i hsearchable
    simp [hsearchable]

theorem listed_of_mem_fileWalks (hw : w ∈ d.fileWalks base extension) :
    ∀ x ∈ w, ∃ place ∈ d.items.map Prod.fst, x ∈ place := by
  unfold fileWalks at hw
  split at hw
  · exact listed_of_mem_walk (List.mem_of_mem_filter hw)
  · cases hw

theorem Tidy.nodup_fileWalks (hd : d.Tidy) (base : Path) (extension : List Char) :
    (d.fileWalks base extension).Nodup := by
  unfold fileWalks
  split
  · exact (hd.nodup_walksBelow _ _).filter _
  · exact .nil

/-! ### What a search finds -/

theorem foundIn_append (first rest : List Sight) :
    foundIn (first ++ rest) = foundIn first ++ foundIn rest :=
  List.filterMap_append

theorem foundIn_flatMap {α : Type} (f : α → List Sight) (l : List α) :
    foundIn (l.flatMap f) = l.flatMap fun x => foundIn (f x) := by
  induction l with
  | nil => rfl
  | cons x l ih => rw [List.flatMap_cons, List.flatMap_cons, foundIn_append, ih]

/-- The entries at any depth whose names match are those that the walks lead to. -/
theorem foundIn_below (ts : List Token) (depth : Nat) (s : Spot) :
    foundIn ((d.below depth s).flatMap
      (onward (fun name _ => matchesGlyphs ts name) (d.search false []))) =
    ((d.walksBelow depth s).filter fun w => matchesGlyphs ts (w.getLastD [])).map
      (along s.path) := by
  induction depth generalizing s with
  | zero => rfl
  | succ depth ih =>
      have hentry : ∀ x, foundIn (((.ok (x, d.entrySpot s.path x)) ::
            d.below depth (d.entrySpot s.path x)).flatMap
          (onward (fun name _ => matchesGlyphs ts name) (d.search false []))) =
          (([x] :: (d.walksBelow depth (d.entrySpot s.path x)).map (x :: ·)).filter fun w =>
            matchesGlyphs ts (w.getLastD [])).map (along s.path) := by
        intro x
        have hmore : ((d.walksBelow depth (d.entrySpot s.path x)).map (x :: ·)).filter
            (fun w => matchesGlyphs ts (w.getLastD [])) =
            ((d.walksBelow depth (d.entrySpot s.path x)).filter
              fun w => matchesGlyphs ts (w.getLastD [])).map (x :: ·) := by
          rw [List.filter_map]
          refine congrArg _ (List.filter_congr fun v hv => ?_)
          obtain ⟨y, v, rfl⟩ := List.exists_cons_of_ne_nil (walksBelow_ne_nil hv)
          rfl
        rw [List.flatMap_cons, foundIn_append, ih, path_entrySpot, List.filter_cons, hmore]
        have hlast : ([x] : Walk).getLastD [] = x := rfl
        rw [hlast]
        cases hmatch : matchesGlyphs ts x with
        | false =>
            simp only [onward, hmatch, Bool.false_eq_true, if_false, List.map_map]
            rfl
        | true =>
            simp only [onward, hmatch, if_true, List.map_cons, List.map_map, search,
              Bool.not_false, Bool.true_or, path_entrySpot]
            rfl
      unfold below inListing walksBelow namesAt
      split
      · rename_i hdirectory
        rw [hdirectory]
        cases hlisting : d.listing s.path with
        | error obstacle => rfl
        | ok names =>
            dsimp only
            rw [List.flatMap_assoc, foundIn_flatMap, List.filter_flatMap, List.map_flatMap]
            exact List.flatMap_congr fun x _ => hentry x
      · rename_i hdirectory
        rw [Bool.not_eq_true] at hdirectory
        rw [hdirectory]
        rfl

/-- What a search for the pattern of a directory's files finds are the walks below the directory
whose last name ends in the extension, if it gets to the directory. -/
theorem foundIn_matchesOf (hd : d.Tidy) (hbase : d.isDirectory base = true)
    (htext : ∃ text, base = glyphs text) :
    foundIn (d.matchesOf (filesBelow base extension)) =
      if d.Searchable base then
        ((d.walksBelow d.greatestDepth (d.spot (baseSpot base))).filter fun w =>
          matchesGlyphs (nameTokens extension) (w.getLastD [])).map (reached base)
      else [] := by
  have hstart : d.matchesOf (filesBelow base extension) = d.search false
      ((partsOf base).map partStep ++ [.deepEntries (nameTokens extension)])
        (d.spot (startOf base)) := by
    rw [matchesOf, filesBelow, if_neg (by simp), startOf]
  rw [hstart]
  obtain ⟨place, hplace, hdirectory⟩ := isDirectory_eq_true.mp hbase
  by_cases hstalled : Stalled base
  · rw [if_neg fun h => h.moves hstalled, startOf_of_relative hstalled.1, search_stops hstalled.2]
    rfl
  · have hleads := leads_of_base hplace hdirectory hstalled
    have hparts := text_of_mem_partsOf htext
    by_cases hpasses : d.Passes (startOf base) (partsOf base)
    · rw [if_pos ⟨hstalled, hpasses⟩, hleads.search_parts hd hparts hpasses]
      exact foundIn_below _ _ _
    · rw [if_neg fun h => hpasses h.passes, hleads.foundIn_search_eq_nil hd hparts hpasses]

theorem factoryFiles_of_pattern {extension : String} {pattern : Pattern}
    (hpattern : Pattern.ofText (filePattern base extension) = .ok pattern) :
    d.factoryFiles base extension =
      .ok ⟨d.inOrder base ((foundIn (d.matchesOf pattern)).filter d.isFile),
        (refusedIn (d.matchesOf pattern)).map refusalNotice⟩ := by
  rw [factoryFiles, hpattern]
  rfl

/-- The factory files below a directory are what its walks lead to, in the order of a scan. -/
theorem factoryFiles_eq (hd : d.Tidy) (hbase : d.isDirectory base = true)
    (htext : ∃ text, base = glyphs text) {extension : String}
    (hextension : IsLiteral extension.toList) :
    ∃ notices, d.factoryFiles base extension =
      .ok ⟨d.inOrder base ((d.fileWalks base extension.toList).map (reached base)), notices⟩ := by
  have hnonempty : base ≠ [] := by
    obtain ⟨place, hplace, -⟩ := isDirectory_eq_true.mp hbase
    exact (Fits.of_resolve hplace).nonempty
  have hfiles := factoryFiles_of_pattern (d := d) (ofText_filePattern hnonempty hextension)
  have hfound : (foundIn (d.matchesOf (filesBelow base extension.toList))).filter d.isFile =
      (d.fileWalks base extension.toList).map (reached base) := by
    rw [foundIn_matchesOf hd hbase htext, fileWalks]
    split
    · rw [List.filter_map, List.filter_filter]
      rfl
    · rfl
  rw [hfound] at hfiles
  exact ⟨_, hfiles⟩

/-! ### Where walks lead -/

/-- Where walks lead is where their names lead from the directory, with the links that are left when
it has been reached. -/
theorem exists_links (hplace : d.resolve base = .ok place)
    (hdirectory : d.item? place = some .directory) (hmoves : ¬ Stalled base) :
    ∃ m, ∀ w : Walk, (∀ x ∈ w, IsName x) → Fits (reached base w) →
      d.resolve (reached base w) = d.resolveFrom true m place w := by
  have hleads := leads_of_base hplace hdirectory hmoves
  have hresolved := hleads.resolve_along
  change d.resolve (baseSpot base) = .ok place at hresolved
  have hfitsBase : Fits (baseSpot base) := hleads.along.fits
  rw [hfitsBase.resolve_eq] at hresolved
  rcases d.resolveFrom_append linkLimit (d.start (baseSpot base)) (segments (baseSpot base))
    with ⟨obstacle, hfirst, -⟩ | ⟨goal, m, hfirst, -, hrest⟩
  · rw [hresolved] at hfirst
    cases hfirst
  · rw [hresolved] at hfirst
    obtain rfl := Except.ok.inj hfirst
    refine ⟨m, fun w hnames hfits => ?_⟩
    by_cases hw : w = []
    · subst hw
      rw [resolveFrom_nil]
      exact hleads.resolve_along
    · have hwalk := hfits.resolve_along hw (fun x hx => (hnames x hx).noSlash) d true
      exact hwalk.trans (hrest true w hw)

/-- A walk whose path is not too long and has not too many links on it. -/
structure InReach (d : Disk) (base : Path) (w : Walk) : Prop where
  short : size (reached base w) < pathLimit
  links : d.resolve (reached base w) ≠ .error .tooManyLinks

/-- A name of 252 bytes, seventeen of which are too long for a path. -/
def longName : List Glyph := List.replicate 63 (.char '𝓍')

/-- What may lead somewhere, may do so by another path of the directory that is short enough. -/
theorem fits_of_other {other : Path} (hw : w ≠ []) (hnames : ∀ x ∈ w, IsName x)
    (hreached : Fits (reached base w)) (hspot : Fits (baseSpot other))
    (hshort : size (reached other w) < pathLimit) : Fits (reached other w) where
  nonempty := along_ne_nil hspot.nonempty fun x hx => (hnames x hx).nonempty
  noNul := by
    intro hnul
    rcases mem_along hnul with hnul | ⟨x, hx, hnul⟩ | hnul
    · exact hspot.noNul hnul
    · exact hreached.noNul (mem_along_of_mem hw hnames hx hnul)
    · exact absurd hnul (by decide)
  short := hshort

/-- The path of a walk leads on from the paths of its front parts. -/
theorem exists_resolve_of_prefix (hmoves : baseSpot base ≠ []) (hnames : ∀ x ∈ w, IsName x)
    {goal : Place} (hgoal : d.resolve (reached base w) = .ok goal) {v : Walk} (hv : v <+: w) :
    ∃ goal', d.resolve (reached base v) = .ok goal' := by
  obtain ⟨u, rfl⟩ := hv
  rw [List.forall_mem_append] at hnames
  by_cases hu : u = []
  · subst hu
    rw [List.append_nil] at hgoal
    exact ⟨goal, hgoal⟩
  · obtain ⟨x, u, rfl⟩ := List.exists_cons_of_ne_nil hu
    rw [List.forall_mem_cons] at hnames
    have hne : reached base v ≠ [] := along_ne_nil hmoves fun x hx => (hnames.1 x hx).nonempty
    rw [reached, along_append] at hgoal
    obtain ⟨goal', -, hgoal', -⟩ := exists_entry hne hnames.2.1 hnames.2.2 hgoal
    exact ⟨goal', hgoal'⟩

/-- A walk to a file leads to the same file by any other path of the directory by which it is in
reach. -/
theorem IsFileWalk.of_other {other : Path} (hbase : d.resolve base = .ok place)
    (hother : d.resolve other = .ok place) (hdirectory : d.item? place = some .directory)
    (hmoves : ¬ Stalled base) (hmoves' : ¬ Stalled other)
    (hw : d.IsFileWalk base extension w) (hreach : d.InReach other w) :
    d.IsFileWalk other extension w ∧ d.resolve (reached other w) = d.resolve (reached base w) := by
  obtain ⟨m, hm⟩ := exists_links hbase hdirectory hmoves
  obtain ⟨n, hn⟩ := exists_links hother hdirectory hmoves'
  obtain ⟨goal, bytes, hgoal, hitem⟩ := isFile_eq_true.mp hw.file
  have hspot := (leads_of_base hbase hdirectory hmoves).along.fits
  have hspot' := (leads_of_base hother hdirectory hmoves').along.fits
  have hfits := Fits.of_resolve hgoal
  have hfits' := fits_of_other hw.nonempty hw.names hfits hspot' hreach.short
  have hway := hm w hw.names hfits
  have hway' := hn w hw.names hfits'
  have hsame : d.resolve (reached other w) = .ok goal := by
    rw [hgoal] at hway
    rcases d.resolveFrom_ok_or hway.symm n with hsame | hlinks
    · rw [hway', hsame]
    · rw [hlinks] at hway'
      exact absurd hway' hreach.links
  refine ⟨⟨hw.nonempty, hw.names, hw.ending, ?_, ?_⟩, hsame.trans hgoal.symm⟩
  · intro v hv hne
    obtain ⟨here, hhere, hlists⟩ := hw.lists v hv hne
    have hnames : ∀ x ∈ v, IsName x := fun x hx => hw.names x (hv.subset hx)
    obtain ⟨here', hhere'⟩ := exists_resolve_of_prefix hspot'.nonempty hw.names hsame hv
    -- both ways to the directory end, so they end at one place
    have hplace : here' = here := by
      have hv := hm v hnames (Fits.of_resolve hhere)
      have hv' := hn v hnames (Fits.of_resolve hhere')
      rw [hhere] at hv
      rw [hhere'] at hv'
      rcases d.resolveFrom_ok_or hv.symm n with heq | hlinks
      · exact Except.ok.inj (hv'.trans heq)
      · rw [hlinks] at hv'
        cases hv'
    rw [hplace] at hhere'
    exact ⟨here, hhere', hlists⟩
  · exact isFile_eq_true.mpr ⟨goal, bytes, hsame, hitem⟩

end FactoryRoster.Disk
