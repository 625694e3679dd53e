import FactoryRoster.Disk.Edit
import FactoryRoster.Glob.Search
import FactoryRoster.Relative

/-!
# Disks that differ in the contents of one file

Where a path leads, which names a directory holds and what a pattern matches depend on where there
are files, directories and links, and not on what is in the files. So two disks that differ in the
contents of one file alone answer all of these questions alike, and a path that does not lead to
that file reads the same on both.
-/

namespace FactoryRoster.Disk

/-- Two disks that differ at most in the contents of the file at `place`. -/
structure SameButFor (place : Place) (d e : Disk) : Prop where
  current : d.current = e.current
  closed : d.closed = e.closed
  places : d.items.map Prod.fst = e.items.map Prod.fst
  elsewhere : ∀ q, q ≠ place → d.item? q = e.item? q
  left : ∃ bytes, d.item? place = some (.file bytes)
  right : ∃ bytes, e.item? place = some (.file bytes)

/-- Writing over a file changes nothing else. -/
theorem sameButFor_put (d : Disk) (place : Place) (hplace : place ≠ []) (old new : List UInt8)
    (hfile : d.item? place = some (.file old)) :
    SameButFor place d (d.put place (.file new)) := by
  have hold : d.items.lookup place = some (.file old) := by
    simpa only [item?, if_neg hplace] using hfile
  have hput : d.put place (.file new) =
      { d with items := d.items.map fun i => (i.1, if i.1 = place then .file new else i.2) } := by
    simp only [put, hold, Option.isSome_some, if_true]
  have hlookup : ∀ (q : Place) (items : List (Place × Item)),
      (items.map fun i => (i.1, if i.1 = place then Item.file new else i.2)).lookup q =
        (items.lookup q).map fun i => if q = place then .file new else i := by
    intro q items
    induction items with
    | nil => rfl
    | cons item items ih =>
        obtain ⟨r, i⟩ := item
        simp only [List.map_cons, List.lookup_cons]
        by_cases hr : q = r
        · subst hr
          simp
        · rw [beq_eq_false_iff_ne.mpr hr]
          exact ih
  rw [hput]
  refine ⟨rfl, rfl, by simp [Function.comp_def], ?_, ⟨old, hfile⟩, ⟨new, ?_⟩⟩
  · intro q hq
    by_cases hroot : q = []
    · simp [item?, hroot]
    · simp only [item?, if_neg hroot, hlookup, if_neg hq, Option.map_id']
  · simp only [item?, if_neg hplace, hlookup, hold, if_true, Option.map_some]

section

variable {place : Place} {d e : Disk} (h : SameButFor place d e)

include h

/-- What two disks hold at a place is the same, or a file on both. -/
theorem SameButFor.item?_eq_or (q : Place) :
    d.item? q = e.item? q ∨
      ∃ a b, d.item? q = some (.file a) ∧ e.item? q = some (.file b) := by
  by_cases hq : q = place
  · obtain ⟨a, ha⟩ := h.left
    obtain ⟨b, hb⟩ := h.right
    exact Or.inr ⟨a, b, hq ▸ ha, hq ▸ hb⟩
  · exact Or.inl (h.elsewhere q hq)

theorem SameButFor.item?_eq_directory_iff (q : Place) :
    d.item? q = some .directory ↔ e.item? q = some .directory := by
  rcases h.item?_eq_or q with heq | ⟨a, b, ha, hb⟩
  · rw [heq]
  · simp [ha, hb]

theorem SameButFor.walk_eq (last : Bool)
    (follow : Place → Path → List (List Glyph) → Except Obstacle Place) (from_ : Place)
    (segments : List (List Glyph)) :
    walk d last follow from_ segments = walk e last follow from_ segments := by
  induction segments generalizing from_ with
  | nil => rfl
  | cons s rest ih =>
      simp only [walk, ne_eq, h.item?_eq_directory_iff, ih]
      rcases h.item?_eq_or (from_ ++ [s]) with heq | ⟨a, b, ha, hb⟩
      · simp only [heq]
      · simp only [ha, hb]

theorem SameButFor.resolveFrom_eq (last : Bool) (links : Nat) (from_ : Place)
    (segments : List (List Glyph)) :
    resolveFrom d last links from_ segments = resolveFrom e last links from_ segments := by
  induction links generalizing from_ segments with
  | zero => exact h.walk_eq last _ from_ segments
  | succ links ih =>
      simp only [resolveFrom, ih]
      exact h.walk_eq last _ from_ segments

/-- A path leads to the same place on both disks. -/
theorem SameButFor.resolve_eq (p : Path) (last : Bool) : d.resolve p last = e.resolve p last := by
  simp only [resolve, start, h.current, h.resolveFrom_eq]

theorem SameButFor.isDirectory_eq (p : Path) : d.isDirectory p = e.isDirectory p := by
  simp only [isDirectory, itemAt?, h.resolve_eq]
  cases e.resolve p with
  | error obstacle => rfl
  | ok q =>
      rcases h.item?_eq_or q with heq | ⟨a, b, ha, hb⟩
      · simp only [heq]
      · simp only [ha, hb]

theorem SameButFor.exists?_eq (p : Path) : d.exists? p = e.exists? p := by
  simp only [exists?, h.resolve_eq]

theorem SameButFor.isFile_eq (p : Path) : d.isFile p = e.isFile p := by
  simp only [isFile, itemAt?, h.resolve_eq]
  cases e.resolve p with
  | error obstacle => rfl
  | ok q =>
      rcases h.item?_eq_or q with heq | ⟨a, b, ha, hb⟩
      · simp only [heq]
      · simp only [ha, hb]

theorem SameButFor.label_eq (p root : Path) : d.label p root = e.label p root := by
  simp only [label, within, compared, canonical, h.resolve_eq]

theorem SameButFor.names_eq (q : Place) : d.names q = e.names q := by
  have hnames : ∀ items : List (Place × Item),
      (items.filterMap fun i => if i.1 ≠ [] ∧ i.1.dropLast = q then i.1.getLast? else none) =
        (items.map Prod.fst).filterMap fun p =>
          if p ≠ [] ∧ p.dropLast = q then p.getLast? else none := by
    intro items
    rw [List.filterMap_map]
    rfl
  rw [names, names, hnames, hnames, h.places]

theorem SameButFor.listing_eq (p : Path) : d.listing p = e.listing p := by
  simp only [listing, ne_eq, h.resolve_eq, h.names_eq, h.closed, h.item?_eq_directory_iff]

theorem SameButFor.spot_eq (p : Path) : d.spot p = e.spot p := by
  simp only [spot, h.isDirectory_eq]

theorem SameButFor.entrySpot_eq (p : Path) (name : List Glyph) :
    d.entrySpot p name = e.entrySpot p name := by
  simp only [entrySpot, h.resolve_eq, h.spot_eq]
  cases e.resolve p with
  | error obstacle => rfl
  | ok place =>
      simp only [Except.toOption, Option.bind_some]
      rcases h.item?_eq_or (place ++ [name]) with heq | ⟨a, b, ha, hb⟩
      · simp only [heq]
      · simp only [ha, hb]

theorem SameButFor.inListing_eq {α : Type} (s : Spot)
    (visit : List (List Glyph) → List (Except Refusal α)) :
    d.inListing s visit = e.inListing s visit := by
  simp only [inListing, h.listing_eq]

theorem SameButFor.below_eq (depth : Nat) (s : Spot) : d.below depth s = e.below depth s := by
  induction depth generalizing s with
  | zero => rfl
  | succ depth ih => simp only [below, h.inListing_eq, h.entrySpot_eq, ih]

theorem SameButFor.greatestDepth_eq : d.greatestDepth = e.greatestDepth := by
  have hlength := congrArg List.length h.places
  simp only [List.length_map] at hlength
  simp only [greatestDepth, hlength]

theorem SameButFor.search_eq (directories : Bool) (steps : List Glob.Step) (s : Spot) :
    d.search directories steps s = e.search directories steps s := by
  induction steps generalizing s with
  | nil => rfl
  | cons step rest ih =>
      cases step <;>
        simp only [search, h.spot_eq, h.exists?_eq, h.inListing_eq, h.entrySpot_eq, h.below_eq,
          h.greatestDepth_eq, ih, funext ih]

/-- A pattern comes upon the same on both disks, in the same order. -/
theorem SameButFor.matchesOf_eq (p : Glob.Pattern) : d.matchesOf p = e.matchesOf p := by
  simp only [matchesOf, h.search_eq, h.spot_eq]

/-- A path that does not lead to the file reads the same on both disks. -/
theorem SameButFor.read_eq {p : Path} (hp : d.resolve p ≠ .ok place) : d.read p = e.read p := by
  have hbytes : d.bytes p = e.bytes p := by
    simp only [bytes, ← h.resolve_eq]
    cases hq : d.resolve p with
    | error obstacle => rfl
    | ok q =>
        have hne : q ≠ place := fun heq => hp (heq ▸ hq)
        simp only [bind, Except.bind, h.closed, h.elsewhere q hne]
  simp only [read, hbytes]

end

end FactoryRoster.Disk
