import Mathlib.Data.List.Nodup
import FactoryRoster.Glob.Search
import FactoryRoster.Proofs.Disk.Entries

/-!
# Walks below a directory

A walk is the names from a directory to an entry below it. A search finds the entries of all walks
that lead somewhere through directories that give their names, each once: links let a way come back
to a directory it has been in, but no way is so long that the depth of the search would cut it off,
or that it would hide a directory that does not give its names (`Disk.below_greatestDepth`).
-/

namespace FactoryRoster.Disk

open Glob FactoryRoster.Path

/-- A disk as it may be: each place is listed once, by names that entries may have. -/
structure Tidy (d : Disk) : Prop where
  names : ∀ place ∈ d.items.map Prod.fst, ∀ x ∈ place, IsName x
  nodup : (d.items.map Prod.fst).Nodup

instance (d : Disk) : Decidable d.Tidy :=
  decidable_of_iff ((∀ place ∈ d.items.map Prod.fst, ∀ x ∈ place, IsName x) ∧
      (d.items.map Prod.fst).Nodup)
    ⟨fun h => ⟨h.1, h.2⟩, fun h => ⟨h.names, h.nodup⟩⟩

/-- Whether a path leads to a directory that gives its names. -/
def Lists (d : Disk) (p : Path) : Prop :=
  ∃ place, d.resolve p = .ok place ∧ d.item? place = some .directory ∧ place ∉ d.closed

/-- The names from a directory to an entry below it. -/
abbrev Walk := List (List Glyph)

/-- The names that a search is given in a spot. -/
def namesAt (d : Disk) (s : Spot) : List (List Glyph) :=
  match s.directory, d.listing s.path with
  | true, .ok names => names
  | _, _ => []

/-- The walks of a search from a spot, down to some depth. -/
def walksBelow (d : Disk) : (depth : Nat) → Spot → List Walk
  | 0, _ => []
  | depth + 1, s =>
    (d.namesAt s).flatMap fun x =>
      [x] :: (walksBelow d depth (d.entrySpot s.path x)).map (x :: ·)

/-- Whether a spot is taken for a directory if it is one. -/
def Sees (d : Disk) (s : Spot) : Prop :=
  d.isDirectory s.path = true → s.directory = true

variable {d : Disk}

/-! ### What paths lead to -/

theorem itemAt?_eq_some {p : Path} {item : Item} :
    d.itemAt? p = some item ↔ ∃ place, d.resolve p = .ok place ∧ d.item? place = some item := by
  unfold itemAt?
  cases d.resolve p <;> simp

theorem isDirectory_eq_true {p : Path} : d.isDirectory p = true ↔
    ∃ place, d.resolve p = .ok place ∧ d.item? place = some .directory := by
  rw [← itemAt?_eq_some, isDirectory]
  split
  · rename_i hitem
    simp [hitem]
  · rename_i hitem
    simpa using hitem

theorem isFile_eq_true {p : Path} : d.isFile p = true ↔
    ∃ place bytes, d.resolve p = .ok place ∧ d.item? place = some (.file bytes) := by
  have hitem : d.isFile p = true ↔ ∃ bytes, d.itemAt? p = some (.file bytes) := by
    rw [isFile]
    split
    · rename_i hfile
      simp [hfile]
    · rename_i hfile
      simpa using hfile
  rw [hitem, exists_comm]
  exact exists_congr fun bytes => itemAt?_eq_some

/-! ### Names in directories -/

theorem mem_names {place : Place} {x : List Glyph} :
    x ∈ d.names place ↔ place ++ [x] ∈ d.items.map Prod.fst := by
  simp only [Disk.names, List.mem_filterMap, List.mem_map]
  constructor
  · rintro ⟨⟨p, item⟩, hitem, hx⟩
    dsimp only at hx
    split at hx
    · rename_i hp
      obtain ⟨hp, rfl⟩ := hp
      refine ⟨(p, item), hitem, ?_⟩
      rw [List.getLast?_eq_some_getLast hp, Option.some.injEq] at hx
      rw [← hx]
      exact (List.dropLast_append_getLast hp).symm
    · cases hx
  · rintro ⟨⟨p, item⟩, hitem, rfl⟩
    exact ⟨_, hitem, by simp⟩

theorem Tidy.nodup_names (hd : d.Tidy) (place : Place) : (d.names place).Nodup := by
  have hnames : d.names place = (d.items.map Prod.fst).filterMap fun p =>
      if p ≠ [] ∧ p.dropLast = place then p.getLast? else none := by
    rw [Disk.names, List.filterMap_map]
    rfl
  rw [hnames]
  refine hd.nodup.filterMap fun p q x hp hq => ?_
  simp only [Option.mem_def] at hp hq
  split at hp
  · rename_i hp'
    split at hq
    · rename_i hq'
      rw [List.getLast?_eq_some_getLast hp'.1, Option.some.injEq] at hp
      rw [List.getLast?_eq_some_getLast hq'.1, Option.some.injEq] at hq
      rw [← List.dropLast_append_getLast hp'.1, ← List.dropLast_append_getLast hq'.1, hp, hq,
        hp'.2, hq'.2]
    · cases hq
  · cases hp

theorem mem_names_of_item? {place : Place} {x : List Glyph} (h : d.item? (place ++ [x]) ≠ none) :
    x ∈ d.names place :=
  mem_names.mpr (mem_places_of_item? (by simp) h)

/-- What a listing is: the names in the directory, in some order. -/
theorem listing_eq_ok {p : Path} {names : List (List Glyph)} (h : d.listing p = .ok names) :
    ∃ place, d.resolve p = .ok place ∧ d.item? place = some .directory ∧ place ∉ d.closed ∧
      names.Perm (d.names place) := by
  unfold listing at h
  cases hp : d.resolve p with
  | error obstacle =>
      rw [hp] at h
      cases h
  | ok place =>
      simp only [hp, bind, Except.bind] at h
      split at h
      · cases h
      · rename_i hdirectory
        split at h
        · cases h
        · rename_i hclosed
          refine ⟨place, rfl, not_not.mp hdirectory, by simpa using hclosed, ?_⟩
          rw [← Except.ok.inj h]
          exact List.mergeSort_perm _ _

/-- Names that stand in order are listed as they stand. -/
theorem listing_of_ordered {p : Path} {place : Place} (hplace : d.resolve p = .ok place)
    (hdirectory : d.item? place = some .directory) (hclosed : place ∉ d.closed)
    (hordered : (d.names place).Pairwise fun x y => ¬ Utf8.bytes y < Utf8.bytes x) :
    d.listing p = .ok (d.names place) := by
  rw [listing, hplace]
  simp only [bind, Except.bind, hdirectory, ne_eq, not_true_eq_false, if_false]
  rw [if_neg (by simpa using hclosed), List.mergeSort_of_pairwise (by simpa using hordered)]

theorem Lists.exists_listing {p : Path} (h : d.Lists p) : ∃ names, d.listing p = .ok names := by
  obtain ⟨place, hplace, hdirectory, hclosed⟩ := h
  simp [listing, hplace, hdirectory, hclosed, bind, Except.bind]

theorem lists_of_listing {p : Path} {names : List (List Glyph)} (h : d.listing p = .ok names) :
    d.Lists p := by
  obtain ⟨place, hplace, hdirectory, hclosed, -⟩ := listing_eq_ok h
  exact ⟨place, hplace, hdirectory, hclosed⟩

theorem lists_iff_isOk {p : Path} : d.Lists p ↔ (d.listing p).isOk = true := by
  constructor
  · intro h
    obtain ⟨names, hlisting⟩ := h.exists_listing
    rw [hlisting]
    rfl
  · intro h
    cases hlisting : d.listing p with
    | error obstacle =>
        rw [hlisting] at h
        cases h
    | ok names => exact lists_of_listing hlisting

instance (d : Disk) (p : Path) : Decidable (d.Lists p) :=
  decidable_of_iff _ lists_iff_isOk.symm

theorem Lists.isDirectory {p : Path} (h : d.Lists p) : d.isDirectory p = true := by
  obtain ⟨place, hplace, hdirectory, -⟩ := h
  exact isDirectory_eq_true.mpr ⟨place, hplace, hdirectory⟩

theorem namesAt_eq {s : Spot} (hs : d.Sees s) {names : List (List Glyph)}
    (h : d.listing s.path = .ok names) : d.namesAt s = names := by
  rw [namesAt, hs (lists_of_listing h).isDirectory, h]

theorem listing_of_mem_namesAt {s : Spot} {x : List Glyph} (hx : x ∈ d.namesAt s) :
    s.directory = true ∧ d.listing s.path = .ok (d.namesAt s) := by
  unfold namesAt at hx ⊢
  split at hx
  · rename_i hdirectory hlisting
    rw [hdirectory, hlisting]
    exact ⟨rfl, rfl⟩
  · cases hx

theorem Tidy.nodup_namesAt (hd : d.Tidy) (s : Spot) : (d.namesAt s).Nodup := by
  unfold namesAt
  split
  · rename_i hlisting
    obtain ⟨place, -, -, -, hperm⟩ := listing_eq_ok hlisting
    exact hperm.nodup_iff.mpr (hd.nodup_names place)
  · exact .nil

theorem listed_of_listing {p : Path} {names : List (List Glyph)} (h : d.listing p = .ok names)
    {x : List Glyph} (hx : x ∈ names) : ∃ place ∈ d.items.map Prod.fst, x ∈ place := by
  obtain ⟨place, -, -, -, hperm⟩ := listing_eq_ok h
  exact ⟨_, mem_names.mp (hperm.mem_iff.mp hx), by simp⟩

/-! ### Spots -/

@[simp] theorem path_entrySpot (d : Disk) (p : Path) (x : List Glyph) :
    (d.entrySpot p x).path = entry p x := by
  unfold entrySpot
  split <;> rfl

theorem sees_spot (d : Disk) (p : Path) : d.Sees (d.spot p) :=
  id

/-- What a directory says of its entries is right where their paths lead anywhere. -/
theorem sees_entrySpot {p : Path} (hp : p ≠ []) {x : List Glyph} (hx : IsName x) :
    d.Sees (d.entrySpot p x) := by
  intro hentry
  rw [path_entrySpot] at hentry
  obtain ⟨goal, hgoal, hdirectory⟩ := isDirectory_eq_true.mp hentry
  obtain ⟨place, m, hplace, -, hitem, hway⟩ :=
    exists_entry hp hx (List.forall_mem_nil IsName) hgoal
  have hspot : (d.resolve p).toOption.bind (fun place => d.item? (place ++ [x])) =
      d.item? (place ++ [x]) := by
    rw [hplace]
    rfl
  unfold entrySpot
  rw [hspot]
  rcases turn_cases (d := d) hx.not_isIdle hx.notAbove place with
    ⟨obstacle, hturn⟩ | ⟨target, hlink, -⟩ | ⟨-, hturn⟩
  · rw [resolveFrom_of_blocked hturn] at hway
    cases hway
  · rw [hlink]
    exact hentry
  · rw [resolveFrom_of_place hturn, resolveFrom_nil] at hway
    obtain rfl := Except.ok.inj hway
    rw [hdirectory]

/-! ### The walks of a search -/

theorem mem_walksBelow_succ {depth : Nat} {s : Spot} {w : Walk} :
    w ∈ d.walksBelow (depth + 1) s ↔
      ∃ x ∈ d.namesAt s, w = [x] ∨ ∃ v ∈ d.walksBelow depth (d.entrySpot s.path x), w = x :: v := by
  simp only [walksBelow, List.mem_flatMap, List.mem_cons, List.mem_map, eq_comm (b := w)]

theorem walksBelow_ne_nil {depth : Nat} {s : Spot} {w : Walk} (hw : w ∈ d.walksBelow depth s) :
    w ≠ [] := by
  cases depth with
  | zero => cases hw
  | succ depth =>
      obtain ⟨x, -, rfl | ⟨v, -, rfl⟩⟩ := mem_walksBelow_succ.mp hw <;> simp

/-- The names of a walk are names of entries. -/
theorem listed_of_mem_walk {depth : Nat} {s : Spot} {w : Walk} (hw : w ∈ d.walksBelow depth s) :
    ∀ x ∈ w, ∃ place ∈ d.items.map Prod.fst, x ∈ place := by
  induction depth generalizing s w with
  | zero => cases hw
  | succ depth ih =>
      obtain ⟨x, hx, hcases⟩ := mem_walksBelow_succ.mp hw
      have hlisted := listed_of_listing (listing_of_mem_namesAt hx).2 hx
      rcases hcases with rfl | ⟨v, hv, rfl⟩
      · rw [List.forall_mem_singleton]
        exact hlisted
      · rw [List.forall_mem_cons]
        exact ⟨hlisted, ih hv⟩

theorem Tidy.isName_of_mem_walk (hd : d.Tidy) {depth : Nat} {s : Spot} {w : Walk}
    (hw : w ∈ d.walksBelow depth s) : ∀ x ∈ w, IsName x := by
  intro x hx
  obtain ⟨place, hplace, hmem⟩ := listed_of_mem_walk hw x hx
  exact hd.names place hplace x hmem

/-- Before the end of a walk there are directories that give their names. -/
theorem lists_of_mem_walk {depth : Nat} {s : Spot} {w : Walk} (hw : w ∈ d.walksBelow depth s) :
    ∀ v, v <+: w → v ≠ w → d.Lists (along s.path v) := by
  induction depth generalizing s w with
  | zero => cases hw
  | succ depth ih =>
      obtain ⟨x, hx, hcases⟩ := mem_walksBelow_succ.mp hw
      have hlists := lists_of_listing (listing_of_mem_namesAt hx).2
      intro v hv hne
      cases v with
      | nil => exact hlists
      | cons y v =>
          rcases hcases with rfl | ⟨u, hu, rfl⟩
          · obtain ⟨rfl, hrest⟩ := List.cons_prefix_cons.mp hv
            obtain rfl := List.prefix_nil.mp hrest
            exact absurd rfl hne
          · obtain ⟨rfl, hrest⟩ := List.cons_prefix_cons.mp hv
            have hbelow := ih hu v hrest fun h => hne (by rw [h])
            rwa [path_entrySpot] at hbelow

theorem Tidy.nodup_walksBelow (hd : d.Tidy) (depth : Nat) (s : Spot) :
    (d.walksBelow depth s).Nodup := by
  induction depth generalizing s with
  | zero => exact .nil
  | succ depth ih =>
      rw [walksBelow, List.nodup_flatMap]
      refine ⟨fun x _ => ?_, (hd.nodup_namesAt s).imp fun {x y} hxy => ?_⟩
      · rw [List.nodup_cons]
        refine ⟨fun hmem => ?_, (ih _).map fun v w h => (List.cons.inj h).2⟩
        obtain ⟨v, hv, heq⟩ := List.mem_map.mp hmem
        exact walksBelow_ne_nil hv (List.cons.inj heq).2
      · -- walks of two names begin differently
        intro w hwx hwy
        have hhead : ∀ z,
            w ∈ [z] :: (d.walksBelow depth (d.entrySpot s.path z)).map (z :: ·) →
              w.head? = some z := by
          intro z hz
          rcases List.mem_cons.mp hz with rfl | hz
          · rfl
          · obtain ⟨v, -, rfl⟩ := List.mem_map.mp hz
            rfl
        exact hxy (Option.some.inj ((hhead x hwx).symm.trans (hhead y hwy)))

/-- A walk that leads somewhere through directories that give their names is one of the search if
the search goes deep enough. -/
theorem mem_walksBelow {depth : Nat} {s : Spot} (hs : s.path ≠ []) (hsees : d.Sees s) {w : Walk}
    (hw : w ≠ []) (hnames : ∀ x ∈ w, IsName x) (hdepth : w.length ≤ depth) {goal : Place}
    (h : d.resolve (along s.path w) = .ok goal)
    (hlists : ∀ v, v <+: w → v ≠ w → d.Lists (along s.path v)) : w ∈ d.walksBelow depth s := by
  induction w generalizing depth s with
  | nil => exact absurd rfl hw
  | cons x w ih =>
      rw [List.forall_mem_cons] at hnames
      obtain ⟨depth, rfl⟩ : ∃ m, depth = m + 1 := ⟨depth - 1, by simp at hdepth; omega⟩
      obtain ⟨names, hlisting⟩ := (hlists [] List.nil_prefix (by simp)).exists_listing
      obtain ⟨place, hplace, -, -, hperm⟩ := listing_eq_ok hlisting
      obtain ⟨place', -, hplace', -, hitem, -⟩ := exists_entry hs hnames.1 hnames.2 h
      obtain rfl : place' = place := Except.ok.inj (hplace'.symm.trans hplace)
      refine mem_walksBelow_succ.mpr ⟨x, ?_, ?_⟩
      · rw [namesAt_eq hsees hlisting, hperm.mem_iff]
        exact mem_names_of_item? hitem
      · by_cases hmore : w = []
        · exact .inl (by rw [hmore])
        · refine .inr ⟨w, ?_, rfl⟩
          apply ih _ (sees_entrySpot hs hnames.1) hmore hnames.2
          · simpa using hdepth
          · rw [path_entrySpot]
            exact h
          · intro v hv hne
            rw [path_entrySpot]
            exact hlists (x :: v) (List.cons_prefix_cons.mpr ⟨rfl, hv⟩) (by simpa using hne)
          · rw [path_entrySpot]
            exact entry_ne_nil _ hnames.1.nonempty

/-- No walk that leads somewhere is longer than the depth of a search. -/
theorem length_lt_greatestDepth {p : Path} {w : Walk} (hnames : ∀ x ∈ w, IsName x) {goal : Place}
    (h : d.resolve (along p w) = .ok goal) : w.length + 2 ≤ d.greatestDepth := by
  by_cases hw : w = []
  · subst hw
    exact Nat.le_add_left _ _
  · rw [(Fits.of_resolve h).resolve_along hw fun x hx => (hnames x hx).noSlash] at h
    have hlength := length_add_met_le rfl hnames h (.nil d _) fun _ => rfl
    exact Nat.add_le_add_right hlength 2

/-! ### The depth of a search -/

theorem inListing_congr {α : Type} {s : Spot} {f g : List (List Glyph) → List (Except Refusal α)}
    (h : ∀ names, d.listing s.path = .ok names → f names = g names) :
    d.inListing s f = d.inListing s g := by
  unfold inListing
  cases hlisting : d.listing s.path with
  | error obstacle => rfl
  | ok names => simp only [h names hlisting]

theorem below_of_listing {s : Spot} {names : List (List Glyph)} (hs : s.directory = true)
    (hlisting : d.listing s.path = .ok names) (depth : Nat) :
    d.below (depth + 1) s = names.flatMap fun name =>
      .ok (name, d.entrySpot s.path name) :: d.below depth (d.entrySpot s.path name) := by
  simp only [below, inListing, hs, hlisting, if_true]

/-- A search that goes deeper comes upon nothing more, if no directory gives its names any
deeper. -/
theorem Tidy.below_add (hd : d.Tidy) {depth : Nat} {s : Spot}
    (h : ∀ w : Walk, (∀ x ∈ w, IsName x) → w.length = depth → ¬ d.Lists (along s.path w))
    (more : Nat) : d.below (depth + 1 + more) s = d.below (depth + 1) s := by
  rw [Nat.add_right_comm]
  induction depth generalizing s with
  | zero =>
      refine inListing_congr fun names hnames => ?_
      exact absurd (lists_of_listing hnames) (h [] (by simp) rfl)
  | succ depth ih =>
      refine inListing_congr fun names hnames => List.flatMap_congr fun x hx => ?_
      obtain ⟨place, hplace, hmem⟩ := listed_of_listing hnames hx
      have hname := hd.names place hplace x hmem
      refine congrArg _ ?_
      rw [Nat.add_right_comm]
      refine ih fun w hw hlength => ?_
      rw [path_entrySpot]
      exact h (x :: w) (List.forall_mem_cons.mpr ⟨hname, hw⟩) (congrArg (· + 1) hlength)

/-- The depth of a search hides nothing, neither an entry nor a directory that does not give its
names. -/
theorem Tidy.below_greatestDepth (hd : d.Tidy) (s : Spot) (more : Nat) :
    d.below (d.greatestDepth + more) s = d.below d.greatestDepth s := by
  refine hd.below_add (fun w hnames hlength hlists => ?_) more
  obtain ⟨place, hplace, -⟩ := hlists
  have hbound := length_lt_greatestDepth hnames hplace
  simp only [greatestDepth] at hlength hbound
  omega

end FactoryRoster.Disk
