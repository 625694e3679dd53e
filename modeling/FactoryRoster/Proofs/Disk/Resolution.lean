import Mathlib.Data.List.Perm.Subperm
import Mathlib.Tactic.ByContra
import FactoryRoster.Disk.Basic
import FactoryRoster.Proofs.Path.Entries

/-!
# Where segments lead

One segment either is an obstacle, or leads to a place, or is a link that goes on elsewhere
(`Disk.turn`). What segments lead to is what their last ones lead to from where the first ones lead,
with the links that are left; more links never lead elsewhere; and a way without links is bounded by
the number of places there are.
-/

namespace FactoryRoster.Disk

/-- What one segment is at a place. -/
inductive Turn where
  | blocked (obstacle : Obstacle)
  | place (goal : Place)
  | link (target : Path)

/-- What a segment is at a place. -/
def turn (d : Disk) (place : Place) (s : List Glyph) : Turn :=
  if d.item? place ≠ some .directory then .blocked .notDirectory
  else if Path.isIdle s then .place place
  else if s = Path.above then .place place.dropLast
  else if Path.size s > nameLimit then .blocked .nameTooLong
  else match d.item? (place ++ [s]) with
    | none => .blocked .missing
    | some (.link target) => .link target
    | some _ => .place (place ++ [s])

/-- The place that a link's target is read from. -/
def linkStart (place : Place) (target : Path) : Place :=
  if Path.isAbsolute target then [] else place

variable (d : Disk)

theorem resolveFrom_nil (last : Bool) (n : Nat) (place : Place) :
    d.resolveFrom last n place [] = .ok place := by
  cases n <;> rfl

theorem resolveFrom_cons (last : Bool) (n : Nat) (place : Place) (s : List Glyph)
    (rest : List (List Glyph)) :
    d.resolveFrom last n place (s :: rest) =
      match d.turn place s with
      | .blocked obstacle => .error obstacle
      | .place goal => d.resolveFrom last n goal rest
      | .link target =>
        if rest.isEmpty && !last then .ok (place ++ [s])
        else
          match n with
          | 0 => .error .tooManyLinks
          | n + 1 => d.resolveFrom last n (linkStart place target)
            (Path.segments target ++ rest) := by
  unfold turn
  cases n <;> simp only [resolveFrom, walk]
  all_goals
    split
    · rfl
    · split
      · rfl
      · split
        · rfl
        · split
          · rfl
          · cases d.item? (place ++ [s]) with
            | none => rfl
            | some item => cases item <;> rfl

section Turns

variable {d} {last : Bool} {n : Nat} {place : Place} {s : List Glyph} {rest : List (List Glyph)}

theorem resolveFrom_of_blocked {obstacle : Obstacle} (h : d.turn place s = .blocked obstacle) :
    d.resolveFrom last n place (s :: rest) = .error obstacle := by
  rw [resolveFrom_cons, h]

theorem resolveFrom_of_place {goal : Place} (h : d.turn place s = .place goal) :
    d.resolveFrom last n place (s :: rest) = d.resolveFrom last n goal rest := by
  rw [resolveFrom_cons, h]

theorem resolveFrom_zero_of_link {target : Path} (h : d.turn place s = .link target)
    (hrest : last = true ∨ rest ≠ []) :
    d.resolveFrom last 0 place (s :: rest) = .error .tooManyLinks := by
  rw [resolveFrom_cons, h]
  rcases hrest with rfl | hrest <;> simp_all

theorem resolveFrom_of_link {target : Path} (h : d.turn place s = .link target)
    (hrest : last = true ∨ rest ≠ []) :
    d.resolveFrom last (n + 1) place (s :: rest) =
      d.resolveFrom last n (linkStart place target) (Path.segments target ++ rest) := by
  rw [resolveFrom_cons, h]
  rcases hrest with rfl | hrest <;> simp_all

theorem resolveFrom_of_lastLink {target : Path} (h : d.turn place s = .link target) :
    d.resolveFrom false n place [s] = .ok (place ++ [s]) := by
  rw [resolveFrom_cons, h]
  rfl

/-- Only in a directory does a segment lead anywhere. -/
theorem turn_of_not_directory (h : d.item? place ≠ some .directory) (s : List Glyph) :
    d.turn place s = .blocked .notDirectory := by
  rw [turn, if_pos h]

theorem turn_of_isIdle (h : d.item? place = some .directory) (hs : Path.isIdle s = true) :
    d.turn place s = .place place := by
  rw [turn, if_neg fun hne => hne h, if_pos hs]

end Turns

/-- Induction along the way of some segments: a link on the way uses up one of the links that may be
followed, and puts the segments of its target before the rest. -/
theorem way_induction {motive : Nat → Place → List (List Glyph) → Prop}
    (nil : ∀ n place, motive n place [])
    (blocked : ∀ n place s rest obstacle, d.turn place s = .blocked obstacle →
      motive n place (s :: rest))
    (place : ∀ n place s rest goal, d.turn place s = .place goal → motive n goal rest →
      motive n place (s :: rest))
    (noLink : ∀ place s rest target, d.turn place s = .link target →
      motive 0 place (s :: rest))
    (link : ∀ n place s rest target, d.turn place s = .link target →
      motive n (linkStart place target) (Path.segments target ++ rest) →
      motive (n + 1) place (s :: rest))
    (n : Nat) (start : Place) (ss : List (List Glyph)) : motive n start ss := by
  induction n generalizing start ss with
  | zero =>
      induction ss generalizing start with
      | nil => exact nil 0 start
      | cons s ss ih =>
          cases hturn : d.turn start s with
          | blocked obstacle => exact blocked _ _ _ _ _ hturn
          | place goal => exact place _ _ _ _ _ hturn (ih goal)
          | link target => exact noLink _ _ _ _ hturn
  | succ n ihn =>
      induction ss generalizing start with
      | nil => exact nil (n + 1) start
      | cons s ss ih =>
          cases hturn : d.turn start s with
          | blocked obstacle => exact blocked _ _ _ _ _ hturn
          | place goal => exact place _ _ _ _ _ hturn (ih goal)
          | link target => exact link _ _ _ _ _ hturn (ihn _ _)

/-- Segments lead on from where the segments before them lead, with the links that these leave. -/
theorem resolveFrom_append (n : Nat) (start : Place) (ss : List (List Glyph)) :
    (∃ obstacle, d.resolveFrom true n start ss = .error obstacle ∧
      ∀ last ts, ts ≠ [] → d.resolveFrom last n start (ss ++ ts) = .error obstacle) ∨
    ∃ goal m, d.resolveFrom true n start ss = .ok goal ∧ m ≤ n ∧
      ∀ last ts, ts ≠ [] →
        d.resolveFrom last n start (ss ++ ts) = d.resolveFrom last m goal ts := by
  induction n, start, ss using d.way_induction with
  | nil n start => exact .inr ⟨start, n, d.resolveFrom_nil .., Nat.le_refl _, fun _ _ _ => rfl⟩
  | blocked n start s rest obstacle hturn =>
      exact .inl ⟨obstacle, resolveFrom_of_blocked hturn, fun _ _ _ =>
        resolveFrom_of_blocked hturn⟩
  | place n start s rest goal hturn ih =>
      simp only [List.cons_append, resolveFrom_of_place hturn]
      exact ih
  | noLink start s rest target hturn =>
      exact .inl ⟨.tooManyLinks, resolveFrom_zero_of_link hturn (.inl rfl),
        fun last ts hts => resolveFrom_zero_of_link hturn (.inr (by simp [hts]))⟩
  | link n start s rest target hturn ih =>
      have hmore : ∀ last (ts : List (List Glyph)), ts ≠ [] →
          d.resolveFrom last (n + 1) start (s :: rest ++ ts) =
            d.resolveFrom last n (linkStart start target)
              (Path.segments target ++ rest ++ ts) := by
        intro last ts hts
        rw [List.cons_append, resolveFrom_of_link hturn (.inr (by simp [hts])), List.append_assoc]
      rw [resolveFrom_of_link hturn (.inl rfl)]
      rcases ih with ⟨obstacle, hfirst, hrest⟩ | ⟨goal, m, hfirst, hm, hrest⟩
      · exact .inl ⟨obstacle, hfirst, fun last ts hts => by
          rw [hmore last ts hts, hrest last ts hts]⟩
      · exact .inr ⟨goal, m, hfirst, Nat.le_succ_of_le hm, fun last ts hts => by
          rw [hmore last ts hts, hrest last ts hts]⟩

/-- What is found within some links is found within any other number of them, if these are
enough. -/
theorem resolveFrom_ok_or {m : Nat} {start goal : Place} {ss : List (List Glyph)}
    (h : d.resolveFrom true m start ss = .ok goal) (n : Nat) :
    d.resolveFrom true n start ss = .ok goal ∨
      d.resolveFrom true n start ss = .error .tooManyLinks := by
  induction n, start, ss using d.way_induction generalizing m with
  | nil n start =>
      rw [resolveFrom_nil] at h ⊢
      exact .inl h
  | blocked n start s rest obstacle hturn =>
      rw [resolveFrom_of_blocked hturn] at h
      cases h
  | place n start s rest next hturn ih =>
      rw [resolveFrom_of_place hturn] at h ⊢
      exact ih h
  | noLink start s rest target hturn =>
      exact .inr (resolveFrom_zero_of_link hturn (.inl rfl))
  | link n start s rest target hturn ih =>
      rw [resolveFrom_of_link hturn (.inl rfl)]
      cases m with
      | zero =>
          rw [resolveFrom_zero_of_link hturn (.inl rfl)] at h
          cases h
      | succ m =>
          rw [resolveFrom_of_link hturn (.inl rfl)] at h
          exact ih h

/-- What leads somewhere when all links are followed leads somewhere when the last one is not. -/
theorem resolveFrom_isOk {n : Nat} {start goal : Place} {ss : List (List Glyph)}
    (h : d.resolveFrom true n start ss = .ok goal) :
    (d.resolveFrom false n start ss).isOk = true := by
  induction n, start, ss using d.way_induction with
  | nil n start =>
      rw [resolveFrom_nil]
      rfl
  | blocked n start s rest obstacle hturn =>
      rw [resolveFrom_of_blocked hturn] at h
      cases h
  | place n start s rest next hturn ih =>
      rw [resolveFrom_of_place hturn] at h ⊢
      exact ih h
  | noLink start s rest target hturn =>
      rw [resolveFrom_zero_of_link hturn (.inl rfl)] at h
      cases h
  | link n start s rest target hturn ih =>
      by_cases hrest : rest = []
      · subst hrest
        rw [resolveFrom_of_lastLink hturn]
        rfl
      · rw [resolveFrom_of_link hturn (.inl rfl)] at h
        rw [resolveFrom_of_link hturn (.inr hrest)]
        exact ih h

/-- Two rows of segments that any further segments lead on from alike. -/
def SameWay (n : Nat) (start : Place) (ss ts : List (List Glyph)) : Prop :=
  ∀ last us, us ≠ [] →
    d.resolveFrom last n start (ss ++ us) = d.resolveFrom last n start (ts ++ us)

variable {d}

theorem SameWay.refl (n : Nat) (start : Place) (ss : List (List Glyph)) :
    d.SameWay n start ss ss :=
  fun _ _ _ => rfl

theorem SameWay.symm {n : Nat} {start : Place} {ss ts : List (List Glyph)}
    (h : d.SameWay n start ss ts) : d.SameWay n start ts ss :=
  fun last us hus => (h last us hus).symm

theorem SameWay.trans {n : Nat} {start : Place} {ss ts us : List (List Glyph)}
    (h : d.SameWay n start ss ts) (h' : d.SameWay n start ts us) : d.SameWay n start ss us :=
  fun last vs hvs => (h last vs hvs).trans (h' last vs hvs)

theorem SameWay.append {n : Nat} {start : Place} {ss ts : List (List Glyph)}
    (h : d.SameWay n start ss ts) (us : List (List Glyph)) :
    d.SameWay n start (ss ++ us) (ts ++ us) := by
  intro last vs hvs
  rw [List.append_assoc, List.append_assoc]
  exact h last (us ++ vs) (by simp [hvs])

/-- A segment that does not count may be left out where others follow. -/
theorem resolveFrom_idle {last : Bool} {n : Nat} {place : Place} {s t : List Glyph}
    (hs : Path.isIdle s = true) (rest : List (List Glyph)) :
    d.resolveFrom last n place (s :: t :: rest) = d.resolveFrom last n place (t :: rest) := by
  by_cases hplace : d.item? place = some .directory
  · rw [resolveFrom_of_place (turn_of_isIdle hplace hs)]
  · rw [resolveFrom_of_blocked (turn_of_not_directory hplace s),
      resolveFrom_of_blocked (turn_of_not_directory hplace t)]

theorem SameWay.idle {s : List Glyph} (hs : Path.isIdle s = true) (n : Nat) (start : Place)
    (ss : List (List Glyph)) : d.SameWay n start (ss ++ [s]) ss := by
  intro last us hus
  obtain ⟨t, us, rfl⟩ := List.exists_cons_of_ne_nil hus
  rw [List.append_assoc, List.singleton_append]
  rcases d.resolveFrom_append n start ss with ⟨obstacle, -, hrest⟩ | ⟨goal, m, -, -, hrest⟩
  · rw [hrest last _ (by simp), hrest last _ (by simp)]
  · rw [hrest last _ (by simp), hrest last _ (by simp), resolveFrom_idle hs]

/-- A way that goes on from a place starts in a directory. -/
theorem directory_of_resolveFrom {last : Bool} {n : Nat} {place goal : Place} {s : List Glyph}
    {rest : List (List Glyph)} (h : d.resolveFrom last n place (s :: rest) = .ok goal) :
    d.item? place = some .directory := by
  by_contra hplace
  rw [resolveFrom_of_blocked (turn_of_not_directory hplace s)] at h
  cases h

/-- Where segments lead on, the segments before them lead to a directory. -/
theorem exists_directory {last : Bool} {n : Nat} {start goal : Place} {ss us : List (List Glyph)}
    (hus : us ≠ []) (h : d.resolveFrom last n start (ss ++ us) = .ok goal) :
    ∃ place m, m ≤ n ∧ d.resolveFrom true n start ss = .ok place ∧
      d.item? place = some .directory ∧
      (∀ last ts, ts ≠ [] → d.resolveFrom last n start (ss ++ ts) = d.resolveFrom last m place ts) ∧
      d.resolveFrom last m place us = .ok goal := by
  rcases d.resolveFrom_append n start ss with ⟨obstacle, -, hrest⟩ | ⟨place, m, hfirst, hm, hrest⟩
  · rw [hrest last us hus] at h
    cases h
  · rw [hrest last us hus] at h
    obtain ⟨t, us, rfl⟩ := List.exists_cons_of_ne_nil hus
    exact ⟨place, m, hm, hfirst, directory_of_resolveFrom h, hrest, h⟩

/-! ### Names -/

/-- What a segment that is a name may be. -/
theorem turn_cases {s : List Glyph} (hidle : Path.isIdle s = false) (habove : s ≠ Path.above)
    (place : Place) :
    (∃ obstacle, d.turn place s = .blocked obstacle) ∨
      (∃ target, d.item? (place ++ [s]) = some (.link target) ∧
        d.turn place s = .link target) ∨
      d.item? (place ++ [s]) ≠ none ∧ d.turn place s = .place (place ++ [s]) := by
  simp only [turn, hidle, habove, Bool.false_eq_true, if_false]
  split
  · exact .inl ⟨_, rfl⟩
  · split
    · exact .inl ⟨_, rfl⟩
    · cases hitem : d.item? (place ++ [s]) with
      | none => exact .inl ⟨_, rfl⟩
      | some item =>
          cases item with
          | file bytes => exact .inr (.inr ⟨by simp, rfl⟩)
          | directory => exact .inr (.inr ⟨by simp, rfl⟩)
          | link target => exact .inr (.inl ⟨target, rfl, rfl⟩)

/-- A name that leads to a place leads to an entry of a directory. -/
theorem turn_name_place {x : List Glyph} (hx : IsName x) {place goal : Place}
    (h : d.turn place x = .place goal) :
    goal = place ++ [x] ∧ d.item? goal ≠ none := by
  rcases d.turn_cases hx.not_isIdle hx.notAbove place with
    ⟨obstacle, hturn⟩ | ⟨target, -, hturn⟩ | ⟨hitem, hturn⟩
  · rw [hturn] at h
    cases h
  · rw [hturn] at h
    cases h
  · rw [hturn] at h
    obtain rfl := Turn.place.inj h
    exact ⟨rfl, hitem⟩

/-- A name on a way is the name of an entry. -/
theorem item?_of_resolveFrom {last : Bool} {n : Nat} {place goal : Place} {x : List Glyph}
    (hx : IsName x) {rest : List (List Glyph)}
    (h : d.resolveFrom last n place (x :: rest) = .ok goal) : d.item? (place ++ [x]) ≠ none := by
  rcases d.turn_cases hx.not_isIdle hx.notAbove place with
    ⟨obstacle, hturn⟩ | ⟨target, hitem, -⟩ | ⟨hitem, -⟩
  · rw [resolveFrom_of_blocked hturn] at h
    cases h
  · simp [hitem]
  · exact hitem

theorem mem_places_of_item? {place : Place} (hplace : place ≠ []) (h : d.item? place ≠ none) :
    place ∈ d.items.map Prod.fst := by
  rw [item?, if_neg hplace, ← Option.isSome_iff_ne_none, List.lookup_isSome_iff] at h
  obtain ⟨item, hitem, heq⟩ := h
  rw [beq_iff_eq] at heq
  exact heq ▸ List.mem_map_of_mem hitem

/-- Places that have been met on the way to `place` since the last link: each is longer than the
ones before it. -/
structure Met (d : Disk) (place : Place) (met : List Place) : Prop where
  nodup : met.Nodup
  listed : ∀ p ∈ met, p ∈ d.items.map Prod.fst
  shorter : ∀ p ∈ met, p.length ≤ place.length

theorem Met.nil (d : Disk) (place : Place) : Met d place [] :=
  ⟨.nil, by simp, by simp⟩

theorem Met.length_le {place : Place} {met : List Place} (h : Met d place met) :
    met.length ≤ d.items.length := by
  have hle := (List.subperm_of_subset h.nodup h.listed).length_le
  rwa [List.length_map] at hle

theorem Met.append {place : Place} {met : List Place} (h : Met d place met) {x : List Glyph}
    (hx : d.item? (place ++ [x]) ≠ none) : Met d (place ++ [x]) ((place ++ [x]) :: met) where
  nodup := by
    refine List.nodup_cons.mpr ⟨fun hmem => ?_, h.nodup⟩
    have hlength := h.shorter _ hmem
    simp only [List.length_append, List.length_singleton] at hlength
    omega
  listed := by
    rw [List.forall_mem_cons]
    exact ⟨mem_places_of_item? (by simp) hx, h.listed⟩
  shorter := by
    rw [List.forall_mem_cons]
    refine ⟨Nat.le_refl _, fun p hp => ?_⟩
    have hlength := h.shorter p hp
    simp only [List.length_append, List.length_singleton]
    omega

/-- Between two links no place is met twice, so the names at the end of a way are bounded by the
links that may be followed and the places there are. -/
theorem length_add_met_le {n : Nat} {start goal : Place} {ss pre : List (List Glyph)}
    {names : List (List Glyph)} {met : List Place} (hss : ss = pre ++ names)
    (hnames : ∀ x ∈ names, IsName x) (h : d.resolveFrom true n start ss = .ok goal)
    (hmet : Met d start met) (hpre : pre ≠ [] → met = []) :
    names.length + met.length ≤ (n + 1) * (d.items.length + 1) := by
  have hbound := hmet.length_le
  induction n, start, ss using d.way_induction generalizing pre names met with
  | nil n start =>
      obtain ⟨-, hnone⟩ := List.append_eq_nil_iff.mp hss.symm
      rw [hnone, List.length_nil, Nat.zero_add]
      exact Nat.le_trans (Nat.le_succ_of_le hbound) (Nat.le_mul_of_pos_left _ (Nat.succ_pos n))
  | blocked n start s rest obstacle hturn =>
      rw [resolveFrom_of_blocked hturn] at h
      cases h
  | place n start s rest next hturn ih =>
      rw [resolveFrom_of_place hturn] at h
      cases pre with
      | cons first pre =>
          obtain ⟨rfl, hrest⟩ := List.cons.inj hss
          obtain rfl := hpre (by simp)
          exact ih hrest hnames h (.nil d next) (fun _ => rfl) (Nat.zero_le _)
      | nil =>
          cases names with
          | nil => cases hss
          | cons x names =>
              obtain ⟨rfl, hrest⟩ := List.cons.inj hss
              rw [List.forall_mem_cons] at hnames
              obtain ⟨rfl, hitem⟩ := turn_name_place hnames.1 hturn
              have hlonger := hmet.append hitem
              have hlength := ih (show rest = [] ++ names from hrest) hnames.2 h hlonger (by simp)
                hlonger.length_le
              simp only [List.length_cons] at hlength ⊢
              omega
  | noLink start s rest target hturn =>
      rw [resolveFrom_zero_of_link hturn (.inl rfl)] at h
      cases h
  | link n start s rest target hturn ih =>
      rw [resolveFrom_of_link hturn (.inl rfl)] at h
      have hstart := Met.nil d (linkStart start target)
      cases pre with
      | cons first pre =>
          obtain ⟨rfl, rfl⟩ := List.cons.inj hss
          obtain rfl := hpre (by simp)
          have hlength := ih (List.append_assoc ..).symm hnames h hstart (fun _ => rfl)
            (Nat.zero_le _)
          exact Nat.le_trans hlength (Nat.mul_le_mul_right _ (Nat.le_succ _))
      | nil =>
          cases names with
          | nil => cases hss
          | cons x names =>
              obtain ⟨rfl, rfl⟩ := List.cons.inj hss
              rw [List.forall_mem_cons] at hnames
              have hlength := ih rfl hnames.2 h hstart (fun _ => rfl) (Nat.zero_le _)
              rw [Nat.succ_mul (n + 1)]
              simp only [List.length_cons, List.length_nil] at hlength ⊢
              omega

end FactoryRoster.Disk
