import FactoryRoster.Proofs.Disk.Contents
import FactoryRoster.Proofs.Disk.Walks

/-!
# Disks that differ in their files

A file is only where a path ends. So on two disks with the same directories and links a path leads
to the same place as long as they hold the same there, whatever files are added, removed or written
over elsewhere, and whatever may be read elsewhere.
-/

namespace FactoryRoster.Disk

/-- Two disks with the same directories and links, whatever files they hold. -/
structure SameFrame (d e : Disk) : Prop where
  current : d.current = e.current
  directory : ∀ q, d.item? q = some .directory ↔ e.item? q = some .directory
  link : ∀ q target, d.item? q = some (.link target) ↔ e.item? q = some (.link target)

/-- Two disks that hold the same at a place, which may be read on both or on neither. -/
structure SameAt (d e : Disk) (q : Place) : Prop where
  item : d.item? q = e.item? q
  closed : q ∈ d.closed ↔ q ∈ e.closed

theorem SameAt.symm {d e : Disk} {q : Place} (h : SameAt d e q) : SameAt e d q where
  item := h.item.symm
  closed := h.closed.symm

namespace SameFrame

variable {d e : Disk}

theorem symm (h : SameFrame d e) : SameFrame e d where
  current := h.current.symm
  directory q := (h.directory q).symm
  link q target := (h.link q target).symm

variable (h : SameFrame d e) {place goal : Place} {s : List Glyph} {p : Path}

include h

/-- A segment is the same on both disks if the entry of its name is. -/
theorem turn_eq (hname : Path.isIdle s = false → s ≠ Path.above →
    d.item? (place ++ [s]) = e.item? (place ++ [s])) : d.turn place s = e.turn place s := by
  simp only [turn, ne_eq, h.directory]
  cases hidle : Path.isIdle s with
  | true => rfl
  | false =>
      by_cases habove : s = Path.above
      · simp only [habove, if_true]
      · simp only [hname hidle habove]

theorem turn_of_link {target : Path} (hturn : d.turn place s = .link target) :
    e.turn place s = .link target := by
  rw [← h.turn_eq, hturn]
  intro hidle habove
  rcases turn_cases hidle habove place with ⟨_, hcase⟩ | ⟨t, hitem, -⟩ | ⟨-, hcase⟩
  · rw [hcase] at hturn
    cases hturn
  · rw [hitem, (h.link _ _).mp hitem]
  · rw [hcase] at hturn
    cases hturn

theorem turn_of_place (hturn : d.turn place s = .place goal) (hgoal : d.item? goal = e.item? goal) :
    e.turn place s = .place goal := by
  rw [← h.turn_eq, hturn]
  intro hidle habove
  rcases turn_cases hidle habove place with ⟨_, hcase⟩ | ⟨t, -, hcase⟩ | ⟨-, hcase⟩
  · rw [hcase] at hturn
    cases hturn
  · rw [hcase] at hturn
    cases hturn
  · rw [hcase] at hturn
    obtain rfl := Turn.place.inj hturn
    exact hgoal

theorem resolveFrom_eq {n : Nat} {start : Place} {ss : List (List Glyph)}
    (hgoal : d.item? goal = e.item? goal) (hd : d.resolveFrom true n start ss = .ok goal) :
    e.resolveFrom true n start ss = .ok goal := by
  induction n, start, ss using d.way_induction with
  | nil n start =>
      rw [resolveFrom_nil] at hd ⊢
      exact hd
  | blocked n start s rest obstacle hturn =>
      rw [resolveFrom_of_blocked hturn] at hd
      cases hd
  | place n start s rest next hturn ih =>
      rw [resolveFrom_of_place hturn] at hd
      have hnext : d.item? next = e.item? next := by
        cases rest with
        | nil =>
            rw [resolveFrom_nil] at hd
            obtain rfl := Except.ok.inj hd
            exact hgoal
        | cons t rest =>
            have hdirectory := directory_of_resolveFrom hd
            rw [hdirectory, (h.directory next).mp hdirectory]
      rw [resolveFrom_of_place (h.turn_of_place hturn hnext)]
      exact ih hd
  | noLink start s rest target hturn =>
      rw [resolveFrom_zero_of_link hturn (.inl rfl)] at hd
      cases hd
  | link n start s rest target hturn ih =>
      rw [resolveFrom_of_link hturn (.inl rfl)] at hd
      rw [resolveFrom_of_link (h.turn_of_link hturn) (.inl rfl)]
      exact ih hd

/-- A path leads to the same place on both disks if they hold the same there. -/
theorem resolve_eq (hgoal : d.item? goal = e.item? goal) (hd : d.resolve p = .ok goal) :
    e.resolve p = .ok goal := by
  have hstart : e.start p = d.start p := by
    simp only [start, h.current]
  have hfits := Fits.of_resolve hd
  rw [hfits.resolve_eq] at hd ⊢
  rw [hstart]
  exact h.resolveFrom_eq hgoal hd

/-- A path that leads to a directory on the one disk leads to it on the other. -/
theorem isDirectory_of_isDirectory (hd : d.isDirectory p = true) : e.isDirectory p = true := by
  obtain ⟨goal, hgoal, hdirectory⟩ := isDirectory_eq_true.mp hd
  have hitem := (h.directory goal).mp hdirectory
  exact isDirectory_eq_true.mpr ⟨goal, h.resolve_eq (by rw [hdirectory, hitem]) hgoal, hitem⟩

theorem isDirectory_eq (p : Path) : d.isDirectory p = e.isDirectory p := by
  rw [Bool.eq_iff_iff]
  exact ⟨h.isDirectory_of_isDirectory, h.symm.isDirectory_of_isDirectory⟩

/-- What a path reads on the one disk it reads on the other, if they hold the same where it
leads. -/
theorem read_of_read (hsame : ∀ q, d.resolve p = .ok q → SameAt d e q) {text : String}
    (hd : d.read p = .ok text) : e.read p = .ok text := by
  cases hq : d.resolve p with
  | error obstacle =>
      simp only [read, bytes, hq, bind, Except.bind] at hd
      cases hd
  | ok q =>
      have hat := hsame q hq
      have he := h.resolve_eq hat.item hq
      simp only [read, bytes, hq, he, bind, Except.bind, List.contains_eq_mem, hat.item,
        hat.closed] at hd ⊢
      exact hd

end SameFrame

/-- What is in a file is no part of the frame. -/
theorem SameButFor.sameFrame {place : Place} {d e : Disk} (h : SameButFor place d e) :
    SameFrame d e where
  current := h.current
  directory := h.item?_eq_directory_iff
  link q target := by
    rcases h.item?_eq_or q with heq | ⟨a, b, ha, hb⟩
    · rw [heq]
    · simp [ha, hb]

end FactoryRoster.Disk
