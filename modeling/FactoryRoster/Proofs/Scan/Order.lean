import Mathlib.Tactic.ByContra
import FactoryRoster.Proofs.Scan.Isolation
import FactoryRoster.Proofs.Scan.Ranks

/-!
# The order of a scan

A scan goes through its files in the order of their labels. If the directory's path does not begin
with a dot, these are the names on the way from the directory to the file, so the files come in the
order of these ways, and every path of the directory gives the same entries in the same order. With
a dot at the front that is so as long as no link leads elsewhere.
-/

namespace FactoryRoster

namespace Disk

open Glob FactoryRoster.Path

/-- The label of a walk from a directory at `place` to a file at `goal`. It is the walk, or, if the
directory's path begins with a dot, the rest of the goal below the place, or else the path by which
the file is found. -/
def walkLabel (base : Path) (place goal : Place) (w : Walk) : String :=
  if Dotted base then
    if place.isPrefixOf goal then String.ofList (joined (goal.drop place.length))
    else Path.withSlashes (reached base w).shown
  else String.ofList (joined w)

/-- What a scan goes through: each walk to a file once, in the order of their labels. Where it leads
is where its names lead from the directory. -/
structure Course (d : Disk) (base : Path) (extension : List Char) (place : Place)
    (walks : List Walk) : Prop where
  nodup : walks.Nodup
  complete : ∀ w, w ∈ walks ↔ d.Searchable base ∧ d.IsFileWalk base extension w
  texts : ∀ w ∈ walks, ∀ x ∈ w, ∃ text, x = glyphs text
  leads : ∃ m, ∀ w ∈ walks, d.resolve (reached base w) = d.resolveFrom true m place w
  labels : ∀ w ∈ walks, ∃ goal, d.resolve (reached base w) = .ok goal ∧
    d.label (reached base w) base = walkLabel base place goal w
  sorted : walks.Pairwise fun v w => d.noLater base v w = true

/-- Walks in ascending order of their names with slashes between them. -/
def Ascending (walks : List Walk) : Prop :=
  walks.Pairwise fun v w => joined v < joined w

/-- Whether links do not matter to the labels: there is no dot at the front of the directory's path,
or no link on a walk to a file. -/
def Straight (d : Disk) (base : Path) (extension : List Char) (place : Place) : Prop :=
  ¬ Dotted base ∨
    ∀ w, d.IsFileWalk base extension w → d.resolve (reached base w) = .ok (place ++ w)

variable {d : Disk} {place : Place} {base : Path} {extension : List Char} {walks : List Walk}

/-- Where a walk to a file leads, and how it is labelled there. -/
theorem IsFileWalk.exists_label (hd : d.Tidy) (htextual : d.Textual)
    (hplace : d.resolve base = .ok place) (hdirectory : d.item? place = some .directory)
    (hmoves : ¬ Stalled base) {w : Walk} (hw : d.IsFileWalk base extension w)
    (hplain : ∀ x ∈ w, .char '\\' ∉ x) :
    ∃ goal, d.resolve (reached base w) = .ok goal ∧
      d.label (reached base w) base = walkLabel base place goal w := by
  obtain ⟨goal, bytes, hgoal, hitem⟩ := isFile_eq_true.mp hw.file
  refine ⟨goal, hgoal, ?_⟩
  have hbase : base ≠ [] := (Fits.of_resolve hplace).nonempty
  have hsome : d.item? goal ≠ none := by simp [hitem]
  unfold walkLabel
  split
  · rename_i hdot
    split
    · rename_i hprefix
      obtain ⟨rest, rfl⟩ := List.isPrefixOf_iff_prefix.mp hprefix
      have hrest : rest ≠ [] := by
        -- the directory itself is no file
        rintro rfl
        rw [List.append_nil, hdirectory] at hitem
        cases hitem
      have htext : ∃ text, ofSegments rest = glyphs text :=
        exists_glyphs_ofSegments fun x hx =>
          htextual.exists_glyphs hsome (List.mem_append_right place hx)
      rw [List.drop_left]
      exact label_of_dotted_append hd hdot hmoves hw.nonempty hw.names hplace hrest htext hgoal
        hsome
    · rename_i hprefix
      rw [List.isPrefixOf_iff_prefix] at hprefix
      exact label_of_dotted_elsewhere hd hdot hmoves hw.nonempty hw.names hplace
        (by simp [hdirectory]) hgoal hsome hprefix
  · rename_i hdot
    exact label_of_not_dotted hbase hdot hw.nonempty hw.names hplain

theorem Straight.walkLabel_eq (h : d.Straight base extension place) {w : Walk}
    (hw : d.IsFileWalk base extension w) {goal : Place}
    (hgoal : d.resolve (reached base w) = .ok goal) :
    walkLabel base place goal w = String.ofList (joined w) := by
  unfold walkLabel
  split
  · rename_i hdot
    rcases h with h | h
    · exact absurd hdot h
    · rw [h w hw] at hgoal
      obtain rfl := Except.ok.inj hgoal
      rw [if_pos (List.isPrefixOf_iff_prefix.mpr (List.prefix_append place w)), List.drop_left]
  · rfl

/-- The files of a scan are what the walks of its course lead to. -/
theorem exists_course (hd : d.Tidy) (htextual : d.Textual)
    (hplain : ∀ p ∈ d.items.map Prod.fst, ∀ x ∈ p, .char '\\' ∉ x)
    (hplace : d.resolve base = .ok place) (hdirectory : d.item? place = some .directory)
    {extension : String} (hextension : IsLiteral extension.toList) :
    ∃ (walks : List Walk) (notices : List Notice), d.Course base extension.toList place walks ∧
      d.factoryFiles base extension = .ok ⟨walks.map (reached base), notices⟩ := by
  have hbase : d.isDirectory base = true :=
    isDirectory_eq_true.mpr ⟨place, hplace, hdirectory⟩
  obtain ⟨walks, notices, hperm, hsorted, hfiles⟩ :=
    exists_ordered hd hbase (htextual.exists_glyphs_of_resolve hplace) hextension
  have hmem : ∀ w, w ∈ walks ↔ d.Searchable base ∧ d.IsFileWalk base extension.toList w := by
    intro w
    rw [hperm.mem_iff, mem_fileWalks hd hbase]
  have hlisted : ∀ w ∈ walks, ∀ x ∈ w, ∃ p ∈ d.items.map Prod.fst, x ∈ p := by
    intro w hw
    exact listed_of_mem_fileWalks (hperm.mem_iff.mp hw)
  refine ⟨walks, notices, ?_, hfiles⟩
  constructor
  · exact hperm.nodup_iff.mpr (hd.nodup_fileWalks _ _)
  · exact hmem
  · intro w hw x hx
    obtain ⟨p, hp, hxp⟩ := hlisted w hw x hx
    exact isSome_text?_iff.mp (htextual p hp x hxp)
  · by_cases hmoves : Stalled base
    · exact ⟨0, fun w hw => absurd hmoves ((hmem w).mp hw).1.moves⟩
    · obtain ⟨m, hm⟩ := exists_links hplace hdirectory hmoves
      refine ⟨m, fun w hw => ?_⟩
      have hfile := ((hmem w).mp hw).2
      obtain ⟨goal, bytes, hgoal, -⟩ := isFile_eq_true.mp hfile.file
      exact hm w hfile.names (Fits.of_resolve hgoal)
  · intro w hw
    obtain ⟨hsearchable, hfile⟩ := (hmem w).mp hw
    refine hfile.exists_label hd htextual hplace hdirectory hsearchable.moves fun x hx => ?_
    obtain ⟨p, hp, hxp⟩ := hlisted w hw x hx
    exact hplain p hp x hxp
  · exact hsorted

theorem Course.isFileWalk (h : d.Course base extension place walks) {w : Walk}
    (hw : w ∈ walks) : d.IsFileWalk base extension w :=
  ((h.complete w).mp hw).2

/-- Walks whose names are text are known by their names with slashes between them. -/
theorem joined_injective {v w : Walk} (hv : ∀ x ∈ v, IsName x) (hw : ∀ x ∈ w, IsName x)
    (hv' : v ≠ []) (hw' : w ≠ []) (htext : ∀ x ∈ v, ∃ text, x = glyphs text)
    (htext' : ∀ x ∈ w, ∃ text, x = glyphs text) (h : joined v = joined w) : v = w := by
  obtain ⟨s, hs⟩ := exists_glyphs_ofSegments htext
  obtain ⟨t, ht⟩ := exists_glyphs_ofSegments htext'
  have hst : s = t := by simpa only [joined, hs, ht, shownText_glyphs] using h
  rw [← segments_ofSegments hv' fun x hx => (hv x hx).noSlash, hs, hst, ← ht,
    segments_ofSegments hw' fun x hx => (hw x hx).noSlash]

/-- A scan is in the order of the walks exactly if no labels are against it. -/
theorem Course.ascending_iff (h : d.Course base extension place walks) :
    Ascending walks ↔
      ∀ v ∈ walks, ∀ w ∈ walks, joined v < joined w → d.noLater base v w = true := by
  constructor
  · intro hascending
    refine fun v hv w hw => List.Pairwise.forall_of_forall_of_flip
      (R := fun v w => joined v < joined w → d.noLater base v w = true) ?_ ?_ ?_ hv hw
    · exact fun w _ hlt => absurd hlt (List.lt_irrefl _)
    · refine h.sorted.imp fun {v w} hle => ?_
      exact fun _ => hle
    · refine hascending.imp fun {v w} hlt => ?_
      exact fun hgt => absurd hgt (List.lt_asymm hlt)
  · intro hlabels
    refine (h.sorted.and h.nodup).imp_of_mem fun {v w} hv hw hvw => ?_
    have hv' := h.isFileWalk hv
    have hw' := h.isFileWalk hw
    by_contra hlt
    by_cases hgt : joined w < joined v
    · have hsame := eq_of_noLater hv'.names hw'.names hvw.1 (hlabels w hw v hv hgt)
      exact hvw.2 hsame
    · have hsame := List.le_antisymm hgt hlt
      exact hvw.2 (joined_injective hv'.names hw'.names hv'.nonempty hw'.nonempty
        (h.texts v hv) (h.texts w hw) hsame)

theorem Course.ascending (h : d.Course base extension place walks)
    (hstraight : d.Straight base extension place) : Ascending walks := by
  have hlabel : ∀ w ∈ walks, (d.rank base (reached base w)).1 = joined w := by
    intro w hw
    obtain ⟨goal, hgoal, hlabel⟩ := h.labels w hw
    rw [rank, hlabel, hstraight.walkLabel_eq (h.isFileWalk hw) hgoal, String.toList_ofList]
  refine h.ascending_iff.mpr fun v hv w hw hlt => ?_
  rw [noLater, rankLE_eq_true, hlabel v hv, hlabel w hw]
  exact .inl hlt

/-- Walks in ascending order are known by which they are. -/
theorem eq_of_ascending {walks' : List Walk} (hwalks : Ascending walks)
    (hwalks' : Ascending walks') (hmem : ∀ w, w ∈ walks ↔ w ∈ walks') : walks = walks' := by
  have hnodup : ∀ l : List Walk, Ascending l → l.Nodup := by
    intro l hl
    refine hl.imp fun {v w} hlt => ?_
    rintro rfl
    exact absurd hlt (List.lt_irrefl _)
  refine List.Perm.eq_of_pairwise ?_ hwalks hwalks' ?_
  · exact fun v w _ _ hlt hgt => absurd hgt (List.lt_asymm hlt)
  · exact (List.perm_ext_iff_of_nodup (hnodup _ hwalks) (hnodup _ hwalks')).mpr hmem

section Spellings

variable {other : Path} {walks' : List Walk} (hplace : d.resolve base = .ok place)
  (hother : d.resolve other = .ok place) (hdirectory : d.item? place = some .directory)
  (hbase : d.Searchable base) (hother' : d.Searchable other)
  (hreach : ∀ w, d.IsFileWalk base extension w → d.InReach other w)

include hplace hother hdirectory hbase hother' hreach

/-- Two paths of one directory make scans go through the same walks in the same order. -/
theorem Course.eq_of_straight (h : d.Course base extension place walks)
    (h' : d.Course other extension place walks')
    (hreach' : ∀ w, d.IsFileWalk other extension w → d.InReach base w)
    (hstraight : d.Straight base extension place) (hstraight' : d.Straight other extension place) :
    walks' = walks := by
  refine eq_of_ascending (h'.ascending hstraight') (h.ascending hstraight) ?_
  intro w
  rw [h'.complete, h.complete]
  constructor
  · rintro ⟨-, hw⟩
    exact ⟨hbase, (hw.of_other hother hplace hdirectory hother'.moves hbase.moves (hreach' w hw)).1⟩
  · rintro ⟨-, hw⟩
    exact ⟨hother',
      (hw.of_other hplace hother hdirectory hbase.moves hother'.moves (hreach w hw)).1⟩

theorem Course.read_eq (h : d.Course base extension place walks) {w : Walk} (hw : w ∈ walks) :
    d.read (reached other w) = d.read (reached base w) := by
  have hfile := h.isFileWalk hw
  have hsame :=
    (hfile.of_other hplace hother hdirectory hbase.moves hother'.moves (hreach w hfile)).2
  simp only [read, bytes, hsame]

end Spellings

end Disk

namespace Settings

open Disk

theorem entriesAt_congr (s : Settings) {d : Disk} {p q : Path} (h : d.read p = d.read q) :
    s.entriesAt rubyParser d p = s.entriesAt rubyParser d q := by
  simp only [entriesAt, h]
  cases d.read q with
  | error obstacle => rfl
  | ok text =>
      simp only [entriesInSource, rubyParser]
      cases Source.parse? text <;> rfl

theorem scanDirectory_of_walks (s : Settings) {d : Disk} {base : Path}
    (hbase : d.isDirectory base = true) {walks : List Walk} {notices : List Notice}
    (hfiles : d.factoryFiles base s.extension = .ok ⟨walks.map (reached base), notices⟩) :
    (s.scanDirectory rubyParser d base).value =
      some (walks.flatMap fun w => s.entriesAt rubyParser d (reached base w)) := by
  rw [s.scanDirectory_of_files rubyParser d base hbase hfiles, List.flatMap_map]
  simp only [contribution_value]

end Settings

open Disk Glob

/-- On a disk whose names are text without backslashes, a scan of a directory goes through the files
that the walks below it lead to, each of them once, in the order of their labels: all of them, if
the search gets to the directory by its path, and else none. The order is that of the walks exactly
if no labels are against it, so always if the directory's path does not begin with a dot, or no link
is on the way to a file. Two such paths of one directory give the same entries in the same order if
the search gets there by both and the files are in reach by both. -/
theorem scanDirectory_in_order (s : Settings) {d : Disk} (hd : d.Tidy) (htextual : d.Textual)
    (hplain : ∀ p ∈ d.items.map Prod.fst, ∀ x ∈ p, .char '\\' ∉ x) {base : Path}
    (hbase : d.isDirectory base = true) (hextension : IsLiteral s.extension.toList) :
    ∃ (place : Place) (walks : List Walk) (notices : List Notice), d.resolve base = .ok place ∧
      d.Course base s.extension.toList place walks ∧
      d.factoryFiles base s.extension = .ok ⟨walks.map (reached base), notices⟩ ∧
      (s.scanDirectory rubyParser d base).value =
        some (walks.flatMap fun w => s.entriesAt rubyParser d (reached base w)) ∧
      (Ascending walks ↔
        ∀ v ∈ walks, ∀ w ∈ walks, joined v < joined w → d.noLater base v w = true) ∧
      (d.Straight base s.extension.toList place → Ascending walks) ∧
      (∀ other, d.resolve other = .ok place → d.Searchable base → d.Searchable other →
        d.Straight base s.extension.toList place → d.Straight other s.extension.toList place →
        (∀ w, d.IsFileWalk base s.extension.toList w → d.InReach other w) →
        (∀ w, d.IsFileWalk other s.extension.toList w → d.InReach base w) →
        (s.scanDirectory rubyParser d other).value = (s.scanDirectory rubyParser d base).value) ∧
      (∀ root, Path.join root (Path.ofText s.directory) = base →
        (s.scanProject rubyParser d root).value =
          if (d.declaresGem root s.gem).value
          then (s.scanDirectory rubyParser d base).value else none) := by
  obtain ⟨place, hplace, hdirectory⟩ := isDirectory_eq_true.mp hbase
  obtain ⟨walks, notices, hcourse, hfiles⟩ :=
    exists_course hd htextual hplain hplace hdirectory hextension
  refine ⟨place, walks, notices, hplace, hcourse, hfiles, s.scanDirectory_of_walks hbase hfiles,
    hcourse.ascending_iff, hcourse.ascending, ?_, ?_⟩
  · intro other hother hsearchable hsearchable' hstraight hstraight' hreach hreach'
    have hbase' : d.isDirectory other = true :=
      isDirectory_eq_true.mpr ⟨place, hother, hdirectory⟩
    obtain ⟨walks', notices', hcourse', hfiles'⟩ :=
      exists_course hd htextual hplain hother hdirectory hextension
    have hsame : walks' = walks := hcourse.eq_of_straight hplace hother hdirectory hsearchable
      hsearchable' hreach hcourse' hreach' hstraight hstraight'
    rw [s.scanDirectory_of_walks hbase' hfiles', s.scanDirectory_of_walks hbase hfiles, hsame]
    congr 1
    refine List.flatMap_congr fun w hw => s.entriesAt_congr ?_
    exact hcourse.read_eq hplace hother hdirectory hsearchable hsearchable' hreach hw
  · intro root hroot
    rw [s.scanProject_value, hroot]

/-- A directory with a file, and with a link to a file of another directory. -/
def linked : Disk where
  items :=
    [([['f']], .directory), ([['f'], ['m', '.', 'r', 'b']], .file []),
      ([['f'], ['z', '.', 'r', 'b']], .link ['.', '.', '/', 'g', '/', 'a', '.', 'r', 'b']),
      ([['g']], .directory), ([['g'], ['a', '.', 'r', 'b']], .file [])]

/-- The file comes before the link if the directory is called by its name. -/
theorem scanDirectory_in_order_linked :
    linked.Tidy ∧ linked.Textual ∧ (∀ p ∈ linked.items.map Prod.fst, ∀ x ∈ p, .char '\\' ∉ x) ∧
    linked.isDirectory (glyphs ['f']) = true ∧ IsLiteral ({} : Settings).extension.toList ∧
    ∃ (walks : List Walk) (notices : List Notice),
      linked.factoryFiles (glyphs ['f']) "rb" =
        .ok ⟨walks.map (reached (glyphs ['f'])), notices⟩ ∧
      Ascending walks ∧ [glyphs ['m', '.', 'r', 'b']] ∈ walks ∧
      [glyphs ['z', '.', 'r', 'b']] ∈ walks := by
  have htidy : linked.Tidy := by decide
  have htextual : linked.Textual := by decide
  have hplain : ∀ p ∈ linked.items.map Prod.fst, ∀ x ∈ p, .char '\\' ∉ x := by decide
  have hbase : linked.isDirectory (glyphs ['f']) = true := by decide
  have hextension : IsLiteral ({} : Settings).extension.toList :=
    ⟨by decide, by decide, by decide, by decide⟩
  obtain ⟨place, walks, notices, -, hcourse, hfiles, -, -, hascending, -⟩ :=
    scanDirectory_in_order {} htidy htextual hplain hbase hextension
  refine ⟨htidy, htextual, hplain, hbase, hextension, walks, notices, hfiles,
    hascending (.inl (by decide)), ?_, ?_⟩
  · exact (hcourse.complete _).mpr ⟨by decide, by decide⟩
  · exact (hcourse.complete _).mpr ⟨by decide, by decide⟩

/-- With a dot in front of the name, the link comes before the file. -/
example : linked.factoryFiles (glyphs ['.', '/', 'f']) "rb" =
    .ok ⟨[glyphs ['f', '/', 'z', '.', 'r', 'b'], glyphs ['f', '/', 'm', '.', 'r', 'b']], []⟩ := by
  cbv

end FactoryRoster
