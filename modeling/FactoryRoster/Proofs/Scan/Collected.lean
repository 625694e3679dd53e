import Mathlib.Tactic.ByContra
import FactoryRoster.Proofs.Scan.Ranks

/-!
# What a scan collects

A scan keeps the files among the paths that a search found, and puts them in order. Labels alone
give no order: a backslash is shown as a slash, and a link may be shown by what it leads to. Files
of one label go by the components of their paths. So paths that all differ in their components come
in one order, whatever order they were found in.
-/

namespace FactoryRoster.Disk

open Glob

variable {d : Disk} {base : Path} {found : List Path}

/-- What a scan goes through of the paths that a search found. -/
def collected (d : Disk) (base : Path) (found : List Path) : List Path :=
  d.inOrder base (found.filter d.isFile)

/-- Whether a file comes before another one in a scan: by label, and at one label by path. -/
def Precedes (d : Disk) (base p q : Path) : Prop :=
  (d.label p base).toList < (d.label q base).toList ∨
    d.label p base = d.label q base ∧ Path.code p < Path.code q

/-- Paths that all differ in their components. -/
abbrev Distinct (found : List Path) : Prop :=
  found.Pairwise fun p q => Path.components p ≠ Path.components q

theorem Precedes.asymm {p q : Path} (hpq : d.Precedes base p q) : ¬ d.Precedes base q p := by
  rcases hpq with hlabel | ⟨hlabel, hcode⟩
  · rintro (hlabel' | ⟨hlabel', -⟩)
    · exact List.lt_asymm hlabel hlabel'
    · rw [hlabel'] at hlabel
      exact List.lt_irrefl _ hlabel
  · rintro (hlabel' | ⟨-, hcode'⟩)
    · rw [hlabel] at hlabel'
      exact List.lt_irrefl _ hlabel'
    · exact List.lt_asymm hcode hcode'

/-- Of two paths that differ in their components, the one of the lower rank comes first. -/
theorem Precedes.of_rankLE {p q : Path} (hdistinct : Path.components p ≠ Path.components q)
    (hrank : rankLE (d.rank base p) (d.rank base q) = true) : d.Precedes base p q := by
  rcases rankLE_eq_true.mp hrank with hlabel | ⟨hlabel, hcode⟩
  · exact .inl hlabel
  · refine .inr ⟨String.toList_inj.mp hlabel, ?_⟩
    by_contra hcode'
    exact hdistinct (Path.code_inj.mp (List.le_antisymm hcode hcode'))

/-- Two elements of a list stand in it in one of their two orders. -/
theorem pair_sublist {α : Type} {l : List α} {a b : α} (ha : a ∈ l) (hb : b ∈ l) (hne : a ≠ b) :
    [a, b].Sublist l ∨ [b, a].Sublist l := by
  obtain ⟨s, t, rfl⟩ := List.append_of_mem ha
  rcases List.mem_append.mp hb with hs | ht
  · exact .inr ((List.singleton_sublist.mpr hs).append
      (List.singleton_sublist.mpr List.mem_cons_self))
  · have ht' : b ∈ t := (List.mem_cons.mp ht).resolve_left (Ne.symm hne)
    exact .inl (((List.singleton_sublist.mpr ht').cons_cons a).trans
      (List.sublist_append_right s _))

theorem pair_sublist_iff {files : List Path} (hfiles : files.Pairwise (d.Precedes base))
    (p q : Path) : [p, q].Sublist files ↔ p ∈ files ∧ q ∈ files ∧ d.Precedes base p q := by
  constructor
  · intro h
    exact ⟨h.subset (by simp), h.subset (by simp), List.pairwise_iff_forall_sublist.mp hfiles h⟩
  · rintro ⟨hp, hq, hpq⟩
    have hne : p ≠ q := by
      rintro rfl
      exact hpq.asymm hpq
    refine (pair_sublist hp hq hne).resolve_right fun h => ?_
    exact hpq.asymm (List.pairwise_iff_forall_sublist.mp hfiles h)

theorem collected_perm (d : Disk) (base : Path) (found : List Path) :
    (d.collected base found).Perm (found.filter d.isFile) := by
  rw [collected, inOrder_eq]
  exact List.mergeSort_perm _ _

theorem Distinct.perm {found' : List Path} (hfound : Distinct found) (h : found.Perm found') :
    Distinct found' :=
  (h.pairwise_iff Ne.symm).mp hfound

theorem pairwise_collected (hfound : Distinct found) :
    (d.collected base found).Pairwise (d.Precedes base) := by
  have hdistinct : Distinct (d.collected base found) :=
    Distinct.perm (List.Pairwise.filter _ hfound) (collected_perm d base found).symm
  have hsorted : (d.collected base found).Pairwise fun p q =>
      rankLE (d.rank base p) (d.rank base q) = true := by
    rw [collected, inOrder_eq]
    exact List.pairwise_mergeSort
      (fun p q r => rankLE_trans (d.rank base p) (d.rank base q) (d.rank base r))
      (fun p q => rankLE_total (d.rank base p) (d.rank base q)) (found.filter d.isFile)
  exact hdistinct.imp₂ (fun _ _ => Precedes.of_rankLE) hsorted

theorem collected_eq_of_perm {found' : List Path} (hfound : Distinct found)
    (h : found'.Perm found) : d.collected base found' = d.collected base found := by
  have hperm : (d.collected base found').Perm (d.collected base found) :=
    (collected_perm d base found').trans
      ((h.filter _).trans (collected_perm d base found).symm)
  exact hperm.eq_of_pairwise (fun _ _ _ _ hpq hqp => absurd hqp hpq.asymm)
    (pairwise_collected (hfound.perm h.symm)) (pairwise_collected hfound)

theorem factoryFiles_eq_collected {extension : String} {pattern : Pattern}
    (hpattern : Pattern.ofText (filePattern base extension) = .ok pattern) :
    (d.factoryFiles base extension).map Report.value =
      .ok (d.collected base (foundIn (d.matchesOf pattern))) := by
  rw [factoryFiles_of_pattern hpattern]
  rfl

/-- Paths that all differ in their components are collected in one order, whatever order they were
found in: the files among them, by label, and at one label by path. The files of a scan are
collected from what the search for its pattern finds. -/
theorem collected_in_one_order (d : Disk) (base : Path) {found : List Path}
    (hfound : Distinct found) :
    (∀ found' : List Path, found'.Perm found →
      d.collected base found' = d.collected base found) ∧
    (d.collected base found).Perm (found.filter d.isFile) ∧
    (∀ p q : Path, [p, q].Sublist (d.collected base found) ↔
      p ∈ d.collected base found ∧ q ∈ d.collected base found ∧ d.Precedes base p q) ∧
    ∀ (extension : String) (pattern : Pattern),
      Pattern.ofText (filePattern base extension) = .ok pattern →
      (foundIn (d.matchesOf pattern)).Perm found →
      (d.factoryFiles base extension).map Report.value = .ok (d.collected base found) := by
  refine ⟨fun _ => collected_eq_of_perm hfound, collected_perm d base found,
    pair_sublist_iff (pairwise_collected hfound), ?_⟩
  intro extension pattern hpattern hperm
  rw [factoryFiles_eq_collected hpattern, collected_eq_of_perm hfound hperm]

/-- A directory with a name that has a backslash, a file below that is shown alike, and a link to a
file beside it. -/
def twins : Disk where
  items := [
    ([['f']], .directory),
    ([['f'], ['a']], .directory),
    ([['f'], ['a', '\\', 'b', '.', 'r', 'b']], .file []),
    ([['f'], ['a'], ['b', '.', 'r', 'b']], .file []),
    ([['f'], ['x', '.', 'r', 'b']], .link ['y', '.', 'r', 'b']),
    ([['f'], ['y', '.', 'r', 'b']], .file [])]

/-- What a search finds, in the order of the listings. -/
theorem foundIn_twins : foundIn (twins.matchesOf (filesBelow (glyphs ['f']) ['r', 'b'])) =
    (["f/y.rb", "f/x.rb", "f/a\\b.rb", "f/a/b.rb"].map Path.ofText).reverse := by
  have hlisting : twins.listing (glyphs ['f']) = .ok (twins.names [['f']]) :=
    listing_of_ordered (by decide) (by decide) (by decide) (by decide)
  have hlisting' : twins.listing (glyphs ['f', '/', 'a']) = .ok (twins.names [['f'], ['a']]) :=
    listing_of_ordered (by decide) (by decide) (by decide) (by decide)
  have hentry : twins.entrySpot (glyphs ['f']) (glyphs ['a']) =
      ⟨glyphs ['f', '/', 'a'], true⟩ := by decide
  have hnames : twins.names [['f']] =
      [glyphs ['a'], glyphs ['a', '\\', 'b', '.', 'r', 'b'], glyphs ['x', '.', 'r', 'b'],
        glyphs ['y', '.', 'r', 'b']] := by decide
  change foundIn ((twins.below (287 + 1 + 1) ⟨glyphs ['f'], true⟩).flatMap _) = _
  rw [below_of_listing rfl hlisting, hnames, List.flatMap_cons, hentry,
    below_of_listing rfl hlisting']
  rfl

/-- From `f`, the files `a\b.rb` and `a/b.rb` have one label, and from `./f` the link and the file
beside it have one. They are collected in one order all the same, and it is that of the scan. -/
theorem collected_in_one_order_twins :
    let paths := ["f/y.rb", "f/x.rb", "f/a\\b.rb", "f/a/b.rb"].map Path.ofText
    Distinct paths ∧
    (paths.map fun p => twins.label p (Path.ofText "f")) = ["y.rb", "x.rb", "a/b.rb", "a/b.rb"] ∧
    (paths.map fun p => twins.label p (Path.ofText "./f")) =
      ["y.rb", "y.rb", "a\\b.rb", "a/b.rb"] ∧
    (∀ found : List Path, found.Perm paths →
      twins.collected (Path.ofText "f") found = paths.reverse ∧
        twins.collected (Path.ofText "./f") found = paths.reverse) ∧
    (twins.factoryFiles (Path.ofText "f") "rb").map Report.value = .ok paths.reverse := by
  intro paths
  have hpaths : Distinct paths := by decide
  obtain ⟨hone, -, -, hfiles⟩ := collected_in_one_order twins (Path.ofText "f") hpaths
  obtain ⟨hone', -, -, -⟩ := collected_in_one_order twins (Path.ofText "./f") hpaths
  have hordered : twins.collected (Path.ofText "f") paths = paths.reverse :=
    (hone _ (List.reverse_perm paths)).symm.trans (inOrder_of_ordered (by decide))
  have hordered' : twins.collected (Path.ofText "./f") paths = paths.reverse :=
    (hone' _ (List.reverse_perm paths)).symm.trans (inOrder_of_ordered (by decide))
  refine ⟨hpaths, by decide, by decide, fun found hfound => ?_, ?_⟩
  · exact ⟨(hone found hfound).trans hordered, (hone' found hfound).trans hordered'⟩
  · have hpattern : Pattern.ofText (filePattern (Path.ofText "f") "rb") =
        .ok (filesBelow (glyphs ['f']) ['r', 'b']) := by rfl
    have hfound := (foundIn_twins ▸ List.reverse_perm paths :
      (foundIn (twins.matchesOf (filesBelow (glyphs ['f']) ['r', 'b']))).Perm paths)
    rw [hfiles "rb" _ hpattern hfound, hordered]

end FactoryRoster.Disk
