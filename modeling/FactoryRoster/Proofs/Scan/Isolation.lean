import FactoryRoster.Proofs.Disk.Contents
import FactoryRoster.Proofs.Scan.Ranks

/-!
# Files are read in isolation

What a scan of a directory finds is put together from what each file yields on its own. A file that
cannot be read or has no tree yields nothing, and whatever is in one file changes neither which
files are scanned, nor their order, nor what any path yields that does not lead to that file.
-/

namespace FactoryRoster

namespace Settings

/-- What a path yields on its own: the entries in the text that it leads to. Without a text, or with
one that has no tree, there are none. -/
def entriesAt (s : Settings) (parse : Parser) (d : Disk) (p : Path) : Roster :=
  match d.read p with
  | .error _ => []
  | .ok text =>
    match (s.entriesInSource parse text p.shown).value with
    | .ok entries => entries
    | .error _ => []

theorem contribution_value (s : Settings) (parse : Parser) (d : Disk) (base p : Path) :
    (s.contribution parse d base p).value = s.entriesAt parse d p := by
  simp only [contribution, entriesAt, entriesInFile, parseFile]
  cases d.read p with
  | error obstacle => rfl
  | ok text =>
      simp only [entriesInSource]
      cases (s.collect (parse text p.shown)).value <;> rfl

/-- A scan that knows its files joins what they contribute. -/
theorem scanDirectory_of_files (s : Settings) (parse : Parser) (d : Disk) (base : Path)
    {files : Report (List Path)} (hbase : d.isDirectory base = true)
    (hfiles : d.factoryFiles base s.extension = .ok files) :
    (s.scanDirectory parse d base).value =
      some (files.value.flatMap fun p => (s.contribution parse d base p).value) := by
  simp only [scanDirectory, hbase, hfiles, Bool.not_true, Bool.false_eq_true, if_false,
    Report.join, List.flatMap_map]

theorem scanProject_value (s : Settings) (parse : Parser) (d : Disk) (root : Path) :
    (s.scanProject parse d root).value =
      if (d.declaresGem root s.gem).value
      then (s.scanDirectory parse d (Path.join root (Path.ofText s.directory))).value
      else none := by
  simp only [scanProject]
  split <;> rfl

end Settings

namespace Disk

/-- A valid pattern is all that it takes to know the files. -/
theorem exists_factoryFiles (d : Disk) (base : Path) (extension : String)
    (hpattern : (Glob.Pattern.ofText (filePattern base extension)).isOk = true) :
    ∃ files, d.factoryFiles base extension = .ok files := by
  cases hp : Glob.Pattern.ofText (filePattern base extension) with
  | error fault =>
      rw [hp] at hpattern
      cases hpattern
  | ok pattern => exact ⟨_, by simp only [factoryFiles, hp]; rfl⟩

variable {place : Place} {d e : Disk} (h : SameButFor place d e)

include h

theorem SameButFor.inOrder_eq (base : Path) (paths : List Path) :
    d.inOrder base paths = e.inOrder base paths := by
  simp only [inOrder, rank, h.label_eq]

theorem SameButFor.factoryFiles_eq (base : Path) (extension : String) :
    d.factoryFiles base extension = e.factoryFiles base extension := by
  have hisFile : d.isFile = e.isFile := funext h.isFile_eq
  simp only [factoryFiles, h.matchesOf_eq, h.inOrder_eq, hisFile]

theorem SameButFor.contribution_eq (s : Settings) (parse : Parser) (base : Path) {p : Path}
    (hp : d.resolve p ≠ .ok place) :
    s.contribution parse d base p = s.contribution parse e base p := by
  simp only [Settings.contribution, Settings.entriesInFile, parseFile, h.read_eq hp, h.label_eq]

end Disk

/-- A scan finds what its files yield one by one, in their order. On a disk that differs in the
contents of one file, it goes through the same files in the same order, and every path that does not
lead to that file contributes the same, notices included. -/
theorem scanDirectory_isolates (s : Settings) (parse : Parser) (d : Disk) (base : Path)
    (hbase : d.isDirectory base = true)
    (hpattern : (Glob.Pattern.ofText (Disk.filePattern base s.extension)).isOk = true) :
    ∃ files, d.factoryFiles base s.extension = .ok files ∧
      (s.scanDirectory parse d base).value = some (files.value.flatMap (s.entriesAt parse d)) ∧
      ∀ place e, Disk.SameButFor place d e →
        e.factoryFiles base s.extension = .ok files ∧
        (s.scanDirectory parse e base).value = some (files.value.flatMap (s.entriesAt parse e)) ∧
        ∀ p, d.resolve p ≠ .ok place →
          s.contribution parse e base p = s.contribution parse d base p ∧
          s.entriesAt parse e p = s.entriesAt parse d p := by
  obtain ⟨files, hfiles⟩ := d.exists_factoryFiles base s.extension hpattern
  have hvalue : ∀ c : Disk, c.isDirectory base = true →
      c.factoryFiles base s.extension = .ok files →
      (s.scanDirectory parse c base).value = some (files.value.flatMap (s.entriesAt parse c)) := by
    intro c hc hcfiles
    rw [s.scanDirectory_of_files parse c base hc hcfiles]
    simp only [Settings.contribution_value]
  refine ⟨files, hfiles, hvalue d hbase hfiles, ?_⟩
  intro place e h
  have hefiles : e.factoryFiles base s.extension = .ok files := by
    rw [← h.factoryFiles_eq, hfiles]
  refine ⟨hefiles, hvalue e (by rw [← h.isDirectory_eq, hbase]) hefiles, ?_⟩
  intro p hp
  have hsame := h.contribution_eq s parse base hp
  refine ⟨hsame.symm, ?_⟩
  rw [← s.contribution_value parse e base p, ← s.contribution_value parse d base p, hsame]

/-- A directory with a file that is no text beside a file that is. -/
def halfBroken : Disk where
  items :=
    [([['f']], .directory), ([['f'], ['a', '.', 'r', 'b']], .file [0xff]),
      ([['f'], ['b', '.', 'r', 'b']], .file (Utf8.encode ['a']))]

open Disk Glob in
/-- The file that is no text is gone through like the other. -/
theorem factoryFiles_halfBroken : halfBroken.factoryFiles (glyphs ['f']) "rb" =
    .ok ⟨[glyphs ['f', '/', 'a', '.', 'r', 'b'], glyphs ['f', '/', 'b', '.', 'r', 'b']], []⟩ := by
  have hlisting : halfBroken.listing (glyphs ['f']) = .ok (halfBroken.names [['f']]) :=
    listing_of_ordered (by decide) (by decide) (by decide) (by decide)
  have hsearch : halfBroken.matchesOf (filesBelow (glyphs ['f']) ['r', 'b']) =
      [.ok (glyphs ['f', '/', 'a', '.', 'r', 'b']),
        .ok (glyphs ['f', '/', 'b', '.', 'r', 'b'])] := by
    change (halfBroken.below (165 + 1) ⟨glyphs ['f'], true⟩).flatMap _ = _
    rw [below_of_listing rfl hlisting]
    rfl
  have hpattern : Pattern.ofText (filePattern (glyphs ['f']) "rb") =
      .ok (filesBelow (glyphs ['f']) ['r', 'b']) := by rfl
  have hordered : halfBroken.inOrder (glyphs ['f'])
      [glyphs ['f', '/', 'a', '.', 'r', 'b'], glyphs ['f', '/', 'b', '.', 'r', 'b']] =
      [glyphs ['f', '/', 'a', '.', 'r', 'b'], glyphs ['f', '/', 'b', '.', 'r', 'b']] :=
    inOrder_of_ordered (by decide)
  rw [factoryFiles_of_pattern hpattern, hsearch, ← hordered]
  rfl

/-- Whatever is written over the broken file, the scan goes through the same files. -/
theorem scanDirectory_isolates_halfBroken :
    halfBroken.isDirectory (glyphs ['f']) = true ∧
    (Glob.Pattern.ofText (Disk.filePattern (glyphs ['f']) "rb")).isOk = true ∧
    ∃ files, halfBroken.factoryFiles (glyphs ['f']) "rb" = .ok files ∧
      (({} : Settings).scanDirectory rubyParser halfBroken (glyphs ['f'])).value =
        some (files.value.flatMap (({} : Settings).entriesAt rubyParser halfBroken)) ∧
      ∀ bytes, (halfBroken.put [['f'], ['a', '.', 'r', 'b']] (.file bytes)).factoryFiles
        (glyphs ['f']) "rb" = .ok files := by
  have hbase : halfBroken.isDirectory (glyphs ['f']) = true := by decide
  have hpattern : (Glob.Pattern.ofText (Disk.filePattern (glyphs ['f']) "rb")).isOk = true := by
    decide
  obtain ⟨files, hfiles, hvalue, hother⟩ :=
    scanDirectory_isolates {} rubyParser halfBroken (glyphs ['f']) hbase hpattern
  refine ⟨hbase, hpattern, files, hfiles, hvalue, ?_⟩
  intro bytes
  exact (hother _ _ (Disk.sameButFor_put halfBroken _ (by decide) [0xff] bytes (by decide))).1

end FactoryRoster
