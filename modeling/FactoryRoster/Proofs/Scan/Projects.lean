import FactoryRoster.Proofs.Disk.Frames
import FactoryRoster.Proofs.Scan.Isolation

/-!
# Projects with and without an answer

A scan of a project has an answer if the Gemfile declares the gem and the factory directory is
there, and the answer is then that of the directory, be it an empty one. No factory file has a say
in whether there is an answer: only the Gemfile, and the directories and links on the way, do.
-/

namespace FactoryRoster

namespace Gemfile

variable {gem name content : String}

/-- The gem that is asked for, and those whose names go on from its name after a mark. -/
def InFamily (gem name : String) : Prop :=
  name = gem ∨ ∃ mark rest, (mark = '_' ∨ mark = '-') ∧ name.toList = gem.toList ++ mark :: rest

theorem isFamily_eq_true : isFamily gem name = true ↔ InFamily gem name := by
  rw [isFamily, Bool.or_eq_true, beq_iff_eq, Bool.and_eq_true, List.isPrefixOf_iff_prefix]
  refine or_congr_right ⟨?_, ?_⟩
  · rintro ⟨⟨rest, hname⟩, hmark⟩
    rw [← hname, List.drop_left] at hmark
    cases rest with
    | nil => cases hmark
    | cons mark rest =>
        have hmark' : mark = '_' ∨ mark = '-' := by simpa using hmark
        exact ⟨mark, rest, hmark', hname.symm⟩
  · rintro ⟨mark, rest, hmark, hname⟩
    rw [hname, List.drop_left]
    exact ⟨List.prefix_append _ _, by simpa using hmark⟩

theorem declares_eq_true :
    declares content gem = true ↔ ∃ name ∈ gems content, InFamily gem name := by
  simp only [declares, List.any_eq_true, isFamily_eq_true]

end Gemfile

namespace Settings

/-- The Gemfile of a project. -/
def gemfile (root : Path) : Path :=
  Path.join root (Path.ofText "Gemfile")

/-- The factory directory of a project. -/
def factories (s : Settings) (root : Path) : Path :=
  Path.join root (Path.ofText s.directory)

/-- A project with a Gemfile that declares the gem, and with a factory directory. -/
structure Applies (s : Settings) (d : Disk) (root : Path) : Prop where
  declared : ∃ content, d.read (gemfile root) = .ok content ∧
    ∃ name ∈ Gemfile.gems content, Gemfile.InFamily s.gem name
  directory : d.isDirectory (s.factories root) = true

variable (s : Settings) (parse : Parser) (d : Disk)

theorem declaresGem_value_eq_true {root : Path} {gem : String} :
    (d.declaresGem root gem).value = true ↔ ∃ content, d.read (gemfile root) = .ok content ∧
      ∃ name ∈ Gemfile.gems content, Gemfile.InFamily gem name := by
  rw [Disk.declaresGem, ← gemfile]
  cases d.read (gemfile root) with
  | error obstacle => simp
  | ok content => simp [Gemfile.declares_eq_true]

theorem scanDirectory_isSome (base : Path) :
    (s.scanDirectory parse d base).value.isSome = d.isDirectory base := by
  unfold scanDirectory
  cases d.isDirectory base with
  | false => rfl
  | true => cases d.factoryFiles base s.extension <;> rfl

/-- A directory has an empty answer if no file of it yields an entry. -/
theorem scanDirectory_eq_nil {base : Path} (hbase : d.isDirectory base = true) :
    (s.scanDirectory parse d base).value = some [] ↔
      ∀ files, d.factoryFiles base s.extension = .ok files →
        ∀ p ∈ files.value, s.entriesAt parse d p = [] := by
  cases hfiles : d.factoryFiles base s.extension with
  | error fault => simp [scanDirectory, hbase, hfiles]
  | ok files =>
      rw [s.scanDirectory_of_files parse d base hbase hfiles]
      simp [contribution_value]

theorem scanProject_isSome (root : Path) :
    (s.scanProject parse d root).value.isSome = true ↔ s.Applies d root := by
  rw [scanProject_value]
  split
  · rename_i hdeclared
    rw [scanDirectory_isSome]
    exact ⟨fun hdirectory => ⟨(declaresGem_value_eq_true d).mp hdeclared, hdirectory⟩,
      fun h => h.directory⟩
  · rename_i hdeclared
    refine ⟨fun h => absurd h (by simp), fun h => ?_⟩
    exact absurd ((declaresGem_value_eq_true d).mpr h.declared) hdeclared

variable {s d}

theorem Applies.scanProject_value {root : Path} (h : s.Applies d root) :
    (s.scanProject parse d root).value = (s.scanDirectory parse d (s.factories root)).value := by
  rw [Settings.scanProject_value, if_pos ((declaresGem_value_eq_true d).mpr h.declared)]
  rfl

/-- What a project needs for an answer is found in its Gemfile and its factory directory alone. -/
theorem Applies.congr {e : Disk} {root : Path}
    (hgemfile : ∀ content,
      d.read (gemfile root) = .ok content ↔ e.read (gemfile root) = .ok content)
    (hdirectory : d.isDirectory (s.factories root) = e.isDirectory (s.factories root)) :
    s.Applies d root ↔ s.Applies e root := by
  constructor
  · rintro ⟨⟨content, hread, hdeclared⟩, hd⟩
    exact ⟨⟨content, (hgemfile content).mp hread, hdeclared⟩, hdirectory ▸ hd⟩
  · rintro ⟨⟨content, hread, hdeclared⟩, he⟩
    exact ⟨⟨content, (hgemfile content).mpr hread, hdeclared⟩, hdirectory ▸ he⟩

end Settings

/-- A project has an answer exactly if its Gemfile declares the gem and it has a factory directory,
and it is then the answer of that directory, which is empty exactly if no file yields an entry. Two
disks on which the Gemfile reads the same and the factory directory is there or not on both have an
answer for the same projects, whatever else they hold and by any parsers. So have disks that differ
only in their files, if they hold the same wherever the Gemfile leads. -/
theorem scanProject_answers (s : Settings) (parse : Parser) (d : Disk) (root : Path) :
    ((s.scanProject parse d root).value.isSome = true ↔ s.Applies d root) ∧
    (s.Applies d root →
      (s.scanProject parse d root).value = (s.scanDirectory parse d (s.factories root)).value ∧
      ((s.scanProject parse d root).value = some [] ↔
        ∀ files, d.factoryFiles (s.factories root) s.extension = .ok files →
          ∀ p ∈ files.value, s.entriesAt parse d p = [])) ∧
    (∀ (other : Parser) (e : Disk),
      (∀ content, d.read (Settings.gemfile root) = .ok content ↔
        e.read (Settings.gemfile root) = .ok content) →
      d.isDirectory (s.factories root) = e.isDirectory (s.factories root) →
      (s.scanProject other e root).value.isSome = (s.scanProject parse d root).value.isSome) ∧
    ∀ (other : Parser) (e : Disk), Disk.SameFrame d e →
      (∀ q, d.resolve (Settings.gemfile root) = .ok q ∨
        e.resolve (Settings.gemfile root) = .ok q → d.SameAt e q) →
      (s.scanProject other e root).value.isSome = (s.scanProject parse d root).value.isSome := by
  refine ⟨s.scanProject_isSome parse d root, ?_, ?_, ?_⟩
  · intro happlies
    have hvalue := happlies.scanProject_value parse
    refine ⟨hvalue, ?_⟩
    rw [hvalue]
    exact s.scanDirectory_eq_nil parse d happlies.directory
  · intro other e hgemfile hdirectory
    rw [Bool.eq_iff_iff, s.scanProject_isSome, s.scanProject_isSome]
    exact (Settings.Applies.congr hgemfile hdirectory).symm
  · intro other e hframe hitem
    rw [Bool.eq_iff_iff, s.scanProject_isSome, s.scanProject_isSome]
    refine (Settings.Applies.congr (fun content => ⟨?_, ?_⟩) (hframe.isDirectory_eq _)).symm
    · exact hframe.read_of_read fun q hq => hitem q (.inl hq)
    · exact hframe.symm.read_of_read fun q hq => (hitem q (.inr hq)).symm

/-- A project that bundles a companion of the gem and has one factory file, which is no text. -/
def bundled : Disk where
  items :=
    [([['G', 'e', 'm', 'f', 'i', 'l', 'e']],
        .file (Utf8.encode "gem 'factory_bot_rails'".toList)),
      ([['s', 'p', 'e', 'c']], .directory),
      ([['s', 'p', 'e', 'c'], ['f', 'a', 'c', 't', 'o', 'r', 'i', 'e', 's']], .directory),
      ([['s', 'p', 'e', 'c'], ['f', 'a', 'c', 't', 'o', 'r', 'i', 'e', 's'], ['a', '.', 'r', 'b']],
        .file [0xff])]

/-- The answer is empty, and whatever the file is overwritten with, there is one. -/
theorem scanProject_answers_bundled :
    ({} : Settings).Applies bundled (glyphs ['.']) ∧
    (({} : Settings).scanProject rubyParser bundled (glyphs ['.'])).value = some [] ∧
    ∀ (other : Parser) (bytes : List UInt8),
      (({} : Settings).scanProject other
        (bundled.put [['s', 'p', 'e', 'c'], ['f', 'a', 'c', 't', 'o', 'r', 'i', 'e', 's'],
          ['a', '.', 'r', 'b']] (.file bytes)) (glyphs ['.'])).value.isSome = true := by
  obtain ⟨hsome, hvalue, -, hframe⟩ :=
    scanProject_answers {} rubyParser bundled (glyphs ['.'])
  have happlies : ({} : Settings).Applies bundled (glyphs ['.']) := by
    refine ⟨⟨"gem 'factory_bot_rails'", by rfl, "factory_bot_rails", by decide, ?_⟩, by decide⟩
    exact .inr ⟨'_', ['r', 'a', 'i', 'l', 's'], .inl rfl, by decide⟩
  refine ⟨happlies, ?_, ?_⟩
  · rw [(hvalue happlies).2]
    intro files hfiles p hp
    have hfile : bundled.factoryFiles (({} : Settings).factories (glyphs ['.'])) "rb" =
        .ok ⟨[glyphs "spec/factories/a.rb".toList], []⟩ := by decide +kernel
    obtain rfl := Except.ok.inj (hfile.symm.trans hfiles)
    obtain rfl := List.mem_singleton.mp hp
    rfl
  · intro other bytes
    have hsame := Disk.sameButFor_put bundled [['s', 'p', 'e', 'c'],
      ['f', 'a', 'c', 't', 'o', 'r', 'i', 'e', 's'], ['a', '.', 'r', 'b']] (by decide) [0xff] bytes
      (by decide)
    rw [hframe other _ hsame.sameFrame ?_]
    · exact hsome.mpr happlies
    · intro q hq
      have hgemfile : bundled.resolve (Settings.gemfile (glyphs ['.'])) =
          .ok [['G', 'e', 'm', 'f', 'i', 'l', 'e']] := by decide
      rw [← hsame.resolve_eq, or_self, hgemfile] at hq
      obtain rfl := Except.ok.inj hq
      exact ⟨hsame.elsewhere _ (by decide), by rw [hsame.closed]⟩

end FactoryRoster
