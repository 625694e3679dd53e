import FactoryRoster.Proofs.Disk.Texts
import FactoryRoster.Proofs.Scan.Written

/-!
# The files that a scan goes through

Whatever characters a directory's path has, a scan goes through the files below the directory whose
names end in a dot and the extension: through all of them to which directories lead that give their
names, each once, and through nothing else. Only a path by which the search does not get to the
directory has no files (`Disk.Searchable`).
-/

namespace FactoryRoster

namespace Disk

open Glob FactoryRoster.Path

/-- A walk to an entry whose name ends in a dot and an extension. -/
structure Ends (extension : List Char) (w : Walk) : Prop where
  nonempty : w ≠ []
  names : ∀ x ∈ w, IsName x
  ending : EndsIn extension (w.getLastD [])

/-- Whether a path spells a walk below a directory: its components are the directory's, but for a
dot at the front, and the names of the walk. -/
def Spells (base : Path) (w : Walk) (p : Path) : Prop :=
  components p = (components base).filter (· ≠ .here) ++ w.map .name

/-- The files below a directory whose names end in an extension: all of them to which directories
lead that give their names, none twice and nothing else. A directory's path and a walk that are
together too long for a path lead nowhere. -/
structure Enumerates (d : Disk) (base : Path) (extension : List Char) (files : List Path) :
    Prop where
  nodup : (files.map components).Nodup
  sound : ∀ p ∈ files, d.isFile p = true ∧ ∃ w, Ends extension w ∧ Spells base w p ∧
    (size (written base w) < pathLimit → d.resolve p = d.resolve (written base w))
  complete : ∀ w, Ends extension w → d.isFile (written base w) = true →
    (∀ v, v <+: w → v ≠ w → d.Lists (written base v)) →
    ∃ p ∈ files, Spells base w p ∧ d.resolve p = d.resolve (written base w)

variable {d : Disk} {base : Path} {extension : List Char} {walks : List Walk}

theorem IsFileWalk.ends {w : Walk} (h : d.IsFileWalk base extension w) : Ends extension w where
  nonempty := h.nonempty
  names := h.names
  ending := h.ending

theorem nodup_components (hmoves : ¬ Stalled base) (hnodup : walks.Nodup)
    (hwalks : ∀ w ∈ walks, d.IsFileWalk base extension w) :
    ((walks.map (reached base)).map components).Nodup := by
  rw [List.map_map]
  apply hnodup.map_on
  intro v hv w hw h
  change components (reached base v) = components (reached base w) at h
  have hv' := hwalks v hv
  have hw' := hwalks w hw
  rw [components_reached hv'.nonempty hv'.names hmoves,
    components_reached hw'.nonempty hw'.names hmoves] at h
  exact List.map_injective_iff.mpr name_injective (List.append_cancel_left h)

section Directory

variable {place : Place} (hplace : d.resolve base = .ok place)
  (hdirectory : d.item? place = some .directory) (hmoves : ¬ Stalled base)

include hplace hdirectory hmoves

/-- What leads somewhere as it is written leads there by the path that it is found by. -/
theorem resolve_reached {w : Walk} (hnames : ∀ x ∈ w, IsName x) {goal : Place}
    (h : d.resolve (written base w) = .ok goal) : d.resolve (reached base w) = .ok goal := by
  have hleads := leads_of_base hplace hdirectory hmoves
  by_cases hw : w = []
  · subst hw
    rw [written_nil, hplace] at h
    rw [← Except.ok.inj h]
    exact hleads.resolve_along
  · have hbase : base ≠ [] := (Fits.of_resolve hplace).nonempty
    have hwritten := Fits.of_resolve h
    have hreached := fits_reached hw hnames hbase hleads.along.fits hwritten
    rw [← resolve_written hw hnames hbase hwritten hreached, h]

theorem lists_reached {w : Walk} (hnames : ∀ x ∈ w, IsName x) (h : d.Lists (written base w)) :
    d.Lists (reached base w) := by
  obtain ⟨goal, hgoal, hlists⟩ := h
  exact ⟨goal, resolve_reached hplace hdirectory hmoves hnames hgoal, hlists⟩

theorem enumerates_of_walks (hnodup : walks.Nodup)
    (hwalks : ∀ w, w ∈ walks ↔ d.IsFileWalk base extension w) :
    d.Enumerates base extension (walks.map (reached base)) := by
  have hfits : Fits base := Fits.of_resolve hplace
  constructor
  · exact nodup_components hmoves hnodup fun w hw => (hwalks w).mp hw
  · intro p hp
    obtain ⟨w, hw, rfl⟩ := List.mem_map.mp hp
    have hwalk := (hwalks w).mp hw
    refine ⟨hwalk.file, w, hwalk.ends, ?_, ?_⟩
    · exact components_reached hwalk.nonempty hwalk.names hmoves
    · intro hshort
      obtain ⟨goal, bytes, hgoal, -⟩ := isFile_eq_true.mp hwalk.file
      have hreached : Fits (reached base w) := Fits.of_resolve hgoal
      have hwritten := fits_written hwalk.nonempty hwalk.names hfits hreached hshort
      exact (resolve_written hwalk.nonempty hwalk.names hfits.nonempty hwritten hreached).symm
  · intro w hw hfile hlists
    obtain ⟨goal, bytes, hgoal, hitem⟩ := isFile_eq_true.mp hfile
    have hsame := resolve_reached hplace hdirectory hmoves hw.names hgoal
    have hwalk : d.IsFileWalk base extension w := by
      refine ⟨hw.nonempty, hw.names, hw.ending, fun v hv hne => ?_, ?_⟩
      · have hnames : ∀ x ∈ v, IsName x := fun x hx => hw.names x (hv.subset hx)
        exact lists_reached hplace hdirectory hmoves hnames (hlists v hv hne)
      · exact isFile_eq_true.mpr ⟨goal, bytes, hsame, hitem⟩
    refine ⟨reached base w, List.mem_map_of_mem ((hwalks w).mpr hwalk), ?_, hsame.trans hgoal.symm⟩
    exact components_reached hw.nonempty hw.names hmoves

end Directory

end Disk

open Disk Glob

/-- For every directory whose path is a text and every extension that is taken as it is written, the
pattern of the factory files is accepted, and the paths that it gives are those of the files below
the directory, unless the search does not get to the directory by its path. -/
theorem factoryFiles_enumerate {d : Disk} (hd : d.Tidy) {base : Path}
    (hbase : d.isDirectory base = true) (htext : ∃ text, base = glyphs text) {extension : String}
    (hextension : IsLiteral extension.toList) :
    (∃ pattern, Pattern.ofText (filePattern base extension) = .ok pattern) ∧
    ∃ files, d.factoryFiles base extension = .ok files ∧
      if d.Searchable base then d.Enumerates base extension.toList files.value
      else files.value = [] := by
  obtain ⟨place, hplace, hdirectory⟩ := isDirectory_eq_true.mp hbase
  have hnonempty : base ≠ [] := (Fits.of_resolve hplace).nonempty
  obtain ⟨walks, notices, hperm, -, hfiles⟩ := exists_ordered hd hbase htext hextension
  refine ⟨⟨_, ofText_filePattern hnonempty hextension⟩, _, hfiles, ?_⟩
  split
  · rename_i hsearchable
    apply enumerates_of_walks hplace hdirectory hsearchable.moves
    · exact hperm.nodup_iff.mpr (hd.nodup_fileWalks _ _)
    · intro w
      rw [hperm.mem_iff, mem_fileWalks hd hbase]
      exact and_iff_right hsearchable
  · rename_i hsearchable
    rw [fileWalks, if_neg hsearchable, List.perm_nil] at hperm
    rw [hperm]
    rfl

/-- A directory whose name is a pattern that its neighbour matches, with a hidden file, a directory
with the name of a file, a link to it and a link to nothing. -/
def wildcards : Disk where
  items :=
    [([['[', 'a', ']', '*']], .directory),
      ([['[', 'a', ']', '*'], ['.', 'r', 'b']], .file []),
      ([['[', 'a', ']', '*'], ['d', '.', 'r', 'b']], .directory),
      ([['[', 'a', ']', '*'], ['d', '.', 'r', 'b'], ['y', '.', 'r', 'b']], .file []),
      ([['[', 'a', ']', '*'], ['l']], .link ['d', '.', 'r', 'b']),
      ([['[', 'a', ']', '*'], ['n', '.', 'r', 'b']], .link ['n', 'o', 'n', 'e']),
      ([['a', 'b']], .directory), ([['a', 'b'], ['z', '.', 'r', 'b']], .file [])]

/-- The walk to the file by way of the link. -/
def throughLink : Walk := [['l'], ['y', '.', 'r', 'b']]

/-- The file that is found through the link leads to the file in the directory. -/
theorem factoryFiles_enumerate_wildcards :
    wildcards.Tidy ∧ wildcards.isDirectory (glyphs ['[', 'a', ']', '*']) = true ∧
    IsLiteral "rb".toList ∧
    ∃ files, wildcards.factoryFiles (glyphs ['[', 'a', ']', '*']) "rb" = .ok files ∧
      wildcards.Enumerates (glyphs ['[', 'a', ']', '*']) "rb".toList files.value ∧
      ∃ p ∈ files.value, Spells (glyphs ['[', 'a', ']', '*']) throughLink p ∧
        wildcards.resolve p =
          .ok [['[', 'a', ']', '*'], ['d', '.', 'r', 'b'], ['y', '.', 'r', 'b']] := by
  have htidy : wildcards.Tidy := by decide
  have hbase : wildcards.isDirectory (glyphs ['[', 'a', ']', '*']) = true := by decide
  have hextension : IsLiteral "rb".toList := ⟨by decide, by decide, by decide, by decide⟩
  obtain ⟨-, files, hfiles, henumerates⟩ :=
    factoryFiles_enumerate htidy hbase ⟨_, rfl⟩ hextension
  rw [if_pos (by decide)] at henumerates
  have hends : Ends "rb".toList throughLink := ⟨by decide, by decide, by decide⟩
  have hlists : ∀ v ∈ throughLink.inits, v ≠ throughLink →
      wildcards.Lists (written (glyphs ['[', 'a', ']', '*']) v) := by decide
  obtain ⟨p, hp, hspells, hresolve⟩ := henumerates.complete _ hends (by decide)
    fun v hv => hlists v ((List.mem_inits v _).mpr hv)
  refine ⟨htidy, hbase, hextension, files, hfiles, henumerates, p, hp, hspells, ?_⟩
  rw [hresolve]
  decide

/-- Of a dot with a slash nothing is left to search from. -/
example : wildcards.factoryFiles (glyphs ['.', '/']) "rb" = .ok ⟨[], []⟩ := by
  cbv

end FactoryRoster
