import FactoryRoster.Declaration
import FactoryRoster.Gemfile
import FactoryRoster.Glob.Search
import FactoryRoster.Relative
import FactoryRoster.Source.Program

/-!
# Scans

Entries from a source, a file, a factory directory and a project. A scan of a directory goes through
its factory files in the order of their labels; a file that cannot be read or has no tree is left
out with a notice and does not touch the others.
-/

namespace FactoryRoster

/-- A way to get the tree of a source, which is called by the name `origin`. -/
abbrev Parser := (source origin : String) → Report (Except SourceFault Node)

def rubyParser : Parser := fun source origin =>
  match Source.parse? source with
  | some tree => ⟨.ok tree, []⟩
  | none => ⟨.error (.brokenSyntax origin), [.brokenTree origin]⟩

def parseFile (parse : Parser) (d : Disk) (p : Path) : Report (Except SourceFault Node) :=
  match d.read p with
  | .ok source => parse source p.shown
  | .error obstacle => ⟨.error (.unreadable p.shown obstacle), []⟩

namespace Settings

/-- The entries of a parsed source. -/
def collect (s : Settings) (parsed : Report (Except SourceFault Node)) :
    Report (Except SourceFault Roster) :=
  match parsed.value with
  | .ok tree =>
    let found := s.conventions.entries tree
    ⟨.ok found.value, parsed.notices ++ found.notices⟩
  | .error fault => ⟨.error fault, parsed.notices⟩

def entriesInSource (s : Settings) (parse : Parser) (source origin : String) :
    Report (Except SourceFault Roster) :=
  s.collect (parse source origin)

def entriesInFile (s : Settings) (parse : Parser) (d : Disk) (p : Path) :
    Report (Except SourceFault Roster) :=
  s.collect (parseFile parse d p)

/-- What a file contributes to the scan of a directory. -/
def contribution (s : Settings) (parse : Parser) (d : Disk) (base p : Path) :
    Report Roster :=
  let label := d.label p base
  let read := s.entriesInFile parse d p
  match read.value with
  | .ok entries => ⟨entries, read.notices ++ [.extracted entries.length label]⟩
  | .error fault => ⟨[], read.notices ++ [.skipped label fault]⟩

end Settings

namespace Disk

/-- The pattern of the factory files below a directory; the directory is taken as it is written,
the extension as a pattern. -/
def filePattern (base : Path) (extension : String) : List Char :=
  Glob.escape (shownText base) ++ ['/', '*', '*', '/', '*', '.'] ++ extension.toList

/-- The place of a file in the order of a scan: by label, and then by path. -/
def rank (d : Disk) (base p : Path) : List Char × List (List Nat) :=
  ((d.label p base).toList, Path.code p)

/-- Whether the first rank comes no later than the second. -/
def rankLE (a b : List Char × List (List Nat)) : Bool :=
  decide (a.1 < b.1) || (a.1 == b.1 && !decide (b.2 < a.2))

/-- Paths in the order of a scan. -/
def inOrder (d : Disk) (base : Path) (paths : List Path) : List Path :=
  ((paths.map fun p => (d.rank base p, p)).mergeSort fun a b => rankLE a.1 b.1).map Prod.snd

def refusalNotice (refusal : Refusal) : Notice :=
  .unlisted refusal.1.shown refusal.2

/-- The factory files below a directory, and which directories are passed over on the way. -/
def factoryFiles (d : Disk) (base : Path) (extension : String) :
    Except Glob.Fault (Report (List Path)) := do
  let pattern ← Glob.Pattern.ofText (filePattern base extension)
  let sights := d.matchesOf pattern
  .ok ⟨d.inOrder base ((foundIn sights).filter d.isFile),
    (refusedIn sights).map refusalNotice⟩

/-- Whether the Gemfile of a project declares a gem or a companion of it. A project without a
Gemfile that can be read declares none. -/
def declaresGem (d : Disk) (root : Path) (gem : String) : Report Bool :=
  let gemfile := Path.join root (Path.ofText "Gemfile")
  match d.read gemfile with
  | .ok content => ⟨Gemfile.declares content gem, []⟩
  | .error _ => ⟨false, [.noGemfile gemfile.shown]⟩

end Disk

namespace Settings

/-- What is said of the file extension before a scan. -/
def extensionNotices (s : Settings) : List Notice :=
  if (Language.ofExtension? s.extension).isSome then [] else [.foreignExtension s.extension]

/-- The entries of the factory files below a directory, if it is a directory. -/
def scanDirectory (s : Settings) (parse : Parser) (d : Disk) (base : Path) :
    Report (Option Roster) :=
  if !d.isDirectory base then ⟨none, [.noDirectory base.shown]⟩
  else
    match d.factoryFiles base s.extension with
    | .error fault => ⟨some [], s.extensionNotices ++ [.patternRefused base.shown fault]⟩
    | .ok files =>
      let found := Report.join (files.value.map (s.contribution parse d base))
      ⟨some found.value,
        s.extensionNotices ++ files.notices ++ found.notices ++
          [.loaded found.value.length files.value.length base.shown]⟩

/-- The entries of a project, if its Gemfile declares the gem and it has a factory directory. -/
def scanProject (s : Settings) (parse : Parser) (d : Disk) (root : Path) :
    Report (Option Roster) :=
  let declared := d.declaresGem root s.gem
  if declared.value then
    (s.scanDirectory parse d (Path.join root (Path.ofText s.directory))).after declared.notices
  else
    ⟨none, declared.notices ++ [.notDeclared root.shown s.gem]⟩

end Settings

end FactoryRoster
