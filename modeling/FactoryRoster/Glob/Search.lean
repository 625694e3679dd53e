import FactoryRoster.Disk.Basic
import FactoryRoster.Glob.Pattern

/-!
# Searching a disk

A pattern is cut at its slashes into steps. A step without wildcards goes to one path, a step with
wildcards to the entries of a directory that match it, and a step after `**` to the matching
entries at any depth below a directory. Links are followed everywhere. Paths are written as they
are found, so that a name is never changed. A directory whose names are not given is passed over,
and the search says so.
-/

namespace FactoryRoster.Glob

inductive Step where
  /-- To the entry of that name, or to `.` or `..`. -/
  | name (text : List Char)
  /-- To the matching entries. -/
  | entries (tokens : List Token)
  /-- To the matching entries at any depth. -/
  | deepEntries (tokens : List Token)
  /-- To the directories at any depth. -/
  | deepDirectories
  deriving DecidableEq, Repr

/-- The name that tokens without wildcards write. -/
def literal? (ts : List Token) : Option (List Char) :=
  ts.mapM fun
    | .char c => some c
    | _ => none

/-- The steps of components; `deep` says whether `**` comes before the first of them. -/
def steps : (deep : Bool) → List (List Token) → List Step
  | false, [] => []
  | true, [] => [.deepDirectories]
  | deep, ts :: rest =>
    if ts = [.deep] then steps true rest
    else if deep then .deepEntries ts :: steps false rest
    else match literal? ts with
      | some text => .name text :: steps false rest
      | none => .entries ts :: steps false rest

/-- The parts of a text between slashes. -/
def splitSlashes : List Char → List (List Char)
  | [] => [[]]
  | c :: cs =>
    if c = '/' then [] :: splitSlashes cs
    else match splitSlashes cs with
      | [] => [[c]]
      | s :: ss => (c :: s) :: ss

/-- The parts of a text that end at a slash or at the end; nothing comes after a last slash. -/
def splitTerminated (text : List Char) : List (List Char) :=
  let parts := splitSlashes text
  if parts.getLast? = some [] then parts.dropLast else parts

/-- A pattern for paths. -/
structure Pattern where
  absolute : Bool
  /-- Only directories are found. -/
  directories : Bool
  steps : List Step
  deriving Repr

/-- The pattern that a text writes. -/
def Pattern.ofText (text : List Char) : Except Fault Pattern := do
  let _ ← tokens text
  let absolute := text.head? == some '/'
  let parts ← (splitTerminated (if absolute then text.drop 1 else text)).mapM tokens
  .ok ⟨absolute, text.getLast? == some '/', Glob.steps false parts⟩

/-- Whether a name matches tokens. A name that is no text matches none. -/
def matchesGlyphs (ts : List Token) (name : List Glyph) : Bool :=
  (text? name).any (matchesName ts)

end Glob

namespace Disk

open Glob

/-- A path whose names a search is not given, and why. -/
abbrev Refusal := Path × Obstacle

/-- A path that is searched from, and whether the search takes it for a directory. -/
structure Spot where
  path : Path
  directory : Bool
  deriving DecidableEq, Repr

/-- What a search comes upon: a path that it finds, or one whose names it is not given. -/
abbrev Sight := Except Refusal Path

def foundIn (sights : List Sight) : List Path :=
  sights.filterMap fun
    | .ok p => some p
    | .error _ => none

def refusedIn (sights : List Sight) : List Refusal :=
  sights.filterMap fun
    | .ok _ => none
    | .error refusal => some refusal

def spot (d : Disk) (p : Path) : Spot :=
  ⟨p, d.isDirectory p⟩

/-- The spot of an entry of the directory that a path leads to. A directory among the entries is
taken for one though its path may be too long to lead there; a link is followed. -/
def entrySpot (d : Disk) (p : Path) (name : List Glyph) : Spot :=
  let entry := Path.entry p name
  match (d.resolve p).toOption.bind fun place => d.item? (place ++ [name]) with
  | some .directory => ⟨entry, true⟩
  | some (.link _) => d.spot entry
  | _ => ⟨entry, false⟩

/-- What is come upon in the directory of a spot, if it is one. -/
def inListing {α : Type} (d : Disk) (s : Spot)
    (visit : List (List Glyph) → List (Except Refusal α)) : List (Except Refusal α) :=
  if s.directory then
    match d.listing s.path with
    | .ok names => visit names
    | .error obstacle => [.error (s.path, obstacle)]
  else []

/-- The entries at any depth below a spot with their names, each before what is below it. -/
def below (d : Disk) : (depth : Nat) → Spot → List (Except Refusal (List Glyph × Spot))
  | 0, _ => []
  | depth + 1, s =>
    d.inListing s fun names => names.flatMap fun name =>
      let entry := d.entrySpot s.path name
      .ok (name, entry) :: below d depth entry

/-- A depth below which nothing is: between two links, a way leads through each directory at most
once, and the last of them may be one that is not listed. -/
def greatestDepth (d : Disk) : Nat :=
  (linkLimit + 1) * (d.items.length + 1) + 2

/-- The special entries `.` and `..`, which tokens match that begin with a dot. -/
def specialNames (ts : List Token) : List (List Glyph) :=
  if ts.head? = some (.char '.') then [Path.here, Path.above].filter (matchesGlyphs ts) else []

/-- What is come upon from an entry, if it is one that is asked for. -/
def onward (asked : List Glyph → Spot → Bool) (goOn : Spot → List Sight) :
    Except Refusal (List Glyph × Spot) → List Sight
  | .ok (name, entry) => if asked name entry then goOn entry else []
  | .error refusal => [.error refusal]

/-- What steps come upon from a spot. -/
def search (d : Disk) (directories : Bool) : List Step → Spot → List Sight
  | [], s => if !directories || s.directory then [.ok s.path] else []
  | .name text :: rest, s =>
    let next := Path.entry s.path (glyphs text)
    let found :=
      if text = ['.'] || text = ['.', '.'] then s.directory else d.exists? next
    if found then search d directories rest (d.spot next) else []
  | .entries ts :: rest, s =>
    d.inListing s fun names =>
      ((specialNames ts).reverse.flatMap fun name =>
        search d directories rest (d.spot (Path.join s.path name))) ++
      (names.filter (matchesGlyphs ts)).flatMap fun name =>
        search d directories rest (d.entrySpot s.path name)
  | .deepEntries ts :: rest, s =>
    (d.below d.greatestDepth s).flatMap
      (onward (fun name _ => matchesGlyphs ts name) (search d directories rest))
  | .deepDirectories :: rest, s =>
    (d.below d.greatestDepth s).flatMap
      (onward (fun _ entry => entry.directory) (search d directories rest))

/-- What a pattern comes upon. -/
def matchesOf (d : Disk) (p : Pattern) : List Sight :=
  if p.steps.isEmpty then []
  else d.search p.directories p.steps (d.spot (if p.absolute then [Path.slash] else Path.here))

end Disk

end FactoryRoster
