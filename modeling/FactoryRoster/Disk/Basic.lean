import FactoryRoster.Path

/-!
# Disks

A disk holds files, directories and symbolic links, each at a `Place`: the names that lead to it
from the root. A name is any sequence of glyphs, be it text or not. What a path leads to is found
segment by segment (`Disk.resolve`), with every link on the way followed, up to forty of them.
-/

namespace FactoryRoster

/-- Why a path does not lead to what is asked for. -/
inductive Obstacle where
  | missing
  | notDirectory
  | isDirectory
  | nameTooLong
  | tooManyLinks
  /-- The path has a NUL character in it. -/
  | nulInPath
  /-- What is at the place may not be read. -/
  | notPermitted
  /-- The bytes of a file are no text. -/
  | notText
  deriving DecidableEq, Repr

/-- What is said of an obstacle. -/
def Obstacle.message : Obstacle → String
  | missing => "No such file or directory (os error 2)"
  | notDirectory => "Not a directory (os error 20)"
  | isDirectory => "Is a directory (os error 21)"
  | nameTooLong => "File name too long (os error 36)"
  | tooManyLinks => "Too many levels of symbolic links (os error 40)"
  | nulInPath => "file name contained an unexpected NUL byte"
  | notPermitted => "Permission denied (os error 13)"
  | notText => "stream did not contain valid UTF-8"

/-- Where something is: the names that lead to it from the root. -/
abbrev Place := List (List Glyph)

/-- What may be at a place. -/
inductive Item where
  | file (bytes : List UInt8)
  | directory
  | link (target : Path)
  deriving DecidableEq, Repr

/-- A disk, seen from a directory on it. The root is a directory and not listed. -/
structure Disk where
  items : List (Place × Item) := []
  /-- The directory from which paths are read. -/
  current : Place := []
  /-- The files that may not be read, and the directories whose names may not. -/
  closed : List Place := []
  deriving Repr

namespace Disk

/-- How many links may be followed on the way of a path. -/
def linkLimit : Nat := 40

def nameLimit : Nat := 255

/-- The number of bytes that a path has to stay below. -/
def pathLimit : Nat := 4096

def item? (d : Disk) (place : Place) : Option Item :=
  if place = [] then some .directory else d.items.lookup place

def names (d : Disk) (place : Place) : List (List Glyph) :=
  d.items.filterMap fun (p, _) => if p ≠ [] ∧ p.dropLast = place then p.getLast? else none

/-- Where the reading of a path starts. -/
def start (d : Disk) (p : Path) : Place :=
  if Path.isAbsolute p then [] else d.current

/-- Follows segments from a place. At a link, `follow` goes on with what the link says and what is
left; with `last` false, a link at the very end is not followed. -/
def walk (d : Disk) (last : Bool)
    (follow : Place → Path → List (List Glyph) → Except Obstacle Place) :
    Place → List (List Glyph) → Except Obstacle Place
  | place, [] => .ok place
  | place, s :: rest =>
    if d.item? place ≠ some .directory then .error .notDirectory
    else if Path.isIdle s then walk d last follow place rest
    else if s = Path.above then walk d last follow place.dropLast rest
    else if Path.size s > nameLimit then .error .nameTooLong
    else match d.item? (place ++ [s]) with
      | none => .error .missing
      | some (.link target) =>
        if rest.isEmpty && !last then .ok (place ++ [s]) else follow place target rest
      | some _ => walk d last follow (place ++ [s]) rest

/-- Follows segments from a place, and as many links as are allowed. -/
def resolveFrom (d : Disk) (last : Bool) :
    (links : Nat) → Place → List (List Glyph) → Except Obstacle Place
  | 0 => walk d last fun _ _ _ => .error .tooManyLinks
  | links + 1 => walk d last fun place target rest =>
    resolveFrom d last links (if Path.isAbsolute target then [] else place)
      (Path.segments target ++ rest)

/-- Where a path leads. With `last` false, a link at its very end is not followed. -/
def resolve (d : Disk) (p : Path) (last : Bool := true) : Except Obstacle Place :=
  if p.contains (.char '\x00') then .error .nulInPath
  else if p.isEmpty then .error .missing
  else if Path.size p ≥ pathLimit then .error .nameTooLong
  else resolveFrom d last linkLimit (d.start p) (Path.segments p)

def itemAt? (d : Disk) (p : Path) : Option Item :=
  match d.resolve p with
  | .ok place => d.item? place
  | .error _ => none

def isDirectory (d : Disk) (p : Path) : Bool :=
  match d.itemAt? p with
  | some .directory => true
  | _ => false

def isFile (d : Disk) (p : Path) : Bool :=
  match d.itemAt? p with
  | some (.file _) => true
  | _ => false

/-- Whether there is anything at a path, be it a link that leads nowhere. -/
def exists? (d : Disk) (p : Path) : Bool :=
  (d.resolve p false).isOk

def placePath (place : Place) : Path :=
  Path.slash :: Path.ofSegments place

/-- The path from the root, without links, to where a path leads. -/
def canonical (d : Disk) (p : Path) : Except Obstacle Path :=
  (d.resolve p).map placePath

def bytes (d : Disk) (p : Path) : Except Obstacle (List UInt8) := do
  let place ← d.resolve p
  if d.closed.contains place then .error .notPermitted
  else match d.item? place with
    | some (.file bytes) => .ok bytes
    | some _ => .error .isDirectory
    | none => .error .missing

/-- The names in the directory that a path leads to, in the order of their bytes. -/
def listing (d : Disk) (p : Path) : Except Obstacle (List (List Glyph)) := do
  let place ← d.resolve p
  if d.item? place ≠ some .directory then .error .notDirectory
  else if d.closed.contains place then .error .notPermitted
  else .ok ((d.names place).mergeSort fun x y => !decide (Utf8.bytes y < Utf8.bytes x))

def read (d : Disk) (p : Path) : Except Obstacle String := do
  match text? (Utf8.decode (← d.bytes p)) with
  | some text => .ok (String.ofList text)
  | none => .error .notText

end Disk

end FactoryRoster
