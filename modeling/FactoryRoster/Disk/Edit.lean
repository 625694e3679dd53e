import FactoryRoster.Disk.Basic

/-!
# Changing a disk

Writing files, making directories and links, and removing what is at a path. Each change gives the
disk after it and whether it could be made; directories on the way to a new item are made where
they are missing, and stay if the item itself cannot be made.
-/

namespace FactoryRoster.Disk

/-- A disk after a change, and whether the change could be made. -/
abbrev Change := Disk × Bool

/-- The disk with `item` at a place, in place of what was there. What is new in a directory comes
after what has been there. -/
def put (d : Disk) (place : Place) (item : Item) : Disk :=
  if (d.items.lookup place).isSome then
    { d with items := d.items.map fun (q, old) => (q, if q = place then item else old) }
  else { d with items := d.items ++ [(place, item)] }

/-- The place of the item at a path that ends in a name, if its directory exists. -/
def placeOf? (d : Disk) (p : Path) : Option Place :=
  match (Path.segments p).reverse with
  | [] => none
  | s :: front =>
    if Path.isIdle s || s = Path.above then none
    else if Path.size s > nameLimit || Path.size p ≥ pathLimit then none
    else if p.contains (.char '\x00') then none
    else
      let parent := if front.isEmpty then Path.here else Path.ofSegments ([] :: front).reverse
      match d.resolve parent with
      | .ok place => if d.item? place = some .directory then some (place ++ [s]) else none
      | .error _ => none

/-- Makes a directory at each of the paths where there is none, as far as that can be done. -/
def makeEach (d : Disk) : List Path → Change
  | [] => (d, true)
  | p :: ps =>
    if d.isDirectory p then makeEach d ps
    else if d.exists? p then (d, false)
    else match d.placeOf? p with
      | some place => makeEach (d.put place .directory) ps
      | none => (d, false)

/-- The paths of the directories on the way to a path and of the path itself, outermost first. -/
def stages (p : Path) : List Path :=
  let (anchor, segments) := Path.anatomy p
  let names := segments.filter (!Path.isIdle ·)
  (List.range names.length).map fun n =>
    Path.join anchor.text (Path.ofSegments (names.take (n + 1)))

/-- Makes the directories on the way to a path. -/
def makeParents (d : Disk) (p : Path) : Change :=
  if Path.size p ≥ pathLimit then (d, false) else makeEach d (stages p).dropLast

/-- Whether the last segment that is not empty is a `.`. -/
def endsHere (p : Path) : Bool :=
  (Path.segments p).reverse.find? (· ≠ []) == some Path.here

/-- Makes a directory, with the directories on the way to it. No directory can be made by a path
that ends in `.`. -/
def makeDirectory (d : Disk) (p : Path) : Change :=
  if d.isDirectory p then (d, true)
  else if Path.size p ≥ pathLimit then (d, false)
  else if endsHere p then
    let made := (d.makeParents p).1
    (made, made.isDirectory p)
  else makeEach d (stages p)

/-- The place that is written to at a path: where links at its end lead. -/
def targetPlace? (d : Disk) : (links : Nat) → Path → Option Place
  | 0, _ => none
  | links + 1, p => do
    let place ← d.placeOf? p
    match d.item? place with
    | some (.link target) =>
      targetPlace? d links (Path.join (placePath place.dropLast) target)
    | _ => some place

def write (d : Disk) (p : Path) (bytes : List UInt8) : Change :=
  match d.makeParents p with
  | (d, false) => (d, false)
  | (d, true) =>
    match d.targetPlace? (linkLimit + 1) p with
    | none => (d, false)
    | some place =>
      if d.item? place = some .directory then (d, false) else (d.put place (.file bytes), true)

/-- Makes a link to `target`, at a path where there is nothing. -/
def makeLink (d : Disk) (p target : Path) : Change :=
  match d.makeParents p with
  | (d, false) => (d, false)
  | (d, true) =>
    match d.placeOf? p with
    | none => (d, false)
    | some place =>
      if (d.item? place).isSome || target.isEmpty || target.contains (.char '\x00')
        || Path.size target ≥ pathLimit then (d, false)
      else (d.put place (.link target), true)

/-- Removes what is at a path, a directory with all that is in it. -/
def remove (d : Disk) (p : Path) : Change :=
  match d.resolve p false with
  | .error _ => (d, false)
  | .ok place =>
    if place.isPrefixOf d.current then (d, false)
    else
      ({ d with
          items := d.items.filter fun (q, _) => !place.isPrefixOf q
          closed := d.closed.filter (!place.isPrefixOf ·) }, true)

end FactoryRoster.Disk
