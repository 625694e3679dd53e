import FactoryRoster.Utf8

/-!
# Paths

A path is a sequence of glyphs, cut into segments by slashes. It may be anchored at the root, or at
the place where it is read, by a `.` at its front. Empty segments and further `.` segments do not
count: what counts are the components. A prefix is taken off a path by components (`Path.below?`),
and what is left keeps the spelling that it had.
-/

namespace FactoryRoster

/-- A path as it is written. -/
abbrev Path := List Glyph

namespace Path

def ofText (text : String) : Path :=
  glyphs text.toList

def shown (p : Path) : String :=
  String.ofList (shownText p)

/-- The glyph between segments. -/
def slash : Glyph := .char '/'

/-- The segment that means the place itself. -/
def here : List Glyph := [.char '.']

/-- The segment that means the directory above. -/
def above : List Glyph := [.char '.', .char '.']

/-- The segments between slashes; there is always at least one. -/
def segments : Path → List (List Glyph)
  | [] => [[]]
  | g :: gs =>
    if g = slash then [] :: segments gs
    else match segments gs with
      | [] => [[g]]
      | s :: ss => (g :: s) :: ss

/-- Segments with slashes between them. -/
def ofSegments : List (List Glyph) → Path
  | [] => []
  | [s] => s
  | s :: ss => s ++ slash :: ofSegments ss

/-- What a path starts from. -/
inductive Anchor where
  | root
  /-- A `.` at the front. -/
  | here
  /-- The first segment itself. -/
  | none
  deriving DecidableEq, Repr

/-- The anchor of a path and the segments after it. -/
def anatomy (p : Path) : Anchor × List (List Glyph) :=
  match segments p with
  | [] :: (s :: ss) => (.root, s :: ss)
  | s :: ss => if s = here then (.here, ss) else (.none, s :: ss)
  | [] => (.none, [])

/-- A segment that does not count. -/
def isIdle (s : List Glyph) : Bool :=
  s = [] || s = here

inductive Component where
  | root
  | here
  | above
  | name (glyphs : List Glyph)
  deriving DecidableEq, Repr

/-- The component that a segment is, after the anchor. -/
def component (s : List Glyph) : Component :=
  if s = Path.above then .above else .name s

def Anchor.components : Anchor → List Component
  | .root => [.root]
  | .here => [.here]
  | .none => []

/-- The components of a path. -/
def components (p : Path) : List Component :=
  let (anchor, segments) := anatomy p
  anchor.components ++ (segments.filter (!isIdle ·)).map component

/-- A path that is read from the root, wherever it is read. -/
def isAbsolute (p : Path) : Bool :=
  p.head? == some slash

/-- Without the idle segments at the front. -/
def trimFront (ss : List (List Glyph)) : List (List Glyph) :=
  ss.dropWhile isIdle

/-- Without the idle segments at the end. -/
def trimEnd (ss : List (List Glyph)) : List (List Glyph) :=
  (trimFront ss.reverse).reverse

/-- The segments after the first `count` that are not idle. -/
def dropComponents : (count : Nat) → List (List Glyph) → List (List Glyph)
  | 0, ss => ss
  | _ + 1, [] => []
  | count + 1, s :: ss => dropComponents (if isIdle s then count + 1 else count) ss

def Anchor.text : Anchor → Path
  | .root => [slash]
  | .here => Path.here
  | .none => []

/-- A path with its anchor, without idle segments at its end. -/
def withoutTail (p : Path) : Path :=
  match anatomy p with
  | (.here, ss) =>
    match trimEnd ss with
    | [] => here
    | ss => ofSegments (here :: ss)
  | (anchor, ss) => anchor.text ++ ofSegments (trimEnd ss)

/-- What is left of a path after the components of `base`, in its own spelling. -/
def below? (p base : Path) : Option Path :=
  let start := components base
  if start.isPrefixOf (components p) then
    if start.isEmpty then some (withoutTail p)
    else
      let (anchor, segments) := anatomy p
      let count := start.length - anchor.components.length
      some (ofSegments (trimEnd (trimFront (dropComponents count segments))))
  else none

/-- The path `p` read from `base`; an absolute path stays as it is. -/
def join (base p : Path) : Path :=
  if isAbsolute p then p
  else if base.isEmpty || base.getLast? == some slash then base ++ p
  else base ++ slash :: p

/-- The path of an entry in the directory at a path; `.` is not written before it. -/
def entry (p : Path) (name : List Glyph) : Path :=
  if p = here then name
  else if p.isEmpty || p.getLast? == some slash then p ++ name
  else p ++ slash :: name

/-- The text with each backslash turned into a slash. -/
def withSlashes (text : String) : String :=
  String.ofList (text.toList.map fun c => if c = '\\' then '/' else c)

/-- The number of bytes of a path. -/
def size (p : Path) : Nat :=
  p.foldl (fun n g => n + g.size) 0

/-- The place of a component in the order of components: the root, `.`, `..`, and then names by
their bytes. What comes after the zero only tells names of the same bytes apart. -/
def Component.code : Component → List Nat
  | .root => [0]
  | .here => [1]
  | .above => [2]
  | .name glyphs =>
    3 :: ((Utf8.bytes glyphs).map (·.toNat + 1) ++ 0 :: glyphs.map Glyph.code)

/-- The place of a path in the order of paths, by components. -/
def code (p : Path) : List (List Nat) :=
  (components p).map Component.code

end Path

end FactoryRoster
