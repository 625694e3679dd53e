import FactoryRoster.Disk.Basic

/-!
# Relative paths

How a path is named from a directory. `Disk.within` resolves both paths, if both lead somewhere,
and takes the one off the other. `Disk.label` takes off the text first, so that a link below the
directory keeps its own name, and always gives a name.
-/

namespace FactoryRoster

/-- Why a path has no name from a directory. -/
inductive Stray where
  /-- The path is not below the directory. -/
  | outside (path root : String)
  /-- The name is no text. -/
  | notText
  deriving DecidableEq, Repr

namespace Stray

/-- What is said of a path without a name. -/
def message : Stray → String
  | outside path root => "File path '" ++ path ++ "' is not within directory '" ++ root ++ "'"
  | notText => "Path contains invalid UTF-8"

/-- What is said of a path without a name, with what caused it. -/
def chain : Stray → String
  | outside path root => (outside path root).message ++ ": prefix not found"
  | notText => notText.message

end Stray

namespace Disk

/-- The two paths as they are compared: without links if both lead somewhere, else as given. -/
def compared (d : Disk) (p root : Path) : Path × Path :=
  match d.canonical p, d.canonical root with
  | .ok path, .ok root => (path, root)
  | _, _ => (p, root)

/-- The name of a path from `root`, wherever links lead. -/
def within (d : Disk) (p root : Path) : Except Stray String :=
  let (path, root) := d.compared p root
  match Path.below? path root with
  | none => .error (.outside path.shown root.shown)
  | some rest =>
    match text? rest with
    | some text => .ok (String.ofList text)
    | none => .error .notText

/-- The name of a path from `root` by which it is sorted and shown. -/
def label (d : Disk) (p root : Path) : String :=
  match Path.below? p root with
  | some rest => Path.withSlashes rest.shown
  | none =>
    match d.within p root with
    | .ok name => name
    | .error _ => Path.withSlashes p.shown

end Disk

end FactoryRoster
