import FactoryRoster.Disk.Basic
import FactoryRoster.Glob.Pattern
import FactoryRoster.Language

/-!
# Notices

What is said on the way of a scan, and why a source may have no tree. A `Report` is a value with
the notices that were given while it was made.
-/

namespace FactoryRoster

/-- Why a source has no tree. -/
inductive SourceFault where
  | unreadable (path : String) (obstacle : Obstacle)
  | brokenSyntax (origin : String)
  | noTree (origin : String)
  | unknownLanguage (name : String)
  deriving DecidableEq, Repr

/-- What is said of a path that cannot be read. -/
def readFailure (path : String) : String :=
  "Failed to read " ++ path

def SourceFault.message : SourceFault → String
  | unreadable path obstacle => readFailure path ++ ": " ++ obstacle.message
  | brokenSyntax origin => "syntax errors in " ++ origin
  | noTree origin => "parser produced no tree for " ++ origin
  | unknownLanguage name => Language.refusal name

/-- Why a declaration has no name. -/
inductive NameLack where
  | empty
  | absent
  /-- The first argument is of another kind than a literal. -/
  | notLiteral (kind : String)
  deriving DecidableEq, Repr

/-- How much a notice matters. -/
inductive Level where
  | debug
  | info
  | warn
  deriving DecidableEq, Repr

def Level.name : Level → String
  | debug => "DEBUG"
  | info => "INFO"
  | warn => "WARN"

/-- A notice that is given in the course of a scan. -/
inductive Notice where
  | brokenTree (origin : String)
  | nameless (word : String) (lack : NameLack)
  | noDirectory (directory : String)
  | foreignExtension (extension : String)
  | patternRefused (directory : String) (fault : Glob.Fault)
  /-- A directory is passed over since its names are not given. -/
  | unlisted (path : String) (obstacle : Obstacle)
  | extracted (count : Nat) (file : String)
  | skipped (file : String) (fault : SourceFault)
  | loaded (count files : Nat) (directory : String)
  | notDeclared (root gem : String)
  | noGemfile (path : String)
  deriving DecidableEq, Repr

namespace Notice

/-- The level of a notice. -/
def level : Notice → Level
  | brokenTree _ | noDirectory _ | unlisted .. | extracted .. | notDeclared .. | noGemfile _ =>
    .debug
  | loaded .. => .info
  | nameless .. | foreignExtension _ | patternRefused .. | skipped .. => .warn

def message : Notice → String
  | brokenTree origin => "Ruby tree for " ++ origin ++ " contains ERROR/MISSING nodes"
  | nameless word .empty => "Skipping \x60" ++ word ++ "\x60 declaration with an empty name"
  | nameless word .absent => "Skipping \x60" ++ word ++ "\x60 declaration without a name"
  | nameless word (.notLiteral kind) =>
    "Skipping \x60" ++ word ++ "\x60 declaration: first argument is " ++ kind ++
      " rather than a literal name"
  | noDirectory directory => "Factory directory " ++ directory ++ " not found"
  | foreignExtension extension =>
    "Factory file extension '" ++ extension ++
      "' is not a Ruby extension; files are parsed as Ruby anyway"
  | patternRefused directory fault =>
    "⚠️  Could not enumerate factory files in " ++ directory ++
      ": invalid factory file pattern: " ++ fault.message
  | unlisted path obstacle =>
    "Unreadable entry while scanning factories: attempting to read \x60" ++ path ++
      "\x60 resulted in an error: " ++ obstacle.message
  | extracted count file => "Extracted " ++ toString count ++ " factories from " ++ file
  | skipped file fault => "⚠️  Skipping factory file " ++ file ++ ": " ++ fault.message
  | loaded count files directory =>
    "📋 Loaded " ++ toString count ++ " factories from " ++ toString files ++ " files in " ++
      directory
  | notDeclared root gem =>
    "Gemfile in " ++ root ++ " does not declare " ++ gem ++ "; factories not applicable"
  | noGemfile path => "No usable Gemfile at " ++ path ++ ": " ++ readFailure path

/-- A notice as a line of a log. -/
def line (n : Notice) : String :=
  n.level.name ++ " " ++ n.message

end Notice

/-- A value, and the notices that were given while it was made. -/
structure Report (α : Type) where
  value : α
  notices : List Notice := []
  deriving DecidableEq, Repr

namespace Report

/-- Reports of lists, one after the other. -/
def join {α : Type} (reports : List (Report (List α))) : Report (List α) where
  value := reports.flatMap value
  notices := reports.flatMap notices

/-- A report after further notices. -/
def after {α : Type} (earlier : List Notice) (r : Report α) : Report α :=
  { r with notices := earlier ++ r.notices }

end Report

end FactoryRoster
