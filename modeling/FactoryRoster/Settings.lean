import FactoryRoster.Path

/-!
# Settings

What a scan looks for and where: the words of the definition language (`Conventions`), and the
directory, the file extension and the gem of a project (`Settings`).
-/

namespace FactoryRoster

/-- The words with which factories are declared: a registration is a call `receiver.method` with a
block, in which `factoryWord` declares a factory and, in its block, `traitWord` a trait. -/
structure Conventions where
  receiver : String := "FactoryBot"
  method : String := "define"
  factoryWord : String := "factory"
  traitWord : String := "trait"
  deriving DecidableEq, Repr

structure Settings where
  /-- The factory directory, seen from the root of the project. -/
  directory : String := "spec/factories"
  /-- The extension of factory files, without its dot. -/
  extension : String := "rb"
  /-- The gem without which a project has no factories. -/
  gem : String := "factory_bot"
  /-- Whether files may be read at the same time; what is found does not depend on it. -/
  parallel : Bool := true
  conventions : Conventions := {}
  deriving DecidableEq, Repr

namespace Settings

/-- Whether two settings mean the same: the directory may be spelled differently. -/
def agrees (s t : Settings) : Bool :=
  Path.components (Path.ofText s.directory) == Path.components (Path.ofText t.directory) &&
    s == { t with directory := s.directory }

end Settings

end FactoryRoster
