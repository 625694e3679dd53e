/-!
# Languages

The languages that sources may be written in, by name and by file extension.
-/

namespace FactoryRoster

/-- A language of sources. -/
inductive Language where
  | ruby
  deriving DecidableEq, Repr

namespace Language

def name : Language → String
  | ruby => "ruby"

/-- The languages that can be read. -/
def supported : List Language := [ruby]

def ofName? (name : String) : Option Language :=
  supported.find? (·.name == name)

def ofExtension? (extension : String) : Option Language :=
  if ["rb", "rake", "ru", "gemspec"].contains extension then some ruby else none

/-- What is said of a name that is not the name of a language that can be read. -/
def refusal (name : String) : String :=
  "Unsupported language: '" ++ name ++ "'. Supported languages: " ++
    ", ".intercalate (supported.map Language.name)

end Language

end FactoryRoster
