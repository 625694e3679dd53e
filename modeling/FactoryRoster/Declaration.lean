import FactoryRoster.Entry
import FactoryRoster.Notice
import FactoryRoster.Registration

/-!
# Declarations

What the block of a registration declares. A declaration is named by its first argument, a literal
that is not empty; one without a name gives a notice and nothing else. Only the direct statements of
a block are looked at.
-/

namespace FactoryRoster

def Call.declaredName (c : Call) : Except NameLack String :=
  match c.firstArgument? with
  | none => .error .absent
  | some (.string text) => if text.isEmpty then .error .empty else .ok text
  | some node => .error (.notLiteral node.kind)

def callsOf (method : String) (statements : List Node) : List Call :=
  (statements.filterMap Node.call?).filter (·.method == method)

namespace Conventions

def trait (c : Call) : Report (List String) :=
  match c.declaredName with
  | .ok name => ⟨[name], []⟩
  | .error lack => ⟨[], [.nameless c.method lack]⟩

/-- The traits that are declared among statements. -/
def traits (k : Conventions) (statements : List Node) : Report (List String) :=
  .join ((callsOf k.traitWord statements).map trait)

def factory (k : Conventions) (c : Call) : Report Roster :=
  match c.declaredName with
  | .ok name =>
    let traits := k.traits c.blockStatements
    ⟨[.ofTraits name traits.value], traits.notices⟩
  | .error lack => ⟨[], [.nameless c.method lack]⟩

/-- The factories that a registration declares. -/
def declared (k : Conventions) (registration : Call) : Report Roster :=
  .join ((callsOf k.factoryWord registration.blockStatements).map k.factory)

/-- The factories that the registration of a tree declares. -/
def entries (k : Conventions) (tree : Node) : Report Roster :=
  match tree.registration? k with
  | some registration => k.declared registration
  | none => ⟨[], []⟩

end Conventions

end FactoryRoster
