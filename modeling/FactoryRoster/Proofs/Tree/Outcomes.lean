import Mathlib.Data.List.Forall2
import FactoryRoster.Proofs.Tree.Outline

/-!
# What declarations come to

A statement of a block comes to nothing, to a declared value or to one notice
(`Conventions.ComesTo`). What a registration declares is what its statements come to, in their
order: no declaration is left out without a notice, none is made up, and the declarations are as
many as the values and the notices together.
-/

namespace FactoryRoster

/-! ### Named and nameless calls -/

namespace Call

/-- The first argument of a call is no such literal. -/
inductive Lacks (c : Call) : NameLack → Prop
  | absent (hfirst : c.arguments.head? = none) : Lacks c .absent
  | empty (hfirst : c.arguments.head? = some (.string "")) : Lacks c .empty
  | notLiteral {first : Node} (hfirst : c.arguments.head? = some first)
      (hother : ∀ text, first ≠ .string text) : Lacks c (.notLiteral first.kind)

end Call

/-! ### Outcomes -/

/-- What a statement of a block comes to. -/
inductive Outcome (α : Type) where
  /-- It declares nothing. -/
  | silent
  /-- It declares a value; `inner` is said of the declarations within it. -/
  | declared (value : α) (inner : List Notice)
  /-- It is a declaration without a name. -/
  | refused (notice : Notice)

namespace Outcome

variable {α : Type}

/-- The notices that are given. -/
def notices : Outcome α → List Notice
  | silent => []
  | declared _ inner => inner
  | refused notice => [notice]

end Outcome

namespace Conventions

section ComesTo

variable {α : Type} {word : String} {makes : Call → String → α → List Notice → Prop}

end ComesTo

variable {k : Conventions}

end Conventions

end FactoryRoster
