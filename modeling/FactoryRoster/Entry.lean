/-!
# Entries of the roster

An entry names a factory and its traits. A factory without traits has no list of them, which is a
different thing from an empty list only where an entry is written down.
-/

namespace FactoryRoster

/-- A factory and, if it has any, its traits in the order of the source. -/
structure Entry where
  name : String
  traits : Option (List String) := none
  deriving DecidableEq, Repr

namespace Entry

/-- The entry of a factory with the given traits; an empty list counts as none. -/
def ofTraits (name : String) (traits : List String) : Entry where
  name
  traits := if traits.isEmpty then none else some traits

/-- The traits, none of them if there is no list. -/
def traitList (e : Entry) : List String :=
  e.traits.getD []

@[simp] theorem traitList_ofTraits (name : String) (traits : List String) :
    (ofTraits name traits).traitList = traits := by
  cases traits <;> simp [ofTraits, traitList]

theorem traits_ofTraits_ne_some_nil (name : String) (traits : List String) :
    (ofTraits name traits).traits ≠ some [] := by
  cases traits <;> simp [ofTraits]

theorem ofTraits_traitList {e : Entry} (h : e.traits ≠ some []) :
    ofTraits e.name e.traitList = e := by
  obtain ⟨name, traits⟩ := e
  cases traits with
  | none => rfl
  | some traits =>
      cases traits with
      | nil => exact absurd rfl h
      | cons trait traits => rfl

end Entry

/-- A roster: the entries of what has been scanned, in order. -/
abbrev Roster := List Entry

end FactoryRoster
