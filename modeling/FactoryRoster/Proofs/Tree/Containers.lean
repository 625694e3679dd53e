import Mathlib.Logic.Relation
import FactoryRoster.Proofs.Tree.Places

/-!
# Containers of statements

What is in a tree, at any depth, and which of it is a container of statements. Among statements that
are no containers, the registration is the first of them that is one.
-/

namespace FactoryRoster

namespace Node

/-- Whether a node is a container of statements. -/
inductive IsContainer : Node → Prop
  | program (children : List Node) : IsContainer (.program children)
  | statements (children : List Node) : IsContainer (.statements children)

/-- The nodes directly in a node. -/
def parts : Node → List Node
  | program children => children
  | statements children => children
  | call receiver _ arguments block => receiver.toList ++ arguments ++ block.getD []
  | _ => []

/-- Whether a node is in another one, at any depth. -/
def IsWithin : Node → Node → Prop :=
  Relation.TransGen fun m n => m ∈ n.parts

theorem registration?_eq_some_iff {n : Node} (hn : ¬ n.IsContainer) {k : Conventions} {c : Call} :
    n.registration? k = some c ↔ n = c.toNode ∧ k.IsRegistration c := by
  cases hcall : n.call? with
  | none =>
      have hnone : n.registration? k = none := by
        cases n with
        | program children => exact absurd (.program children) hn
        | statements children => exact absurd (.statements children) hn
        | call receiver method arguments block => cases hcall
        | _ => rfl
      rw [hnone]
      constructor
      · intro h
        cases h
      · rintro ⟨rfl, -⟩
        cases hcall
  | some c' =>
      obtain rfl := call?_eq_some_iff.mp hcall
      rw [Conventions.registration?_toNode]
      constructor
      · intro h
        split at h
        · rename_i hregisters
          obtain rfl := Option.some.inj h
          exact ⟨rfl, Conventions.registers_iff.mp hregisters⟩
        · cases h
      · rintro ⟨hnode, hregistration⟩
        have hsame := congrArg call? hnode
        rw [Call.call?_toNode, Call.call?_toNode, Option.some.injEq] at hsame
        rw [hsame, if_pos (Conventions.registers_iff.mpr hregistration)]

theorem registration?_eq_none_iff {n : Node} (hn : ¬ n.IsContainer) {k : Conventions} :
    n.registration? k = none ↔ ∀ c : Call, n = c.toNode → ¬ k.IsRegistration c := by
  rw [Option.eq_none_iff_forall_ne_some]
  simp only [ne_eq, registration?_eq_some_iff hn, not_and]

end Node

/-- The registration among statements without containers is the first call that is one. -/
theorem firstRegistration?_eq_find?_call? {ns : List Node} (hns : ∀ n ∈ ns, ¬ n.IsContainer)
    (k : Conventions) : firstRegistration? k ns = (ns.filterMap Node.call?).find? k.registers := by
  induction ns with
  | nil => rfl
  | cons n ns ih =>
      obtain ⟨hn, hns⟩ := List.forall_mem_cons.mp hns
      rw [firstRegistration?, ih hns]
      cases n with
      | program children => exact absurd (.program children) hn
      | statements children => exact absurd (.statements children) hn
      | call receiver method arguments block =>
          simp only [Node.registration?, Node.call?, List.filterMap_cons, List.find?_cons]
          cases k.registers ⟨receiver, method, arguments, block⟩ <;> rfl
      | _ => rfl

/-- The registration among statements without containers is the first of them that is one. -/
theorem firstRegistration?_eq_some_iff {ns : List Node} (hns : ∀ n ∈ ns, ¬ n.IsContainer)
    {k : Conventions} {c : Call} :
    firstRegistration? k ns = some c ↔
      ∃ before after, ns = before ++ c.toNode :: after ∧ k.IsRegistration c ∧
        ∀ c' : Call, c'.toNode ∈ before → ¬ k.IsRegistration c' := by
  rw [firstRegistration?_eq_findSome?, List.findSome?_eq_some_iff]
  constructor
  · rintro ⟨before, n, after, rfl, hn, hbefore⟩
    obtain ⟨rfl, hregistration⟩ := (Node.registration?_eq_some_iff (hns n (by simp))).mp hn
    refine ⟨before, after, rfl, hregistration, ?_⟩
    intro c' hc'
    exact (Node.registration?_eq_none_iff (hns _ (by simp [hc']))).mp (hbefore _ hc') c' rfl
  · rintro ⟨before, after, rfl, hregistration, hbefore⟩
    refine ⟨before, c.toNode, after, rfl, ?_, ?_⟩
    · exact (Node.registration?_eq_some_iff (hns _ (by simp))).mpr ⟨rfl, hregistration⟩
    · intro n hn
      apply (Node.registration?_eq_none_iff (hns n (by simp [hn]))).mpr
      rintro c' rfl
      exact hbefore c' hn

theorem firstRegistration?_eq_none_iff {ns : List Node} (hns : ∀ n ∈ ns, ¬ n.IsContainer)
    {k : Conventions} :
    firstRegistration? k ns = none ↔ ∀ c : Call, c.toNode ∈ ns → ¬ k.IsRegistration c := by
  rw [firstRegistration?_eq_findSome?, List.findSome?_eq_none_iff]
  constructor
  · intro h c hc
    exact (Node.registration?_eq_none_iff (hns _ hc)).mp (h _ hc) c rfl
  · intro h n hn
    apply (Node.registration?_eq_none_iff (hns n hn)).mpr
    rintro c rfl
    exact h c hn

end FactoryRoster
