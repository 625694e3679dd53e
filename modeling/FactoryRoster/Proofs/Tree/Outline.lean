import Mathlib.Data.List.Forall2
import FactoryRoster.Declaration

/-!
# The outline of a tree

What a tree declares depends on little of it: on the way to its first registration, and in the block
of that on the first arguments of the factories and of the traits directly in them
(`Conventions.SameOutline`). Two trees with the same outline declare the same and give the same
notices, however else they differ.
-/

namespace FactoryRoster

/-! ### The first registration -/

theorem firstRegistration?_eq_findSome? (k : Conventions) (ns : List Node) :
    firstRegistration? k ns = ns.findSome? (·.registration? k) := by
  induction ns with
  | nil => rfl
  | cons n ns ih =>
      rw [firstRegistration?, List.findSome?_cons, ih]
      cases n.registration? k <;> rfl

/-- A call to which containers of statements lead from a tree. -/
inductive Reaches (c : Call) : Node → Prop
  | call : Reaches c c.toNode
  | program {n : Node} {children : List Node} (hn : n ∈ children) (h : Reaches c n) :
      Reaches c (.program children)
  | statements {n : Node} {children : List Node} (hn : n ∈ children) (h : Reaches c n) :
      Reaches c (.statements children)

namespace Conventions

variable {k : Conventions}

theorem reaches_of_registration? {c : Call} :
    ∀ {n : Node}, n.registration? k = some c → Reaches c n ∧ k.registers c = true
  | .program children, h => by
      rw [Node.registration?, firstRegistration?_eq_findSome?] at h
      obtain ⟨n, hn, h⟩ := List.exists_of_findSome?_eq_some h
      obtain ⟨hreaches, hregisters⟩ := reaches_of_registration? h
      exact ⟨.program hn hreaches, hregisters⟩
  | .statements children, h => by
      rw [Node.registration?, firstRegistration?_eq_findSome?] at h
      obtain ⟨n, hn, h⟩ := List.exists_of_findSome?_eq_some h
      obtain ⟨hreaches, hregisters⟩ := reaches_of_registration? h
      exact ⟨.statements hn hreaches, hregisters⟩
  | .call receiver method arguments block, h => by
      rw [Node.registration?] at h
      split at h
      · rename_i hregisters
        obtain rfl := Option.some.inj h
        exact ⟨.call, hregisters⟩
      · cases h
  | .string _, h | .identifier _, h | .other _, h => by cases h

/-- A tree from which no registration is reached. -/
def Silent (k : Conventions) (n : Node) : Prop :=
  ∀ c, Reaches c n → k.registers c = false

theorem registration?_toNode (c : Call) :
    c.toNode.registration? k = if k.registers c then some c else none := rfl

theorem silent_iff {n : Node} : k.Silent n ↔ n.registration? k = none := by
  constructor
  · intro hn
    cases h : n.registration? k with
    | none => rfl
    | some c =>
        obtain ⟨hreaches, hregisters⟩ := reaches_of_registration? h
        rw [hn c hreaches] at hregisters
        cases hregisters
  · intro hn c hreaches
    induction hreaches with
    | call =>
        rw [registration?_toNode] at hn
        split at hn
        · cases hn
        · rename_i hregisters
          exact Bool.eq_false_iff.mpr hregisters
    | program hmem _ ih | statements hmem _ ih =>
        rw [Node.registration?, firstRegistration?_eq_findSome?, List.findSome?_eq_none_iff] at hn
        exact ih (hn _ hmem)

/-! ### Outlines -/

/-- Statements with alike calls of a method in the same order. What else there is between them does
not count. -/
inductive AlikeCalls (method : String) (alike : Call → Call → Prop) : List Node → List Node → Prop
  | nil : AlikeCalls method alike [] []
  | left {n : Node} {ns ms : List Node} (hn : ∀ c, n.call? = some c → c.method ≠ method)
      (h : AlikeCalls method alike ns ms) : AlikeCalls method alike (n :: ns) ms
  | right {m : Node} {ns ms : List Node} (hm : ∀ c, m.call? = some c → c.method ≠ method)
      (h : AlikeCalls method alike ns ms) : AlikeCalls method alike ns (m :: ms)
  | call {c c' : Call} {ns ms : List Node} (hc : c.method = method) (hc' : c'.method = method)
      (halike : alike c c') (h : AlikeCalls method alike ns ms) :
      AlikeCalls method alike (c.toNode :: ns) (c'.toNode :: ms)

/-- Calls with the same first argument. Their receivers, further arguments and blocks may differ. -/
def SameName (c c' : Call) : Prop :=
  c.firstArgument? = c'.firstArgument?

/-- Calls with the same first argument, and in their blocks the same calls for traits. -/
def SameFactory (k : Conventions) (c c' : Call) : Prop :=
  SameName c c' ∧ AlikeCalls k.traitWord SameName c.blockStatements c'.blockStatements

/-- Statements of which the first registrations declare the same. Before them there may be anything
from which no registration is reached, and after them anything at all. -/
inductive SameFront (k : Conventions) : List Node → List Node → Prop
  | left {n : Node} {ns ms : List Node} (hn : k.Silent n) (h : SameFront k ns ms) :
      SameFront k (n :: ns) ms
  | right {m : Node} {ns ms : List Node} (hm : k.Silent m) (h : SameFront k ns ms) :
      SameFront k ns (m :: ms)
  | registration {c c' : Call} (ns ms : List Node) (hc : k.registers c = true)
      (hreceiver : c'.receiver = c.receiver) (hmethod : c'.method = c.method)
      (hblock : c'.block.isSome = true)
      (h : AlikeCalls k.factoryWord k.SameFactory c.blockStatements c'.blockStatements) :
      SameFront k (c.toNode :: ns) (c'.toNode :: ms)
  | program {children children' : List Node} (ns ms : List Node)
      (h : SameFront k children children') :
      SameFront k (.program children :: ns) (.program children' :: ms)
  | statements {children children' : List Node} (ns ms : List Node)
      (h : SameFront k children children') :
      SameFront k (.statements children :: ns) (.statements children' :: ms)

/-- Two trees that differ only in what does not count for what they declare. -/
def SameOutline (k : Conventions) (t u : Node) : Prop :=
  k.Silent t ∧ k.Silent u ∨ SameFront k [t] [u]

theorem AlikeCalls.refl {method : String} {alike : Call → Call → Prop} (h : ∀ c, alike c c)
    (ns : List Node) : AlikeCalls method alike ns ns := by
  induction ns with
  | nil => exact .nil
  | cons n ns ih =>
      by_cases hn : ∀ c, n.call? = some c → c.method ≠ method
      · exact .left hn (.right hn ih)
      · push Not at hn
        obtain ⟨c, hc, hmethod⟩ := hn
        rw [Node.call?_eq_some_iff.mp hc]
        exact .call hmethod hmethod (h c) ih

theorem SameName.refl (c : Call) : SameName c c := rfl

theorem SameFactory.refl (c : Call) : k.SameFactory c c :=
  ⟨SameName.refl c, .refl SameName.refl c.blockStatements⟩

theorem isSome_block_of_registers {c : Call} (h : k.registers c = true) :
    c.block.isSome = true := by
  rw [registers, Bool.and_eq_true] at h
  exact h.2

/-- Whether a call is a registration does not depend on its arguments, nor on what is in its
block. -/
theorem registers_congr {c c' : Call} (hreceiver : c'.receiver = c.receiver)
    (hmethod : c'.method = c.method) (hblock : c'.block.isSome = c.block.isSome) :
    k.registers c' = k.registers c := by
  rw [registers, registers, Call.receiverName?, Call.receiverName?, hreceiver, hmethod, hblock]

mutual

theorem SameFront.refl_cons (ns ms : List Node) :
    ∀ {n : Node} {c : Call}, n.registration? k = some c → SameFront k (n :: ns) (n :: ms)
  | .program _, _, h => .program ns ms (SameFront.refl h)
  | .statements _, _, h => .statements ns ms (SameFront.refl h)
  | .call _ _ _ _, _, h => by
      obtain ⟨hreaches, hregisters⟩ := reaches_of_registration? h
      cases hreaches
      have hblock := isSome_block_of_registers hregisters
      exact .registration ns ms hregisters rfl rfl hblock (.refl SameFactory.refl _)
  | .string _, _, h | .identifier _, _, h | .other _, _, h => by cases h

theorem SameFront.refl :
    ∀ {ns : List Node} {c : Call}, firstRegistration? k ns = some c → SameFront k ns ns
  | [], _, h => by cases h
  | n :: ns, c, h => by
      rw [firstRegistration?] at h
      cases hn : n.registration? k with
      | some c => exact SameFront.refl_cons ns ns hn
      | none =>
          rw [hn] at h
          have hsilent := silent_iff.mpr hn
          exact .left hsilent (.right hsilent (SameFront.refl h))

end

theorem SameOutline.refl (t : Node) : k.SameOutline t t := by
  cases h : t.registration? k with
  | none =>
      have hsilent := silent_iff.mpr h
      exact .inl ⟨hsilent, hsilent⟩
  | some c => exact .inr (SameFront.refl_cons [] [] h)

/-! ### What is declared -/

theorem callsOf_cons_of_ne {method : String} {n : Node} (ns : List Node)
    (hn : ∀ c, n.call? = some c → c.method ≠ method) :
    callsOf method (n :: ns) = callsOf method ns := by
  unfold callsOf
  cases hcall : n.call? with
  | none => rw [List.filterMap_cons_none hcall]
  | some c =>
      rw [List.filterMap_cons_some hcall, List.filter_cons_of_neg]
      rw [beq_iff_eq]
      exact hn c hcall

theorem callsOf_cons_of_eq {method : String} {c : Call} (ns : List Node)
    (hc : c.method = method) : callsOf method (c.toNode :: ns) = c :: callsOf method ns := by
  unfold callsOf
  rw [List.filterMap_cons_some (Call.call?_toNode c), List.filter_cons_of_pos]
  rw [beq_iff_eq]
  exact hc

theorem AlikeCalls.forall₂_callsOf {method : String} {alike : Call → Call → Prop}
    {ns ms : List Node} (h : AlikeCalls method alike ns ms) :
    List.Forall₂ (fun c c' => c.method = c'.method ∧ alike c c') (callsOf method ns)
      (callsOf method ms) := by
  induction h with
  | nil => exact .nil
  | left hn _ ih =>
      rw [callsOf_cons_of_ne _ hn]
      exact ih
  | right hm _ ih =>
      rw [callsOf_cons_of_ne _ hm]
      exact ih
  | call hc hc' halike _ ih =>
      rw [callsOf_cons_of_eq _ hc, callsOf_cons_of_eq _ hc']
      exact .cons ⟨hc.trans hc'.symm, halike⟩ ih

/-- What is made of each call of a method is the same for statements with alike calls. -/
theorem AlikeCalls.map_callsOf {α : Type} {method : String} {alike : Call → Call → Prop}
    {ns ms : List Node} (h : AlikeCalls method alike ns ms) {made : Call → α}
    (hmade : ∀ c c', c.method = c'.method → alike c c' → made c = made c') :
    (callsOf method ns).map made = (callsOf method ms).map made := by
  have hcalls := h.forall₂_callsOf
  rw [← List.forall₂_eq_eq_eq, List.forall₂_map_left_iff, List.forall₂_map_right_iff]
  exact hcalls.imp fun c c' hcc' => hmade c c' hcc'.1 hcc'.2

theorem declaredName_of_sameName {c c' : Call} (h : SameName c c') :
    c.declaredName = c'.declaredName := by
  unfold SameName at h
  rw [Call.declaredName, Call.declaredName, h]

theorem trait_of_sameName {c c' : Call} (hmethod : c.method = c'.method) (h : SameName c c') :
    trait c = trait c' := by
  rw [trait, trait, declaredName_of_sameName h, hmethod]

theorem traits_of_alikeCalls {ns ms : List Node} (h : AlikeCalls k.traitWord SameName ns ms) :
    k.traits ns = k.traits ms := by
  rw [traits, traits]
  congr 1
  apply h.map_callsOf
  intro c c' hmethod hname
  exact trait_of_sameName hmethod hname

theorem factory_of_sameFactory {c c' : Call} (hmethod : c.method = c'.method)
    (h : k.SameFactory c c') : k.factory c = k.factory c' := by
  obtain ⟨hname, htraits⟩ := h
  rw [factory, factory, declaredName_of_sameName hname, traits_of_alikeCalls htraits, hmethod]

theorem declared_of_alikeCalls {c c' : Call}
    (h : AlikeCalls k.factoryWord k.SameFactory c.blockStatements c'.blockStatements) :
    k.declared c = k.declared c' := by
  rw [declared, declared]
  congr 1
  apply h.map_callsOf
  intro c c' hmethod hfactory
  exact factory_of_sameFactory hmethod hfactory

theorem SameFront.exists_registrations {ns ms : List Node} (h : SameFront k ns ms) :
    ∃ c c', firstRegistration? k ns = some c ∧ firstRegistration? k ms = some c' ∧
      k.declared c = k.declared c' := by
  induction h with
  | left hn _ ih =>
      rw [firstRegistration?, silent_iff.mp hn]
      exact ih
  | right hm _ ih =>
      obtain ⟨c, c', hc, hc', hsame⟩ := ih
      refine ⟨c, c', hc, ?_, hsame⟩
      rw [firstRegistration?, silent_iff.mp hm]
      exact hc'
  | @registration c c' ns ms hc hreceiver hmethod hblock h =>
      have hblocks : c'.block.isSome = c.block.isSome :=
        hblock.trans (isSome_block_of_registers hc).symm
      have hc' : k.registers c' = true := (registers_congr hreceiver hmethod hblocks).trans hc
      refine ⟨c, c', ?_, ?_, declared_of_alikeCalls h⟩
      · rw [firstRegistration?, registration?_toNode, if_pos hc]
      · rw [firstRegistration?, registration?_toNode, if_pos hc']
  | program ns ms _ ih | statements ns ms _ ih =>
      obtain ⟨c, c', hc, hc', hsame⟩ := ih
      refine ⟨c, c', ?_, ?_, hsame⟩
      · rw [firstRegistration?, Node.registration?, hc]
      · rw [firstRegistration?, Node.registration?, hc']

theorem firstRegistration?_singleton (t : Node) :
    firstRegistration? k [t] = t.registration? k := by
  rw [firstRegistration?_eq_findSome?, List.findSome?_singleton]

end Conventions

open Conventions

/-- Every tree has its own outline, and a tree of the same outline declares the same entries with
the same notices. -/
theorem entries_of_sameOutline (k : Conventions) (t : Node) :
    k.SameOutline t t ∧ ∀ u, k.SameOutline t u → k.entries u = k.entries t := by
  refine ⟨.refl t, ?_⟩
  intro u h
  rcases h with ⟨ht, hu⟩ | h
  · rw [entries, entries, silent_iff.mp ht, silent_iff.mp hu]
  · obtain ⟨c, c', hc, hc', hsame⟩ := h.exists_registrations
    rw [firstRegistration?_singleton] at hc hc'
    rw [entries, entries, hc, hc']
    exact hsame.symm

def adminTrait (arguments : List Node) (block : Option (List Node)) : Call :=
  ⟨none, "trait", .string "admin" :: arguments, block⟩

def userFactory (receiver : Option Node) (arguments statements : List Node) : Call :=
  ⟨receiver, "factory", .string "user" :: arguments, some statements⟩

def registration (arguments statements : List Node) : Call :=
  ⟨some (.identifier "FactoryBot"), "define", arguments, some statements⟩

def bare : Node :=
  .program
    [.statements
      [(registration [] [(userFactory none [] [(adminTrait [] none).toNode]).toNode]).toNode]]

/-- The same with registrations where none is looked for, with other arguments and receivers, and
with a factory inside the factory. -/
def crowded : Node :=
  .program
    [.call none "wrap" [bare] (some [bare]),
      .statements
        [.other "comment",
          (registration [.string "strict"]
            [bare,
              (userFactory (some (.other "self")) [.identifier "options"]
                [(registration [] []).toNode, .call none "factory" [.identifier "nested"] none,
                  (adminTrait [.other "hash"] (some [bare])).toNode]).toNode,
              .other "assignment"]).toNode,
          bare],
      bare]

theorem entries_of_sameOutline_crowded :
    ({} : Conventions).SameOutline bare crowded ∧
      ({} : Conventions).entries crowded = ⟨[⟨"user", some ["admin"]⟩], []⟩ := by
  have houtline : ({} : Conventions).SameOutline bare crowded := by
    apply Or.inr
    apply SameFront.program
    apply SameFront.right (silent_iff.mpr rfl)
    apply SameFront.statements
    apply SameFront.right (silent_iff.mpr rfl)
    refine SameFront.registration [] [bare] rfl rfl rfl rfl ?_
    apply AlikeCalls.right (by rintro _ ⟨⟩)
    refine AlikeCalls.call rfl rfl ⟨rfl, ?_⟩ (.right (by rintro _ ⟨⟩) .nil)
    apply AlikeCalls.right (by rintro _ ⟨⟩; decide)
    apply AlikeCalls.right (by rintro _ ⟨⟩; decide)
    exact AlikeCalls.call rfl rfl rfl .nil
  refine ⟨houtline, ?_⟩
  calc
    ({} : Conventions).entries crowded = ({} : Conventions).entries bare :=
      (entries_of_sameOutline {} bare).2 crowded houtline
    _ = ⟨[⟨"user", some ["admin"]⟩], []⟩ := rfl

end FactoryRoster
