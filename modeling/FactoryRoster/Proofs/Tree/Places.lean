import Mathlib.Data.List.Basic
import FactoryRoster.Proofs.Tree.Outline

/-!
# Where the registration of a tree stands

The way through containers of statements gives every node that it leads to a place: the numbers of
the statements on that way. The calls at all places, in the order of the places, are the order of
the source (`Node.calls`), and the registration of a tree is the first of them that is one. No way
leads through a call, so that nothing in a receiver, in arguments or in a block has a place.
-/

namespace FactoryRoster

namespace Node

/-- The statements directly in a container. -/
def contained : Node → List Node
  | program children => children
  | statements children => children
  | _ => []

/-- The node at a place. -/
def at? (n : Node) : (place : List Nat) → Option Node
  | [] => some n
  | i :: place => n.contained[i]?.bind fun m => m.at? place

end Node

mutual

/-- The calls to which containers lead, each with its place. -/
def Node.calls : Node → List (List Nat × Call)
  | .program children => callsFrom 0 children
  | .statements children => callsFrom 0 children
  | .call receiver method arguments block => [([], ⟨receiver, method, arguments, block⟩)]
  | .string _ => []
  | .identifier _ => []
  | .other _ => []

/-- The calls in the statements of a container from the one with the number `i` on. -/
def callsFrom (i : Nat) : List Node → List (List Nat × Call)
  | [] => []
  | n :: ns => (n.calls.map fun x => (i :: x.1, x.2)) ++ callsFrom (i + 1) ns

end

/-- A call that registers factories: a method of a named receiver, with a block. -/
structure Conventions.IsRegistration (k : Conventions) (c : Call) : Prop where
  receiver : c.receiver = some (.identifier k.receiver)
  method : c.method = k.method
  block : ∃ statements, c.block = some statements

theorem Node.name?_eq_some_iff {n : Node} {name : String} :
    n.name? = some name ↔ n = .identifier name := by
  cases n <;> simp [Node.name?]

theorem Conventions.registers_iff {k : Conventions} {c : Call} :
    k.registers c = true ↔ k.IsRegistration c := by
  have hreceiver : c.receiverName? = some k.receiver ↔
      c.receiver = some (.identifier k.receiver) := by
    rw [Call.receiverName?, Option.bind_eq_some_iff]
    simp only [Node.name?_eq_some_iff]
    constructor
    · rintro ⟨_, hn, rfl⟩
      exact hn
    · exact fun hn => ⟨_, hn, rfl⟩
  rw [registers, Bool.and_eq_true, Bool.and_eq_true, beq_iff_eq, beq_iff_eq, hreceiver,
    Option.isSome_iff_exists]
  constructor
  · rintro ⟨⟨hmethod, hreceiver⟩, hblock⟩
    exact ⟨hreceiver, hmethod, hblock⟩
  · rintro ⟨hreceiver, hmethod, hblock⟩
    exact ⟨⟨hmethod, hreceiver⟩, hblock⟩

/-! ### The calls and their places -/

theorem mem_callsFrom {ns : List Node} {i : Nat} {place : List Nat} {c : Call} :
    (place, c) ∈ callsFrom i ns ↔
      ∃ j rest n, place = (i + j) :: rest ∧ ns[j]? = some n ∧ (rest, c) ∈ n.calls := by
  induction ns generalizing i with
  | nil => simp [callsFrom]
  | cons n ns ih =>
      rw [callsFrom, List.mem_append, List.mem_map, ih]
      constructor
      · rintro (⟨⟨rest, c'⟩, hmem, heq⟩ | ⟨j, rest, m, rfl, hm, hmem⟩)
        · obtain ⟨rfl, rfl⟩ := Prod.mk.inj heq
          exact ⟨0, rest, n, rfl, rfl, hmem⟩
        · refine ⟨j + 1, rest, m, ?_, hm, hmem⟩
          rw [Nat.add_right_comm, Nat.add_assoc]
      · rintro ⟨j, rest, m, rfl, hm, hmem⟩
        cases j with
        | zero =>
            obtain rfl := Option.some.inj hm
            exact .inl ⟨(rest, c), hmem, rfl⟩
        | succ j =>
            refine .inr ⟨j, rest, m, ?_, hm, hmem⟩
            rw [Nat.add_right_comm, Nat.add_assoc]

theorem callsFrom_contained (n : Node) (h : n.call? = none) :
    n.calls = callsFrom 0 n.contained := by
  cases n with
  | call receiver method arguments block => cases h
  | _ => rfl

theorem mem_calls {n : Node} {place : List Nat} {c : Call} :
    (place, c) ∈ n.calls ↔ n.at? place = some c.toNode := by
  induction place generalizing n with
  | nil =>
      rw [Node.at?, Option.some.injEq]
      cases hn : n.call? with
      | none =>
          have hplace : ([], c) ∉ n.calls := by
            rw [callsFrom_contained n hn, mem_callsFrom]
            rintro ⟨j, rest, m, heq, -⟩
            cases heq
          refine iff_of_false hplace ?_
          rintro rfl
          cases hn
      | some c' =>
          obtain rfl := Node.call?_eq_some_iff.mp hn
          have hcalls : c'.toNode.calls = [([], c')] := rfl
          rw [hcalls, List.mem_singleton]
          constructor
          · intro h
            rw [(Prod.mk.inj h).2]
          · intro h
            have hcall := congrArg Node.call? h
            rw [Call.call?_toNode, Call.call?_toNode, Option.some.injEq] at hcall
            rw [hcall]
  | cons i place ih =>
      rw [Node.at?, Option.bind_eq_some_iff]
      cases hn : n.call? with
      | none =>
          rw [callsFrom_contained n hn, mem_callsFrom]
          constructor
          · rintro ⟨j, rest, m, heq, hm, hmem⟩
            obtain ⟨rfl, rfl⟩ := List.cons.inj heq
            rw [Nat.zero_add]
            exact ⟨m, hm, ih.mp hmem⟩
          · rintro ⟨m, hm, hat⟩
            exact ⟨i, place, m, by rw [Nat.zero_add], hm, ih.mpr hat⟩
      | some c' =>
          obtain rfl := Node.call?_eq_some_iff.mp hn
          have hcalls : c'.toNode.calls = [([], c')] := rfl
          rw [hcalls]
          constructor
          · intro h
            cases List.mem_singleton.mp h
          · rintro ⟨m, hm, -⟩
            cases hm

mutual

theorem pairwise_calls : ∀ n : Node, n.calls.Pairwise fun x y => x.1 < y.1
  | .program children => pairwise_callsFrom 0 children
  | .statements children => pairwise_callsFrom 0 children
  | .call _ _ _ _ => List.pairwise_singleton _ _
  | .string _ => .nil
  | .identifier _ => .nil
  | .other _ => .nil

theorem pairwise_callsFrom :
    ∀ (i : Nat) (ns : List Node), (callsFrom i ns).Pairwise fun x y => x.1 < y.1
  | _, [] => .nil
  | i, n :: ns => by
      rw [callsFrom, List.pairwise_append, List.pairwise_map]
      refine ⟨?_, pairwise_callsFrom (i + 1) ns, ?_⟩
      · apply (pairwise_calls n).imp
        intro x y hxy
        exact List.cons_lt_cons_iff.mpr (.inr ⟨rfl, hxy⟩)
      · rintro x hx ⟨place, c⟩ hy
        obtain ⟨x', -, rfl⟩ := List.mem_map.mp hx
        obtain ⟨j, rest, m, rfl, -⟩ := mem_callsFrom.mp hy
        apply List.cons_lt_cons_iff.mpr
        left
        omega

end

/-! ### The first registration -/

mutual

theorem registration?_eq_find? (k : Conventions) :
    ∀ n : Node, n.registration? k = (n.calls.find? fun x => k.registers x.2).map Prod.snd
  | .program children => firstRegistration?_eq_find? k 0 children
  | .statements children => firstRegistration?_eq_find? k 0 children
  | .call receiver method arguments block => by
      rw [Node.registration?, Node.calls, List.find?_singleton]
      split <;> rfl
  | .string _ => rfl
  | .identifier _ => rfl
  | .other _ => rfl

theorem firstRegistration?_eq_find? (k : Conventions) :
    ∀ (i : Nat) (ns : List Node),
      firstRegistration? k ns = ((callsFrom i ns).find? fun x => k.registers x.2).map Prod.snd
  | _, [] => rfl
  | i, n :: ns => by
      have hsame : (n.calls.map fun x => (i :: x.1, x.2)).find? (fun x => k.registers x.2) =
          (n.calls.find? fun x => k.registers x.2).map fun x => (i :: x.1, x.2) :=
        List.find?_map
      rw [firstRegistration?, callsFrom, List.find?_append, hsame, registration?_eq_find? k n,
        firstRegistration?_eq_find? k (i + 1) ns]
      cases n.calls.find? fun x => k.registers x.2 <;> rfl

end

theorem Node.at?_append (n : Node) (place rest : List Nat) :
    n.at? (place ++ rest) = (n.at? place).bind fun m => m.at? rest := by
  induction place generalizing n with
  | nil => rfl
  | cons i place ih =>
      rw [List.cons_append, Node.at?, Node.at?]
      cases n.contained[i]? with
      | none => rfl
      | some m => exact ih m

/-- The registration of a tree is the first registration among the calls to which containers lead,
in the order of their places, and there is none if none of these calls is one. No place is within
a call. -/
theorem registration?_first (k : Conventions) (t : Node) :
    (∀ c, t.registration? k = some c ↔
      ∃ before place after, t.calls = before ++ (place, c) :: after ∧ k.IsRegistration c ∧
        ∀ x ∈ before, ¬ k.IsRegistration x.2) ∧
    (t.registration? k = none ↔ ∀ x ∈ t.calls, ¬ k.IsRegistration x.2) ∧
    (∀ place (c : Call), (place, c) ∈ t.calls ↔ t.at? place = some c.toNode) ∧
    t.calls.Pairwise (fun x y => x.1 < y.1) ∧
    ∀ place (c : Call) i rest, t.at? place = some c.toNode → t.at? (place ++ i :: rest) = none := by
  refine ⟨?_, ?_, fun place c => mem_calls, pairwise_calls t, ?_⟩
  · intro c
    rw [registration?_eq_find?, Option.map_eq_some_iff]
    constructor
    · rintro ⟨⟨place, c⟩, hfind, rfl⟩
      obtain ⟨hregisters, before, after, hcalls, hbefore⟩ := List.find?_eq_some_iff_append.mp hfind
      refine ⟨before, place, after, hcalls, Conventions.registers_iff.mp hregisters, ?_⟩
      intro x hx hregistration
      have hnot := hbefore x hx
      rw [Conventions.registers_iff.mpr hregistration] at hnot
      cases hnot
    · rintro ⟨before, place, after, hcalls, hregistration, hbefore⟩
      refine ⟨(place, c), ?_, rfl⟩
      apply List.find?_eq_some_iff_append.mpr
      refine ⟨Conventions.registers_iff.mpr hregistration, before, after, hcalls, ?_⟩
      intro x hx
      rw [Bool.not_eq_true', Bool.eq_false_iff]
      intro hregisters
      exact hbefore x hx (Conventions.registers_iff.mp hregisters)
  · rw [registration?_eq_find?, Option.map_eq_none_iff, List.find?_eq_none]
    simp only [Conventions.registers_iff]
  · intro place c i rest hat
    rw [Node.at?_append, hat]
    rfl

def wrapper : Call :=
  ⟨none, "wrap", [(registration [] []).toNode], some [(registration [] []).toNode]⟩

/-- A registration two containers deep, after one that is wrapped in a call and before another. -/
def nested : Node :=
  .program
    [.other "comment",
      .statements [wrapper.toNode, .statements [(registration [.string "deep"] []).toNode]],
      (registration [] []).toNode]

theorem registration?_first_nested :
    nested.registration? {} = some (registration [.string "deep"] []) ∧
      nested.at? [1, 0] = some wrapper.toNode ∧ nested.at? [1, 0, 0] = none := by
  obtain ⟨hfirst, -, -, -, hwithin⟩ := registration?_first {} nested
  refine ⟨(hfirst _).mpr ?_, rfl, hwithin [1, 0] wrapper 0 [] rfl⟩
  refine ⟨[([1, 0], wrapper)], [1, 1, 0], [([2], registration [] [])], rfl, ⟨rfl, rfl, [], rfl⟩, ?_⟩
  intro x hx hregistration
  obtain rfl := List.mem_singleton.mp hx
  cases hregistration.receiver

end FactoryRoster
