import Mathlib.Logic.Equiv.Basic
import FactoryRoster.Declaration
import FactoryRoster.Proofs.Tree.Outline

/-!
# Renamed trees

No word of the definition language is built in. If the methods and the names of a tree are renamed,
each by an injective function, and the conventions with them, then the tree declares the same
entries, and what is said of a declaration without a name mentions its new method.
-/

namespace FactoryRoster

mutual

/-- The tree with its methods renamed by `f` and its names by `g`. -/
def Node.rename (f g : String → String) : Node → Node
  | .program children => .program (renameAll f g children)
  | .statements children => .statements (renameAll f g children)
  | .call receiver method arguments block =>
    .call (renameReceiver f g receiver) (f method) (renameAll f g arguments)
      (renameBlock f g block)
  | .string text => .string text
  | .identifier name => .identifier (g name)
  | .other kind => .other kind

def renameAll (f g : String → String) : List Node → List Node
  | [] => []
  | n :: ns => n.rename f g :: renameAll f g ns

def renameReceiver (f g : String → String) : Option Node → Option Node
  | none => none
  | some n => some (n.rename f g)

def renameBlock (f g : String → String) : Option (List Node) → Option (List Node)
  | none => none
  | some ns => some (renameAll f g ns)

end

def Call.rename (f g : String → String) (c : Call) : Call :=
  ⟨renameReceiver f g c.receiver, f c.method, renameAll f g c.arguments, renameBlock f g c.block⟩

def Conventions.rename (f g : String → String) (k : Conventions) : Conventions where
  receiver := g k.receiver
  method := f k.method
  factoryWord := f k.factoryWord
  traitWord := f k.traitWord

/-- The notice with the method of a declaration renamed. -/
def Notice.rename (f : String → String) : Notice → Notice
  | nameless word lack => nameless (f word) lack
  | notice => notice

/-- The report with the methods in its notices renamed. -/
def Report.rename {α : Type} (f : String → String) (r : Report α) : Report α where
  value := r.value
  notices := r.notices.map (·.rename f)

variable {f g : String → String}

theorem Report.join_rename {α : Type} (reports : List (Report (List α))) :
    Report.join (reports.map (·.rename f)) = (Report.join reports).rename f := by
  have hvalue : (reports.map (·.rename f)).flatMap Report.value = reports.flatMap Report.value := by
    rw [List.flatMap_map]
    rfl
  have hnotices : (reports.map (·.rename f)).flatMap Report.notices =
      (reports.flatMap Report.notices).map (·.rename f) := by
    rw [List.flatMap_map, List.map_flatMap]
    rfl
  rw [Report.join, hvalue, hnotices]
  rfl

theorem renameAll_eq_map (ns : List Node) : renameAll f g ns = ns.map (·.rename f g) := by
  induction ns with
  | nil => rfl
  | cons n ns ih => rw [renameAll, ih, List.map_cons]

namespace Call

@[simp] theorem method_rename (c : Call) : (c.rename f g).method = f c.method := rfl

theorem blockStatements_rename (c : Call) :
    (c.rename f g).blockStatements = c.blockStatements.map (·.rename f g) := by
  obtain ⟨receiver, method, arguments, block⟩ := c
  cases block with
  | none => rfl
  | some statements => exact renameAll_eq_map statements

theorem isSome_block_rename (c : Call) : (c.rename f g).block.isSome = c.block.isSome := by
  obtain ⟨receiver, method, arguments, block⟩ := c
  cases block <;> rfl

theorem firstArgument?_rename (c : Call) :
    (c.rename f g).firstArgument? = c.firstArgument?.map (·.rename f g) := by
  have harguments : (c.rename f g).arguments = c.arguments.map (·.rename f g) :=
    renameAll_eq_map c.arguments
  rw [firstArgument?, firstArgument?, harguments, List.head?_map]

theorem receiverName?_rename (c : Call) :
    (c.rename f g).receiverName? = c.receiverName?.map g := by
  obtain ⟨receiver, method, arguments, block⟩ := c
  cases receiver with
  | none => rfl
  | some n => cases n <;> rfl

end Call

theorem Node.call?_rename (n : Node) : (n.rename f g).call? = n.call?.map (·.rename f g) := by
  cases n <;> rfl

/-- The literal that names a declaration is no word of the program, and not renamed. -/
theorem Call.declaredName_rename (c : Call) : (c.rename f g).declaredName = c.declaredName := by
  rw [declaredName, declaredName, firstArgument?_rename]
  cases hfirst : c.firstArgument? with
  | none => rfl
  | some n => cases n <;> rfl

namespace Conventions

variable {k : Conventions}

theorem registers_rename (hf : Function.Injective f) (hg : Function.Injective g) (c : Call) :
    (k.rename f g).registers (c.rename f g) = k.registers c := by
  have hmethod : (f c.method == f k.method) = (c.method == k.method) := by
    rw [Bool.eq_iff_iff, beq_iff_eq, beq_iff_eq, hf.eq_iff]
  have hreceiver : (c.receiverName?.map g == some (g k.receiver)) =
      (c.receiverName? == some k.receiver) := by
    rw [Bool.eq_iff_iff, beq_iff_eq, beq_iff_eq, ← Option.map_some,
      (Option.map_injective hg).eq_iff]
  calc
    (k.rename f g).registers (c.rename f g) =
        (f c.method == f k.method && (c.rename f g).receiverName? == some (g k.receiver) &&
          (c.rename f g).block.isSome) := rfl
    _ = k.registers c := by
      rw [Call.receiverName?_rename, Call.isSome_block_rename, hmethod, hreceiver]
      rfl

mutual

theorem registration?_rename (hf : Function.Injective f) (hg : Function.Injective g) :
    ∀ n : Node, (n.rename f g).registration? (k.rename f g) =
      (n.registration? k).map (·.rename f g)
  | .program children => firstRegistration?_rename hf hg children
  | .statements children => firstRegistration?_rename hf hg children
  | .call receiver method arguments block => by
      let c : Call := ⟨receiver, method, arguments, block⟩
      show (if (k.rename f g).registers (c.rename f g) then some (c.rename f g) else none) =
        (if k.registers c then some c else none).map (·.rename f g)
      rw [registers_rename hf hg]
      cases k.registers c <;> rfl
  | .string _ => rfl
  | .identifier _ => rfl
  | .other _ => rfl

theorem firstRegistration?_rename (hf : Function.Injective f) (hg : Function.Injective g) :
    ∀ ns : List Node, firstRegistration? (k.rename f g) (renameAll f g ns) =
      (firstRegistration? k ns).map (·.rename f g)
  | [] => rfl
  | n :: ns => by
      rw [renameAll, firstRegistration?, firstRegistration?, registration?_rename hf hg n,
        firstRegistration?_rename hf hg ns]
      cases n.registration? k <;> rfl

end

theorem callsOf_rename (hf : Function.Injective f) (method : String) (ns : List Node) :
    callsOf (f method) (ns.map (·.rename f g)) = (callsOf method ns).map (·.rename f g) := by
  have hcalls : (ns.map (·.rename f g)).filterMap Node.call? =
      (ns.filterMap Node.call?).map (·.rename f g) := by
    rw [List.filterMap_map, List.map_filterMap]
    congr 1
    funext n
    exact n.call?_rename
  rw [callsOf, callsOf, hcalls, List.filter_map]
  congr 1
  apply List.filter_congr
  intro c _
  rw [Function.comp_apply, Call.method_rename, Bool.eq_iff_iff, beq_iff_eq, beq_iff_eq, hf.eq_iff]

theorem trait_rename (c : Call) : trait (c.rename f g) = (trait c).rename f := by
  rw [trait, trait, Call.declaredName_rename]
  cases c.declaredName <;> rfl

theorem traits_rename (hf : Function.Injective f) (statements : List Node) :
    (k.rename f g).traits (statements.map (·.rename f g)) = (k.traits statements).rename f := by
  have htraits : (fun c : Call => trait (c.rename f g)) = Report.rename f ∘ trait := by
    funext c
    exact trait_rename c
  calc
    (k.rename f g).traits (statements.map (·.rename f g)) =
        .join (((callsOf k.traitWord statements).map (·.rename f g)).map trait) := by
      rw [← callsOf_rename hf]
      rfl
    _ = .join (((callsOf k.traitWord statements).map trait).map (·.rename f)) := by
      rw [List.map_map, List.map_map, ← htraits]
      rfl
    _ = (k.traits statements).rename f := Report.join_rename _

theorem factory_rename (hf : Function.Injective f) (c : Call) :
    (k.rename f g).factory (c.rename f g) = (k.factory c).rename f := by
  rw [factory, factory, Call.declaredName_rename, Call.blockStatements_rename, traits_rename hf]
  cases c.declaredName <;> rfl

theorem declared_rename (hf : Function.Injective f) (c : Call) :
    (k.rename f g).declared (c.rename f g) = (k.declared c).rename f := by
  have hfactories : (fun c : Call => (k.rename f g).factory (c.rename f g)) =
      Report.rename f ∘ k.factory := by
    funext c
    exact factory_rename hf c
  calc
    (k.rename f g).declared (c.rename f g) =
        .join (((callsOf k.factoryWord c.blockStatements).map (·.rename f g)).map
          (k.rename f g).factory) := by
      rw [← callsOf_rename hf, ← Call.blockStatements_rename]
      rfl
    _ = .join (((callsOf k.factoryWord c.blockStatements).map k.factory).map (·.rename f)) := by
      rw [List.map_map, List.map_map, ← hfactories]
      rfl
    _ = (k.declared c).rename f := Report.join_rename _

end Conventions

/-- A tree that is renamed together with the conventions has the renamed registration, declares the
same entries, and gives the same notices but for the methods that they mention. -/
theorem entries_rename (hf : Function.Injective f) (hg : Function.Injective g) (k : Conventions)
    (t : Node) :
    (t.rename f g).registration? (k.rename f g) = (t.registration? k).map (·.rename f g) ∧
      ((k.rename f g).entries (t.rename f g)).value = (k.entries t).value ∧
      ((k.rename f g).entries (t.rename f g)).notices =
        (k.entries t).notices.map (·.rename f) := by
  have hregistration := Conventions.registration?_rename (k := k) hf hg t
  have hentries : (k.rename f g).entries (t.rename f g) = (k.entries t).rename f := by
    rw [Conventions.entries, Conventions.entries, hregistration]
    cases t.registration? k with
    | none => rfl
    | some c => exact Conventions.declared_rename hf c
  rw [hentries]
  exact ⟨hregistration, rfl, rfl⟩

def swapWords : String → String :=
  Equiv.swap "factory" "trait"

def swapNames : String → String :=
  Equiv.swap "FactoryBot" "options"

/-- Two factories, one of them with a trait without a name. -/
def namelessTrait : Node :=
  .program
    [(registration []
      [(userFactory (some (.identifier "FactoryBot")) [.identifier "options"]
        [.call none "trait" [] none]).toNode,
      .call none "factory" [.identifier "options"] none]).toNode]

/-- After the words for factories and traits have changed places, the notices mention the other
word. -/
theorem entries_rename_swapped :
    Function.Injective swapWords ∧ Function.Injective swapNames ∧
      (({} : Conventions).rename swapWords swapNames).entries
          (namelessTrait.rename swapWords swapNames) =
        ⟨[⟨"user", none⟩],
          [.nameless "factory" .absent, .nameless "trait" (.notLiteral "identifier")]⟩ := by
  have hwords : Function.Injective swapWords := (Equiv.swap "factory" "trait").injective
  have hnames : Function.Injective swapNames := (Equiv.swap "FactoryBot" "options").injective
  obtain ⟨-, hvalue, hnotices⟩ := entries_rename hwords hnames {} namelessTrait
  refine ⟨hwords, hnames, ?_⟩
  calc
    (({} : Conventions).rename swapWords swapNames).entries
          (namelessTrait.rename swapWords swapNames) =
        ⟨(({} : Conventions).entries namelessTrait).value,
          (({} : Conventions).entries namelessTrait).notices.map (·.rename swapWords)⟩ := by
      rw [← hvalue, ← hnotices]
    _ = _ := rfl

end FactoryRoster
