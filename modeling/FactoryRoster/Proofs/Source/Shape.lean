import FactoryRoster.Proofs.Source.Commands
import FactoryRoster.Proofs.Source.Placed
import FactoryRoster.Proofs.Tree.Containers

/-!
# The shape of a program's tree

A concrete tree whose bodies stand where they may is lowered to a container whose statements hold no
container, however deep one looks: the body of a block is replaced by its statements, and what is in
a construct is left out. So only the statements of the program itself have a place. A statement that
begins with the word of a construct makes a tree whose innermost receiver is the construct
(`Expr.OnOther`), and that is no registration.
-/

namespace FactoryRoster

/-- Whether a tree is that of a program with the given statements: nothing in it is a container, and
its registration is the first of its statements that is one. -/
structure Node.IsProgramOf (statements : List Node) (tree : Node) : Prop where
  program : tree = .program statements
  within : ∀ m : Node, m.IsWithin tree → ¬ m.IsContainer
  found : ∀ k c, tree.registration? k = some c ↔
    ∃ before after, statements = before ++ c.toNode :: after ∧ k.IsRegistration c ∧
      ∀ c' : Call, c'.toNode ∈ before → ¬ k.IsRegistration c'
  missed : ∀ k, tree.registration? k = none ↔
    ∀ c : Call, c.toNode ∈ statements → ¬ k.IsRegistration c

namespace Source

/-! ### Lowering -/

theorem listToNodes_eq_map (es : List Expr) : Expr.listToNodes es = es.map Expr.toNode := by
  induction es with
  | nil => rfl
  | cons e es ih => rw [Expr.listToNodes, ih, List.map_cons]

theorem Expr.IsPlain.not_isContainer {e : Expr} (h : e.IsPlain) : ¬ e.toNode.IsContainer := by
  intro hcontainer
  cases h with
  | call method => cases method <;> cases hcontainer
  | _ => cases hcontainer

theorem exists_of_mem_listToNodes {es : List Expr} (hes : Expr.ArePlain es) {m : Node}
    (hm : m ∈ Expr.listToNodes es) : ∃ e : Expr, e.IsPlain ∧ m = e.toNode := by
  rw [listToNodes_eq_map, List.mem_map] at hm
  obtain ⟨e, he, rfl⟩ := hm
  exact ⟨e, hes e he, rfl⟩

theorem Expr.IsPlain.mem_statementNodes_cons {child : Expr} (h : child.IsPlain)
    {children : List Expr} {m : Node} (hm : m ∈ statementNodes (child :: children)) :
    m = child.toNode ∨ m ∈ statementNodes children := by
  cases h with
  | parameters => exact .inr hm
  | _ => exact List.mem_cons.mp hm

/-- The statements of a block are its plain children and those of its body. -/
theorem exists_of_mem_statementNodes {children : List Expr} (h : Expr.AreChildren children)
    {m : Node} (hm : m ∈ Expr.statementNodes children) : ∃ e : Expr, e.IsPlain ∧ m = e.toNode := by
  induction children with
  | nil => cases hm
  | cons child children ih =>
      obtain ⟨hchild, hchildren⟩ := List.forall_mem_cons.mp h
      cases hchild with
      | body kind hbody =>
          rcases List.mem_append.mp hm with hm | hm
          · exact exists_of_mem_listToNodes hbody hm
          · exact ih hchildren hm
      | plain hplain =>
          rcases hplain.mem_statementNodes_cons hm with rfl | hm
          · exact ⟨child, hplain, rfl⟩
          · exact ih hchildren hm

/-- Whatever is directly in what a plain tree is lowered to comes from a plain tree. -/
theorem Expr.IsPlain.exists_of_mem_parts {e : Expr} (h : e.IsPlain) {m : Node}
    (hm : m ∈ e.toNode.parts) : ∃ e' : Expr, e'.IsPlain ∧ m = e'.toNode := by
  cases h with
  | @call receiver method arguments block hreceiver harguments hblock =>
      cases method with
      | none => cases hm
      | some method =>
          simp only [toNode, Node.parts, List.mem_append, Option.mem_toList] at hm
          rcases hm with (hm | hm) | hm
          · cases receiver with
            | none => cases hm
            | some r => exact ⟨r, hreceiver r rfl, (Option.some.inj hm).symm⟩
          · exact exists_of_mem_listToNodes harguments hm
          · cases block with
            | none => cases hm
            | some children => exact exists_of_mem_statementNodes (hblock children rfl) hm
  | _ => cases hm

theorem not_isContainer_of_isWithin {statements : List Expr} (h : Expr.ArePlain statements)
    {m : Node} (hm : m.IsWithin (Expr.program statements).toNode) : ¬ m.IsContainer := by
  have hplain : ∃ e : Expr, e.IsPlain ∧ m = e.toNode := by
    induction hm using Relation.TransGen.head_induction_on with
    | single hm => exact exists_of_mem_listToNodes h hm
    | head hm _ ih =>
        obtain ⟨e, he, rfl⟩ := ih
        exact he.exists_of_mem_parts hm
  obtain ⟨e, he, rfl⟩ := hplain
  exact he.not_isContainer

/-- What a tree is lowered to if its bodies stand where they may. -/
theorem Expr.IsPlaced.exists_isProgramOf {t : Expr} (h : t.IsPlaced) :
    ∃ statements, t.toNode.IsProgramOf statements := by
  obtain ⟨h⟩ := h
  rename_i children
  have hplain : ∀ n ∈ listToNodes children, ¬ n.IsContainer := by
    intro n hn
    exact not_isContainer_of_isWithin h (Relation.TransGen.single hn)
  exact ⟨listToNodes children, rfl, fun m hm => not_isContainer_of_isWithin h hm,
    fun k c => firstRegistration?_eq_some_iff hplain,
    fun k => firstRegistration?_eq_none_iff hplain⟩

/-! ### Constructs -/

/-- The words with which constructs begin. -/
def constructWords : List Keyword :=
  [.if_, .unless_, .while_, .until_, .for_, .case_, .begin_, .def_, .class_, .module_]

/-- Whether the innermost receiver of an expression is something that only has a kind. -/
inductive Expr.OnOther : Expr → Prop
  | node (kind : String) (children : List Expr) : OnOther (.node kind children)
  | call {receiver : Expr} (h : OnOther receiver) (method : Option (List Char))
      (arguments : List Expr) (block : Option (List Expr)) :
      OnOther (.call (some receiver) method arguments block)

theorem grows_onOther : Grows Expr.OnOther where
  other kind := .node kind []
  call method _ _ hreceiver _ _ := .call hreceiver method _ _

theorem Expr.OnOther.not_isContainer {e : Expr} (h : e.OnOther) : ¬ e.toNode.IsContainer := by
  intro hcontainer
  cases h with
  | node kind children => cases hcontainer
  | call hreceiver method => cases method <;> cases hcontainer

theorem Expr.OnOther.registration?_eq_none {e : Expr} (h : e.OnOther) (k : Conventions) :
    e.toNode.registration? k = none := by
  rw [Node.registration?_eq_none_iff h.not_isContainer]
  intro c hnode hregistration
  cases h with
  | node kind children => cases hnode
  | @call receiver hreceiver method arguments block =>
      cases method with
      | none => cases hnode
      | some method =>
          have hcall := congrArg Node.call? hnode
          rw [Call.call?_toNode] at hcall
          have hname : some receiver.toNode = some (.identifier k.receiver) := by
            rw [← hregistration.receiver, ← Option.some.inj hcall]
            rfl
          cases hreceiver with
          | node kind children => cases Option.some.inj hname
          | call hinner name => cases name <;> cases Option.some.inj hname

namespace Rules

open Reader

variable {readers : Readers} {s : Setting}

/-- A term whose innermost receiver is something that only has a kind. -/
abbrev OnOther (t : Term) : Prop :=
  t.Has Expr.OnOther

theorem IsConstruct.onOther {e : Expr} (h : IsConstruct e) : e.OnOther := by
  cases h with
  | mk kind h => exact .node kind _

theorem isSome_construct? {w : Keyword} (hw : w ∈ constructWords) :
    (construct? readers s w).isSome = true := by
  simp only [constructWords, List.mem_cons, List.not_mem_nil, or_false] at hw
  rcases hw with rfl | rfl | rfl | rfl | rfl | rfl | rfl | rfl | rfl | rfl <;> rfl

theorem wordAhead_prefix (text : List Char) : wordAhead text <+: text := by
  have hname : nameAhead text ++ text.drop (nameAhead text).length = text :=
    (List.prefix_iff_eq_append.mp (List.takeWhile_prefix isNameChar))
  have hmark : ∀ mark rest, text.drop (nameAhead text).length = mark :: rest →
      nameAhead text ++ [mark] <+: text := by
    intro mark rest hdrop
    refine ⟨rest, ?_⟩
    rw [List.append_assoc, List.singleton_append, ← hdrop, hname]
  unfold wordAhead
  dsimp only
  split
  · rename_i rest hdrop
    exact hmark '?' rest hdrop
  · exact ⟨_, hname⟩
  · rename_i rest _ hdrop
    split
    · exact hmark '!' rest hdrop
    · exact ⟨_, hname⟩
  · exact ⟨_, hname⟩

theorem head?_spelling {w : Keyword} (hw : w ∈ constructWords) :
    ∃ first rest, w.spelling = first :: rest ∧ isNameStart first = true := by
  simp only [constructWords, List.mem_cons, List.not_mem_nil, or_false] at hw
  rcases hw with rfl | rfl | rfl | rfl | rfl | rfl | rfl | rfl | rfl | rfl <;>
    exact ⟨_, _, rfl, by decide⟩

section Words

variable {c : Cursor} {w : Keyword} (hw : w ∈ constructWords) (hc : keywordAhead? c.text = some w)

include hw hc

theorem exists_start_of_construct :
    ∃ first rest, c.text = first :: rest ∧ isNameStart first = true := by
  obtain ⟨first, more, hspelling, hfirst⟩ := head?_spelling hw
  obtain ⟨rest, hrest⟩ := wordAhead_prefix c.text
  rw [← Keyword.spelling_of_ofName? hc, hspelling] at hrest
  exact ⟨first, more ++ rest, hrest.symm, hfirst⟩

theorem ensuresAt_primary (hr : readers.Plain) (commands : Bool) :
    (primary readers s commands).EnsuresAt c OnOther := by
  obtain ⟨first, rest, htext, hfirst⟩ := exists_start_of_construct hw hc
  obtain ⟨p, hp⟩ : ∃ p, construct? readers s w = some p :=
    Option.isSome_iff_exists.mp (isSome_construct? hw)
  have hword : wordOperand readers s commands (wordAhead c.text) =
      p >>= fun e => pure ⟨e, .value⟩ := by
    rw [keywordAhead?] at hc
    rw [wordOperand, hc]
    simp only [hp]
  apply ensuresAt_get
  rw [htext] at hword ⊢
  simp only [hfirst, if_true, hword]
  exact (ensures_construct? hr hp).bind (P := Term.Has Expr.OnOther)
    (fun e he => ensures_pure he.onOther) c

theorem ensuresAt_operand (n level : Nat) (commands : Bool) :
    ((Readers.upTo n).operand s level commands).EnsuresAt c OnOther := by
  cases n with
  | zero => exact ensures_failure c
  | succ n =>
      obtain ⟨first, rest, htext, hfirst⟩ := exists_start_of_construct hw hc
      have hplain : (operand.plain (.upTo n) s level commands).EnsuresAt c OnOther :=
        (ensuresAt_primary hw hc (upTo_plain n) commands).bind fun t ht =>
          ensures_continued (upTo_keep grows_onOther n) ht
      have hopens := opensOperand_of_isNameStart hfirst
      rw [upTo_operand]
      apply ensuresAt_get
      rw [htext] at hc ⊢
      split
      case h_9 =>
        rw [hc]
        cases w with
        | not_ | defined => exact absurd hw (by decide)
        | _ => exact hplain
      all_goals simp_all [opensOperand]

theorem ensuresAt_unmodified (n : Nat) (opening : Bool) :
    (unmodified (.upTo n) s opening).EnsuresAt c OnOther := by
  refine EnsuresAt.bind (ensuresAt_operand hw hc n 0 true) ?_
  intro t ht
  have hk : (Readers.upTo n).Keep Expr.OnOther := upTo_keep grows_onOther n
  apply ensures_bind
  intro after
  split
  · exact ensures_pure ht
  · split
    · apply ensures_bind
      intro _
      exact ensures_bind_pure (grows_onOther.other _)
    · split
      · apply ensures_bind
        intro _
        apply ensures_bind
        intro isPair
        split
        · exact ensures_pure (grows_onOther.other _)
        · exact hk.joins (grows_onOther.other _)
      · exact (ensures_matched grows_onOther ht).bind fun t ht => hk.joins ht

/-- A statement that begins with the word of a construct is on something of which only the kind is
kept. -/
theorem ensuresAt_statement (n : Nat) (follow : List Keyword) (opening : Bool) :
    ((Readers.upTo n).statement follow opening).EnsuresAt c OnOther := by
  cases n with
  | zero => exact ensures_failure c
  | succ n =>
      have hmodified : ∀ s : Setting,
          (statement.modified (.upTo n) s (unmodified (.upTo n) s opening)).EnsuresAt c
            OnOther := by
        intro s
        refine EnsuresAt.bind (ensuresAt_unmodified hw hc n opening) ?_
        intro t ht
        split
        · exact ensures_pure ht
        · exact ((upTo_keep grows_onOther n).modifiers ht).bind fun e he => ensures_pure he
      rw [upTo_statement]
      apply ensuresAt_get
      rw [hc]
      cases w with
      | undef | alias_ | beginBlock | endBlock => exact absurd hw (by decide)
      | _ => exact hmodified _

end Words

end Rules

/-- The tree of a program is lowered from a concrete tree whose bodies stand where they may, and any
such tree is lowered to a container with no container in it, at any depth. Its registration is the
first of its statements that is one; a statement that begins with the word of a construct is none,
whatever stands in the construct. -/
theorem shape_of_parse? {text : String} {tree : Node} (h : parse? text = some tree) :
    (∃ t : Expr, programTree? text = some t ∧ t.IsPlaced ∧ tree = t.toNode ∧
      ∃ statements, tree.IsProgramOf statements) ∧
    (∀ t : Expr, t.IsPlaced → ∃ statements, t.toNode.IsProgramOf statements) ∧
    ∀ n follow opening c t after, (Readers.upTo n).statement follow opening c = some (t, after) →
      ∀ w ∈ constructWords, keywordAhead? c.text = some w →
        ∀ k, t.expr.toNode.registration? k = none := by
  rw [parse?, Option.map_eq_some_iff] at h
  obtain ⟨t, ht, rfl⟩ := h
  have hplaced := isPlaced_of_programTree? ht
  refine ⟨⟨t, ht, hplaced, rfl, hplaced.exists_isProgramOf⟩, ?_, ?_⟩
  · intro t ht
    exact ht.exists_isProgramOf
  · intro n follow opening c t after hread w hw hc k
    exact (Rules.ensuresAt_statement hw hc n follow opening t after hread).registration?_eq_none k

/-- A registration in a class, and one in the block of another call. -/
def wrappedSource : String :=
  "class A\n  FactoryBot.define do\n  end\nend\nwrap do\n  FactoryBot.define {}\nend\n"

/-- Neither of them is found, and no container is left of the two bodies. -/
theorem shape_of_parse?_wrapped :
    ∃ t tree, programTree? wrappedSource = some t ∧ t.IsPlaced ∧
      parse? wrappedSource = some tree ∧ tree.contained.map Node.kind = ["class", "call"] ∧
      (∀ m : Node, m.IsWithin tree → ¬ m.IsContainer) ∧
      (∀ c : Call, c.toNode ∈ tree.contained → ¬ ({} : Conventions).IsRegistration c) ∧
      keywordAhead? wrappedSource.toList = some .class_ ∧
      ∃ t after, (Readers.upTo 99).statement [] false { text := wrappedSource.toList } =
        some (t, after) ∧ t.expr.toNode.registration? {} = none := by
  have hfound : (parse? wrappedSource).map
      (fun tree => (tree.contained.map Node.kind, (tree.registration? {}).isNone)) =
        some (["class", "call"], true) := by decide +kernel
  have hclass : keywordAhead? wrappedSource.toList = some .class_ := by decide +kernel
  have hread : ((Readers.upTo 99).statement [] false
      { text := wrappedSource.toList }).isSome = true := by decide +kernel
  obtain ⟨tree, hparse, hfound⟩ := Option.map_eq_some_iff.mp hfound
  obtain ⟨hkinds, hnone⟩ := Prod.mk.inj hfound
  obtain ⟨⟨t, after⟩, hread⟩ := Option.isSome_iff_exists.mp hread
  obtain ⟨⟨concrete, hconcrete, hplaced, -, statements, hprogram⟩, -, hconstructs⟩ :=
    shape_of_parse? hparse
  refine ⟨concrete, tree, hconcrete, hplaced, hparse, hkinds, hprogram.within, ?_, hclass, t,
    after, hread, ?_⟩
  · rw [hprogram.program]
    exact (hprogram.missed {}).mp (Option.isNone_iff_eq_none.mp hnone)
  · exact hconstructs 99 [] false _ t after hread .class_ (by decide) hclass {}

end Source

end FactoryRoster
