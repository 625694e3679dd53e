import FactoryRoster.Proofs.Source.Continued

/-!
# Where bodies stand

Whatever is read of a text is a program whose bodies stand where they may. Every rule gives plain
trees if the readers of the phrases in it do, and therefore so do the readers at any depth.
-/

namespace FactoryRoster.Source

namespace Rules

open Reader

variable {readers : Readers} {s : Setting}

/-! ### Constructs -/

/-- A tree that has a kind and the children of a construct. -/
inductive IsConstruct : Expr → Prop
  | mk (kind : String) {children : List Expr} (h : Expr.AreChildren children) :
      IsConstruct (.node kind children)

theorem IsConstruct.isPlain {e : Expr} (h : IsConstruct e) : e.IsPlain := by
  cases h with
  | mk kind h => exact .node kind h

theorem isConstruct_other (kind : String) : IsConstruct (.other kind) :=
  .mk kind (by simp [Expr.AreChildren])

theorem isConstruct_bodyOf (kind : String) {es : List Expr} (h : Expr.ArePlain es) :
    IsConstruct (.node kind (Expr.bodyOf .statement es)) :=
  .mk kind (Expr.areChildren_bodyOf .statement h)

theorem ensures_kept (kind : String) (p : Reader Unit) :
    (construct?.kept kind p).Ensures IsConstruct :=
  ensures_bind_pure (isConstruct_other kind)

theorem ensures_caseOf : (caseOf readers).Ensures IsConstruct := by
  have hbranches : ∀ bare : Bool, Reader.Ensures IsConstruct (do
      let _ ← takeTerminator readers
      let c ← get
      if !bare && nameAhead c.text == Keyword.in_.spelling then
        readers.matchArms
        pure (.other "case_match")
      else
        readers.arms
        pure (.other "case")) := by
    intro bare
    apply ensures_bind
    intro _
    apply ensures_bind
    intro c
    split
    · exact ensures_bind_pure (isConstruct_other _)
    · exact ensures_bind_pure (isConstruct_other _)
  apply ensures_bind
  intro _
  apply ensures_bind
  intro c
  dsimp only
  split
  · exact hbranches _
  · exact ensures_bind fun _ => hbranches _

section Constructs

variable (hr : readers.Plain)

include hr

theorem ensures_openBody : (openBody readers).Ensures Expr.ArePlain :=
  ensures_bind fun _ => ensures_body hr

theorem ensures_signature : (signature readers s).Ensures Expr.ArePlain := by
  have hshort : (signature.short readers s).Ensures Expr.ArePlain :=
    ensures_bind_pure (by simp [Expr.ArePlain])
  apply ensures_bind
  intro c
  split
  · exact ensures_openBody hr
  · exact ensures_openBody hr
  · exact hshort
  · apply ensures_bind
    intro _
    apply ensures_bind
    intro _
    apply ensures_bind
    intro c
    split
    · exact hshort
    · exact ensures_openBody hr
  · apply ensures_bind
    intro _
    apply ensures_bind
    intro ended
    split
    · exact ensures_body hr
    · exact ensures_failure

theorem ensures_definition : (definition readers s).Ensures IsConstruct := by
  apply ensures_bind
  intro _
  apply ensures_bind
  intro o
  apply ensures_bind
  intro _
  exact (ensures_signature hr).bind fun inner h => ensures_pure (isConstruct_bodyOf _ h)

theorem ensures_closedBody : (classOf.closedBody readers).Ensures Expr.ArePlain := by
  apply ensures_bind
  intro ended
  split
  · exact ensures_body hr
  · exact ensures_failure

theorem ensures_classOf : (classOf readers).Ensures IsConstruct := by
  apply ensures_bind
  intro _
  apply ensures_bind
  intro c
  split
  · apply ensures_bind
    intro _
    apply ensures_bind
    intro _
    exact (ensures_closedBody hr).bind fun inner h => ensures_pure (isConstruct_bodyOf _ h)
  · apply ensures_bind
    intro _
    apply ensures_bind
    intro c
    split
    · apply ensures_bind
      intro _
      apply ensures_bind
      intro _
      exact (ensures_closedBody hr).bind fun inner h => ensures_pure (isConstruct_bodyOf _ h)
    · exact (ensures_openBody hr).bind fun inner h => ensures_pure (isConstruct_bodyOf _ h)

theorem ensures_moduleOf : (moduleOf readers).Ensures IsConstruct := by
  apply ensures_bind
  intro _
  apply ensures_bind
  intro _
  exact (ensures_openBody hr).bind fun inner h => ensures_pure (isConstruct_bodyOf _ h)

theorem ensures_construct? {w : Keyword} {p : Reader Expr} (hp : construct? readers s w = some p) :
    p.Ensures IsConstruct := by
  cases w with
  | if_ | unless_ | while_ | until_ | for_ =>
      rw [← Option.some.inj hp]
      exact ensures_kept _ _
  | begin_ =>
      rw [← Option.some.inj hp]
      apply ensures_bind
      intro _
      refine (ensures_openBody hr).bind ?_
      intro inner hinner
      exact ensures_pure (.mk _ hinner.areChildren)
  | case_ =>
      rw [← Option.some.inj hp]
      exact ensures_caseOf
  | def_ =>
      rw [← Option.some.inj hp]
      exact ensures_definition hr
  | class_ =>
      rw [← Option.some.inj hp]
      exact ensures_classOf hr
  | module_ =>
      rw [← Option.some.inj hp]
      exact ensures_moduleOf hr
  | _ => cases hp

/-! ### Operands -/

theorem ensures_parenthesized : (parenthesized readers).Ensures Term.IsPlain := by
  have hkind : Expr.IsPlain (.other "parenthesized_statements") := Expr.isPlain_other _
  apply ensures_bind
  intro _
  apply ensures_bind
  intro c
  split
  · apply ensures_bind
    intro _
    exact ensures_bind_pure hkind
  · refine (hr.statement _ _).bind ?_
    intro t ht
    split
    · exact ensures_bind_pure ht
    · apply ensures_bind
      intro _
      exact ensures_bind_pure hkind

omit hr in
theorem ensures_handing (commands : Bool) (k : Keyword) (kind : String) :
    (handing readers s commands k kind).Ensures Term.IsPlain := by
  have hkind : Expr.IsPlain (.other kind) := Expr.isPlain_other kind
  apply ensures_bind
  intro _
  apply ensures_bind
  intro c
  split
  · apply ensures_bind
    intro _
    exact ensures_bind_pure hkind
  · split
    · split
      · exact ensures_failure
      · exact ensures_bind_pure hkind
    · exact ensures_pure hkind

/-- A name that is called without a receiver. -/
theorem ensures_unreceived {commands : Bool} (word : List Char) {bare : Term}
    (hbare : bare.IsPlain) :
    (named readers s commands { receiver := none, method := word, bare }).Ensures Term.IsPlain :=
  ensures_named hr ⟨fun harguments hblock => .call (some word) (by simp) harguments hblock, hbare⟩

theorem ensures_nameOrCall (commands : Bool) (word : List Char) :
    (nameOrCall readers s commands word).Ensures Term.IsPlain := by
  apply ensures_bind
  intro _
  apply ensures_unreceived hr
  split
  · exact .call (some word) (by simp) (by simp) (by simp)
  · exact .name word

theorem ensures_calledVariable (commands : Bool) (name : List Char) (kind : String) :
    (calledVariable readers s commands name kind).Ensures Term.IsPlain :=
  ensures_bind fun _ => ensures_unreceived hr name (Expr.isPlain_other kind)

theorem ensures_wordOperand (commands : Bool) (word : List Char) :
    (wordOperand readers s commands word).Ensures Term.IsPlain := by
  have hconstant : ∀ kind, (wordOperand.constant readers word kind).Ensures Term.IsPlain :=
    fun kind => ensures_bind_pure (Expr.isPlain_other kind)
  unfold wordOperand
  split
  · exact ensures_nameOrCall hr commands word
  · split
    · rename_i p hp
      exact (ensures_construct? hr hp).bind fun e he => ensures_pure he.isPlain
    · split
      · exact hconstant _
      · exact hconstant _
      · exact hconstant _
      · exact ensures_calledVariable hr commands word _
      · exact ensures_calledVariable hr commands word _
      · exact ensures_handing commands _ _
      · exact ensures_handing commands _ _
      · exact ensures_handing commands _ _
      · exact ensures_handing commands _ _
      · exact ensures_handing false _ _
      · exact ensures_handing false _ _
      · exact ensures_nameOrCall hr commands word

omit hr in
theorem ensures_plainLiteral : (plainLiteral readers).Ensures Term.IsPlain := by
  apply ensures_bind
  intro c
  split
  · apply ensures_bind
    intro _
    apply ensures_bind
    intro c
    dsimp only
    split
    · exact ensures_bind_pure (.name _)
    · exact ensures_failure
  · split
    · exact ensures_bind_pure (.string _)
    · exact ensures_failure
  · split
    · apply ensures_bind
      intro _
      exact ensures_bind_pure (Expr.isPlain_other _)
    · exact ensures_failure
  · split
    · exact ensures_bind_pure (Expr.isPlain_other _)
    · exact ensures_failure
  · exact ensures_bind fun _ => ensures_pure (Expr.isPlain_other _)

theorem ensures_primary (commands : Bool) :
    (primary readers s commands).Ensures Term.IsPlain := by
  apply ensures_bind
  intro c
  split
  · exact ensures_failure
  · split
    · exact ensures_wordOperand hr commands _
    · split
      · exact (ensures_literal _ _).bind fun e he => ensures_pure he
      · exact ensures_calledVariable hr commands _ _
      · split
        · exact ensures_parenthesized hr
        · apply ensures_bind
          intro _
          exact ensures_bind_pure (Expr.isPlain_other _)
        · apply ensures_bind
          intro _
          exact ensures_bind_pure (Expr.isPlain_other _)
        · exact ensures_bind_pure (Expr.isPlain_other _)
        · exact ensures_plainLiteral

omit hr in
theorem ensures_unary (hk : readers.Keep Expr.IsPlain) (level : Nat) (commands : Bool) :
    (continued readers s level commands (.ofKind "unary")).Ensures Term.IsPlain :=
  ensures_continued hk (Expr.isPlain_other _)

theorem ensures_prefixed (level : Nat) (commands : Bool) (n strength : Nat) :
    (prefixed readers s level commands n strength).Ensures Term.IsPlain := by
  apply ensures_bind
  intro _
  apply ensures_bind
  intro t
  split
  · exact ensures_pure (Expr.isPlain_other _)
  · exact hr.operators (Expr.isPlain_other _)

theorem ensures_prefixedByWord (level : Nat) (commands : Bool) (k : Keyword) (strength : Nat) :
    (prefixedByWord readers s level commands k strength).Ensures Term.IsPlain := by
  have hwhole : ∀ c, (prefixedByWord.whole readers s level commands k strength c).Ensures
      Term.IsPlain := fun c => ensures_bind fun _ => ensures_prefixed hr level commands _ _
  apply ensures_bind
  intro c
  apply ensures_bind
  intro _
  apply ensures_bind
  intro after
  split
  · apply ensures_bind
    intro t
    split
    · exact hwhole c
    · exact ensures_unary hr.toKeep level commands
  · exact hwhole c

theorem ensures_negative (level : Nat) (commands : Bool) :
    (negative readers s level commands).Ensures Term.IsPlain := by
  apply ensures_bind
  intro c
  apply ensures_bind
  intro _
  apply ensures_bind
  intro after
  split
  · exact ensures_failure
  · apply ensures_bind
    intro _
    exact ensures_bind fun _ => hr.operators (Expr.isPlain_other _)
  · exact ensures_unary hr.toKeep level commands

theorem ensures_positive (level : Nat) (commands : Bool) :
    (positive readers s level commands).Ensures Term.IsPlain := by
  apply ensures_bind
  intro c
  apply ensures_bind
  intro _
  apply ensures_bind
  intro after
  split
  · split
    · exact ensures_bind fun _ => ensures_unary hr.toKeep level commands
    · exact ensures_bind fun _ => ensures_prefixed hr level false _ _
  · exact ensures_failure

theorem ensures_operand (level : Nat) (commands : Bool) :
    (operand readers s level commands).Ensures Term.IsPlain := by
  have hplain : (operand.plain readers s level commands).Ensures Term.IsPlain :=
    (ensures_primary hr commands).bind fun t ht => ensures_continued hr.toKeep ht
  apply ensures_bind
  intro c
  split
  · exact hplain
  · exact ensures_failure
  · split
    · exact ensures_negative hr level commands
    · exact ensures_prefixed hr level false _ _
  · exact ensures_positive hr level commands
  · exact ensures_prefixed hr level commands _ _
  · exact ensures_prefixed hr level false _ _
  · exact ensures_bind fun _ => hr.operators (Expr.isPlain_other _)
  · apply ensures_bind
    intro _
    exact ensures_bind fun _ => hr.operators (Expr.isPlain_other _)
  · split
    · exact ensures_prefixedByWord hr level commands _ _
    · exact ensures_prefixedByWord hr level commands _ _
    · exact hplain

/-! ### Expressions and statements -/

theorem ensures_unjoined (level : Nat) : (unjoined readers s level).Ensures Term.IsPlain :=
  (ensures_value hr level true).bind fun _ ht => ensures_matched grows_isPlain ht

theorem ensures_expression : (expression readers s).Ensures Term.IsPlain :=
  (hr.unjoined _ 0).bind fun _ ht => hr.joins ht

theorem ensures_unmodified (opening : Bool) :
    (unmodified readers s opening).Ensures Term.IsPlain := by
  refine (hr.operand _ 0 true).bind ?_
  intro t ht
  apply ensures_bind
  intro c
  split
  · exact ensures_pure ht
  · split
    · apply ensures_bind
      intro _
      exact ensures_bind_pure (Expr.isPlain_other _)
    · split
      · apply ensures_bind
        intro _
        apply ensures_bind
        intro isPair
        split
        · exact ensures_pure (Expr.isPlain_other _)
        · exact hr.joins (Expr.isPlain_other _)
      · exact (ensures_matched grows_isPlain ht).bind fun t ht => hr.joins ht

theorem ensures_statement (follow : List Keyword) (opening : Bool) :
    (statement readers follow opening).Ensures Term.IsPlain := by
  have hmodified : ∀ {s p}, p.Ensures Term.IsPlain →
      (statement.modified readers s p).Ensures Term.IsPlain := by
    intro s p hp
    refine hp.bind ?_
    intro t ht
    split
    · exact ensures_pure ht
    · exact (hr.modifiers ht).bind fun e he => ensures_pure he
  have hkept : ∀ kind p, (statement.kept kind p).Ensures Term.IsPlain :=
    fun kind p => ensures_bind_pure (Expr.isPlain_other kind)
  apply ensures_bind
  intro c
  split
  · exact hmodified (hkept _ _)
  · exact hmodified (hkept _ _)
  · exact hmodified (hkept _ _)
  · exact hmodified (hkept _ _)
  · exact hmodified (ensures_unmodified hr opening)

end Constructs

end Rules

/-! ### All readers -/

/-- Rules keep what the readers of the phrases in them keep. -/
theorem Readers.Keep.upTo_succ {Q : Expr → Prop} (hQ : Grows Q) {n : Nat}
    (hr : (Readers.upTo n).Plain) (hk : (Readers.upTo n).Keep Q) :
    (Readers.upTo (n + 1)).Keep Q where
  modifiers h := Rules.ensures_modifiers hQ hk h
  joins h := Rules.ensures_joins hQ hk h
  continued h := Rules.ensures_continued hk h
  operators h := Rules.ensures_operators hQ hk h
  access h := Rules.ensures_access hQ hr hk h

/-- Rules give plain trees if the readers of the phrases in them do. -/
theorem Readers.Plain.upTo_succ {n : Nat} (hr : (Readers.upTo n).Plain) :
    (Readers.upTo (n + 1)).Plain where
  toKeep := .upTo_succ grows_isPlain hr hr.toKeep
  statements := Rules.ensures_statements hr
  following := Rules.ensures_following hr
  statement := Rules.ensures_statement hr
  expression _ := Rules.ensures_expression hr
  unjoined _ := Rules.ensures_unjoined hr
  operand _ := Rules.ensures_operand hr
  arguments _ := Rules.ensures_arguments hr
  listed := Rules.ensures_listed hr
  argument _ := Rules.ensures_argument hr
  clauses := Rules.ensures_clauses hr

theorem upTo_keep_zero (Q : Expr → Prop) : (Readers.upTo 0).Keep Q := by
  constructor <;> intros <;> exact Reader.ensures_failure

theorem upTo_plain (n : Nat) : (Readers.upTo n).Plain := by
  induction n with
  | zero =>
      constructor
      case toKeep => exact upTo_keep_zero _
      all_goals intros; exact Reader.ensures_failure
  | succ n ih => exact ih.upTo_succ

theorem upTo_keep {Q : Expr → Prop} (hQ : Grows Q) (n : Nat) : (Readers.upTo n).Keep Q := by
  induction n with
  | zero => exact upTo_keep_zero Q
  | succ n ih => exact .upTo_succ hQ (upTo_plain n) ih

/-! ### Programs -/

theorem arePlain_ending? {readers : Readers} {c : Cursor} {notes : List Expr}
    (h : ending? readers c = some notes) : Expr.ArePlain notes := by
  have hmark : ∀ {more : List Expr}, Expr.ArePlain more →
      Expr.ArePlain (.other "uninterpreted" :: more) :=
    fun hmore => List.forall_mem_cons.mpr ⟨Expr.isPlain_other _, hmore⟩
  have honly : ∀ {attached : List Expr} {rest : List Char}, Expr.ArePlain attached →
      ending?.onlyNotes readers c attached rest = some notes → Expr.ArePlain notes := by
    intro attached rest hattached hnotes
    unfold ending?.onlyNotes at hnotes
    split at hnotes
    · split at hnotes
      · obtain rfl := Option.some.inj hnotes
        refine List.forall_mem_append.mpr ⟨?_, hmark (arePlain_allNotes _)⟩
        exact List.forall_mem_append.mpr ⟨arePlain_allNotes c, hattached⟩
      · cases hnotes
    · cases hnotes
  have hdata : Expr.ArePlain (c.allNotes ++ [.other "uninterpreted"]) :=
    List.forall_mem_append.mpr ⟨arePlain_allNotes c, hmark (by simp [Expr.ArePlain])⟩
  unfold ending? at h
  split at h
  · obtain rfl := Option.some.inj h
    exact arePlain_allNotes c
  · split at h
    · obtain rfl := Option.some.inj h
      exact hdata
    · obtain rfl := Option.some.inj h
      exact hdata
    · split at h
      · refine honly ?_ h
        exact List.forall_mem_singleton.mpr (Expr.isPlain_other _)
      · exact honly (by simp [Expr.ArePlain]) h

theorem arePlain_programStatements? {text : List Char} {statements : List Expr}
    (h : programStatements? text = some statements) : Expr.ArePlain statements := by
  simp only [programStatements?, Option.bind_eq_bind, Option.bind_eq_some_iff] at h
  obtain ⟨start, -, ⟨found, stop⟩, hfound, notes, hnotes, hresult⟩ := h
  obtain rfl := Option.some.inj hresult
  exact List.forall_mem_append.mpr
    ⟨(upTo_plain _).statements .file start.2 found stop hfound, arePlain_ending? hnotes⟩

/-- Whatever is read of a text is a program whose bodies stand where they may. -/
theorem isPlaced_of_programTree? {text : String} {tree : Expr} (h : programTree? text = some tree) :
    tree.IsPlaced := by
  rw [programTree?, Option.map_eq_some_iff] at h
  obtain ⟨statements, hstatements, rfl⟩ := h
  exact .program (arePlain_programStatements? hstatements)

end FactoryRoster.Source
