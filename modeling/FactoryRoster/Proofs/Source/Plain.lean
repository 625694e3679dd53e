import FactoryRoster.Proofs.Source.Reading

/-!
# Plain trees

In a concrete tree a body stands among the children of a block or of a construct and nowhere else,
and only the whole of it is a program (`Expr.IsPlaced`). Rules give plain trees if the readers of
the phrases in them do; here it is shown of lists of statements, of blocks and of arguments.
-/

namespace FactoryRoster.Source

mutual

/-- Whether a tree is no container, and every container in it stands where one may. -/
inductive Expr.IsPlain : Expr → Prop
  | call {receiver : Option Expr} (method : Option (List Char)) {arguments : List Expr}
      {block : Option (List Expr)} (hreceiver : ∀ e ∈ receiver, e.IsPlain)
      (harguments : ∀ e ∈ arguments, e.IsPlain)
      (hblock : ∀ children ∈ block, ∀ e ∈ children, e.IsChild) :
      IsPlain (.call receiver method arguments block)
  | string (text : List Char) : IsPlain (.string text)
  | name (spelling : List Char) : IsPlain (.name spelling)
  | parameters : IsPlain .parameters
  | node (kind : String) {children : List Expr} (h : ∀ e ∈ children, e.IsChild) :
      IsPlain (.node kind children)

/-- Whether a tree may be a child of a block or of a construct: a plain tree, or a body of plain
trees. -/
inductive Expr.IsChild : Expr → Prop
  | plain {e : Expr} (h : e.IsPlain) : IsChild e
  | body (kind : Body) {children : List Expr} (h : ∀ e ∈ children, e.IsPlain) :
      IsChild (.body kind children)

end

/-- Whether a tree is a program in which every body stands where one may. -/
inductive Expr.IsPlaced : Expr → Prop
  | program {children : List Expr} (h : ∀ e ∈ children, e.IsPlain) : IsPlaced (.program children)

namespace Expr

/-- Whether some trees are plain. -/
abbrev ArePlain (es : List Expr) : Prop :=
  ∀ e ∈ es, e.IsPlain

/-- Whether some trees may be the children of a block or of a construct. -/
abbrev AreChildren (es : List Expr) : Prop :=
  ∀ e ∈ es, e.IsChild

theorem isPlain_other (kind : String) : IsPlain (.other kind) :=
  .node kind (by simp)

theorem arePlain_map_other (kinds : List String) : ArePlain (kinds.map .other) := by
  simp only [ArePlain, List.forall_mem_map]
  exact fun kind _ => isPlain_other kind

theorem ArePlain.areChildren {es : List Expr} (h : ArePlain es) : AreChildren es :=
  fun e he => .plain (h e he)

theorem areChildren_bodyOf (kind : Body) {es : List Expr} (h : ArePlain es) :
    AreChildren (bodyOf kind es) := by
  cases es with
  | nil => simp [AreChildren, bodyOf]
  | cons e es =>
      simp only [AreChildren, bodyOf, List.forall_mem_singleton]
      exact .body kind h

theorem isPlain_ofLiteral (kind : LiteralKind) (quoting : Quoting) (parts : List Part) :
    (ofLiteral kind quoting parts).IsPlain := by
  unfold ofLiteral
  split
  · split <;> exact .string _
  · exact isPlain_other _

end Expr

theorem arePlain_lineNotes (c : Cursor) : Expr.ArePlain c.lineNotes :=
  Expr.arePlain_map_other _

theorem arePlain_allNotes (c : Cursor) : Expr.ArePlain c.allNotes :=
  Expr.arePlain_map_other _

theorem areChildren_lineNotes (ended : Bool) (c : Cursor) :
    Expr.AreChildren (if ended then c.lineNotes else []) := by
  cases ended with
  | false => simp [Expr.AreChildren]
  | true => exact (arePlain_lineNotes c).areChildren

theorem areChildren_parameters (any : Bool) (c : Cursor) :
    Expr.AreChildren (if any then c.allNotes ++ [.parameters] else []) := by
  cases any with
  | false => simp [Expr.AreChildren]
  | true =>
      simp only [Expr.AreChildren, if_true, List.forall_mem_append, List.forall_mem_singleton]
      exact ⟨(arePlain_allNotes c).areChildren, .plain .parameters⟩

/-- Whether the expression of a term has a property. -/
abbrev Term.Has (Q : Expr → Prop) (t : Term) : Prop :=
  Q t.expr

abbrev Term.IsPlain (t : Term) : Prop :=
  t.Has Expr.IsPlain

/-! ### What readers ensure -/

/-- Whether what is read at a place has a property, if anything is. -/
def Reader.EnsuresAt {α : Type} (c : Cursor) (P : α → Prop) (p : Reader α) : Prop :=
  ∀ a after, p c = some (a, after) → P a

/-- Whether whatever is read has a property. -/
def Reader.Ensures {α : Type} (P : α → Prop) (p : Reader α) : Prop :=
  ∀ c, p.EnsuresAt c P

namespace Reader

variable {α β : Type} {P : β → Prop}

theorem EnsuresAt.bind {Q : α → Prop} {c : Cursor} {p : Reader α} {f : α → Reader β}
    (hp : p.EnsuresAt c Q) (hf : ∀ a, Q a → (f a).Ensures P) : (p >>= f).EnsuresAt c P := by
  intro b after h
  rw [bind_apply, Option.bind_eq_some_iff] at h
  obtain ⟨⟨a, next⟩, ha, hb⟩ := h
  exact hf a (hp a next ha) next b after hb

theorem Ensures.bind {Q : α → Prop} {p : Reader α} {f : α → Reader β} (hp : p.Ensures Q)
    (hf : ∀ a, Q a → (f a).Ensures P) : (p >>= f).Ensures P :=
  fun c => (hp c).bind hf

theorem ensures_bind {p : Reader α} {f : α → Reader β} (hf : ∀ a, (f a).Ensures P) :
    (p >>= f).Ensures P :=
  Ensures.bind (Q := fun _ => True) (fun _ _ _ _ => trivial) fun a _ => hf a

/-- A place may be looked at before it is read from. -/
theorem ensuresAt_get {c : Cursor} {f : Cursor → Reader β} (hf : (f c).EnsuresAt c P) :
    (get >>= f).EnsuresAt c P :=
  hf

theorem ensures_pure {b : β} (hb : P b) : (pure b : Reader β).Ensures P := by
  intro c b' after h
  rw [pure_apply, Option.some.injEq] at h
  rw [← (Prod.mk.inj h).1]
  exact hb

/-- What is given after something else is read, and does not depend on it. -/
theorem ensures_bind_pure {p : Reader α} {b : β} (hb : P b) :
    (p >>= fun _ => pure b).Ensures P :=
  ensures_bind fun _ => ensures_pure hb

theorem ensures_failure : (failure : Reader β).Ensures P := by
  intro c b after h
  cases h

end Reader

/-- What is built on an expression that has a property: calls on it, and what only has a kind. -/
structure Grows (Q : Expr → Prop) : Prop where
  other : ∀ kind, Q (.other kind)
  call : ∀ {receiver : Expr} (method : Option (List Char)) {arguments : List Expr}
    {block : Option (List Expr)}, Q receiver → Expr.ArePlain arguments →
      (∀ children ∈ block, Expr.AreChildren children) →
        Q (.call (some receiver) method arguments block)

theorem grows_isPlain : Grows Expr.IsPlain where
  other := Expr.isPlain_other
  call method _ _ hreceiver harguments hblock :=
    .call method (by rintro e ⟨⟩; exact hreceiver) harguments hblock

/-- Readers that go on with an expression and keep a property of it. -/
structure Readers.Keep (Q : Expr → Prop) (readers : Readers) : Prop where
  modifiers : ∀ {s e}, Q e → (readers.modifiers s e).Ensures Q
  joins : ∀ {s} {t : Term}, t.Has Q → (readers.joins s t).Ensures (Term.Has Q)
  continued : ∀ {s level commands} {t : Term}, t.Has Q →
    (readers.continued s level commands t).Ensures (Term.Has Q)
  operators : ∀ {s level commands} {t : Term}, t.Has Q →
    (readers.operators s level commands t).Ensures (Term.Has Q)
  access : ∀ {s commands} {t : Term}, t.Has Q → (readers.access s commands t).Ensures (Term.Has Q)

/-- Readers that give plain trees. -/
structure Readers.Plain (readers : Readers) : Prop extends readers.Keep Expr.IsPlain where
  statements : ∀ stop, (readers.statements stop).Ensures Expr.ArePlain
  following : ∀ stop, (readers.following stop).Ensures Expr.ArePlain
  statement : ∀ follow opening, (readers.statement follow opening).Ensures Term.IsPlain
  expression : ∀ s, (readers.expression s).Ensures Term.IsPlain
  unjoined : ∀ s level, (readers.unjoined s level).Ensures Term.IsPlain
  operand : ∀ s level commands, (readers.operand s level commands).Ensures Term.IsPlain
  arguments : ∀ s, (readers.arguments s).Ensures Expr.ArePlain
  listed : ∀ closer, (readers.listed closer).Ensures Expr.ArePlain
  argument : ∀ s, (readers.argument s).Ensures Expr.IsPlain
  clauses : readers.clauses.Ensures Expr.ArePlain

namespace Rules

open Reader

variable {readers : Readers} {s : Setting}

/-! ### What only has a kind -/

theorem ensures_literal (outline : Outline) (n : Nat) :
    (literal readers outline n).Ensures Expr.IsPlain := by
  intro c e after h
  simp only [literal, Option.bind_eq_bind, Option.bind_eq_some_iff] at h
  obtain ⟨_, -, _, -, hresult⟩ := h
  rw [← (Prod.mk.inj (Option.some.inj hresult)).1]
  exact Expr.isPlain_ofLiteral _ _ _

theorem ensures_signed (n : Nat) (kind : String) :
    (signed readers s n kind).Ensures Expr.IsPlain := by
  apply ensures_bind
  intro _
  apply ensures_bind
  intro c
  dsimp only
  split
  · exact ensures_bind_pure (Expr.isPlain_other kind)
  · exact ensures_pure (Expr.isPlain_other kind)

theorem ensures_pairValue : (pairValue readers s).Ensures Expr.IsPlain :=
  ensures_bind_pure (Expr.isPlain_other _)

theorem ensures_labelled (n : Nat) : (labelled readers s n).Ensures Expr.IsPlain := by
  apply ensures_bind
  intro _
  apply ensures_bind
  intro _
  apply ensures_bind
  intro c
  split
  · exact ensures_pairValue
  · exact ensures_pure (Expr.isPlain_other _)

section Kinds

variable {Q : Expr → Prop} (hQ : Grows Q)

include hQ

theorem ensures_matched {t : Term} (ht : t.Has Q) :
    (matched readers s t).Ensures (Term.Has Q) := by
  apply ensures_bind
  intro c
  split
  · split
    · apply ensures_bind
      intro _
      exact ensures_bind_pure (hQ.other _)
    · exact ensures_pure ht
  · split
    · apply ensures_bind
      intro _
      exact ensures_bind_pure (hQ.other _)
    · exact ensures_pure ht

theorem ensures_index : (index readers s).Ensures (Term.Has Q) := by
  apply ensures_bind
  intro _
  apply ensures_bind
  intro _
  apply ensures_bind
  intro c
  dsimp only
  split
  · exact ensures_pure (hQ.other _)
  · exact ensures_bind_pure (hQ.other _)

theorem ensures_assignment (lists : Bool) (n : Nat) (kind : String) :
    (assignment readers s commands lists n kind).Ensures (Term.Has Q) := by
  apply ensures_bind
  intro _
  apply ensures_bind
  intro c
  split
  · apply ensures_bind
    intro _
    exact ensures_bind_pure (hQ.other kind)
  · apply ensures_bind
    intro t
    apply ensures_bind
    intro c
    split
    · apply ensures_bind
      intro _
      split
      · exact ensures_bind_pure (hQ.other kind)
      · exact ensures_bind_pure (hQ.other kind)
    · split
      · dsimp only
        split
        · exact ensures_bind_pure (hQ.other kind)
        · exact ensures_pure (hQ.other kind)
      · exact ensures_pure (hQ.other kind)

theorem ensures_operation (op : Operator) : (operation readers s op).Ensures (Term.Has Q) := by
  apply ensures_bind
  intro _
  split
  · exact ensures_bind_pure (hQ.other "binary")
  · apply ensures_bind
    intro c
    dsimp only
    split
    · exact ensures_bind_pure (hQ.other "range")
    · exact ensures_pure (hQ.other "range")
  · exact ensures_bind_pure (hQ.other "conditional")

end Kinds

section Plain

variable (hr : readers.Plain)

include hr

/-! ### Lists of statements -/

theorem ensures_value (level : Nat) (commands : Bool) :
    (value readers s level commands).Ensures Term.IsPlain := by
  refine (hr.operand s level commands).bind ?_
  intro t ht
  split
  · exact ensures_failure
  · exact ensures_pure ht

theorem ensures_statements (stop : Stop) : (statements readers stop).Ensures Expr.ArePlain := by
  apply ensures_bind
  intro c
  split
  · exact ensures_pure (by simp [Expr.ArePlain])
  · split
    · apply ensures_bind
      intro _
      refine (hr.statements stop).bind ?_
      intro rest hrest
      refine ensures_pure (List.forall_mem_append.mpr ⟨arePlain_allNotes c, ?_⟩)
      exact List.forall_mem_cons.mpr ⟨Expr.isPlain_other _, hrest⟩
    · refine (hr.statement _ _).bind ?_
      intro t ht
      split
      · exact ensures_failure
      · refine (hr.following stop).bind ?_
        intro rest hrest
        refine ensures_pure (List.forall_mem_append.mpr ⟨arePlain_allNotes c, ?_⟩)
        exact List.forall_mem_cons.mpr ⟨ht, hrest⟩

theorem ensures_following (stop : Stop) :
    (following readers stop).Ensures Expr.ArePlain := by
  apply ensures_bind
  intro c
  apply ensures_bind
  intro ended
  split
  · refine (hr.statements stop).bind ?_
    intro rest hrest
    exact ensures_pure (List.forall_mem_append.mpr ⟨arePlain_lineNotes c, hrest⟩)
  · split
    · exact ensures_pure (by simp [Expr.ArePlain])
    · exact ensures_failure

/-! ### Bodies and blocks -/

theorem ensures_clause {notes : List Expr} (hnotes : Expr.ArePlain notes) (kind : String) :
    (clauses.clause readers notes kind).Ensures Expr.ArePlain := by
  apply ensures_bind
  intro _
  refine hr.clauses.bind ?_
  intro more hmore
  refine ensures_pure (List.forall_mem_append.mpr ⟨hnotes, ?_⟩)
  exact List.forall_mem_cons.mpr ⟨Expr.isPlain_other kind, hmore⟩

theorem ensures_clauses : (clauses readers).Ensures Expr.ArePlain := by
  apply ensures_bind
  intro c
  have hclause := ensures_clause hr (arePlain_allNotes c)
  split
  · exact ensures_bind_pure (arePlain_allNotes c)
  · exact ensures_bind fun _ => ensures_bind fun _ => hclause "rescue"
  · exact ensures_bind fun _ => ensures_bind fun _ => hclause "else"
  · exact ensures_bind fun _ => hclause "ensure"
  · exact ensures_failure

theorem ensures_body : (body readers).Ensures Expr.ArePlain := by
  refine (hr.statements .body).bind ?_
  intro inner hinner
  refine hr.clauses.bind ?_
  intro clauses hclauses
  exact ensures_pure (List.forall_mem_append.mpr ⟨hinner, hclauses⟩)

theorem ensures_braceBlock : (braceBlock readers).Ensures Expr.AreChildren := by
  apply ensures_bind
  intro c
  apply ensures_bind
  intro any
  refine (hr.statements _).bind ?_
  intro inner hinner
  apply ensures_bind
  intro last
  apply ensures_bind
  intro _
  apply ensures_pure
  simp only [Expr.AreChildren, List.forall_mem_append]
  exact ⟨⟨areChildren_parameters any c, Expr.areChildren_bodyOf .block hinner⟩,
    (arePlain_allNotes last).areChildren⟩

theorem ensures_doBlock : (doBlock readers).Ensures Expr.AreChildren := by
  apply ensures_bind
  intro first
  apply ensures_bind
  intro ended
  apply ensures_bind
  intro second
  apply ensures_bind
  intro any
  apply ensures_bind
  intro third
  have hbody : ∀ again : Bool, Reader.Ensures Expr.AreChildren (do
      let inner ← body readers
      pure ((if ended then first.lineNotes else []) ++
        (if any then second.allNotes ++ [.parameters] else []) ++
        (if again then third.lineNotes else []) ++ Expr.bodyOf .statement inner)) := by
    intro again
    refine (ensures_body hr).bind ?_
    intro inner hinner
    apply ensures_pure
    simp only [Expr.AreChildren, List.forall_mem_append]
    exact ⟨⟨⟨areChildren_lineNotes ended first, areChildren_parameters any second⟩,
      areChildren_lineNotes again third⟩, Expr.areChildren_bodyOf .statement hinner⟩
  cases any with
  | false => exact hbody false
  | true => exact ensures_bind hbody

theorem ensures_attachedBlock : (attachedBlock readers s).Ensures fun block =>
    ∀ children ∈ block, Expr.AreChildren children := by
  have hsome : ∀ {children}, Expr.AreChildren children →
      ∀ children' ∈ some children, Expr.AreChildren children' := by
    rintro children h _ ⟨⟩
    exact h
  apply ensures_bind
  intro c
  split
  · apply ensures_bind
    intro _
    exact (ensures_braceBlock hr).bind fun children h => ensures_pure (hsome h)
  · split
    · apply ensures_bind
      intro _
      exact (ensures_doBlock hr).bind fun children h => ensures_pure (hsome h)
    · exact ensures_pure (by simp)

/-! ### Arguments -/

theorem ensures_splat : (splat readers s).Ensures Expr.IsPlain := by
  apply ensures_bind
  intro c
  split
  · exact (ensures_value hr 0 false).bind fun t ht => ensures_pure ht
  · apply ensures_bind
    intro _
    apply ensures_bind
    intro after
    split
    · exact ensures_failure
    · dsimp only
      split
      · exact ensures_bind_pure (Expr.isPlain_other _)
      · exact ensures_pure (Expr.isPlain_other _)

theorem ensures_argumentFrom {t : Term} (ht : t.IsPlain) :
    (argumentFrom readers s t).Ensures Expr.IsPlain := by
  have hjoined : ∀ {t : Term}, t.IsPlain →
      (argumentFrom.joined readers s t).Ensures Expr.IsPlain := by
    intro t ht
    unfold argumentFrom.joined
    split
    · exact (hr.joins ht).bind fun t ht => ensures_pure ht
    · exact ensures_pure ht
  apply ensures_bind
  intro c
  split
  · exact ensures_bind fun _ => ensures_pairValue
  · split
    · apply ensures_bind
      intro _
      apply ensures_bind
      intro isPair
      split
      · exact ensures_pure (Expr.isPlain_other _)
      · exact hjoined (Expr.isPlain_other _)
    · exact ensures_pure ht
  · exact (ensures_matched grows_isPlain ht).bind fun t ht => hjoined ht

theorem ensures_argument : (argument readers s).Ensures Expr.IsPlain := by
  have hexpression : (argument.expression readers s).Ensures Expr.IsPlain :=
    (ensures_value hr 0 true).bind fun t ht => ensures_argumentFrom hr ht
  apply ensures_bind
  intro c
  split
  · exact ensures_labelled _
  · exact ensures_signed 2 _
  · split
    · exact hexpression
    · exact ensures_splat hr
  · split
    · exact ensures_signed 1 _
    · exact ensures_failure
  · apply ensures_bind
    intro _
    apply ensures_bind
    intro after
    split
    · exact ensures_bind fun _ => hexpression
    · exact ensures_pure (Expr.isPlain_other _)
  · exact hexpression

omit hr in
/-- Arguments after a comma, with the notes around it. -/
theorem arePlain_furtherArguments {first : Expr} (hfirst : first.IsPlain) {more : List Expr}
    (hmore : Expr.ArePlain more) (c after : Cursor) :
    Expr.ArePlain (first :: (c.allNotes ++ after.allNotes ++ more)) := by
  simp only [Expr.ArePlain, List.forall_mem_cons, List.forall_mem_append]
  exact ⟨hfirst, ⟨arePlain_allNotes c, arePlain_allNotes after⟩, hmore⟩

theorem ensures_arguments : (arguments readers s).Ensures Expr.ArePlain := by
  refine (hr.argument s).bind ?_
  intro first hfirst
  apply ensures_bind
  intro c
  split
  · apply ensures_bind
    intro _
    apply ensures_bind
    intro after
    refine (hr.arguments s).bind ?_
    intro more hmore
    exact ensures_pure (arePlain_furtherArguments hfirst hmore c after)
  · exact ensures_pure (by simpa [Expr.ArePlain] using hfirst)

theorem ensures_listed (closer : Char) : (listed readers closer).Ensures Expr.ArePlain := by
  apply ensures_bind
  intro before
  split
  · exact ensures_bind_pure (arePlain_allNotes before)
  · refine (hr.argument .listed).bind ?_
    intro item hitem
    apply ensures_bind
    intro after
    split
    · apply ensures_bind
      intro _
      refine (hr.listed closer).bind ?_
      intro more hmore
      refine ensures_pure (List.forall_mem_append.mpr ⟨arePlain_allNotes before, ?_⟩)
      refine List.forall_mem_cons.mpr ⟨hitem, ?_⟩
      exact List.forall_mem_append.mpr ⟨arePlain_allNotes after, hmore⟩
    · apply ensures_bind
      intro _
      refine ensures_pure (List.forall_mem_append.mpr ⟨arePlain_allNotes before, ?_⟩)
      exact List.forall_mem_cons.mpr ⟨hitem, arePlain_allNotes after⟩

theorem ensures_braces : (braces readers s).Ensures fun found =>
    ∀ children, found = .block children → Expr.AreChildren children := by
  have hblock : ∀ {children}, Expr.AreChildren children →
      ∀ children', Braces.block children = .block children' → Expr.AreChildren children' := by
    rintro children h _ ⟨⟩
    exact h
  have hhash : ∀ children, Braces.hash = .block children → Expr.AreChildren children := by
    rintro children ⟨⟩
  have hrest : (braces.rest readers).Ensures fun found =>
      ∀ children, found = .block children → Expr.AreChildren children :=
    ensures_bind_pure hhash
  have hbrace : (braces.block readers).Ensures fun found =>
      ∀ children, found = .block children → Expr.AreChildren children :=
    (ensures_braceBlock hr).bind fun children h => ensures_pure (hblock h)
  apply ensures_bind
  intro _
  apply ensures_bind
  intro c
  split
  · apply ensures_bind
    intro _
    apply ensures_bind
    intro after
    apply ensures_pure
    split
    · exact hhash
    · exact hblock (arePlain_allNotes c).areChildren
  · exact hrest
  · exact hrest
  · exact hbrace
  · exact hbrace
  · refine (hr.statement [] true).bind ?_
    intro t ht
    split
    · exact ensures_bind_pure hhash
    · exact ensures_failure
    · refine (hr.following _).bind ?_
      intro inner hinner
      apply ensures_bind
      intro last
      apply ensures_bind
      intro _
      apply ensures_pure
      apply hblock
      have hbody := Expr.areChildren_bodyOf .block (List.forall_mem_cons.mpr ⟨ht, hinner⟩)
      simp only [Expr.AreChildren, List.forall_mem_append]
      exact ⟨⟨(arePlain_allNotes c).areChildren, hbody⟩, (arePlain_allNotes last).areChildren⟩

end Plain

end Rules

end FactoryRoster.Source
