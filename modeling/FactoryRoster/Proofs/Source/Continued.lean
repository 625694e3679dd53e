import FactoryRoster.Proofs.Source.Plain

/-!
# What goes on with an operand

Calls, indices, operators, modifiers and patterns go on with an operand that has been read. They
keep whatever property of the operand is kept by calls on it and holds of what only has a kind
(`Grows`).
-/

namespace FactoryRoster.Source.Rules

open Reader

variable {readers : Readers} {s : Setting}

/-- Whether whatever a name may be read as has a property. -/
structure Callee.Gives (Q : Expr → Prop) (callee : Callee) : Prop where
  call : ∀ {arguments block}, Expr.ArePlain arguments →
    (∀ children ∈ block, Expr.AreChildren children) → Q (callee.call arguments block)
  bare : callee.bare.Has Q

section Operands

variable {Q : Expr → Prop} (hQ : Grows Q) (hr : readers.Plain) (hk : readers.Keep Q)

section Names

variable {callee : Callee} (h : callee.Gives Q)

include hr h

theorem ensures_command {arguments : List Expr}
    (harguments : Expr.ArePlain arguments) :
    (command readers s callee arguments).Ensures (Term.Has Q) :=
  (ensures_attachedBlock hr).bind fun _ hblock => ensures_pure (h.call harguments hblock)

theorem ensures_commandWithHash :
    (commandWithHash readers s callee).Ensures (Term.Has Q) := by
  refine (hr.continued (t := .ofKind "hash") (Expr.isPlain_other _)).bind ?_
  intro t ht
  refine (ensures_argumentFrom hr ht).bind ?_
  intro first hfirst
  apply ensures_bind
  intro c
  split
  · apply ensures_bind
    intro _
    apply ensures_bind
    intro after
    refine (hr.arguments _).bind ?_
    intro more hmore
    exact ensures_command hr h (arePlain_furtherArguments hfirst hmore c after)
  · exact ensures_command hr h (by simpa [Expr.ArePlain] using hfirst)

theorem ensures_named {commands : Bool} :
    (named readers s commands callee).Ensures (Term.Has Q) := by
  have hbare : ∀ {block}, (∀ children ∈ block, Expr.AreChildren children) →
      Q (callee.call [] block) := fun hblock => h.call (by simp [Expr.ArePlain]) hblock
  apply ensures_bind
  intro c
  split
  · apply ensures_bind
    intro _
    refine (hr.listed _).bind ?_
    intro arguments harguments
    refine (ensures_attachedBlock hr).bind ?_
    intro block hblock
    exact ensures_pure (h.call harguments hblock)
  · split
    · split
      · exact ensures_failure
      · exact (hr.arguments _).bind fun arguments harguments => ensures_command hr h harguments
    · split
      · split
        · exact ensures_pure h.bare
        · split
          · refine (ensures_braces hr).bind ?_
            intro found hfound
            cases found with
            | block children =>
                refine ensures_pure (hbare ?_)
                rintro _ ⟨⟩
                exact hfound children rfl
            | hash => exact ensures_commandWithHash hr h
          · exact (ensures_attachedBlock hr).bind fun block hblock => ensures_pure (hbare hblock)
      · refine (ensures_attachedBlock hr).bind ?_
        intro block hblock
        cases block with
        | none => exact ensures_pure h.bare
        | some children => exact ensures_pure (hbare hblock)

end Names

section Receivers

variable {receiver : Expr} (h : Q receiver)

include hQ h

theorem Callee.Gives.member (name : List Char) :
    (Callee.member receiver name).Gives Q where
  call harguments hblock := hQ.call (some name) h harguments hblock
  bare := hQ.call (some name) h (by simp [Expr.ArePlain]) (by simp)

include hr

theorem ensures_unnamedCall :
    (unnamedCall readers s receiver).Ensures (Term.Has Q) := by
  apply ensures_bind
  intro _
  refine (hr.listed _).bind ?_
  intro arguments harguments
  refine (ensures_attachedBlock hr).bind ?_
  intro block hblock
  exact ensures_pure (hQ.call none h harguments hblock)

theorem ensures_member {commands : Bool} (n : Nat) :
    (member readers s commands receiver n).Ensures (Term.Has Q) := by
  apply ensures_bind
  intro _
  apply ensures_bind
  intro c
  split
  · exact ensures_unnamedCall hQ hr h
  · exact ensures_bind fun _ => ensures_named hr (.member hQ h _)
  · exact ensures_failure

theorem ensures_inScope {commands : Bool} :
    (inScope readers s commands receiver).Ensures (Term.Has Q) := by
  apply ensures_bind
  intro _
  apply ensures_bind
  intro c
  split
  · exact ensures_unnamedCall hQ hr h
  · apply ensures_bind
    intro _
    split
    · exact ensures_named hr ⟨fun harguments hblock => hQ.call _ h harguments hblock, hQ.other _⟩
    · exact ensures_named hr (.member hQ h _)
  · exact ensures_failure

theorem ensures_chained (n : Nat) :
    (chained readers s receiver n).Ensures (Term.Has Q) := by
  apply ensures_bind
  intro _
  apply ensures_bind
  intro c
  split
  · apply ensures_bind
    intro _
    apply ensures_bind
    intro c
    split
    · exact ensures_failure
    · split
      · refine (hr.arguments _).bind ?_
        intro arguments harguments
        exact ensures_command hr (.member hQ h _) harguments
      · exact ensures_pure (Callee.Gives.member hQ h _).bare
  · exact ensures_failure

end Receivers

variable {level : Nat} {commands : Bool} {left : Term}

include hk

theorem ensures_continued (h : left.Has Q) :
    (continued readers s level commands left).Ensures (Term.Has Q) := by
  refine (hk.access h).bind ?_
  intro t ht
  split
  · exact hk.operators ht
  · exact ensures_pure ht

include hQ

theorem ensures_operators (h : left.Has Q) :
    (operators readers s level commands left).Ensures (Term.Has Q) := by
  have hassigned : ∀ lists m kind,
      (operators.assigned readers s level commands lists m kind).Ensures (Term.Has Q) := by
    intro lists m kind
    exact (ensures_assignment hQ lists m kind).bind fun t ht => hk.operators ht
  have htargets : (operators.furtherTargets readers s level commands).Ensures (Term.Has Q) := by
    have hlist : Q (.other "left_assignment_list") := hQ.other _
    apply ensures_bind
    intro _
    apply ensures_bind
    intro c
    dsimp only
    split
    · exact hk.operators hlist
    · exact hk.operators hlist
    · exact ensures_bind fun _ => hk.operators hlist
  have hoperation : ∀ c,
      (operators.operation? readers s level commands left c).Ensures (Term.Has Q) := by
    intro c
    unfold operators.operation?
    split
    · exact ensures_pure h
    · split
      · exact ensures_pure h
      · exact (ensures_operation hQ _).bind fun t ht => hk.operators ht
  apply ensures_bind
  intro c
  split
  · split
    · exact htargets
    · exact hassigned _ _ _
    · exact ensures_pure h
  · split
    · exact hassigned _ _ _
    · exact hassigned _ _ _
    · split
      · exact ensures_pure h
      · exact htargets
    · exact hoperation c
  · split
    · exact hoperation c
    · exact ensures_pure h

theorem ensures_joins (h : left.Has Q) : (joins readers s left).Ensures (Term.Has Q) := by
  have hjoined : ∀ m, (joins.joined readers s m).Ensures (Term.Has Q) := by
    intro m
    apply ensures_bind
    intro _
    exact ensures_bind fun _ => hk.joins (hQ.other _)
  apply ensures_bind
  intro c
  split
  · exact hjoined 3
  · split
    · exact hjoined 2
    · exact ensures_pure h

theorem ensures_modifiers {e : Expr} (h : Q e) : (modifiers readers s e).Ensures Q := by
  apply ensures_bind
  intro c
  split
  · apply ensures_bind
    intro _
    exact ensures_bind fun _ => hk.modifiers (hQ.other _)
  · exact ensures_pure h

include hr

theorem ensures_access (h : left.Has Q) :
    (access readers s commands left).Ensures (Term.Has Q) := by
  have hgoOn : ∀ {p : Reader Term}, p.Ensures (Term.Has Q) →
      (access.goOn readers s commands p).Ensures (Term.Has Q) := by
    intro p hp
    exact hp.bind fun t ht => hk.access ht
  have hoperand : ∀ c, (access.afterOperand readers s commands left c).Ensures (Term.Has Q) := by
    intro c
    unfold access.afterOperand
    split
    · exact ensures_pure h
    · exact hgoOn (ensures_member hQ hr h 1)
    · exact hgoOn (ensures_member hQ hr h 2)
    · exact hgoOn (ensures_inScope hQ hr h)
    · exact hgoOn (ensures_index hQ)
    · exact ensures_pure h
  have hstring : ∀ c, (access.afterString readers s commands left c).Ensures (Term.Has Q) := by
    intro c
    unfold access.afterString
    split
    · exact hgoOn (ensures_bind_pure (hQ.other _))
    · split
      · exact ensures_pure h
      · split
        · exact ensures_failure
        · exact hoperand c
  have hcommand : ∀ c, (access.afterCommand readers s commands left c).Ensures (Term.Has Q) := by
    intro c
    unfold access.afterCommand
    split
    · exact hgoOn (ensures_chained hQ hr h 1)
    · exact hgoOn (ensures_chained hQ hr h 2)
    · exact hgoOn (ensures_chained hQ hr h 2)
    · exact ensures_pure h
  apply ensures_bind
  intro c
  split
  · exact hstring c
  · exact hstring c
  · exact hoperand c
  · exact hoperand c
  · exact hcommand c
  · exact ensures_pure h

end Operands

end FactoryRoster.Source.Rules
