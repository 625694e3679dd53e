import FactoryRoster.Proofs.Source.Registrations

/-!
# Reading literals

A literal is read from its opening, the parts of its body and its closing delimiter. What its body
denotes (`Outline.Reads`) is what the whole literal is read as (`ReadAsString`), wherever a value
stands and also where nothing else does.
-/

namespace FactoryRoster.Source

/-- A literal is read as a string of `text`, where a value stands and as a program of its own. -/
structure ReadAsString (literal text : List Char) : Prop where
  value : ∀ {n : Nat} {s : Setting} {commands : Bool} {c c' : Cursor} {rest : List Char},
    c.text = literal ++ rest → literal.length < n →
    (Readers.upTo n).gap (c.at_ rest) = some ((), c') →
    ∃ form : Form, form.isOperand = true ∧
      Rules.primary (.upTo n) s commands c = some (⟨.string text, form⟩, c')
  program : parse? (String.ofList literal) = some (.program [.string (String.ofList text)])

/-- A literal is read as one string only. -/
theorem ReadAsString.unique {literal text text' : List Char} (h : ReadAsString literal text)
    (h' : ReadAsString literal text') : text = text' := by
  have hprogram := h.program.symm.trans h'.program
  simp only [Option.some.injEq, Node.program.injEq, List.cons.injEq, Node.string.injEq,
    and_true] at hprogram
  exact String.ofList_injective hprogram

theorem ReadAsString.iff_eq {literal text text' : List Char} (h : ReadAsString literal text) :
    ReadAsString literal text' ↔ text = text' :=
  ⟨h.unique, fun heq => heq ▸ h⟩

/-! ### Literals as programs -/

section Program

variable {o : Outline} {opening body text : List Char} (hopens : o.Opens opening)
  (hreads : o.Reads body text)

include hopens hreads

theorem operand_of_reads {n : Nat} {c : Cursor} (htext : c.text = opening ++ body ++ [o.closer])
    (hn : body.length < n + 1) :
    (Readers.upTo (n + 2)).operand (.stated Stop.file.follow) 0 true c =
      some (⟨.string text, if o.kind == .string then .string else .value⟩, c.at_ []) := by
  have hgap : (Readers.upTo (n + 1)).gap (c.at_ []) = some ((), c.at_ []) :=
    gap_of_stopsGap rfl (Nat.succ_pos n)
  obtain ⟨mark, hmark, more, hopening⟩ := hopens.mark
  have hbegin : c.text = mark :: (more ++ body ++ [o.closer]) := by
    rw [htext, hopening]
    rfl
  have hkeyword : keywordAhead? c.text = none := by
    rw [hbegin]
    exact (keywordAhead?_of_mem_literalMarks hmark _).2
  rw [operand_eq_primary hbegin (opensOperand_of_mem_literalMarks hmark) hkeyword,
    primary_of_reads hopens hreads htext hn hgap, Option.bind_some,
    continued_of_stops rfl 0 true (.file rfl)]
  split <;> simp

theorem statements_of_reads {n : Nat} {c : Cursor} (htext : c.text = opening ++ body ++ [o.closer])
    (hn : c.text.length + 3 ≤ n) :
    (Readers.upTo n).statements .file c = some (c.allNotes ++ [.string text], c.at_ []) := by
  obtain ⟨m, rfl⟩ : ∃ m, n = m + 4 := ⟨n - 4, by
    rw [htext] at hn
    simp only [List.length_append, List.length_singleton] at hn
    omega⟩
  have hoperand := operand_of_reads hopens hreads htext (n := m) (by
    rw [htext] at hn
    simp only [List.length_append, List.length_singleton] at hn
    omega)
  obtain ⟨mark, hmark, more, hopening⟩ := hopens.mark
  have hbegin : c.text = mark :: (more ++ body ++ [o.closer]) := by
    rw [htext, hopening]
    rfl
  obtain ⟨hword, hkeyword⟩ := keywordAhead?_of_mem_literalMarks hmark (more ++ body ++ [o.closer])
  rw [← hbegin] at hword hkeyword
  have hstop : Stop.file.holds (wordAhead c.text) c.text = false := by
    rw [hword, hbegin]
    rfl
  have hstatement : (Readers.upTo (m + 3)).statement Stop.file.follow false c =
      some (⟨.string text, .complete⟩, c.at_ []) := by
    refine statement_of_operand hkeyword hoperand (.file rfl) ?_ ?_ <;> split <;> simp
  have hfollowing : (Readers.upTo (m + 3)).following .file (c.at_ []) = some ([], c.at_ []) := by
    simp [upTo_following, Rules.following, Rules.takeTerminator, Cursor.at_, Stop.holds,
      Reader.bind_apply, Reader.get_apply, Reader.pure_apply]
  have hsemicolon : mark ≠ ';' := ne_of_mem_of_not_mem hmark (by decide)
  exact statements_of_statement hbegin hsemicolon hstop hstatement hfollowing

/-- A literal whose body denotes a text is read as a string of it. -/
theorem readAsString_of_reads : ReadAsString (opening ++ body ++ [o.closer]) text where
  value htext hn hgap :=
    exists_primary_of_reads hopens hreads htext (Nat.lt_add_right 2 hn) hgap
  program := by
    let literal : List Char := opening ++ body ++ [o.closer]
    obtain ⟨mark, hmark, more, hopening⟩ := hopens.mark
    have hbegin : literal = mark :: (more ++ body ++ [o.closer]) := by
      simp only [literal, hopening]
      rfl
    have hstop : withoutMark literal = literal ∧ stopsGap literal = true := by
      simp only [literalMarks, List.mem_cons, List.not_mem_nil, or_false] at hmark
      rw [hbegin]
      rcases hmark with rfl | rfl | rfl | rfl <;> exact ⟨rfl, rfl⟩
    have hdepth : literal.length + 3 ≤ sufficientDepth literal.length := by
      simp only [sufficientDepth]
      omega
    let start : Cursor := { text := literal }
    have hgap : (Readers.upTo (sufficientDepth literal.length)).gap start = some ((), start) :=
      gap_of_stopsGap hstop.2 (show literal.length < _ by omega)
    have hstatements := statements_of_reads hopens hreads (c := start) rfl hdepth
    have hprogram : programStatements? literal = some [.string text] := by
      simp only [programStatements?, hstop.1]
      change ((Readers.upTo (sufficientDepth literal.length)).gap start >>= fun x =>
        (Readers.upTo (sufficientDepth literal.length)).statements .file x.2 >>= fun y =>
          ending? (.upTo (sufficientDepth literal.length)) y.2 >>= fun notes =>
            some (y.1 ++ notes)) = _
      simp only [hgap, hstatements, Option.bind_eq_bind, Option.bind_some]
      rfl
    rw [parse?_ofList, hprogram]
    rfl

end Program

end FactoryRoster.Source
