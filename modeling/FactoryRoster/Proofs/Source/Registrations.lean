import FactoryRoster.Proofs.Source.Declarations

/-!
# Reading registrations

A text that is one registration, with notes between its lines, is a program whose only call is that
registration, and whose declarations are those of the block. The receiver of the registration may be
looked up in the outermost scope.
-/

namespace FactoryRoster.Source

/-! ### The registration -/

/-- The word before the dot of a registration. -/
def receiverWord : List Char := ['F', 'a', 'c', 't', 'o', 'r', 'y', 'B', 'o', 't']

/-- The word after the dot of a registration. -/
def methodWord : List Char := ['d', 'e', 'f', 'i', 'n', 'e']

theorem isWord_receiverWord : IsWord receiverWord :=
  ⟨⟨_, _, rfl, by decide⟩, List.all_eq_true.mp (by decide), by decide⟩

theorem nameOrCall_receiver {rest : List Char} {n : Nat} {s : Setting} {c : Cursor}
    (htext : c.text = receiverWord ++ '.' :: 'd' :: rest) (hn : c.text.length < n) :
    Rules.nameOrCall (.upTo n) s true receiverWord c =
      some (⟨.name receiverWord, .place⟩, c.at_ ('.' :: 'd' :: rest)) := by
  have hadvance : Rules.advance (.upTo n) receiverWord.length c =
      some ((), c.at_ ('.' :: 'd' :: rest)) := by
    rw [Rules.advance, htext, List.drop_left]
    refine gap_of_stopsGap rfl ?_
    rw [htext, List.length_append] at hn
    simp only [Cursor.at_]
    omega
  have hahead : s.ahead (c.at_ ('.' :: 'd' :: rest)) = '.' :: 'd' :: rest := rfl
  have hbegins : s.beginsArgument (c.at_ ('.' :: 'd' :: rest)) = false := by
    rw [Setting.beginsArgument, hahead]
    rfl
  have hdo : s.hasKeyword (c.at_ ('.' :: 'd' :: rest)) .do_ = false := by
    rw [Setting.hasKeyword, hahead]
    rfl
  have hnone : Rules.attachedBlock (.upTo n) s (c.at_ ('.' :: 'd' :: rest)) =
      some (none, c.at_ ('.' :: 'd' :: rest)) := by
    simp only [Rules.attachedBlock, Reader.bind_apply, Reader.get_apply, Option.bind_some, hahead,
      hdo, Bool.false_and, Bool.false_eq_true, if_false]
    rfl
  rw [nameOrCall_eq_named, hadvance, Option.bind_some,
    named_of_block _ (by simp [Cursor.at_]) (by simp [Cursor.at_]) hbegins, hnone]
  rfl

/-- The member of a receiver is a call with the block that follows. -/
theorem member_of_block (receiver : Expr) {rest : List Char} (hrest : EndsLine rest) {n : Nat}
    {s : Setting} {c : Cursor} (htext : c.text = '.' :: methodWord ++ ' ' :: 'd' :: 'o' :: rest)
    (hn : c.text.length < n) :
    Rules.member (.upTo n) s true receiver 1 c =
      (Rules.attachedBlock (.upTo n) s (c.atBlock rest)).map fun x =>
        (calledWith (.member receiver methodWord) x.1, x.2) := by
  have hdot : Rules.advance (.upTo n) 1 c =
      some ((), c.at_ (methodWord ++ ' ' :: 'd' :: 'o' :: rest)) := by
    rw [Rules.advance, htext]
    refine gap_of_stopsGap rfl ?_
    rw [htext] at hn
    simp [Cursor.at_, methodWord] at hn ⊢
    omega
  have hword : Rules.advance (.upTo n) methodWord.length
      (c.at_ (methodWord ++ ' ' :: 'd' :: 'o' :: rest)) = some ((), c.atBlock rest) := by
    refine gap_of_blank rfl rfl ?_
    rw [htext] at hn
    simp [Cursor.at_, methodWord] at hn ⊢
    omega
  have hahead : s.ahead (c.atBlock rest) = 'd' :: 'o' :: rest := rfl
  have hkeyword : keywordAhead? ('d' :: 'o' :: rest) = some .do_ ∧
      labelAhead? ('d' :: 'o' :: rest) = none := by
    rcases hrest with rfl | ⟨more, rfl⟩ <;> exact ⟨rfl, rfl⟩
  have hbegins : s.beginsArgument (c.atBlock rest) = false := by
    rw [Setting.beginsArgument, hahead]
    simp only [Setting.beginsArgument.word, hkeyword.1, hkeyword.2]
    rfl
  simp only [Rules.member, Reader.bind_apply, Reader.get_apply, hdot, Option.bind_some]
  change (Rules.advance (.upTo n) methodWord.length >>= fun _ =>
    Rules.named (.upTo n) s true (.member receiver methodWord))
      (c.at_ (methodWord ++ ' ' :: 'd' :: 'o' :: rest)) = _
  rw [Reader.bind_apply, hword, Option.bind_some,
    named_of_block _ (by simp [Cursor.atBlock, Cursor.afterBlanks])
      (by simp [Cursor.atBlock, Cursor.afterBlanks]) hbegins]

/-- Two colons before a constant make it a name of the outermost scope. -/
theorem plainLiteral_of_colons {name rest : List Char} {n : Nat} {c : Cursor}
    (htext : c.text = ':' :: ':' :: (name ++ rest)) (hn : c.text.length < n)
    (hname : nameAhead (name ++ rest) = name) (hconstant : isConstant name = true)
    (hstops : stopsGap (name ++ rest) = true) (hrest : stopsGap rest = true) :
    Rules.plainLiteral (.upTo n) c = some (⟨.name name, .place⟩, c.at_ rest) := by
  rw [htext, List.length_cons, List.length_cons, List.length_append] at hn
  have hcolons : Rules.advance (.upTo n) 2 c = some ((), c.at_ (name ++ rest)) := by
    rw [Rules.advance, htext]
    refine gap_of_stopsGap hstops ?_
    rw [Cursor.at_, List.drop_succ_cons, List.drop_succ_cons, List.drop_zero, List.length_append]
    omega
  have hadvance : Rules.advance (.upTo n) name.length (c.at_ (name ++ rest)) =
      some ((), c.at_ rest) := by
    rw [Rules.advance, show (c.at_ (name ++ rest)).text = name ++ rest from rfl, List.drop_left]
    exact gap_of_stopsGap hrest (show rest.length < n by omega)
  have hahead : nameAhead (c.at_ (name ++ rest)).text = name := hname
  simp only [Rules.plainLiteral, Reader.bind_apply, Reader.get_apply, Option.bind_some, htext,
    hcolons, hahead, hconstant, hadvance, if_true, Reader.pure_apply]

/-- What may stand before the receiver of a registration: nothing, or the two colons that look its
name up in the outermost scope. -/
inductive IsScope : List Char → Prop
  | none : IsScope []
  | outermost : IsScope [':', ':']

section Scope

variable {scope : List Char} (hscope : IsScope scope)

include hscope

theorem IsScope.opens (rest : List Char) :
    ∃ first more, scope ++ (registrationLine ++ rest) = first :: more ∧
      opensOperand first = true ∧ first ≠ ';' := by
  cases hscope with
  | none => exact ⟨'F', _, rfl, rfl, by decide⟩
  | outermost => exact ⟨':', _, rfl, rfl, by decide⟩

theorem IsScope.keywordAhead? (rest : List Char) :
    Source.keywordAhead? (scope ++ (registrationLine ++ rest)) = Option.none := by
  cases hscope with
  | none =>
      exact isWord_receiverWord.keywordAhead? (show endsWord '.' = true by decide)
        (methodWord ++ opening ++ rest)
  | outermost => rfl

theorem IsScope.opensLine (rest : List Char) :
    Source.opensLine (scope ++ (registrationLine ++ rest)) = true ∧
      ∀ before, withoutMark (noteLines before ++ (scope ++ (registrationLine ++ rest))) =
        noteLines before ++ (scope ++ (registrationLine ++ rest)) := by
  cases hscope <;> exact ⟨rfl, fun before => by cases before <;> rfl⟩

theorem IsScope.not_holds (rest : List Char) :
    Stop.file.holds (wordAhead (scope ++ (registrationLine ++ rest)))
      (scope ++ (registrationLine ++ rest)) = false := by
  cases hscope <;> rfl

/-- The receiver of a registration is a name in either scope. -/
theorem IsScope.primary {rest : List Char} {n : Nat} {s : Setting} {c : Cursor}
    (htext : c.text = scope ++ (receiverWord ++ '.' :: 'd' :: rest)) (hn : c.text.length < n) :
    Rules.primary (.upTo n) s true c =
      some (⟨.name receiverWord, .place⟩, c.at_ ('.' :: 'd' :: rest)) := by
  cases hscope with
  | none =>
      rw [primary_of_word isWord_receiverWord (by decide) htext]
      exact nameOrCall_receiver htext hn
  | outermost =>
      have hspelled : c.text = ':' :: ':' :: (receiverWord ++ '.' :: 'd' :: rest) := htext
      rw [primary_of_colon hspelled (by rw [hspelled]; rfl)]
      exact plainLiteral_of_colons hspelled hn rfl rfl rfl rfl

end Scope

section Registration

variable {scope rest : List Char} (hscope : IsScope scope) (hrest : EndsLine rest) {n : Nat}
  {s : Setting} {c : Cursor} (htext : c.text = scope ++ (registrationLine ++ rest))
  (hn : c.text.length < n + 1)

include hscope htext hn

/-- An operand that is a name goes on behind its member. -/
theorem operand_eq_member :
    (Readers.upTo (n + 3)).operand s 0 true c =
      (Rules.member (.upTo (n + 1)) s true (.name receiverWord) 1
        (c.at_ ('.' :: methodWord ++ ' ' :: 'd' :: 'o' :: rest))).bind fun x =>
          ((Readers.upTo (n + 1)).access s true x.1 x.2).bind fun y =>
            (Readers.upTo (n + 2)).operators s 0 true y.1 y.2 := by
  have hkeyword : keywordAhead? c.text = none := by
    rw [htext]
    exact hscope.keywordAhead? rest
  let inner : List Char := methodWord.drop 1 ++ ' ' :: 'd' :: 'o' :: rest
  have hprimary : Rules.primary (.upTo (n + 2)) s true c =
      some (⟨.name receiverWord, .place⟩, c.at_ ('.' :: 'd' :: inner)) :=
    hscope.primary htext (by omega)
  obtain ⟨first, more, hline, hfirst, -⟩ := hscope.opens rest
  rw [operand_eq_primary (htext.trans hline) hfirst hkeyword, hprimary, Option.bind_some,
    Rules.continued, Reader.bind_apply, upTo_access]
  change ((Rules.member (.upTo (n + 1)) s true (.name receiverWord) 1 >>= fun t =>
    (Readers.upTo (n + 1)).access s true t)
      (c.at_ ('.' :: methodWord ++ ' ' :: 'd' :: 'o' :: rest))).bind _ = _
  rw [Reader.bind_apply, Option.bind_assoc]
  rfl

include hrest

omit hscope in
theorem member_registration :
    Rules.member (.upTo (n + 1)) s true (.name receiverWord) 1
        (c.at_ ('.' :: methodWord ++ ' ' :: 'd' :: 'o' :: rest)) =
      (Rules.attachedBlock (.upTo (n + 1)) s (c.atBlock rest)).map fun x =>
        (calledWith (.member (.name receiverWord) methodWord) x.1, x.2) := by
  refine member_of_block (.name receiverWord) hrest rfl ?_
  rw [htext] at hn
  simp [Cursor.at_, registrationLine, methodWord, opening] at hn ⊢
  omega

theorem operand_registration {c' : Cursor} {es : List Expr} (hs : s.wrapped = false)
    (hblock : Rules.attachedBlock (.upTo (n + 1)) s (c.atBlock rest) = some (some es, c'))
    (hends : c'.Ends) :
    (Readers.upTo (n + 3)).operand s 0 true c =
      some (⟨.call (some (.name receiverWord)) (some methodWord) [] (some es), .value⟩, c') := by
  rw [operand_eq_member hscope htext hn, member_registration hrest htext hn, hblock,
    Option.map_some, Option.bind_some, access_of_stops hs true hends.stops, Option.bind_some]
  exact operators_of_stops hs 0 true hends.stops (by simp [calledWith])

theorem operand_of_no_block
    (hblock : Rules.attachedBlock (.upTo (n + 1)) s (c.atBlock rest) = none) :
    (Readers.upTo (n + 3)).operand s 0 true c = none := by
  rw [operand_eq_member hscope htext hn, member_registration hrest htext hn, hblock]
  rfl

end Registration

/-! ### The program -/

theorem IsEnding.endsLine {ending : List Char} (h : IsEnding ending) : EndsLine ending := by
  rcases h with rfl | ⟨notes, -, rfl⟩
  · exact .inl rfl
  · exact .inr ⟨_, rfl⟩

theorem gap_of_ending {ending : List Char} (h : IsEnding ending) {n : Nat} {c : Cursor}
    (hquiet : c.Quiet) (hn : ending.length < n) :
    ∃ c', (Readers.upTo n).gap (c.at_ ending) = some ((), c') ∧ c'.text = [] ∧ c'.Quiet := by
  rcases h with rfl | ⟨notes, hnotes, rfl⟩
  · exact ⟨_, gap_of_stopsGap rfl hn, rfl, hquiet.at_ _⟩
  · obtain ⟨c', hgap, hopens⟩ := gap_of_line hnotes (show opensLine [] = true from rfl)
      (hquiet.at_ _) rfl rfl (by simp [Cursor.at_]) hn
    exact ⟨c', hgap, hopens.text, hopens.quiet⟩

/-- The gap before the first line of code. -/
theorem gap_of_noteLines {notes : List (List Char)} {rest : List Char}
    (hnotes : ∀ note ∈ notes, ∀ c ∈ note, isControl c = false) (hrest : opensLine rest = true)
    {n : Nat} (hn : (noteLines notes ++ rest).length < n) :
    ∃ c', (Readers.upTo n).gap { text := noteLines notes ++ rest } = some ((), c') ∧
      c'.text = rest ∧ c'.Quiet := by
  have hquiet : ∀ text, Cursor.Quiet { text } := fun _ => ⟨rfl, rfl⟩
  cases notes with
  | nil =>
      have hstop : stopsGap rest = true := by
        simp only [opensLine, Bool.and_eq_true] at hrest
        exact hrest.1.1
      exact ⟨_, gap_of_stopsGap hstop hn, rfl, hquiet _⟩
  | cons note notes =>
      have htext : noteLines (note :: notes) ++ rest =
          '#' :: note ++ '\n' :: (noteLines notes ++ rest) := by
        simp [noteLines]
      rw [htext] at hn ⊢
      obtain ⟨m, rfl⟩ := Nat.exists_eq_succ_of_ne_zero (Nat.ne_of_gt (Nat.zero_lt_of_lt hn))
      rw [gap_of_note (hnotes note List.mem_cons_self) rfl rfl]
      obtain ⟨c', hgap, hopens⟩ := gap_of_line
        (c := { text := '\n' :: (noteLines notes ++ rest), notes := ["comment"] })
        (fun other h => hnotes other (List.mem_cons_of_mem _ h)) hrest
        ⟨rfl, rfl⟩ rfl rfl rfl (n := m) (by
          simp only [List.length_append, List.length_cons] at hn ⊢
          omega)
      exact ⟨c', hgap, hopens.text, hopens.quiet⟩

theorem following_of_end {n : Nat} {c : Cursor} (htext : c.text = []) :
    ∃ notes c', (Readers.upTo (n + 2)).following .file c = some (notes, c') ∧ c'.text = [] ∧
      callsAmong notes = [] := by
  by_cases hbroken : c.broken = true
  · have hstatements : (Readers.upTo (n + 1)).statements .file c.nextLine =
        some ([], c.nextLine) := by
      have hnext : c.nextLine.text = [] := htext
      simp [upTo_statements, Rules.statements, Reader.bind_apply, Reader.get_apply, hnext,
        Stop.holds, Reader.pure_apply]
    refine ⟨c.lineNotes ++ [], c.nextLine, ?_, htext, ?_⟩
    · simp [-bind_pure_comp, upTo_following, Rules.following, Rules.takeTerminator, hbroken,
        hstatements, Reader.bind_apply, Reader.get_apply, Reader.pure_apply]
    · rw [List.append_nil, callsAmong_lineNotes]
  · refine ⟨[], c, ?_, htext, rfl⟩
    simp [upTo_following, Rules.following, Rules.takeTerminator, hbroken, htext, Stop.holds,
      Reader.bind_apply, Reader.get_apply, Reader.pure_apply]

/-- The call of a registration whose block has the given children. -/
def registrationOf (es : List Expr) : Call where
  receiver := some (.identifier (String.ofList receiverWord))
  method := String.ofList methodWord
  block := some (Expr.statementNodes es)

section Program

variable {α : Type} {kind : α → Call → Prop} {items : List (α × List NotedLine)}
  (hitems : Declared kind items) {scope : List Char} (hscope : IsScope scope)
  {first last : NotedLine} (hfirst : first.code = scope ++ registrationLine)
  (hnotes : ∀ note ∈ first.notes, ∀ c ∈ note, isControl c = false) (hlast : last.Plain)
  (hclosing : last.code = closing) {ending : List Char} (hending : IsEnding ending)

include hitems hscope hfirst hlast hclosing hending

theorem statements_of_registration {n : Nat} {c : Cursor} (hquiet : c.Quiet)
    (htext : c.text = textFrom (first :: items.flatMap Prod.snd ++ [last]) ending)
    (hn : c.text.length + 10 ≤ n) :
    ∃ statements es c', (Readers.upTo n).statements .file c = some (statements, c') ∧
      callsAmong statements = [registrationOf es] ∧
      List.Forall₂ kind (items.map Prod.fst) (callsWithin es) ∧ c'.text = [] := by
  obtain ⟨m, rfl⟩ : ∃ m, n = m + 5 := ⟨n - 5, by omega⟩
  let block : List Char := textAfter (items.flatMap Prod.snd ++ [last]) ending
  have hline : c.text = scope ++ (registrationLine ++ block) := by
    rw [htext, List.cons_append, textFrom, hfirst, List.append_assoc]
  have hlength : block.length + 20 ≤ c.text.length := by
    have hregistration : registrationLine.length = 20 := rfl
    simp only [hline, List.length_append]
    omega
  have hrest : ending.length ≤ block.length := length_ending_le _ ending
  have hendsLine : EndsLine block := endsLine_textAfter hitems hlast [] ending
  obtain ⟨es, c₁, hblock, hcalls, htext₁, hquiet₁⟩ := attachedBlock_of_declared hlast hclosing
    (show EndsLine (textAfter [] ending) from hending.endsLine) hitems (n := m)
    (s := .stated Stop.file.follow) hquiet (P := fun c' => c'.text = [] ∧ c'.Quiet)
    (fun c' hc' => gap_of_ending hending hc' (by omega)) rfl
    (show block.length + 12 ≤ m by omega)
  have hends : c₁.Ends := .inl htext₁
  have hkeyword : keywordAhead? c.text = none := by
    rw [hline]
    exact hscope.keywordAhead? block
  have hstatement : (Readers.upTo (m + 4)).statement Stop.file.follow false c =
      some (⟨.call (some (.name receiverWord)) (some methodWord) [] (some es), .complete⟩, c₁) :=
    statement_of_operand hkeyword
      (operand_registration hscope hendsLine hline (by omega) rfl hblock hends) hends.stops
      (by simp) (by simp)
  obtain ⟨notes, c', hfollowing, htext', hnotes⟩ := following_of_end (n := m + 2) htext₁
  have hstop : Stop.file.holds (wordAhead c.text) c.text = false := by
    rw [hline]
    exact hscope.not_holds block
  obtain ⟨begin, more, hbegin, -, hsemicolon⟩ := hscope.opens block
  refine ⟨_, es, c', statements_of_statement (hline.trans hbegin) hsemicolon hstop hstatement
    hfollowing, ?_, hcalls, htext'⟩
  rw [callsAmong_append, callsAmong_allNotes, List.nil_append, callsAmong_cons, hnotes]
  simp [Expr.toNode, Expr.optionToNode, Expr.listToNodes, Expr.blockToNodes, Node.call?,
    registrationOf]

include hnotes

/-- A registration in either scope is read as a program with one call. -/
theorem programStatements_of_scopedRegistration :
    ∃ statements es,
      programStatements? (textOf (first :: items.flatMap Prod.snd ++ [last]) ++ ending) =
        some statements ∧
      callsAmong statements = [registrationOf es] ∧
      List.Forall₂ kind (items.map Prod.fst) (callsWithin es) := by
  let code : List Char := textFrom (first :: items.flatMap Prod.snd ++ [last]) ending
  let text : List Char := noteLines first.notes ++ code
  have htext : textOf (first :: items.flatMap Prod.snd ++ [last]) ++ ending = text := by
    rw [List.cons_append, textOf_append]
    rfl
  have hcode : code = scope ++
      (registrationLine ++ textAfter (items.flatMap Prod.snd ++ [last]) ending) := by
    simp only [code, List.cons_append, textFrom, hfirst, List.append_assoc]
  obtain ⟨hopens, hmark⟩ := hscope.opensLine (textAfter (items.flatMap Prod.snd ++ [last]) ending)
  rw [← hcode] at hopens hmark
  let depth := sufficientDepth text.length
  have hdepth : text.length + 10 ≤ depth := by
    simp only [depth, sufficientDepth]
    omega
  have hshorter : code.length ≤ text.length := by
    rw [List.length_append]
    omega
  obtain ⟨start, hgap, hstart, hquiet⟩ :=
    gap_of_noteLines hnotes hopens (n := depth) (show text.length < depth by omega)
  obtain ⟨statements, es, stop, hstatements, hcalls, hkinds, hstop⟩ :=
    statements_of_registration hitems hscope hfirst hlast hclosing hending (n := depth) hquiet
      hstart (by rw [hstart]; omega)
  refine ⟨statements ++ stop.allNotes, es, ?_, ?_, hkinds⟩
  · have hending : ending? (.upTo depth) stop = some stop.allNotes := by rw [ending?, hstop]
    rw [htext]
    simp only [programStatements?, text, hmark]
    change ((Readers.upTo depth).gap { text } >>= fun x =>
      (Readers.upTo depth).statements .file x.2 >>= fun y =>
        ending? (.upTo depth) y.2 >>= fun notes => some (y.1 ++ notes)) = _
    simp only [text, hgap, hstatements, hending, Option.bind_eq_bind, Option.bind_some]
  · rw [callsAmong_append, callsAmong_allNotes, List.append_nil]
    exact hcalls

end Program

/-- A registration is read as a program with one call. -/
theorem programStatements_of_registration {α : Type} {kind : α → Call → Prop}
    {items : List (α × List NotedLine)} (hitems : Declared kind items) {first last : NotedLine}
    (hfirst : first.code = registrationLine)
    (hnotes : ∀ note ∈ first.notes, ∀ c ∈ note, isControl c = false) (hlast : last.Plain)
    (hclosing : last.code = closing) {ending : List Char} (hending : IsEnding ending) :
    ∃ statements es,
      programStatements? (textOf (first :: items.flatMap Prod.snd ++ [last]) ++ ending) =
        some statements ∧
      callsAmong statements = [registrationOf es] ∧
      List.Forall₂ kind (items.map Prod.fst) (callsWithin es) :=
  programStatements_of_scopedRegistration hitems .none hfirst hnotes hlast hclosing hending

end FactoryRoster.Source
