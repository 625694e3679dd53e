import FactoryRoster.Proofs.Source.Quoted

/-!
# Reading commands

How a statement is read that is a call without parentheses: a word, a literal and perhaps a block.
The operand ends where the line does or where its block opens, and nothing that may go on with an
operand begins at such a place.
-/

namespace FactoryRoster.Source

/-! ### Where an operand ends -/

/-- A place that no operand goes on at: the end of the text, the end of a line, or the word that
opens a block, as far as it has been written. -/
inductive Cursor.Stops (c : Cursor) : Prop where
  | file (text : c.text = [])
  | line (spaced : c.spaced = true) (broken : c.broken = true)
  | block (spaced : c.spaced = true) (rest : List Char) (text : c.text = 'd' :: rest)
      (word : nameAhead c.text <+: Keyword.do_.spelling)

/-- A place that a statement ends at. -/
def Cursor.Ends (c : Cursor) : Prop :=
  c.text = [] ∨ (c.spaced = true ∧ c.broken = true)

theorem Cursor.Ends.stops {c : Cursor} (h : c.Ends) : c.Stops := by
  rcases h with h | ⟨hspaced, hbroken⟩
  · exact .file h
  · exact .line hspaced hbroken

theorem Cursor.OpensLine.ends {c : Cursor} {text : List Char} (h : c.OpensLine text) : c.Ends :=
  .inr ⟨h.spaced, h.broken⟩

theorem Keyword.spelling_of_ofName? {name : List Char} {k : Keyword}
    (h : Keyword.ofName? name = some k) : k.spelling = name :=
  beq_iff_eq.mp (List.find?_some (p := fun k : Keyword => k.spelling == name) h)

section Stops

variable {n : Nat} {c : Cursor} {s : Setting} (hs : s.wrapped = false) (level : Nat)
  (commands : Bool)

include hs

theorem Cursor.Ends.ahead (h : c.Ends) : s.ahead c = [] := by
  rcases h with h | ⟨-, hbroken⟩
  · simp [Setting.ahead, h]
  · simp [Setting.ahead, hbroken, hs]

theorem Cursor.Stops.ahead (h : c.Stops) :
    s.ahead c = [] ∨ ∃ rest, s.ahead c = 'd' :: rest := by
  cases h with
  | file htext => exact .inl (Cursor.Ends.ahead hs (.inl htext))
  | line hspaced hbroken => exact .inl (Cursor.Ends.ahead hs (.inr ⟨hspaced, hbroken⟩))
  | block hspaced rest htext _ =>
      by_cases hbroken : c.broken = true
      · exact .inl (Cursor.Ends.ahead hs (.inr ⟨hspaced, hbroken⟩))
      · exact .inr ⟨rest, by simp [Setting.ahead, hbroken, htext]⟩

/-- The only word at a place that no operand goes on at is the one that opens a block. -/
theorem Cursor.Stops.nameAhead (h : c.Stops) :
    nameAhead (s.ahead c) <+: Keyword.do_.spelling := by
  cases h with
  | file htext => rw [Cursor.Ends.ahead hs (.inl htext)]; exact List.nil_prefix
  | line hspaced hbroken =>
      rw [Cursor.Ends.ahead hs (.inr ⟨hspaced, hbroken⟩)]
      exact List.nil_prefix
  | block hspaced rest htext hword =>
      by_cases hbroken : c.broken = true
      · rw [Cursor.Ends.ahead hs (.inr ⟨hspaced, hbroken⟩)]
        exact List.nil_prefix
      · simpa [Setting.ahead, hbroken] using hword

theorem Cursor.Stops.hasKeyword (h : c.Stops) {k : Keyword} (hk : k ≠ .do_) :
    s.hasKeyword c k = false := by
  have hword := h.nameAhead hs
  rw [Setting.hasKeyword, beq_eq_false_iff_ne]
  intro hname
  rw [hname] at hword
  cases k <;> simp_all [Keyword.spelling]

theorem access_of_stops (h : c.Stops) (t : Term) :
    (Readers.upTo (n + 1)).access s commands t c = some (t, c) := by
  simp only [upTo_access, Rules.access, Reader.bind_apply, Reader.get_apply, Option.bind_some]
  rcases h.ahead hs with hahead | ⟨rest, hahead⟩ <;> cases t.form <;>
    simp [Rules.access.afterString, Rules.access.afterOperand, Rules.access.afterCommand,
      Rules.nextString?, Rules.announcesDocument, stringOutline?, hahead, Reader.pure_apply]

theorem operators_of_stops (h : c.Stops) {t : Term} (ht : t.form ≠ .targets) :
    (Readers.upTo (n + 1)).operators s level commands t c = some (t, c) := by
  have hdo : ∀ rest, operatorAhead? ('d' :: rest) = none := fun _ => rfl
  have hempty : operatorAhead? [] = none := rfl
  have hlength : ∀ rest, assignmentLength? ('d' :: rest) = none := fun _ => rfl
  have hnone : assignmentLength? [] = none := rfl
  simp only [upTo_operators, Rules.operators, Reader.bind_apply, Reader.get_apply,
    Option.bind_some]
  rcases h.ahead hs with hahead | ⟨rest, hahead⟩ <;> cases hform : t.form <;>
    simp_all [Rules.operators.operation?, Form.isOperand, assigns, Reader.pure_apply]

theorem continued_of_stops (h : c.Stops) {t : Term} (ht : t.form ≠ .targets) :
    Rules.continued (.upTo (n + 1)) s level commands t c = some (t, c) := by
  simp only [Rules.continued, Reader.bind_apply, access_of_stops hs commands h, Option.bind_some]
  split
  · exact operators_of_stops hs level commands h ht
  · rfl

theorem matched_of_stops (h : c.Stops) (rs : Readers) (t : Term) :
    Rules.matched rs s t c = some (t, c) := by
  have hin := h.hasKeyword hs (k := .in_) (by decide)
  simp only [Rules.matched, Reader.bind_apply, Reader.get_apply, Option.bind_some]
  rcases h.ahead hs with hahead | ⟨rest, hahead⟩ <;>
    simp [hahead, hin, Reader.pure_apply]

theorem joins_of_stops (h : c.Stops) (t : Term) :
    (Readers.upTo (n + 1)).joins s t c = some (t, c) := by
  simp only [upTo_joins, Rules.joins, Reader.bind_apply, Reader.get_apply, Option.bind_some,
    h.hasKeyword hs (k := .and_) (by decide), h.hasKeyword hs (k := .or_) (by decide),
    Bool.false_eq_true, if_false]
  rfl

theorem modifiers_of_stops (h : c.Stops) (e : Expr) :
    (Readers.upTo (n + 1)).modifiers s e c = some (e, c) := by
  have hnone : Rules.modifierName? s c = none := by
    cases hname : Keyword.ofName? (Source.nameAhead (s.ahead c)) with
    | none => rw [Rules.modifierName?, hname]
    | some k =>
        have hk : k = .do_ := by
          refine Decidable.byContradiction fun hk => ?_
          have hother := h.hasKeyword hs hk
          rw [Setting.hasKeyword, beq_eq_false_iff_ne] at hother
          exact hother (Keyword.spelling_of_ofName? hname).symm
        rw [Rules.modifierName?, hname, hk]
  simp only [upTo_modifiers, Rules.modifiers, Reader.bind_apply, Reader.get_apply,
    Option.bind_some, hnone]
  rfl

end Stops

theorem Cursor.Stops.isKeyColon {c : Cursor} (h : c.Stops) : isKeyColon c = false := by
  cases h with
  | file htext => cases hspaced : c.spaced <;> simp [Source.isKeyColon, htext, hspaced]
  | line hspaced hbroken => simp [Source.isKeyColon, hspaced]
  | block hspaced rest htext _ => simp [Source.isKeyColon, hspaced]

/-! ### Operands -/

/-- A character that an operand may begin with that has no operator before it. -/
def opensOperand (c : Char) : Bool :=
  !(['-', '+', '!', '~', '*', '.'].contains c)

theorem opensOperand_of_isNameStart {c : Char} (h : isNameStart c = true) :
    opensOperand c = true := by
  rw [opensOperand, Bool.not_eq_true', List.contains_eq_any_beq, List.any_eq_false]
  intro ch hch
  simp only [List.mem_cons, List.not_mem_nil, or_false] at hch
  rcases hch with rfl | rfl | rfl | rfl | rfl | rfl <;>
    · rw [beq_iff_eq]
      rintro rfl
      simp [isNameStart, isNameChar, punctuation] at h

theorem operand_eq_primary {n level : Nat} {s : Setting} {commands : Bool} {c : Cursor}
    {first : Char} {rest : List Char} (htext : c.text = first :: rest)
    (hfirst : opensOperand first = true) (hkeyword : keywordAhead? c.text = none) :
    (Readers.upTo (n + 1)).operand s level commands c =
      (Rules.primary (.upTo n) s commands c).bind fun x =>
        Rules.continued (.upTo n) s level commands x.1 x.2 := by
  have hplain : Rules.operand.plain (.upTo n) s level commands c =
      (Rules.primary (.upTo n) s commands c).bind fun x =>
        Rules.continued (.upTo n) s level commands x.1 x.2 := by
    simp only [Rules.operand.plain, Reader.bind_apply]
  rw [htext] at hkeyword
  simp only [upTo_operand, Rules.operand, Reader.bind_apply, Reader.get_apply, Option.bind_some,
    htext]
  split <;> simp_all [opensOperand]

theorem primary_of_wordAhead {rs : Readers} {s : Setting} {commands : Bool} {c : Cursor}
    {word rest : List Char} (hword : IsWord word) (htext : c.text = word ++ rest)
    (hahead : wordAhead c.text = word) :
    Rules.primary rs s commands c = Rules.nameOrCall rs s commands word c := by
  obtain ⟨first, more, rfl, hfirst⟩ := hword.start
  rw [htext] at hahead
  simp only [Rules.primary, Reader.bind_apply, Reader.get_apply, Option.bind_some, htext, hahead,
    List.cons_append] at hahead ⊢
  simp only [hfirst, if_true, Rules.wordOperand, hword.free]

theorem primary_of_word {rs : Readers} {s : Setting} {commands : Bool} {c : Cursor}
    {word : List Char} (hword : IsWord word) {b : Char} (hb : endsWord b = true)
    {rest : List Char} (htext : c.text = word ++ b :: rest) :
    Rules.primary rs s commands c = Rules.nameOrCall rs s commands word c := by
  refine primary_of_wordAhead hword htext ?_
  rw [htext, wordAhead_append hword.chars hb]

/-- A delimited literal is an operand. -/
theorem primary_eq_literal {rs : Readers} {s : Setting} {commands : Bool} {c : Cursor}
    {first : Char} {rest : List Char} (htext : c.text = first :: rest)
    (hfirst : isNameStart first = false) {o : Outline} {k : Nat}
    (hahead : outlineAhead? c.text = some (o, k)) :
    Rules.primary rs s commands c = (Rules.literal rs o k c).map fun x =>
      (⟨x.1, if o.kind == .string then .string else .value⟩, x.2) := by
  rw [htext] at hahead
  rw [Option.map_eq_bind]
  simp only [Rules.primary, Reader.bind_apply, Reader.get_apply, Option.bind_some, htext, hfirst,
    hahead, Bool.false_eq_true, if_false]
  rfl

/-- What begins with a colon but opens no delimited literal is a plain one. -/
theorem primary_of_colon {rs : Readers} {s : Setting} {commands : Bool} {c : Cursor}
    {rest : List Char} (htext : c.text = ':' :: rest) (hahead : outlineAhead? c.text = none) :
    Rules.primary rs s commands c = Rules.plainLiteral rs c := by
  have hcolon : isNameStart ':' = false := rfl
  have hvariable : variableAhead? (':' :: rest) = none := rfl
  rw [htext] at hahead
  simp only [Rules.primary, Reader.bind_apply, Reader.get_apply, Option.bind_some, htext, hcolon,
    hahead, hvariable, Bool.false_eq_true, if_false]
  rfl

/-! ### Literals -/

/-- The first characters of the openings of strings and of symbols. -/
def literalMarks : List Char :=
  ['\"', '\'', ':', '%']

section Marks

variable {mark : Char} (h : mark ∈ literalMarks) (rest : List Char)

include h

theorem isNameStart_of_mem_literalMarks : isNameStart mark = false := by
  have hall : literalMarks.all (fun ch => !isNameStart ch) = true := by decide
  simpa using List.all_eq_true.mp hall mark h

theorem opensOperand_of_mem_literalMarks : opensOperand mark = true := by
  have hall : literalMarks.all opensOperand = true := by decide
  exact List.all_eq_true.mp hall mark h

theorem keywordAhead?_of_mem_literalMarks :
    wordAhead (mark :: rest) = [] ∧ keywordAhead? (mark :: rest) = none := by
  simp only [literalMarks, List.mem_cons, List.not_mem_nil, or_false] at h
  rcases h with rfl | rfl | rfl | rfl <;> exact ⟨rfl, rfl⟩

theorem stopsGap_of_mem_literalMarks : stopsGap (mark :: rest) = true := by
  simp only [literalMarks, List.mem_cons, List.not_mem_nil, or_false] at h
  rcases h with rfl | rfl | rfl | rfl <;> rfl

theorem keyLength?_of_mem_literalMarks (symbolPossible : Bool) :
    keyLength? symbolPossible (mark :: rest) = none := by
  have hlabel : labelAhead? (mark :: rest) = none := by
    simp only [literalMarks, List.mem_cons, List.not_mem_nil, or_false] at h
    rcases h with rfl | rfl | rfl | rfl
    · rfl
    · rfl
    · -- with no name before it, a colon makes no label, whether another one follows or not
      have hname : (':' :: rest).takeWhile isPlainNameChar = [] := rfl
      simp only [labelAhead?, hname, List.length_nil, List.drop_zero]
      split <;> simp_all
    · rfl
  simp only [keyLength?, hlabel, isNameStart_of_mem_literalMarks h, Bool.false_and,
    Bool.false_eq_true, if_false]

end Marks

/-- The opening of a literal of a given outline that may be a string. -/
structure Outline.Opens (o : Outline) (opening : List Char) : Prop where
  ahead : ∀ rest, outlineAhead? (opening ++ rest) = some (o, opening.length)
  mark : ∃ mark ∈ literalMarks, ∃ more, opening = mark :: more
  kind : o.kind ≠ .pattern

theorem opens_singleQuotes : singleQuotes.Opens ['\''] :=
  ⟨fun _ => rfl, ⟨'\'', by decide, _, rfl⟩, by decide⟩

theorem literal_of_reads {n : Nat} {o : Outline} {opening rest : List Char} {c c' : Cursor}
    {body text : List Char} (hopens : o.Opens opening) (hreads : o.Reads body text)
    (htext : c.text = opening ++ body ++ o.closer :: rest) (hn : body.length < n)
    (hgap : (Readers.upTo n).gap (c.at_ rest) = some ((), c')) :
    Rules.literal (.upTo n) o opening.length c = some (.string text, c') := by
  have hbody : (c.at_ (c.text.drop opening.length)).text = body ++ o.closer :: rest := by
    rw [htext, List.append_assoc, List.drop_left]
    rfl
  obtain ⟨parts, hparts, hvalue⟩ := hreads n _ rest hbody hn
  exact literal_of_contents hopens.kind hparts hvalue hgap

theorem primary_of_reads {n : Nat} {s : Setting} {commands : Bool} {o : Outline}
    {opening rest : List Char} {c c' : Cursor} {body text : List Char} (hopens : o.Opens opening)
    (hreads : o.Reads body text) (htext : c.text = opening ++ body ++ o.closer :: rest)
    (hn : body.length < n) (hgap : (Readers.upTo n).gap (c.at_ rest) = some ((), c')) :
    Rules.primary (.upTo n) s commands c =
      some (⟨.string text, if o.kind == .string then .string else .value⟩, c') := by
  have hahead := hopens.ahead (body ++ o.closer :: rest)
  rw [← List.append_assoc, ← htext] at hahead
  have hliteral := literal_of_reads hopens hreads htext hn hgap
  obtain ⟨mark, hmark, more, rfl⟩ := hopens.mark
  rw [List.cons_append, List.cons_append] at htext
  rw [primary_eq_literal htext (isNameStart_of_mem_literalMarks hmark) hahead, hliteral]
  rfl

theorem exists_primary_of_reads {n : Nat} {s : Setting} {commands : Bool} {o : Outline}
    {opening rest : List Char} {c c' : Cursor} {body text : List Char} (hopens : o.Opens opening)
    (hreads : o.Reads body text) (htext : c.text = opening ++ body ++ [o.closer] ++ rest)
    (hn : (opening ++ body ++ [o.closer]).length < n + 2)
    (hgap : (Readers.upTo n).gap (c.at_ rest) = some ((), c')) :
    ∃ form : Form, form.isOperand = true ∧
      Rules.primary (.upTo n) s commands c = some (⟨.string text, form⟩, c') := by
  obtain ⟨mark, -, more, hopening⟩ := hopens.mark
  have hbody : body.length < n := by
    simp only [hopening, List.length_append, List.length_cons, List.length_nil] at hn
    omega
  have hspelled : c.text = opening ++ body ++ o.closer :: rest := by
    rw [htext, List.append_assoc, List.singleton_append]
  refine ⟨_, ?_, primary_of_reads hopens hreads hspelled hbody hgap⟩
  split <;> rfl

/-! ### Arguments -/

/-- A literal that is read as a string of `text` where an argument may begin, with `rest` behind
it. -/
structure ArgumentBefore (literal rest text : List Char) : Prop where
  mark : ∃ mark ∈ literalMarks, ∃ more, literal = mark :: more
  begins : beginsOperand true (literal ++ rest) = true
  primary : ∀ {n : Nat} {s : Setting} {commands : Bool} {c c' : Cursor},
    c.text = literal ++ rest → literal.length < n + 2 →
    (Readers.upTo n).gap (c.at_ rest) = some ((), c') →
    ∃ form : Form, form.isOperand = true ∧
      Rules.primary (.upTo n) s commands c = some (⟨.string text, form⟩, c')

/-- A literal that is read as a string of `text` where an argument may begin, with a blank or the
end of the line behind it. -/
def IsArgument (literal text : List Char) : Prop :=
  ∀ b ∈ [' ', '\n'], ∀ rest, ArgumentBefore literal (b :: rest) text

theorem argumentBefore_of_reads {o : Outline} {opening body text : List Char}
    (hopens : o.Opens opening) (hreads : o.Reads body text)
    (hbegins : ∀ more, beginsOperand true (opening ++ more) = true) (rest : List Char) :
    ArgumentBefore (opening ++ body ++ [o.closer]) rest text where
  mark := by
    obtain ⟨mark, hmark, more, rfl⟩ := hopens.mark
    exact ⟨mark, hmark, more ++ body ++ [o.closer], rfl⟩
  begins := by
    rw [List.append_assoc, List.append_assoc]
    exact hbegins _
  primary htext hn hgap := exists_primary_of_reads hopens hreads htext hn hgap

theorem argumentBefore_quoted (text rest : List Char) : ArgumentBefore (quoted text) rest text :=
  argumentBefore_of_reads opens_singleQuotes (reads_escapeQuotes text) (fun _ => rfl) rest

theorem isArgument_quoted (text : List Char) : IsArgument (quoted text) text :=
  fun b _ rest => argumentBefore_quoted text (b :: rest)

theorem Form.ne_of_isOperand {form : Form} (h : form.isOperand = true) :
    form ≠ .targets ∧ form ≠ .pair := by
  constructor <;> rintro rfl <;> cases h

section Literals

variable {n : Nat} {s : Setting} {literal text rest : List Char}
  (hliteral : ArgumentBefore literal rest text) {c c' : Cursor} (htext : c.text = literal ++ rest)
  (hn : literal.length < n + 4)
  (hgap : (Readers.upTo (n + 2)).gap (c.at_ rest) = some ((), c')) (hstops : c'.Stops)
  (hs : s.wrapped = false)

include hliteral htext hn hgap hstops hs

theorem value_literal (level : Nat) (commands : Bool) :
    ∃ form : Form, form.isOperand = true ∧
      Rules.value (.upTo (n + 3)) s level commands c = some (⟨.string text, form⟩, c') := by
  obtain ⟨mark, hmark, more, hopening⟩ := hliteral.mark
  have hbegin : c.text = mark :: (more ++ rest) := by
    rw [htext, hopening, List.cons_append]
  have hkeyword : keywordAhead? c.text = none := by
    rw [hbegin]
    exact (keywordAhead?_of_mem_literalMarks hmark _).2
  obtain ⟨form, hform, hprimary⟩ :
      ∃ form : Form, form.isOperand = true ∧
        Rules.primary (.upTo (n + 2)) s commands c = some (⟨.string text, form⟩, c') :=
    hliteral.primary htext hn hgap
  have htargets := (Form.ne_of_isOperand hform).1
  have hcontinued := continued_of_stops (n := n + 1) hs level commands hstops
    (t := ⟨.string text, form⟩) htargets
  have hoperand : (Readers.upTo (n + 3)).operand s level commands c =
      some (⟨.string text, form⟩, c') := by
    rw [operand_eq_primary hbegin (opensOperand_of_mem_literalMarks hmark) hkeyword, hprimary,
      Option.bind_some, hcontinued]
  refine ⟨form, hform, ?_⟩
  simp [Rules.value, Reader.bind_apply, hoperand, htargets, Reader.pure_apply]

theorem argument_literal (hjoins : s.joins = false) :
    (Readers.upTo (n + 4)).argument s c = some (.string text, c') := by
  obtain ⟨mark, hmark, more, hopening⟩ := hliteral.mark
  have hbegin : c.text = mark :: (more ++ rest) := by
    rw [htext, hopening, List.cons_append]
  obtain ⟨form, hform, hvalue⟩ :=
    value_literal (s := s.joined) hliteral htext hn hgap hstops hs 0 true
  have hmatched := matched_of_stops (s := s.joined) hs hstops
  have hfrom : Rules.argumentFrom (.upTo (n + 3)) s ⟨.string text, form⟩ c' =
      some (.string text, c') := by
    simp only [Rules.argumentFrom, Reader.bind_apply, Reader.get_apply, Option.bind_some,
      hstops.isKeyColon, Bool.and_false]
    rcases hstops.ahead hs with hahead | ⟨more, hahead⟩ <;>
      simp [hahead, hmatched, Rules.argumentFrom.joined, hjoins, Reader.bind_apply,
        Reader.pure_apply]
  have hexpression : Rules.argument.expression (.upTo (n + 3)) s c =
      some (.string text, c') := by
    rw [Rules.argument.expression, Reader.bind_apply, hvalue, Option.bind_some, hfrom]
  have hkey := keyLength?_of_mem_literalMarks hmark (more ++ rest) true
  simp only [upTo_argument, Rules.argument, Reader.bind_apply, Reader.get_apply, Option.bind_some,
    hbegin, hkey]
  have hmarks : mark ≠ '*' ∧ mark ≠ '&' ∧ mark ≠ '.' :=
    ⟨ne_of_mem_of_not_mem hmark (by decide), ne_of_mem_of_not_mem hmark (by decide),
      ne_of_mem_of_not_mem hmark (by decide)⟩
  split <;> simp_all

theorem arguments_literal (hjoins : s.joins = false) :
    (Readers.upTo (n + 5)).arguments s c = some ([.string text], c') := by
  have hargument := argument_literal hliteral htext hn hgap hstops hs hjoins
  simp only [upTo_arguments, Rules.arguments, Reader.bind_apply, Reader.get_apply,
    Option.bind_some, hargument]
  rcases hstops.ahead hs with hahead | ⟨more, hahead⟩ <;> simp [hahead, Reader.pure_apply]

end Literals

/-! ### Commands and their blocks -/

/-- A word as the name of a method that is called without a receiver. -/
def wordCallee (word : List Char) : Rules.Callee where
  receiver := none
  method := word
  bare := if isMarked word then ⟨.call none (some word) [] none, .value⟩ else ⟨.name word, .place⟩

theorem nameOrCall_eq_named (rs : Readers) (s : Setting) (commands : Bool) (word : List Char)
    (c : Cursor) :
    Rules.nameOrCall rs s commands word c = (Rules.advance rs word.length c).bind fun x =>
      Rules.named rs s commands (wordCallee word) x.2 := rfl

theorem command_eq_map {rs : Readers} {s : Setting} (callee : Rules.Callee) (arguments : List Expr)
    (c : Cursor) :
    Rules.command rs s callee arguments c = (Rules.attachedBlock rs s c).map fun x =>
      (⟨callee.call arguments x.1, if x.1.isSome then .chain else .complete⟩, x.2) := by
  rw [Option.map_eq_bind]
  rfl

theorem beginsArgument_literal {literal text rest : List Char}
    (hliteral : ArgumentBefore literal rest text) (s : Setting) {c : Cursor}
    (htext : c.text = literal ++ rest) (hspaced : c.spaced = true) (hbroken : c.broken = false) :
    s.beginsArgument c = true := by
  obtain ⟨mark, hmark, more, hopening⟩ := hliteral.mark
  have hahead : s.ahead c = mark :: (more ++ rest) := by
    simp [Setting.ahead, hbroken, htext, hopening]
  have hbegins := hliteral.begins
  rw [hopening, List.cons_append] at hbegins
  have hmarks : mark ≠ '*' ∧ mark ≠ '&' ∧ mark ≠ '[' ∧ mark ≠ '(' :=
    ⟨ne_of_mem_of_not_mem hmark (by decide), ne_of_mem_of_not_mem hmark (by decide),
      ne_of_mem_of_not_mem hmark (by decide), ne_of_mem_of_not_mem hmark (by decide)⟩
  simp only [Setting.beginsArgument, hahead, isNameStart_of_mem_literalMarks hmark, hspaced,
    Bool.false_eq_true, if_false]
  split <;> simp_all

theorem named_literal {n : Nat} {s : Setting} {literal text rest : List Char}
    (hliteral : ArgumentBefore literal rest text) {c c' : Cursor} (callee : Rules.Callee)
    (htext : c.text = literal ++ rest) (hn : literal.length < n + 4) (hspaced : c.spaced = true)
    (hbroken : c.broken = false) (hgap : (Readers.upTo (n + 2)).gap (c.at_ rest) = some ((), c'))
    (hstops : c'.Stops) (hs : s.wrapped = false) :
    Rules.named (.upTo (n + 5)) s true callee c =
      Rules.command (.upTo (n + 5)) s callee [.string text] c' := by
  have hbegins := beginsArgument_literal hliteral s htext hspaced hbroken
  have hplaced : s.misplacesBlock c = false := by
    obtain ⟨mark, hmark, more, hopening⟩ := hliteral.mark
    have hmark' : mark ≠ '&' := ne_of_mem_of_not_mem hmark (by decide)
    simp [Setting.misplacesBlock, htext, hopening, hmark']
  have harguments :=
    arguments_literal (s := s.argument) hliteral htext hn hgap hstops hs rfl
  simp only [Rules.named, Reader.bind_apply, Reader.get_apply, Option.bind_some, hspaced,
    hbegins, hplaced, Bool.and_self, Bool.false_eq_true, if_true, if_false, harguments]

/-- What a name without arguments is with the block that follows it, if one does. -/
def calledWith (callee : Rules.Callee) : Option (List Expr) → Term
  | some children => ⟨callee.call [] (some children), .value⟩
  | none => callee.bare

theorem named_of_block {rs : Readers} {s : Setting} (callee : Rules.Callee) {c : Cursor}
    (hparen : c.text.head? ≠ some '(') (hbrace : c.text.head? ≠ some '\x7b')
    (hbegins : s.beginsArgument c = false) :
    Rules.named rs s true callee c =
      (Rules.attachedBlock rs s c).map fun x => (calledWith callee x.1, x.2) := by
  have hahead : (s.ahead c).head? ≠ some '\x7b' := by
    rw [Setting.ahead]
    split
    · simp
    · exact hbrace
  simp only [Rules.named, Reader.bind_apply, Reader.get_apply, Option.bind_some, hbegins,
    Bool.and_false, Bool.false_eq_true, if_false, if_true]
  split
  · rename_i rest hnext
    exact absurd (by rw [hnext]; rfl) hahead
  · rcases hblock : Rules.attachedBlock rs s c with _ | ⟨_ | statements, after⟩ <;>
      cases htext : c.text <;>
        simp_all [-bind_pure_comp, Reader.bind_apply, Reader.pure_apply, calledWith]

theorem attachedBlock_of_stops {rs : Readers} {s : Setting} {c : Cursor} (h : c.Stops)
    (hs : s.wrapped = false) (hdo : s.hasKeyword c .do_ = false) :
    Rules.attachedBlock rs s c = some (none, c) := by
  simp only [Rules.attachedBlock, Reader.bind_apply, Reader.get_apply, Option.bind_some, hdo,
    Bool.false_and, Bool.false_eq_true, if_false]
  rcases h.ahead hs with hahead | ⟨rest, hahead⟩ <;> simp [hahead, Reader.pure_apply]

theorem attachedBlock_of_ends {rs : Readers} {s : Setting} {c : Cursor} (h : c.Ends)
    (hs : s.wrapped = false) : Rules.attachedBlock rs s c = some (none, c) := by
  refine attachedBlock_of_stops h.stops hs ?_
  rw [Setting.hasKeyword, h.ahead hs]
  rfl

/-- Whether a text is over or goes on in the next line. -/
def EndsLine (text : List Char) : Prop :=
  text = [] ∨ ∃ rest, text = '\n' :: rest

theorem nameAhead_do {rest : List Char} (h : EndsLine rest) :
    nameAhead ('d' :: 'o' :: rest) = Keyword.do_.spelling := by
  rcases h with rfl | ⟨more, rfl⟩ <;> rfl

/-- The place before the block that a line opens. -/
def Cursor.atBlock (c : Cursor) (rest : List Char) : Cursor :=
  (c.at_ (opening ++ rest)).afterBlanks ('d' :: 'o' :: rest)

theorem gap_opening {n : Nat} {rest : List Char} (hn : rest.length + 3 < n) (c : Cursor) :
    (Readers.upTo n).gap (c.at_ (opening ++ rest)) = some ((), c.atBlock rest) :=
  gap_of_blank rfl rfl hn

theorem Cursor.stops_atBlock {rest : List Char} (hrest : EndsLine rest) (c : Cursor) :
    (c.atBlock rest).Stops := by
  refine .block rfl ('o' :: rest) rfl ⟨[], ?_⟩
  rw [List.append_nil]
  exact nameAhead_do hrest

theorem attachedBlock_atBlock {rs : Readers} {s : Setting} {rest : List Char}
    (hrest : EndsLine rest) (hs : s.follow.contains .do_ = false) (c : Cursor) :
    Rules.attachedBlock rs s (c.atBlock rest) =
      (rs.gap (c.at_ rest)).bind fun x => (Rules.doBlock rs x.2).map fun y => (some y.1, y.2) := by
  have hahead : s.ahead (c.atBlock rest) = 'd' :: 'o' :: rest := rfl
  have hdo : s.hasKeyword (c.atBlock rest) .do_ = true := by
    rw [Setting.hasKeyword, hahead, nameAhead_do hrest, beq_self_eq_true]
  simp only [Rules.attachedBlock, Reader.bind_apply, Reader.get_apply, Option.bind_some, hahead,
    hdo, hs, Bool.not_false, Bool.and_self, if_true]
  change (Rules.advance rs 2 >>= fun _ => Rules.doBlock rs >>= fun b => pure (some b))
    (c.atBlock rest) = _
  simp only [Reader.bind_apply, Reader.pure_apply, Option.map_eq_bind]
  rfl

theorem doBlock_of_opensLine {rs : Readers} {c : Cursor} {text : List Char}
    (hopens : c.OpensLine text) (hbar : text.head? ≠ some '|') :
    Rules.doBlock rs c = (Rules.body rs c.nextLine).map fun x =>
      (c.lineNotes ++ Expr.bodyOf .statement x.1, x.2) := by
  have hparameters : Rules.blockParameters rs c.nextLine = some (false, c.nextLine) := by
    have htext : c.nextLine.text = text := hopens.text
    simp only [Rules.blockParameters, Reader.bind_apply, Reader.get_apply, Option.bind_some, htext]
    cases text with
    | nil => rfl
    | cons first rest =>
        have hfirst : first ≠ '|' := by
          rintro rfl
          exact hbar rfl
        simp [hfirst, Reader.pure_apply]
  cases hbody : Rules.body rs c.nextLine <;>
    simp [-bind_pure_comp, Rules.doBlock, Rules.takeTerminator, hopens.broken, hparameters, hbody,
      Reader.bind_apply, Reader.get_apply, Reader.pure_apply]

/-! ### Statements -/

theorem statement_of_keywordAhead? {text : List Char} (h : keywordAhead? text = none) (rs : Readers)
    (follow : List Keyword) (opening : Bool) {c : Cursor} (htext : c.text = text) :
    Rules.statement rs follow opening c =
      Rules.statement.modified rs { follow := Keyword.modifiers ++ follow }
        (Rules.unmodified rs { follow := Keyword.modifiers ++ follow } opening) c := by
  simp only [Rules.statement, Reader.bind_apply, Reader.get_apply, Option.bind_some, htext, h]

/-- The setting of the operand that a statement begins with. -/
def Setting.stated (follow : List Keyword) : Setting :=
  Setting.joined { follow := Keyword.modifiers ++ follow }

theorem statement_of_no_operand {n : Nat} {follow : List Keyword} {c : Cursor}
    (hkeyword : keywordAhead? c.text = none)
    (hoperand : (Readers.upTo (n + 1)).operand (.stated follow) 0 true c = none) :
    (Readers.upTo (n + 2)).statement follow false c = none := by
  rw [Setting.stated] at hoperand
  rw [upTo_statement, statement_of_keywordAhead? hkeyword _ _ _ rfl]
  simp only [Rules.statement.modified, Rules.unmodified, Reader.bind_apply, hoperand,
    Option.bind_none]

/-- An operand that nothing goes on with is the whole of its statement. -/
theorem statement_of_operand {n : Nat} {follow : List Keyword} {c c' : Cursor} {t : Term}
    (hkeyword : keywordAhead? c.text = none)
    (hoperand : (Readers.upTo (n + 1)).operand (.stated follow) 0 true c = some (t, c'))
    (hstops : c'.Stops) (htargets : t.form ≠ .targets) (hpair : t.form ≠ .pair) :
    (Readers.upTo (n + 2)).statement follow false c = some (⟨t.expr, .complete⟩, c') := by
  have hmatched := matched_of_stops (s := .stated follow) rfl hstops
  have hjoins := joins_of_stops (n := n) (s := .stated follow) rfl hstops
  have hunmodified : Rules.unmodified (.upTo (n + 1)) { follow := Keyword.modifiers ++ follow }
      false c = some (t, c') := by
    rw [Setting.stated] at hoperand hmatched hjoins
    simp only [Rules.unmodified, Reader.bind_apply, Reader.get_apply, Option.bind_some, hoperand,
      beq_eq_false_iff_ne.mpr htargets, Bool.false_eq_true, Bool.false_and, if_false, hmatched,
      hjoins]
  have hmodifiers := modifiers_of_stops (n := n) (s := { follow := Keyword.modifiers ++ follow })
    rfl hstops t.expr
  rw [upTo_statement, statement_of_keywordAhead? hkeyword _ _ _ rfl]
  simp [-bind_pure_comp, Rules.statement.modified, Reader.bind_apply, hunmodified, htargets, hpair,
    hmodifiers, Reader.pure_apply]

end FactoryRoster.Source
