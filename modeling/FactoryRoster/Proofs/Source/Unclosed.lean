import FactoryRoster.Proofs.Source.Registrations

/-!
# Texts that break off

A block whose text breaks off is not read: what is read of it ends with the text, before the word
that would close it. This holds wherever the text is cut, within a word, within quotes or between
two declarations.
-/

namespace FactoryRoster.Source

/-! ### Quotes that are not closed -/

theorem plainRun_unclosed {text body : List Char} (hbody : body <+: escapeQuotes text) :
    singleQuotes.plainRun 0 false body = (body, [], 0) := by
  induction text generalizing body with
  | nil =>
      rw [List.prefix_nil.mp hbody]
      rfl
  | cons c text ih =>
      rw [escapeQuotes_cons] at hbody
      by_cases hc : (c == '\\' || c == '\'') = true
      · rw [if_pos hc, List.cons_append, List.singleton_append, List.prefix_cons_iff] at hbody
        rcases hbody with rfl | ⟨taken, rfl, htaken⟩
        · rfl
        have hnesting : singleQuotes.nesting 0 '\\' = 0 := rfl
        rw [List.prefix_cons_iff] at htaken
        rcases htaken with rfl | ⟨more, rfl, hmore⟩
        · simp [Outline.plainRun, special?_singleQuotes, hnesting]
        · simp [Outline.plainRun, special?_singleQuotes, hnesting, ih hmore]
      · rw [if_neg hc, List.singleton_append, List.prefix_cons_iff] at hbody
        simp only [Bool.or_eq_true, beq_iff_eq, not_or] at hc
        have hnesting : singleQuotes.nesting 0 c = 0 := by
          simp [Outline.nesting, singleQuotes, hc.2]
        rcases hbody with rfl | ⟨more, rfl, hmore⟩
        · rfl
        · simp [Outline.plainRun, special?_singleQuotes, hnesting, beq_eq_false_iff_ne.mpr hc.1,
            hc.2, ih hmore]

theorem upTo_contents_nil (n : Nat) (o : Outline) (depth : Nat) {c : Cursor} (htext : c.text = []) :
    (Readers.upTo n).contents o depth c = none := by
  cases n with
  | zero => rfl
  | succ n => simp only [upTo_contents, Rules.contents, htext, Outline.stretch]

/-- The contents of quotes that the text ends within are not read. -/
theorem contents_unclosed (n : Nat) {text : List Char} {c : Cursor}
    (hbody : c.text <+: escapeQuotes text) : (Readers.upTo n).contents singleQuotes 0 c = none := by
  cases n with
  | zero => rfl
  | succ n =>
      have hrun := plainRun_unclosed hbody
      cases htext : c.text with
      | nil => exact upTo_contents_nil (n + 1) singleQuotes 0 htext
      | cons first more =>
          have hfirst : first ≠ '\'' := by
            rintro rfl
            rw [htext] at hbody
            by_cases hempty : text = []
            · subst hempty
              exact absurd (List.prefix_nil.mp hbody) (by simp)
            · obtain ⟨ch, rest, hescaped, hch⟩ := escapeQuotes_ne_quote hempty
              rw [hescaped, List.cons_prefix_cons] at hbody
              exact hch hbody.1.symm
          have hstretch : singleQuotes.stretch 0 (first :: more) = .plain (first :: more) [] 0 := by
            rw [htext] at hrun
            simp only [Outline.stretch, special?_singleQuotes, beq_eq_false_iff_ne.mpr hfirst,
              Bool.false_eq_true, if_false, hrun]
          simp only [upTo_contents, Rules.contents, htext, hstretch]
          rw [upTo_contents_nil n singleQuotes 0 rfl]
          rfl

section Unclosed

variable {n : Nat} {s : Setting} {text body : List Char} (hbody : body <+: escapeQuotes text)
  {c : Cursor} (htext : c.text = '\'' :: body)

include hbody htext

theorem operand_unclosed (level : Nat) (commands : Bool) :
    (Readers.upTo (n + 1)).operand s level commands c = none := by
  have hliteral : Rules.literal (.upTo n) singleQuotes 1 c = none := by
    have hrest : (c.at_ (c.text.drop 1)).text <+: escapeQuotes text := by
      rw [htext]
      exact hbody
    simp only [Rules.literal, contents_unclosed n hrest, Option.bind_eq_bind, Option.bind_none]
  have hprimary : Rules.primary (.upTo n) s commands c = none := by
    have hahead : outlineAhead? c.text = some (singleQuotes, 1) := by
      rw [htext]
      rfl
    rw [primary_eq_literal htext (by decide) hahead, hliteral, Option.map_none]
  have hkeyword : keywordAhead? c.text = none := by
    rw [htext]
    exact (keywordAhead?_of_mem_literalMarks (show '\'' ∈ literalMarks by decide) body).2
  rw [operand_eq_primary htext rfl hkeyword, hprimary, Option.bind_none]

theorem arguments_unclosed : (Readers.upTo (n + 3)).arguments s c = none := by
  have hvalue : Rules.value (.upTo (n + 1)) s.joined 0 true c = none := by
    simp only [Rules.value, Reader.bind_apply, operand_unclosed hbody htext, Option.bind_none]
  have hexpression : Rules.argument.expression (.upTo (n + 1)) s c = none := by
    rw [Rules.argument.expression, Reader.bind_apply, hvalue, Option.bind_none]
  have hkey : keyLength? true ('\'' :: body) = none :=
    keyLength?_of_mem_literalMarks (by decide) body true
  have hargument : (Readers.upTo (n + 2)).argument s c = none := by
    simp only [upTo_argument, Rules.argument, Reader.bind_apply, Reader.get_apply,
      Option.bind_some, htext, hkey]
    exact hexpression
  simp only [upTo_arguments, Rules.arguments, Reader.bind_apply, hargument, Option.bind_none]

theorem named_unclosed (callee : Rules.Callee) (hspaced : c.spaced = true)
    (hbroken : c.broken = false) : Rules.named (.upTo (n + 3)) s true callee c = none := by
  have hahead : s.ahead c = c.text := by simp [Setting.ahead, hbroken]
  have hbegins : s.beginsArgument c = true := by
    rw [Setting.beginsArgument, hahead, htext]
    rfl
  have hplaced : s.misplacesBlock c = false := by simp [Setting.misplacesBlock, htext]
  simp only [Rules.named, Reader.bind_apply, Reader.get_apply, Option.bind_some, hspaced,
    hbegins, hplaced, Bool.and_self, Bool.false_eq_true, if_true, if_false,
    arguments_unclosed hbody htext, Option.bind_none]

end Unclosed

/-- A declaration whose quotes are not closed is no statement. -/
theorem statement_unclosed {word text body : List Char} (hword : IsWord word)
    (hbody : body <+: escapeQuotes text) {n : Nat} {follow : List Keyword} {c : Cursor}
    (htext : c.text = word ++ ' ' :: '\'' :: body) (hn : c.text.length < n + 3) :
    (Readers.upTo (n + 5)).statement follow false c = none := by
  obtain ⟨first, more, hfirst, hstart⟩ := hword.start
  have hkeyword : keywordAhead? c.text = none := by
    rw [htext]
    exact hword.keywordAhead? (by decide) _
  have hadvance : Rules.advance (.upTo (n + 3)) word.length c =
      some ((), (c.at_ (' ' :: '\'' :: body)).afterBlanks ('\'' :: body)) := by
    rw [Rules.advance, htext, List.drop_left]
    refine gap_of_blank rfl rfl ?_
    rw [htext, List.length_append] at hn
    simp only [Cursor.at_]
    omega
  have hopens : c.text = first :: (more ++ ' ' :: '\'' :: body) := by
    rw [htext, hfirst, List.cons_append]
  refine statement_of_no_operand hkeyword ?_
  rw [operand_eq_primary hopens (opensOperand_of_isNameStart hstart) hkeyword,
    primary_of_word hword (by decide) htext, nameOrCall_eq_named, hadvance, Option.bind_some,
    named_unclosed hbody rfl _ rfl rfl, Option.bind_none]

/-! ### Words at the end of a text -/

theorem wordAhead_last {word rest : List Char} (hword : IsWord word)
    (hrest : rest = [] ∨ rest = [' ']) : wordAhead (word ++ rest) = word := by
  rcases hrest with rfl | rfl
  · rw [List.append_nil, hword.wordAhead_self]
  · exact wordAhead_append hword.chars (by decide) []

/-- A word at the end of the text is a statement. -/
theorem statement_lastWord {word rest : List Char} (hword : IsWord word)
    (hrest : rest = [] ∨ rest = [' ']) {n : Nat} {follow : List Keyword} {c : Cursor}
    (htext : c.text = word ++ rest) (hn : c.text.length < n + 1) :
    ∃ e c', (Readers.upTo (n + 3)).statement follow false c = some (⟨e, .complete⟩, c') ∧
      c'.text = [] := by
  obtain ⟨first, more, hfirst, hstart⟩ := hword.start
  have hahead : wordAhead c.text = word := by rw [htext, wordAhead_last hword hrest]
  have hkeyword : keywordAhead? c.text = none := by rw [keywordAhead?, hahead, hword.free]
  obtain ⟨c', hadvance, hend⟩ : ∃ c', Rules.advance (.upTo (n + 1)) word.length c =
      some ((), c') ∧ c'.text = [] := by
    rw [Rules.advance, htext, List.drop_left]
    rcases hrest with rfl | rfl
    · exact ⟨_, gap_of_stopsGap rfl (Nat.succ_pos n), rfl⟩
    · refine ⟨_, gap_of_blank rfl rfl ?_, rfl⟩
      rw [htext, List.length_append, hfirst] at hn
      simp only [Cursor.at_, List.length_cons] at hn ⊢
      omega
  have hends : c'.Ends := .inl hend
  have hbegins : (Setting.stated follow).beginsArgument c' = false := by
    rw [Setting.beginsArgument, hends.ahead rfl]
  have hopens : c.text = first :: (more ++ rest) := by rw [htext, hfirst, List.cons_append]
  have hbare : (wordCallee word).bare.form ≠ .targets ∧ (wordCallee word).bare.form ≠ .pair := by
    rw [wordCallee]
    split <;> simp
  have hoperand : (Readers.upTo (n + 2)).operand (.stated follow) 0 true c =
      some ((wordCallee word).bare, c') := by
    rw [operand_eq_primary hopens (opensOperand_of_isNameStart hstart) hkeyword,
      primary_of_wordAhead hword htext hahead, nameOrCall_eq_named, hadvance, Option.bind_some,
      named_of_block _ (by simp [hend]) (by simp [hend]) hbegins, attachedBlock_of_ends hends rfl]
    exact continued_of_stops rfl 0 true hends.stops hbare.1
  exact ⟨_, c', statement_of_operand hkeyword hoperand hends.stops hbare.1 hbare.2, hend⟩

/-! ### Blocks that are not closed -/

/-- Whether the statements of a block that begins with a text end with the text. -/
structure LeftOpen (text : List Char) : Prop where
  begins : ∀ first ∈ text.head?, isNameStart first = true
  ends : ∀ (n : Nat) (c : Cursor), c.Quiet → c.text = text → text.length + 12 ≤ n →
    ∀ es c', (Readers.upTo n).statements .body c = some (es, c') → c'.text = []

/-- Whether a text breaks off after a line: at its end, or in the lines of the block after it. -/
def BreaksOff (rest : List Char) : Prop :=
  rest = [] ∨ ∃ text, rest = '\n' :: text ∧ LeftOpen text

theorem BreaksOff.endsLine {rest : List Char} (h : BreaksOff rest) : EndsLine rest := by
  rcases h with rfl | ⟨text, rfl, -⟩
  · exact .inl rfl
  · exact .inr ⟨text, rfl⟩

theorem LeftOpen.opensLine {text : List Char} (h : LeftOpen text) :
    Source.opensLine text = true := by
  cases text with
  | nil => rfl
  | cons first rest => exact opensLine_of_isNameStart (h.begins first rfl) rest

theorem LeftOpen.head?_ne_bar {text : List Char} (h : LeftOpen text) : text.head? ≠ some '|' := by
  intro hbar
  exact absurd (h.begins '|' hbar) (by decide)

theorem statements_nil {n : Nat} {stop : Stop} {c c' : Cursor} {es : List Expr}
    (htext : c.text = []) (hread : (Readers.upTo n).statements stop c = some (es, c')) :
    c'.text = [] := by
  cases n with
  | zero => exact absurd hread (by rintro ⟨⟩)
  | succ n =>
      have hstop : ∀ word, stop.holds word [] = true := fun _ => by cases stop <;> rfl
      simp only [upTo_statements, Rules.statements, Reader.bind_apply, Reader.get_apply,
        Option.bind_some, htext, hstop, if_true, Reader.pure_apply, Option.some.injEq,
        Prod.mk.injEq] at hread
      rw [← hread.2, htext]

theorem leftOpen_nil : LeftOpen [] where
  begins := by simp
  ends := fun _ _ _ htext _ _ _ hread => statements_nil htext hread

theorem body_of_leftOpen {text : List Char} (h : LeftOpen text) {n : Nat} {c : Cursor}
    (hquiet : c.Quiet) (htext : c.text = text) (hn : text.length + 12 ≤ n + 1) :
    Rules.body (.upTo (n + 1)) c = none := by
  rw [Rules.body, Reader.bind_apply]
  cases hread : (Readers.upTo (n + 1)).statements .body c with
  | none => rfl
  | some x =>
      have hend : x.2.text = [] := h.ends _ c hquiet htext hn x.1 x.2 hread
      have hnone : Keyword.ofName? (nameAhead []) = none := rfl
      have hclauses : (Readers.upTo (n + 1)).clauses x.2 = none := by
        simp only [upTo_clauses, Rules.clauses, Reader.bind_apply, Reader.get_apply,
          Option.bind_some, hend, hnone]
        rfl
      rw [Option.bind_some, Reader.bind_apply, hclauses, Option.bind_none]

theorem doBlock_of_file {rs : Readers} {c : Cursor} (htext : c.text = [])
    (hbroken : c.broken = false) :
    Rules.doBlock rs c = (Rules.body rs c).map fun x => (Expr.bodyOf .statement x.1, x.2) := by
  cases hbody : Rules.body rs c <;>
    simp [-bind_pure_comp, Rules.doBlock, Rules.takeTerminator, Rules.blockParameters, htext,
      hbroken, hbody, Reader.bind_apply, Reader.get_apply, Reader.pure_apply]

theorem gap_of_breaksOff {rest : List Char} (h : BreaksOff rest) {n : Nat} {c : Cursor}
    (hquiet : c.Quiet) (hn : rest.length < n) :
    ∃ c', (Readers.upTo n).gap (c.at_ rest) = some ((), c') ∧
      (rest = [] ∧ c' = c.at_ [] ∨
        ∃ text, rest = '\n' :: text ∧ LeftOpen text ∧ c'.OpensLine text) := by
  rcases h with rfl | ⟨text, rfl, hopen⟩
  · exact ⟨_, gap_of_stopsGap rfl hn, .inl ⟨rfl, rfl⟩⟩
  · have hnotes : ∀ note ∈ ([] : List (List Char)), ∀ ch ∈ note, isControl ch = false := by simp
    obtain ⟨c', hgap, hopens⟩ :=
      gap_of_line hnotes hopen.opensLine (hquiet.at_ ('\n' :: text)) rfl rfl rfl hn
    exact ⟨c', hgap, .inr ⟨text, rfl, hopen, hopens⟩⟩

/-- A block that is not closed is none. -/
theorem attachedBlock_of_breaksOff {rest : List Char} (h : BreaksOff rest) {n : Nat} {s : Setting}
    {c : Cursor} (hquiet : c.Quiet) (hs : s.follow.contains .do_ = false)
    (hn : rest.length + 12 ≤ n) :
    Rules.attachedBlock (.upTo (n + 1)) s (c.atBlock rest) = none := by
  obtain ⟨c', hgap, hplace⟩ := gap_of_breaksOff h hquiet (show rest.length < n + 1 by omega)
  rw [attachedBlock_atBlock h.endsLine hs, hgap, Option.bind_some]
  rcases hplace with ⟨rfl, rfl⟩ | ⟨text, rfl, hopen, hopens⟩
  · have hbody := body_of_leftOpen leftOpen_nil (n := n) (hquiet.at_ []) rfl (by simp; omega)
    rw [doBlock_of_file rfl rfl, hbody, Option.map_none, Option.map_none]
  · have hbody := body_of_leftOpen hopen (n := n) hopens.nextLine_quiet hopens.text (by
      rw [List.length_cons] at hn
      omega)
    rw [doBlock_of_opensLine hopens hopen.head?_ne_bar, hbody]
    rfl

/-! ### Statements of a block that is not closed -/

/-- A place behind the last statement that is read: nothing follows it, or a letter that no
statement goes on with, or lines of a block that is not closed. -/
inductive Cursor.Hangs (length : Nat) (c : Cursor) : Prop where
  | file (text : c.text = [])
  | letter (broken : c.broken = false) (text : c.text = ['d'])
  | line (text : List Char) (opens : c.OpensLine text) (leftOpen : LeftOpen text)
      (shorter : text.length + 2 ≤ length)

theorem following_of_hangs {n length : Nat} {c c' : Cursor} {es : List Expr}
    (h : c.Hangs length) (hn : length + 11 ≤ n)
    (hread : (Readers.upTo n).following .body c = some (es, c')) : c'.text = [] := by
  obtain ⟨m, rfl⟩ : ∃ m, n = m + 1 := ⟨n - 1, by omega⟩
  cases h with
  | file htext =>
      by_cases hbroken : c.broken = true
      · rw [following_of_broken hbroken, Option.map_eq_some_iff] at hread
        obtain ⟨⟨more, after⟩, hmore, hresult⟩ := hread
        cases hresult
        exact statements_nil (c := c.nextLine) htext hmore
      · simp [upTo_following, Rules.following, Rules.takeTerminator, hbroken, htext, Stop.holds,
          Reader.bind_apply, Reader.get_apply, Reader.pure_apply] at hread
        rw [← hread.2, htext]
  | letter hbroken htext =>
      have hstop : Stop.body.holds (nameAhead ['d']) ['d'] = false := rfl
      simp [upTo_following, Rules.following, Rules.takeTerminator, hbroken, htext, hstop,
        Reader.bind_apply, Reader.get_apply] at hread
      change none = some (es, c') at hread
      cases hread
  | line text hopens hleft hshorter =>
      rw [following_of_broken hopens.broken, Option.map_eq_some_iff] at hread
      obtain ⟨⟨more, after⟩, hmore, hresult⟩ := hread
      cases hresult
      exact hleft.ends m c.nextLine hopens.nextLine_quiet hopens.text (by omega) more _ hmore

/-- A block is left open if the statement that it begins with, if it is one, ends at such a
place. -/
theorem leftOpen_of_statement {word rest : List Char} (hword : IsWord word)
    (hahead : wordAhead (word ++ rest) = word)
    (hstatement : ∀ (n : Nat) (c : Cursor), c.Quiet → c.text = word ++ rest →
      (word ++ rest).length + 11 ≤ n → ∀ t c',
        (Readers.upTo n).statement Stop.body.follow false c = some (t, c') →
          c'.Hangs (word ++ rest).length) :
    LeftOpen (word ++ rest) := by
  obtain ⟨first, more, hfirst, hstart⟩ := hword.start
  have hcons : word ++ rest = first :: (more ++ rest) := by rw [hfirst, List.cons_append]
  refine ⟨fun ch hch => ?_, fun n c hquiet htext hn es c' hread => ?_⟩
  · rw [hcons, List.head?_cons, Option.mem_some_iff] at hch
    rw [← hch, hstart]
  · obtain ⟨m, rfl⟩ : ∃ m, n = m + 1 := ⟨n - 1, by omega⟩
    have hstop : Stop.body.holds (wordAhead c.text) c.text = false := by
      rw [htext, hahead, hcons]
      simp only [Stop.body, Stop.holds, hword.free]
    rw [statements_eq_bind (htext.trans hcons) (ne_semicolon_of_isNameStart hstart) hstop,
      Option.bind_eq_some_iff] at hread
    obtain ⟨⟨t, c₁⟩, hfirst, hrest⟩ := hread
    have hhangs := hstatement m c hquiet htext (by omega) t c₁ hfirst
    split at hrest
    · cases hrest
    · rw [Option.map_eq_some_iff] at hrest
      obtain ⟨⟨others, after⟩, hfollowing, hresult⟩ := hrest
      cases hresult
      exact following_of_hangs hhangs (by omega) hfollowing

theorem leftOpen_lastWord {word rest : List Char} (hword : IsWord word)
    (hrest : rest = [] ∨ rest = [' ']) : LeftOpen (word ++ rest) := by
  refine leftOpen_of_statement hword (wordAhead_last hword hrest)
    fun n c hquiet htext hn t c' h => ?_
  obtain ⟨m, rfl⟩ : ∃ m, n = m + 3 := ⟨n - 3, by omega⟩
  obtain ⟨e, c'', hread, hend⟩ : ∃ e c'', (Readers.upTo (m + 3)).statement Stop.body.follow
      false c = some (⟨e, .complete⟩, c'') ∧ c''.text = [] :=
    statement_lastWord hword hrest htext (by rw [htext]; omega)
  rw [hread] at h
  cases h
  exact .file hend

theorem leftOpen_unclosed {word text body : List Char} (hword : IsWord word)
    (hbody : body <+: escapeQuotes text) : LeftOpen (word ++ ' ' :: '\'' :: body) := by
  refine leftOpen_of_statement hword (wordAhead_append hword.chars (by decide) _)
    fun n c hquiet htext hn t c' h => ?_
  obtain ⟨m, rfl⟩ : ∃ m, n = m + 5 := ⟨n - 5, by omega⟩
  rw [statement_unclosed hword hbody htext (by rw [htext]; omega)] at h
  cases h

/-! ### Declarations that break off -/

/-- A word that begins with no reserved word and is none. -/
structure IsFreeWord (word : List Char) : Prop extends IsWord word where
  cut : ∀ n < word.length, Keyword.ofName? (word.take n) = none

theorem isFreeWord_factoryWord : IsFreeWord factoryWord :=
  ⟨isWord_factoryWord, by decide⟩

theorem isFreeWord_traitWord : IsFreeWord traitWord :=
  ⟨isWord_traitWord, by decide⟩

theorem isFreeWord_en : IsFreeWord ['e', 'n'] :=
  ⟨⟨⟨_, _, rfl, by decide⟩, List.all_eq_true.mp (by decide), by decide⟩, by decide⟩

theorem IsFreeWord.isWord_of_prefix {word part : List Char} (hword : IsFreeWord word)
    (hpart : part <+: word) (hne : part ≠ []) : IsWord part where
  start := by
    obtain ⟨first, more, hfirst, hstart⟩ := hword.start
    obtain ⟨ch, rest, rfl⟩ := List.exists_cons_of_ne_nil hne
    rw [hfirst, List.cons_prefix_cons] at hpart
    exact ⟨ch, rest, rfl, by rw [hpart.1, hstart]⟩
  chars := fun c hc => hword.chars c (hpart.subset hc)
  free := by
    rcases Nat.lt_or_ge part.length word.length with hlt | hge
    · rw [List.prefix_iff_eq_take.mp hpart]
      exact hword.cut _ hlt
    · rw [hpart.eq_of_length_le hge]
      exact hword.free

theorem leftOpen_of_prefix_word {word part : List Char} (hword : IsFreeWord word)
    (hpart : part <+: word) : LeftOpen part := by
  by_cases hne : part = []
  · rw [hne]
    exact leftOpen_nil
  · rw [← List.append_nil part]
    exact leftOpen_lastWord (hword.isWord_of_prefix hpart hne) (.inl rfl)

theorem prefix_append_cases {α : Type} {l a b : List α} (h : l <+: a ++ b) :
    l <+: a ∨ ∃ r, l = a ++ r ∧ r <+: b := by
  rcases List.prefix_or_prefix_of_prefix h (List.prefix_append a b) with hl | ⟨r, rfl⟩
  · exact .inl hl
  · exact .inr ⟨r, rfl, (List.prefix_append_right_inj a).mp h⟩

section Declaration

variable {word : List Char} {name : String} {rest : List Char}

/-- A block that begins with a declaration is left open if it is behind what is read of the block of
the declaration. -/
theorem leftOpen_declaration (hword : IsWord word)
    (h : ∀ (n : Nat) (c : Cursor), c.Quiet → rest.length + 8 ≤ n → ∃ c',
      (Readers.upTo (n + 2)).gap (c.at_ rest) = some ((), c') ∧ c'.Stops ∧
        ∀ block c'', Rules.attachedBlock (.upTo (n + 5)) (.stated Stop.body.follow) c' =
            some (block, c'') →
          c''.Stops ∧ c''.Hangs (declaration word name ++ rest).length) :
    LeftOpen (declaration word name ++ rest) := by
  have hspelled : declaration word name ++ rest =
      word ++ ' ' :: (quoted name.toList ++ rest) := by simp [declaration]
  rw [hspelled] at h ⊢
  refine leftOpen_of_statement hword (wordAhead_append hword.chars (by decide) _)
    fun n c hquiet htext hn t c' hread => ?_
  obtain ⟨m, rfl⟩ : ∃ m, n = m + 7 := ⟨n - 7, by omega⟩
  have hlength : rest.length + 4 ≤ (word ++ ' ' :: (quoted name.toList ++ rest)).length := by
    obtain ⟨first, more, hfirst, -⟩ := hword.start
    simp only [hfirst, quoted, List.length_append, List.length_cons, List.length_nil]
    omega
  have hbound : c.text.length < m + 6 := by
    rw [htext]
    omega
  obtain ⟨after, hgap, hstops, hblock⟩ := h m c hquiet (by omega)
  cases hattached : Rules.attachedBlock (.upTo (m + 5)) (.stated Stop.body.follow) after with
  | none =>
      rw [statement_of_no_block hword (argumentBefore_quoted _ _) htext hbound hgap hstops
        hattached] at hread
      cases hread
  | some x =>
      obtain ⟨hends, hhangs⟩ := hblock x.1 x.2 hattached
      rw [statement_of_declaration hword (argumentBefore_quoted _ _) htext hbound hgap hstops
        hattached hends] at hread
      cases hread
      exact hhangs

theorem hangs_of_breaksOff (h : BreaksOff rest) {length n : Nat} {c : Cursor} (hquiet : c.Quiet)
    (hn : rest.length < n) (hlength : rest.length < length) :
    ∃ c', (Readers.upTo n).gap (c.at_ rest) = some ((), c') ∧ c'.Ends ∧ c'.Hangs length := by
  obtain ⟨c', hgap, ⟨rfl, rfl⟩ | ⟨text, rfl, hopen, hopens⟩⟩ := gap_of_breaksOff h hquiet hn
  · exact ⟨_, hgap, .inl rfl, .file rfl⟩
  · refine ⟨c', hgap, hopens.ends, .line text hopens hopen ?_⟩
    rw [List.length_cons] at hlength
    omega

theorem length_lt_declaration : rest.length < (declaration word name ++ rest).length := by
  simp only [declaration, List.length_append, List.length_cons]
  omega

theorem leftOpen_declaration_of_breaksOff (hword : IsWord word) (h : BreaksOff rest) :
    LeftOpen (declaration word name ++ rest) := by
  refine leftOpen_declaration hword fun n c hquiet hn => ?_
  have hlength : rest.length < (declaration word name ++ rest).length := length_lt_declaration
  obtain ⟨c', hgap, hends, hhangs⟩ :=
    hangs_of_breaksOff h (n := n + 2) hquiet (by omega) hlength
  refine ⟨c', hgap, hends.stops, fun block c'' hblock => ?_⟩
  rw [attachedBlock_of_ends hends rfl] at hblock
  cases hblock
  exact ⟨hends.stops, hhangs⟩

theorem leftOpen_of_prefix_declaration (hword : IsFreeWord word) {text : List Char}
    (htext : text <+: declaration word name) : LeftOpen text := by
  rw [declaration] at htext
  rcases prefix_append_cases htext with hpart | ⟨r, rfl, hr⟩
  · exact leftOpen_of_prefix_word hword hpart
  rw [List.prefix_cons_iff] at hr
  rcases hr with rfl | ⟨r, rfl, hr⟩
  · exact leftOpen_lastWord hword.toIsWord (.inl rfl)
  rw [quoted, List.cons_append, List.prefix_cons_iff] at hr
  rcases hr with rfl | ⟨body, rfl, hbody⟩
  · exact leftOpen_lastWord hword.toIsWord (.inr rfl)
  rcases List.prefix_concat_iff.mp hbody with rfl | hbody
  · have hwhole : LeftOpen (declaration word name ++ []) :=
      leftOpen_declaration_of_breaksOff hword.toIsWord (.inl rfl)
    rwa [List.append_nil] at hwhole
  · exact leftOpen_unclosed hword.toIsWord hbody

/-- The word after a declaration may break off itself. -/
theorem leftOpen_of_prefix_opening (hword : IsWord word) (hopening : rest <+: opening)
    (hne : rest ≠ opening) : LeftOpen (declaration word name ++ rest) := by
  have hrest : rest = [] ∨ rest = [' '] ∨ rest = [' ', 'd'] := by
    simp only [opening, List.prefix_cons_iff, List.prefix_nil] at hopening hne
    aesop
  have hshort : ∀ (n : Nat) (c : Cursor), rest.length + 8 ≤ n →
      (c.at_ rest).text.length < n + 2 := fun n c hn => by
    simp only [Cursor.at_]
    omega
  rcases hrest with rfl | rfl | rfl
  · exact leftOpen_declaration_of_breaksOff hword (.inl rfl)
  · refine leftOpen_declaration hword fun n c hquiet hn => ?_
    have hends : ((c.at_ [' ']).afterBlanks []).Ends := .inl rfl
    refine ⟨_, gap_of_blank rfl rfl (hshort n c hn), hends.stops, fun block c'' hblock => ?_⟩
    rw [attachedBlock_of_ends hends rfl] at hblock
    cases hblock
    exact ⟨hends.stops, .file rfl⟩
  · refine leftOpen_declaration hword fun n c hquiet hn => ?_
    have hstops : ((c.at_ [' ', 'd']).afterBlanks ['d']).Stops := .block rfl [] rfl ⟨['o'], rfl⟩
    refine ⟨_, gap_of_blank rfl rfl (hshort n c hn), hstops, fun block c'' hblock => ?_⟩
    rw [attachedBlock_of_stops hstops rfl rfl] at hblock
    cases hblock
    exact ⟨hstops, .letter rfl rfl⟩

/-- A declaration whose block is not closed is no statement. -/
theorem leftOpen_declaration_opening (hword : IsWord word) (h : BreaksOff rest) :
    LeftOpen (declaration word name ++ (opening ++ rest)) := by
  refine leftOpen_declaration hword fun n c hquiet hn => ?_
  have hlength : (opening ++ rest).length = rest.length + 3 := rfl
  refine ⟨_, gap_opening (by omega) c, c.stops_atBlock h.endsLine, fun block c'' hblock => ?_⟩
  rw [attachedBlock_of_breaksOff h (n := n + 4) hquiet rfl (by omega)] at hblock
  cases hblock

end Declaration

/-- A declaration, with or without a block, that a block may break off within or behind. -/
structure Breakable (item : List Char) : Prop where
  within : ∀ text, text <+: item → text ≠ item → LeftOpen text
  behind : ∀ rest, BreaksOff rest → LeftOpen (item ++ rest)

/-- A block is left open wherever it breaks off among its declarations, or in the word that closes
it. -/
theorem leftOpen_of_breakable {items : List (List Char)} (hitems : ∀ i ∈ items, Breakable i)
    {text : List Char} (htext : text <+: items.flatMap (· ++ ['\n']) ++ ['e', 'n']) :
    LeftOpen text := by
  induction items generalizing text with
  | nil => exact leftOpen_of_prefix_word isFreeWord_en htext
  | cons item items ih =>
      have hitem := hitems item List.mem_cons_self
      have htail : ∀ i ∈ items, Breakable i := fun i hi => hitems i (List.mem_cons_of_mem _ hi)
      simp only [List.flatMap_cons, List.append_assoc, List.singleton_append] at htext
      rcases prefix_append_cases htext with hwithin | ⟨rest, rfl, hrest⟩
      · by_cases hwhole : text = item
        · rw [hwhole, ← List.append_nil item]
          exact hitem.behind [] (.inl rfl)
        · exact hitem.within text hwithin hwhole
      · -- The first declaration is whole, so that the induction is on the text behind its line.
        refine hitem.behind rest ?_
        rw [List.cons_append, List.prefix_cons_iff] at hrest
        rcases hrest with rfl | ⟨more, rfl, hmore⟩
        · exact .inl rfl
        · exact .inr ⟨more, rfl, ih htail hmore⟩

theorem breakable_declaration {word : List Char} (hword : IsFreeWord word) (name : String) :
    Breakable (declaration word name) where
  within := fun _ htext _ => leftOpen_of_prefix_declaration hword htext
  behind := fun _ h => leftOpen_declaration_of_breaksOff hword.toIsWord h

/-! ### Blocks of declarations that break off -/

theorem textAfter_bareLines (codes : List (List Char)) (code ending : List Char) :
    textAfter ((codes ++ [code]).map fun line => { code := line }) ending =
      '\n' :: (codes.flatMap (· ++ ['\n']) ++ code ++ ending) := by
  induction codes with
  | nil => simp [textAfter, noteLines]
  | cons first codes ih =>
      rw [List.cons_append, List.map_cons, textAfter_cons, ih]
      simp [noteLines]

/-- A block is left open if a declaration with a whole block is the last that is read of it. -/
theorem leftOpen_closedBlock {α : Type} {kind : α → Call → Prop} {word : List Char}
    (hword : IsWord word) {name : String} {items : List (α × List NotedLine)}
    (hitems : Declared kind items) {last : NotedLine} (hlast : last.Plain)
    (hclosing : last.code = closing) {rest : List Char} (h : BreaksOff rest) :
    LeftOpen (declaration word name ++
      (opening ++ textAfter (items.flatMap Prod.snd ++ [last]) rest)) := by
  let block : List Char := textAfter (items.flatMap Prod.snd ++ [last]) rest
  refine leftOpen_declaration hword fun n c hquiet hn => ?_
  change (opening ++ block).length + 8 ≤ n at hn
  have hendsLine : EndsLine block := endsLine_textAfter hitems hlast [] rest
  have hrest : rest.length ≤ block.length := length_ending_le _ rest
  have hopening : (opening ++ block).length = block.length + 3 := rfl
  have hlength : (opening ++ block).length <
      (declaration word name ++ (opening ++ block)).length := length_lt_declaration
  have hdepth : block.length + 12 ≤ n + 4 := by omega
  obtain ⟨es, after, hblock, -, hends, hhangs⟩ := attachedBlock_of_declared hlast hclosing
    (show EndsLine (textAfter [] rest) from h.endsLine) hitems (n := n + 4)
    (s := .stated Stop.body.follow) hquiet
    (P := fun c'' => c''.Ends ∧ c''.Hangs (declaration word name ++ (opening ++ block)).length)
    (fun c'' hc'' => hangs_of_breaksOff h hc'' (by omega) (by omega)) rfl hdepth
  refine ⟨_, gap_opening (show block.length + 3 < n + 2 by omega) c, c.stops_atBlock hendsLine,
    fun read c'' hread => ?_⟩
  cases hblock.symm.trans hread
  exact ⟨hends.stops, hhangs⟩

/-- A declaration with a block may break off wherever its block may. -/
theorem breakable_block {α : Type} {kind : α → Call → Prop} {word : List Char}
    (hword : IsFreeWord word) (name : String) {items : List (α × List NotedLine)}
    {codes : List (List Char)} (hitems : Declared kind items)
    (hcodes : items.flatMap Prod.snd = codes.map fun code => { code := code })
    (hbreakable : ∀ code ∈ codes, Breakable code) :
    Breakable (declaration word name ++
      (opening ++ '\n' :: (codes.flatMap (· ++ ['\n']) ++ closing))) where
  within := by
    intro cut hcut hne
    rcases prefix_append_cases hcut with hname | ⟨rest, rfl, hrest⟩
    · exact leftOpen_of_prefix_declaration hword hname
    rcases prefix_append_cases hrest with hopening | ⟨inner, rfl, hinner⟩
    · by_cases hwhole : rest = opening
      · -- The text ends with the word that opens the block: an empty rest breaks off as well.
        rw [hwhole, ← List.append_nil opening]
        exact leftOpen_declaration_opening hword.toIsWord (.inl rfl)
      · exact leftOpen_of_prefix_opening hword.toIsWord hopening hwhole
    refine leftOpen_declaration_opening hword.toIsWord ?_
    rw [List.prefix_cons_iff] at hinner
    rcases hinner with rfl | ⟨text, rfl, htext⟩
    · exact .inl rfl
    · refine .inr ⟨text, rfl, leftOpen_of_breakable hbreakable ?_⟩
      rw [show closing = ['e', 'n'] ++ ['d'] from rfl, ← List.append_assoc,
        List.prefix_concat_iff] at htext
      -- Only the whole block ends with the last letter of the word that closes it.
      refine htext.resolve_left fun hwhole => hne ?_
      rw [hwhole, List.append_assoc]
      rfl
  behind := by
    intro rest h
    have hlast : NotedLine.Plain { code := closing } := NotedLine.Plain.of_closing rfl (by simp)
    have hclosed : LeftOpen (declaration word name ++
        (opening ++ textAfter (items.flatMap Prod.snd ++ [{ code := closing }]) rest)) :=
      leftOpen_closedBlock hword.toIsWord hitems hlast rfl h
    have htext : textAfter (items.flatMap Prod.snd ++ [{ code := closing }]) rest =
        '\n' :: (codes.flatMap (· ++ ['\n']) ++ closing ++ rest) := by
      rw [← textAfter_bareLines, hcodes, List.map_append]
      rfl
    rw [htext] at hclosed
    simpa using hclosed

/-! ### Registrations that break off -/

theorem statements_of_breaksOff {rest : List Char} (h : BreaksOff rest) {n : Nat} {c : Cursor}
    (hquiet : c.Quiet) (htext : c.text = registrationLine ++ rest) (hn : c.text.length + 5 ≤ n) :
    (Readers.upTo n).statements .file c = none := by
  obtain ⟨m, rfl⟩ : ∃ m, n = m + 5 := ⟨n - 5, by omega⟩
  have hline : c.text = 'F' :: (registrationLine.drop 1 ++ rest) := htext
  have hkeyword : keywordAhead? c.text = none := by
    rw [htext]
    exact isWord_receiverWord.keywordAhead? (show endsWord '.' = true by decide)
      (methodWord ++ opening ++ rest)
  have hlength : c.text.length = rest.length + 20 := by
    rw [htext, List.length_append, Nat.add_comm]
    rfl
  have hblock := attachedBlock_of_breaksOff h (n := m) (s := .stated Stop.file.follow) hquiet rfl
    (by omega)
  have hstatement : (Readers.upTo (m + 4)).statement Stop.file.follow false c = none :=
    statement_of_no_operand hkeyword
      (operand_of_no_block .none h.endsLine htext (by omega) hblock)
  have hstop : Stop.file.holds (wordAhead c.text) c.text = false := by
    rw [htext]
    rfl
  rw [statements_eq_bind hline (by decide) hstop, hstatement, Option.bind_none]

/-- A registration whose block is not closed is no program. -/
theorem programStatements_of_breaksOff {rest : List Char} (h : BreaksOff rest) :
    programStatements? (registrationLine ++ rest) = none := by
  let text : List Char := registrationLine ++ rest
  have hquiet : Cursor.Quiet { text } := ⟨rfl, rfl⟩
  have hdepth : text.length + 5 ≤ sufficientDepth text.length := by
    simp only [sufficientDepth]
    omega
  have hgap : (Readers.upTo (sufficientDepth text.length)).gap { text } = some ((), { text }) :=
    gap_of_stopsGap rfl (show text.length < _ by omega)
  have hstatements := statements_of_breaksOff h hquiet rfl hdepth
  simp only [programStatements?]
  change ((Readers.upTo (sufficientDepth text.length)).gap { text } >>= fun x =>
    (Readers.upTo (sufficientDepth text.length)).statements .file x.2 >>= fun y =>
      ending? (.upTo (sufficientDepth text.length)) y.2 >>= fun notes => some (y.1 ++ notes)) = _
  simp only [hgap, hstatements, Option.bind_eq_bind, Option.bind_some, Option.bind_none]

end FactoryRoster.Source
