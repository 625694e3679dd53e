import FactoryRoster.Proofs.Source.Reading

/-!
# Bodies of literals

What the body of a literal is read as (`Outline.Reads`). Where nothing is interpolated, delimiters
nest and a backslash takes the character after it with it: these bodies are the `Enclosed` ones. A
backslash may escape a backslash or a delimiter. Which backslashes are dropped does not depend on
the delimiters, though: those before a backslash and a single quote, or, in a symbol after a percent
sign, none.
-/

namespace FactoryRoster.Source

/-! ### What is read of a body -/

/-- A body before its closing delimiter is read as parts that make a string of `text`. -/
def Outline.Reads (o : Outline) (body text : List Char) : Prop :=
  ∀ (n : Nat) (c : Cursor) (rest : List Char), c.text = body ++ o.closer :: rest →
    body.length < n →
    ∃ parts, (Readers.upTo n).contents o 0 c = some (parts, { c with text := rest }) ∧
      Expr.ofLiteral o.kind o.quoting parts = .string text

/-- A body makes a string of one text only. -/
theorem Outline.Reads.unique {o : Outline} {body text text' : List Char} (h : o.Reads body text)
    (h' : o.Reads body text') : text = text' := by
  obtain ⟨parts, hparts, hvalue⟩ := h _ { text := body ++ [o.closer] } [] rfl (Nat.lt_succ_self _)
  obtain ⟨parts', hparts', hvalue'⟩ :=
    h' _ { text := body ++ [o.closer] } [] rfl (Nat.lt_succ_self _)
  obtain ⟨rfl, -⟩ := Prod.mk.inj (Option.some.inj (hparts.symm.trans hparts'))
  exact Expr.string.inj (hvalue.symm.trans hvalue')

/-- A literal whose parts make a string is read as that string, with the gap after it. -/
theorem literal_of_contents {n k : Nat} {o : Outline} {c c' : Cursor} {rest text : List Char}
    {parts : List Part} (hkind : o.kind ≠ .pattern)
    (hparts : (Readers.upTo n).contents o 0 (c.at_ (c.text.drop k)) = some (parts, c.at_ rest))
    (hvalue : Expr.ofLiteral o.kind o.quoting parts = .string text)
    (hgap : (Readers.upTo n).gap (c.at_ rest) = some ((), c')) :
    Rules.literal (.upTo n) o k c = some (.string text, c') := by
  have hflags : (o.kind == .pattern) = false := beq_eq_false_iff_ne.mpr hkind
  simp only [Rules.literal, hparts, hflags, Bool.false_eq_true, if_false, Option.bind_eq_bind,
    Option.bind_some, hvalue]
  change ((Readers.upTo n).gap (c.at_ rest)).bind _ = _
  rw [hgap]
  rfl

/-- Plain characters are read as one part. -/
theorem contents_of_plainRun {n depth depth' : Nat} {o : Outline} {c : Cursor} {ch : Char}
    {more run rest : List Char} (htext : c.text = ch :: more)
    (hplain : o.special? depth ch more = none)
    (hrun : o.plainRun depth false c.text = (run, rest, depth')) :
    (Readers.upTo (n + 1)).contents o depth c =
      ((Readers.upTo n).contents o depth' { c with text := rest }).map fun x =>
        (.plain run :: x.1, x.2) := by
  have hstretch : o.stretch depth c.text = .plain run rest depth' := by
    rw [htext] at hrun ⊢
    simp only [Outline.stretch, hplain, hrun]
  rw [upTo_contents, Rules.contents, hstretch]
  rfl

/-! ### Forms -/

/-- The forms of literals in which nothing is interpolated. -/
inductive Uninterpolated where
  | string
  | symbol
  | percentString (delimiter : Char) (h : isDelimiter false delimiter = true)
  | percentSymbol (delimiter : Char) (h : isDelimiter false delimiter = true)

namespace Uninterpolated

/-- The delimiter that opens a literal. -/
def delimiter : Uninterpolated → Char
  | string => '\''
  | symbol => '\''
  | percentString d _ => d
  | percentSymbol d _ => d

/-- What stands before the body of a literal. -/
def opening : Uninterpolated → List Char
  | string => ['\'']
  | symbol => [':', '\'']
  | percentString d _ => ['%', 'q', d]
  | percentSymbol d _ => ['%', 's', d]

/-- The outline of a literal. -/
def outline (form : Uninterpolated) : Outline where
  kind :=
    match form with
    | string | percentString .. => .string
    | symbol | percentSymbol .. => .symbol
  quoting :=
    match form with
    | percentSymbol .. => .verbatim
    | _ => .single
  opener := form.delimiter
  closer := closerOf form.delimiter

/-- A literal with a given body. -/
def literal (form : Uninterpolated) (body : List Char) : List Char :=
  form.opening ++ body ++ [closerOf form.delimiter]

/-- The characters before which a backslash is dropped. -/
def drops (form : Uninterpolated) (c : Char) : Bool :=
  match form with
  | percentSymbol .. => false
  | _ => c == '\\' || c == '\''

/-- The characters that a backslash escapes: itself and the delimiters. -/
def escapes (form : Uninterpolated) (c : Char) : Bool :=
  c == '\\' || c == form.delimiter || c == closerOf form.delimiter

end Uninterpolated

/-! ### Bodies -/

/-- A body that `delimiter` opens, where `depth` further delimiters have been opened and not closed:
a backslash takes any character with it, and a delimiter that nests has its counterpart. -/
inductive Enclosed (delimiter : Char) : (depth : Nat) → List Char → Prop
  | nil : Enclosed delimiter 0 []
  | pair {depth : Nat} {body : List Char} (c : Char) (hslash : delimiter ≠ '\\')
      (h : Enclosed delimiter depth body) : Enclosed delimiter depth ('\\' :: c :: body)
  | opens {depth : Nat} {body : List Char} (hnests : delimiter ≠ closerOf delimiter)
      (h : Enclosed delimiter (depth + 1) body) : Enclosed delimiter depth (delimiter :: body)
  | closes {depth : Nat} {body : List Char} (hnests : delimiter ≠ closerOf delimiter)
      (h : Enclosed delimiter depth body) :
      Enclosed delimiter (depth + 1) (closerOf delimiter :: body)
  | plain {depth : Nat} {body : List Char} {c : Char} (hslash : c ≠ '\\') (hopens : c ≠ delimiter)
      (hcloses : c ≠ closerOf delimiter) (h : Enclosed delimiter depth body) :
      Enclosed delimiter depth (c :: body)

theorem closerOf_eq_slash {d : Char} : closerOf d = '\\' ↔ d = '\\' := by
  unfold closerOf
  split <;> simp

/-- Delimiters that nest are no backslashes. -/
theorem ne_slash_of_nests {d : Char} (hnests : d ≠ closerOf d) : d ≠ '\\' ∧ closerOf d ≠ '\\' := by
  have hslash : d ≠ '\\' := by
    rintro rfl
    exact hnests rfl
  exact ⟨hslash, fun heq => hslash (closerOf_eq_slash.mp heq)⟩

/-! ### Dropped backslashes -/

/-- A body without the backslashes that stand before certain characters. -/
def unescapedBy (drops : Char → Bool) : List Char → List Char
  | '\\' :: c :: rest =>
    if drops c then c :: unescapedBy drops rest else '\\' :: c :: unescapedBy drops rest
  | c :: rest => c :: unescapedBy drops rest
  | [] => []

/-- The characters that a backslash stands before, from left to right. -/
def escapedChars : List Char → List Char
  | '\\' :: c :: rest => c :: escapedChars rest
  | _ :: rest => escapedChars rest
  | [] => []

theorem unescapeQuotes_of_plain {c : Char} (hc : (c == '\\' || c == '\'') = false)
    (text : List Char) : unescapeQuotes (c :: text) = c :: unescapeQuotes text := by
  simp only [Bool.or_eq_false_iff, beq_eq_false_iff_ne] at hc
  rw [unescapeQuotes] <;> simp_all

theorem unescapeQuotes_eq (body : List Char) :
    unescapeQuotes body = unescapedBy (fun c => c == '\\' || c == '\'') body := by
  fun_induction unescapedBy (fun c => c == '\\' || c == '\'') body with
  | case1 c rest hc ih =>
      simp only [Bool.or_eq_true, beq_iff_eq] at hc
      rcases hc with rfl | rfl <;> rw [unescapeQuotes, ih]
  | case2 c rest hc ih =>
      have hplain := Bool.not_eq_true _ ▸ hc
      rw [← ih, ← unescapeQuotes_of_plain hplain]
      rw [unescapeQuotes] <;> simp_all
  | case3 c rest hc ih =>
      rw [← ih]
      rw [unescapeQuotes]
      all_goals
        rintro more rfl rfl
        exact hc _ _ rfl rfl
  | case4 => rfl

theorem length_unescapedBy_le (drops : Char → Bool) (body : List Char) :
    (unescapedBy drops body).length ≤ body.length := by
  fun_induction unescapedBy drops body with
  | case1 c rest hc ih => exact Nat.le_succ_of_le (Nat.succ_le_succ ih)
  | case2 c rest hc ih => exact Nat.succ_le_succ (Nat.succ_le_succ ih)
  | case3 c rest hc ih => exact Nat.succ_le_succ ih
  | case4 => exact Nat.le_refl 0

/-- A body keeps all its backslashes exactly if none stands before such a character. -/
theorem unescapedBy_eq_self_iff (drops : Char → Bool) (body : List Char) :
    unescapedBy drops body = body ↔ ∀ c ∈ escapedChars body, drops c = false := by
  fun_induction unescapedBy drops body with
  | case1 c rest hc ih =>
      refine iff_of_false (fun heq => ?_) (by simp [escapedChars, hc])
      have hlength := congrArg List.length heq
      have hle := length_unescapedBy_le drops rest
      simp only [List.length_cons] at hlength
      omega
  | case2 c rest hc ih => simp [escapedChars, hc, ih]
  | case3 c rest hc ih => simp [escapedChars, ih]
  | case4 => simp [escapedChars]

/-- Two readings that agree on doubled backslashes agree on a body exactly if they do on every
character that a backslash stands before. -/
theorem unescapedBy_eq_iff {drops drops' : Char → Bool} (h : drops '\\' = drops' '\\')
    (body : List Char) :
    unescapedBy drops body = unescapedBy drops' body ↔
      ∀ c ∈ escapedChars body, drops c = drops' c := by
  fun_induction escapedChars body with
  | case1 c rest ih =>
      rw [List.forall_mem_cons, ← ih]
      by_cases hc : drops c = drops' c
      · simp only [unescapedBy, hc, true_and]
        split <;> simp
      · -- Only one of the texts begins with a backslash.
        have hne : c ≠ '\\' := fun heq => hc (heq ▸ h)
        refine iff_of_false (fun heq => ?_) fun hboth => hc hboth.1
        rw [unescapedBy, unescapedBy] at heq
        cases hdrops : drops c with
        | false =>
            cases hdrops' : drops' c with
            | false => exact hc (hdrops.trans hdrops'.symm)
            | true =>
                rw [hdrops, hdrops'] at heq
                exact hne (List.cons.inj heq).1.symm
        | true =>
            cases hdrops' : drops' c with
            | false =>
                rw [hdrops, hdrops'] at heq
                exact hne (List.cons.inj heq).1
            | true => exact hc (hdrops.trans hdrops'.symm)
  | case2 c rest hc ih =>
      rw [unescapedBy, unescapedBy, List.cons.injEq, ← ih] <;> simp_all
  | case3 => simp [unescapedBy]

/-! ### Runs of plain characters -/

theorem plainRun_append (o : Outline) (depth : Nat) (taken : Bool) (text : List Char) :
    (o.plainRun depth taken text).1 ++ (o.plainRun depth taken text).2.1 = text := by
  fun_induction Outline.plainRun o depth taken text <;> simp_all

/-- A run of plain characters ends before a special one, or with the text. -/
theorem special?_after_plainRun (o : Outline) (depth : Nat) (taken : Bool) (text : List Char) :
    ∀ c rest, (o.plainRun depth taken text).2.1 = c :: rest →
      (o.special? (o.plainRun depth taken text).2.2 c rest).isSome = true := by
  fun_induction Outline.plainRun o depth taken text with
  | case1 => simp
  | case2 depth c text run after hrun ih => simpa [hrun] using ih
  | case3 depth taken c text htaken hspecial =>
      intro c' rest heq
      obtain ⟨rfl, rfl⟩ := List.cons.inj heq
      exact hspecial
  | case4 depth taken c text htaken hspecial run after hrun ih => simpa [hrun] using ih

namespace Uninterpolated

variable (form : Uninterpolated)

theorem special?_outline (depth : Nat) (c : Char) (rest : List Char) :
    form.outline.special? depth c rest =
      if c = closerOf form.delimiter ∧ depth = 0 then some (.close rest) else none := by
  cases form <;> simp [Outline.special?, outline]

theorem plainRun_closer (rest : List Char) :
    form.outline.plainRun 0 false (closerOf form.delimiter :: rest) =
      ([], closerOf form.delimiter :: rest, 0) := by
  simp [Outline.plainRun, special?_outline]

theorem plainRun_pair (hslash : form.delimiter ≠ '\\') (depth : Nat) (c : Char)
    (rest : List Char) :
    form.outline.plainRun depth false ('\\' :: c :: rest) =
      ('\\' :: c :: (form.outline.plainRun depth false rest).1,
        (form.outline.plainRun depth false rest).2) := by
  have hcloser : '\\' ≠ closerOf form.delimiter := fun h => hslash (closerOf_eq_slash.mp h.symm)
  have hnesting : form.outline.nesting depth '\\' = depth := by
    simp [Outline.nesting, outline, hcloser, hslash.symm]
  simp [Outline.plainRun, special?_outline, hcloser, hnesting]

theorem plainRun_cons {c : Char} (hslash : c ≠ '\\') {depth : Nat}
    (hcloses : ¬(c = closerOf form.delimiter ∧ depth = 0)) (rest : List Char) :
    form.outline.plainRun depth false (c :: rest) =
      (c :: (form.outline.plainRun (form.outline.nesting depth c) false rest).1,
        (form.outline.plainRun (form.outline.nesting depth c) false rest).2) := by
  have hfalse : (c == '\\') = false := beq_eq_false_iff_ne.mpr hslash
  simp [Outline.plainRun, special?_outline, hcloses, hfalse]

theorem nesting_closer (depth : Nat) :
    form.outline.nesting (depth + 1) (closerOf form.delimiter) = depth := by
  simp [Outline.nesting, outline]

theorem nesting_delimiter (hnests : form.delimiter ≠ closerOf form.delimiter) (depth : Nat) :
    form.outline.nesting depth form.delimiter = depth + 1 := by
  simp [Outline.nesting, outline, hnests]

theorem nesting_plain {c : Char} (hopens : c ≠ form.delimiter)
    (hcloses : c ≠ closerOf form.delimiter) (depth : Nat) :
    form.outline.nesting depth c = depth := by
  simp [Outline.nesting, outline, hopens, hcloses]

/-- An enclosed body is a run of plain characters. -/
theorem plainRun_of_enclosed {depth : Nat} {body : List Char}
    (h : Enclosed form.delimiter depth body) (rest : List Char) :
    form.outline.plainRun depth false (body ++ closerOf form.delimiter :: rest) =
      (body, closerOf form.delimiter :: rest, 0) := by
  induction h with
  | nil => exact form.plainRun_closer rest
  | pair c hslash h ih => rw [List.cons_append, List.cons_append, form.plainRun_pair hslash, ih]
  | opens hnests h ih =>
      have hslash := (ne_slash_of_nests hnests).1
      rw [List.cons_append, form.plainRun_cons hslash (fun h => hnests h.1),
        form.nesting_delimiter hnests, ih]
  | closes hnests h ih =>
      have hslash := (ne_slash_of_nests hnests).2
      rw [List.cons_append, form.plainRun_cons hslash (fun h => absurd h.2 (Nat.succ_ne_zero _)),
        form.nesting_closer, ih]
  | plain hslash hopens hcloses h ih =>
      rw [List.cons_append, form.plainRun_cons hslash (fun h => hcloses h.1),
        form.nesting_plain hopens hcloses, ih]

theorem not_closed_of_plainRun {c : Char} {depth : Nat} {text run : List Char}
    {after : List Char × Nat}
    (h : form.outline.plainRun depth false (c :: text) = (run, after)) (hrun : run ≠ []) :
    ¬(c = closerOf form.delimiter ∧ depth = 0) := by
  rintro ⟨rfl, rfl⟩
  rw [plainRun_closer] at h
  exact hrun (Prod.mk.inj h).1.symm

/-- A delimiter that closes what it opens does not nest. -/
theorem nesting_eq_zero {c : Char} {depth : Nat}
    (hdepth : form.delimiter = closerOf form.delimiter → depth = 0)
    (hsame : form.delimiter = closerOf form.delimiter) : form.outline.nesting depth c = 0 := by
  by_cases hcloser : c = closerOf form.delimiter
  · simp [Outline.nesting, outline, hcloser, hdepth hsame]
  · rw [form.nesting_plain (hsame ▸ hcloser) hcloser, hdepth hsame]

theorem enclosed_cons {c : Char} {depth : Nat} {body : List Char} (hslash : c ≠ '\\')
    (hdepth : form.delimiter = closerOf form.delimiter → depth = 0)
    (hcloses : ¬(c = closerOf form.delimiter ∧ depth = 0))
    (h : Enclosed form.delimiter (form.outline.nesting depth c) body) :
    Enclosed form.delimiter depth (c :: body) := by
  by_cases hcloser : c = closerOf form.delimiter
  · subst hcloser
    obtain ⟨d, rfl⟩ := Nat.exists_eq_succ_of_ne_zero fun hzero => hcloses ⟨rfl, hzero⟩
    rw [form.nesting_closer] at h
    exact .closes (fun heq => Nat.succ_ne_zero d (hdepth heq)) h
  by_cases hopener : c = form.delimiter
  · subst hopener
    rw [form.nesting_delimiter hcloser] at h
    exact .opens hcloser h
  · rw [form.nesting_plain hopener hcloser] at h
    exact .plain hslash hopener hcloser h

/-- A backslash that does not close the body is not the delimiter. -/
theorem ne_slash_of_not_closed {depth : Nat}
    (hdepth : form.delimiter = closerOf form.delimiter → depth = 0)
    (hclosed : ¬('\\' = closerOf form.delimiter ∧ depth = 0)) : form.delimiter ≠ '\\' := by
  intro heq
  have hcloser : '\\' = closerOf form.delimiter := (closerOf_eq_slash.mpr heq).symm
  exact hclosed ⟨hcloser, hdepth (heq.trans hcloser)⟩

/-- A body that is a run of plain characters is enclosed. -/
theorem enclosed_of_plainRun {depth : Nat} {body rest : List Char}
    (hdepth : form.delimiter = closerOf form.delimiter → depth = 0)
    (h : form.outline.plainRun depth false (body ++ closerOf form.delimiter :: rest) =
      (body, closerOf form.delimiter :: rest, 0)) :
    Enclosed form.delimiter depth body := by
  induction body using escapedChars.induct generalizing depth with
  | case1 c body ih =>
      have hslash := form.ne_slash_of_not_closed hdepth (form.not_closed_of_plainRun h (by simp))
      rw [List.cons_append, List.cons_append, form.plainRun_pair hslash] at h
      simp only [Prod.mk.injEq, List.cons.injEq, true_and] at h
      exact .pair c hslash (ih hdepth (Prod.ext h.1 h.2))
  | case2 c body hpair ih =>
      have hclosed := form.not_closed_of_plainRun h (by simp)
      by_cases hc : c = '\\'
      · -- A backslash at the end takes the closing delimiter with it.
        subst hc
        have hslash := form.ne_slash_of_not_closed hdepth hclosed
        have hnil : body = [] := by
          cases body with
          | nil => rfl
          | cons c' body => exact absurd rfl (hpair c' body rfl)
        rw [hnil, List.cons_append, List.nil_append, form.plainRun_pair hslash] at h
        simp at h
      · rw [List.cons_append, form.plainRun_cons hc hclosed] at h
        simp only [Prod.mk.injEq, List.cons.injEq, true_and] at h
        exact form.enclosed_cons hc hdepth hclosed
          (ih (form.nesting_eq_zero hdepth) (Prod.ext h.1 h.2))
  | case3 =>
      by_cases hzero : depth = 0
      · rw [hzero]
        exact .nil
      · have hslash := (ne_slash_of_nests fun heq => hzero (hdepth heq)).2
        rw [List.nil_append, form.plainRun_cons hslash (fun hboth => hzero hboth.2)] at h
        simp at h

theorem unescapedBy_percentSymbol (d : Char) (h : isDelimiter false d = true) (body : List Char) :
    unescapedBy (percentSymbol d h).drops body = body :=
  (unescapedBy_eq_self_iff _ body).mpr fun _ _ => rfl

/-- The reading of a body drops the right backslashes exactly if it treats every character that a
backslash stands before right. -/
theorem unescapedBy_drops_eq_iff (body : List Char) :
    unescapedBy form.drops body = unescapedBy form.escapes body ↔
      ∀ c ∈ escapedChars body, form.drops c = form.escapes c := by
  cases form with
  | percentSymbol d h =>
      rw [unescapedBy_percentSymbol, eq_comm, unescapedBy_eq_self_iff]
      exact forall₂_congr fun c _ => eq_comm
  | _ => exact unescapedBy_eq_iff (by simp [drops, escapes]) body

/-! ### Literals -/

theorem contents_closer {n : Nat} {c : Cursor} {rest : List Char}
    (htext : c.text = closerOf form.delimiter :: rest) :
    (Readers.upTo (n + 1)).contents form.outline 0 c = some ([], { c with text := rest }) := by
  have hclose : form.outline.stretch 0 c.text = .close rest := by
    rw [htext]
    simp [Outline.stretch, special?_outline]
  rw [upTo_contents, Rules.contents, hclose]

theorem ofLiteral_nil :
    Expr.ofLiteral form.outline.kind form.outline.quoting [] =
      .string (unescapedBy form.drops []) := by
  cases form <;> rfl

theorem ofLiteral_plain (body : List Char) :
    Expr.ofLiteral form.outline.kind form.outline.quoting [.plain body] =
      .string (unescapedBy form.drops body) := by
  cases form with
  | percentSymbol d h =>
      simp [Expr.ofLiteral, outline, Expr.ofLiteral.isText, Expr.ofLiteral.raw,
        unescapedBy_percentSymbol]
  | _ =>
      simp only [Expr.ofLiteral, outline, List.flatMap_singleton, Expr.ofLiteral.raw,
        unescapeQuotes_eq]
      rfl

/-- An enclosed body is read within any two rules. -/
theorem contents_of_enclosed {body : List Char} (h : Enclosed form.delimiter 0 body) (n : Nat)
    {c : Cursor} {rest : List Char} (htext : c.text = body ++ closerOf form.delimiter :: rest) :
    ∃ parts, (Readers.upTo (n + 2)).contents form.outline 0 c =
        some (parts, { c with text := rest }) ∧
      Expr.ofLiteral form.outline.kind form.outline.quoting parts =
        .string (unescapedBy form.drops body) := by
  have hrun := form.plainRun_of_enclosed h rest
  cases body with
  | nil => exact ⟨[], form.contents_closer htext, form.ofLiteral_nil⟩
  | cons ch more =>
      have hne : ch ≠ closerOf form.delimiter := by
        rintro rfl
        rw [List.cons_append, plainRun_closer] at hrun
        simp at hrun
      refine ⟨[.plain (ch :: more)], ?_, form.ofLiteral_plain _⟩
      rw [contents_of_plainRun htext (by simp [special?_outline, hne]) (htext ▸ hrun),
        form.contents_closer rfl]
      rfl

theorem reads_of_enclosed {body : List Char} (h : Enclosed form.delimiter 0 body) :
    form.outline.Reads body (unescapedBy form.drops body) := by
  intro n c rest htext hn
  match n with
  | 0 => exact absurd hn (Nat.not_lt_zero _)
  | 1 =>
      obtain rfl : body = [] := List.length_eq_zero_iff.mp (Nat.lt_one_iff.mp hn)
      exact ⟨[], form.contents_closer htext, form.ofLiteral_nil⟩
  | n + 2 => exact form.contents_of_enclosed h n htext

/-- Where plain characters have ended, the text is closed or cannot be read. -/
theorem left_of_contents {n depth : Nat} {c c' : Cursor} {parts : List Part} {run text : List Char}
    (hrun : form.outline.plainRun 0 false text = (run, c.text, depth))
    (hread : (Readers.upTo n).contents form.outline depth c = some (parts, c')) :
    depth = 0 ∧ c.text = closerOf form.delimiter :: c'.text := by
  have hspecial := special?_after_plainRun form.outline 0 false text
  rw [hrun] at hspecial
  cases n with
  | zero => exact nomatch hread
  | succ n =>
      rw [upTo_contents, Rules.contents] at hread
      cases hleft : c.text with
      | nil => simp [hleft, Outline.stretch] at hread
      | cons ch more =>
          have hcloses := hspecial ch more hleft
          rw [special?_outline] at hcloses
          by_cases hclosed : ch = closerOf form.delimiter ∧ depth = 0
          · obtain ⟨rfl, rfl⟩ := hclosed
            have hread' := form.contents_closer (n := n) hleft
            rw [upTo_contents, Rules.contents, hread] at hread'
            obtain ⟨-, rfl⟩ := Prod.mk.inj (Option.some.inj hread')
            exact ⟨rfl, rfl⟩
          · simp [hclosed] at hcloses

theorem enclosed_of_reads {body text : List Char} (h : form.outline.Reads body text) :
    Enclosed form.delimiter 0 body := by
  obtain ⟨parts, hparts, -⟩ := h (body.length + 1) { text := body ++ [closerOf form.delimiter] } []
    rfl (Nat.lt_succ_self _)
  cases hbody : body with
  | nil => exact .nil
  | cons ch more =>
      rcases hrun : form.outline.plainRun 0 false (body ++ [closerOf form.delimiter]) with
        ⟨run, left, depth⟩
      have happend := plainRun_append form.outline 0 false (body ++ [closerOf form.delimiter])
      rw [hrun] at happend
      have hne : ch ≠ closerOf form.delimiter := by
        rintro rfl
        rw [form.contents_closer (by rw [hbody]; rfl)] at hparts
        simp at hparts
      rw [contents_of_plainRun (by rw [hbody]; rfl) (by simp [special?_outline, hne]) hrun,
        Option.map_eq_some_iff] at hparts
      obtain ⟨⟨parts', after⟩, hread, heq⟩ := hparts
      obtain ⟨-, rfl⟩ := Prod.mk.inj heq
      obtain ⟨rfl, hleft⟩ := form.left_of_contents hrun hread
      simp only at hleft happend
      rw [hleft] at hrun happend
      rw [List.append_cancel_right happend, hbody] at hrun
      exact form.enclosed_of_plainRun (fun _ => rfl) hrun

/-- A body is read exactly if it is enclosed, and then as itself without the backslashes that are
dropped. -/
theorem reads_iff {body text : List Char} :
    form.outline.Reads body text ↔
      Enclosed form.delimiter 0 body ∧ text = unescapedBy form.drops body := by
  constructor
  · intro h
    have henclosed := form.enclosed_of_reads h
    exact ⟨henclosed, h.unique (form.reads_of_enclosed henclosed)⟩
  · rintro ⟨henclosed, rfl⟩
    exact form.reads_of_enclosed henclosed

end Uninterpolated

end FactoryRoster.Source
