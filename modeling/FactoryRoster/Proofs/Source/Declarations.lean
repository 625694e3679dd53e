import Mathlib.Data.List.Forall2
import FactoryRoster.Declaration
import FactoryRoster.Proofs.Source.Commands

/-!
# Reading declarations

A line that declares a name is read as a call of that name, and lines of such calls as a list of
statements with the notes between them. The declarations of a list of statements are its calls; a
note is none.
-/

namespace FactoryRoster.Source

/-! ### Lines -/

/-- The text after a line: the lines after it, with their notes, and the end of the text. -/
def textAfter (lines : List NotedLine) (ending : List Char) : List Char :=
  lines.flatMap (fun l => '\n' :: noteLines l.notes ++ l.code) ++ ending

/-- The text of some lines, without the notes before the first one. -/
def textFrom (lines : List NotedLine) (ending : List Char) : List Char :=
  match lines with
  | [] => ending
  | l :: lines => l.code ++ textAfter lines ending

/-- A line that begins with a name, whose notes are lines of their own. -/
structure NotedLine.Plain (l : NotedLine) : Prop where
  notes : ∀ note ∈ l.notes, ∀ c ∈ note, isControl c = false
  name : ∃ first rest, l.code = first :: rest ∧ isNameStart first = true

theorem textAfter_cons (l : NotedLine) (lines : List NotedLine) (ending : List Char) :
    textAfter (l :: lines) ending =
      '\n' :: noteLines l.notes ++ (l.code ++ textAfter lines ending) := by
  simp [textAfter]

theorem textAfter_append (lines more : List NotedLine) (ending : List Char) :
    textAfter (lines ++ more) ending = textAfter lines (textAfter more ending) := by
  simp [textAfter]

theorem textOf_append (l : NotedLine) (lines : List NotedLine) (ending : List Char) :
    textOf (l :: lines) ++ ending = noteLines l.notes ++ textFrom (l :: lines) ending := by
  induction lines generalizing l with
  | nil => simp [textOf, textFrom, textAfter]
  | cons next lines ih =>
      have htail := ih next
      simp only [textOf, textFrom, textAfter_cons, List.append_assoc, List.cons_append] at htail ⊢
      rw [htail]

theorem opensLine_of_isNameStart {first : Char} (h : isNameStart first = true)
    (rest : List Char) : opensLine (first :: rest) = true := by
  have hsign : ∀ ch ∈ [' ', '\t', '\r', '\x0b', '\x0c', '\n', '\\', '#', '=', '.', '&'],
      first ≠ ch := by
    have hnone : [' ', '\t', '\r', '\x0b', '\x0c', '\n', '\\', '#', '=', '.', '&'].any isNameStart =
        false := by decide
    rintro ch hch rfl
    exact List.any_eq_false.mp hnone first hch h
  simp only [List.mem_cons, List.not_mem_nil, or_false, forall_eq_or_imp, forall_eq] at hsign
  simp [opensLine, stopsGap, isSpace, isBlank, hsign]

theorem NotedLine.Plain.opensLine {l : NotedLine} (h : l.Plain) (rest : List Char) :
    Source.opensLine (l.code ++ rest) = true := by
  obtain ⟨first, more, hcode, hfirst⟩ := h.name
  rw [hcode, List.cons_append]
  exact opensLine_of_isNameStart hfirst _

theorem NotedLine.Plain.of_word {word rest : List Char} (hword : IsWord word) {l : NotedLine}
    (hl : l.code = word ++ rest) (hnotes : ∀ note ∈ l.notes, ∀ c ∈ note, isControl c = false) :
    l.Plain := by
  obtain ⟨first, letters, hfirst, hstart⟩ := hword.start
  exact ⟨hnotes, first, letters ++ rest, by rw [hl, hfirst, List.cons_append], hstart⟩

theorem NotedLine.Plain.of_closing {l : NotedLine} (hl : l.code = closing)
    (hnotes : ∀ note ∈ l.notes, ∀ c ∈ note, isControl c = false) : l.Plain :=
  ⟨hnotes, 'e', ['n', 'd'], hl, by decide⟩

/-- The gap at the end of a line reaches to the code of the next one. -/
theorem gap_textAfter {l : NotedLine} (hl : l.Plain) {lines : List NotedLine} {ending : List Char}
    {n : Nat} {c : Cursor} (hquiet : c.Quiet) (hn : (textAfter (l :: lines) ending).length < n) :
    ∃ c', (Readers.upTo n).gap (c.at_ (textAfter (l :: lines) ending)) = some ((), c') ∧
      c'.OpensLine (textFrom (l :: lines) ending) :=
  gap_of_line hl.notes (hl.opensLine _) (hquiet.at_ _) rfl rfl (textAfter_cons ..) hn

/-! ### Calls among statements -/

/-- The calls among some statements. -/
def callsAmong (statements : List Expr) : List Call :=
  (Expr.listToNodes statements).filterMap Node.call?

theorem callsAmong_cons (e : Expr) (statements : List Expr) :
    callsAmong (e :: statements) = e.toNode.call?.toList ++ callsAmong statements := by
  simp only [callsAmong, Expr.listToNodes, List.filterMap_cons]
  cases e.toNode.call? <;> rfl

theorem callsAmong_append (statements more : List Expr) :
    callsAmong (statements ++ more) = callsAmong statements ++ callsAmong more := by
  induction statements with
  | nil => rfl
  | cons e statements ih =>
      rw [List.cons_append, callsAmong_cons, callsAmong_cons, ih, List.append_assoc]

/-- Notes are no calls. -/
theorem callsAmong_notes (kinds : List String) : callsAmong (kinds.map .other) = [] := by
  induction kinds with
  | nil => rfl
  | cons kind kinds ih =>
      rw [List.map_cons, callsAmong_cons, ih]
      rfl

@[simp] theorem callsAmong_lineNotes (c : Cursor) : callsAmong c.lineNotes = [] :=
  callsAmong_notes _

@[simp] theorem callsAmong_allNotes (c : Cursor) : callsAmong c.allNotes = [] :=
  callsAmong_notes _

/-- The calls among the statements of a block with the given children. -/
def callsWithin (children : List Expr) : List Call :=
  (Expr.statementNodes children).filterMap Node.call?

theorem callsWithin_bodyOf (kind : Body) (statements : List Expr) :
    callsWithin (Expr.bodyOf kind statements) = callsAmong statements := by
  cases statements with
  | nil => rfl
  | cons e statements =>
      simp [callsWithin, callsAmong, Expr.bodyOf, Expr.statementNodes]

/-- The calls in a block are those of its body. -/
theorem callsWithin_append_bodyOf (kinds : List String) (kind : Body) (statements : List Expr) :
    callsWithin (kinds.map .other ++ Expr.bodyOf kind statements) = callsAmong statements := by
  induction kinds with
  | nil => exact callsWithin_bodyOf kind statements
  | cons other kinds ih =>
      rw [← ih]
      rfl

/-! ### Declarations -/

theorem ArgumentBefore.stopsGap {literal rest text : List Char}
    (h : ArgumentBefore literal rest text) : Source.stopsGap (literal ++ rest) = true := by
  obtain ⟨mark, hmark, more, rfl⟩ := h.mark
  exact stopsGap_of_mem_literalMarks hmark _

/-- A word with a literal after it is a command with the block that follows. -/
theorem operand_declaration {word : List Char} (hword : IsWord word)
    {literal rest text : List Char} (hliteral : ArgumentBefore literal rest text) {n : Nat}
    {s : Setting} {c c' : Cursor} (htext : c.text = word ++ ' ' :: (literal ++ rest))
    (hn : c.text.length < n + 6) (hs : s.wrapped = false)
    (hgap : (Readers.upTo (n + 2)).gap (c.at_ rest) = some ((), c')) (hstops : c'.Stops) :
    (Readers.upTo (n + 6)).operand s 0 true c =
      (Rules.command (.upTo (n + 5)) s (wordCallee word) [.string text] c').bind fun x =>
        Rules.continued (.upTo (n + 5)) s 0 true x.1 x.2 := by
  obtain ⟨first, more, hfirst, hstart⟩ := hword.start
  have hkeyword : keywordAhead? c.text = none := by
    rw [htext]
    exact hword.keywordAhead? (by decide) _
  have hlength : literal.length < n + 4 ∧ (literal ++ rest).length + 1 < n + 5 := by
    simp only [htext, hfirst, List.length_append, List.length_cons] at hn ⊢
    omega
  have hadvance : Rules.advance (.upTo (n + 5)) word.length c =
      some ((), (c.at_ (' ' :: (literal ++ rest))).afterBlanks (literal ++ rest)) := by
    rw [Rules.advance, htext, List.drop_left]
    exact gap_of_blank rfl hliteral.stopsGap hlength.2
  have hopens : c.text = first :: (more ++ ' ' :: (literal ++ rest)) := by
    rw [htext, hfirst, List.cons_append]
  rw [operand_eq_primary hopens (opensOperand_of_isNameStart hstart) hkeyword,
    primary_of_word hword (by decide) htext, nameOrCall_eq_named, hadvance, Option.bind_some,
    named_literal (n := n) hliteral
      (c := (c.at_ (' ' :: (literal ++ rest))).afterBlanks (literal ++ rest))
      _ rfl hlength.1 rfl rfl hgap hstops hs]

section Statements

variable {word : List Char} (hword : IsWord word) {literal rest text : List Char}
  (hliteral : ArgumentBefore literal rest text) {n : Nat} {follow : List Keyword}
  {c c' c'' : Cursor} (htext : c.text = word ++ ' ' :: (literal ++ rest))
  (hn : c.text.length < n + 6)
  (hgap : (Readers.upTo (n + 2)).gap (c.at_ rest) = some ((), c')) (hstops : c'.Stops)

include hword hliteral htext hn hgap hstops

theorem statement_of_declaration {block : Option (List Expr)}
    (hblock : Rules.attachedBlock (.upTo (n + 5)) (.stated follow) c' = some (block, c''))
    (hends : c''.Stops) :
    (Readers.upTo (n + 7)).statement follow false c =
      some (⟨.call none (some word) [.string text] block, .complete⟩, c'') := by
  have hkeyword : keywordAhead? c.text = none := by
    rw [htext]
    exact hword.keywordAhead? (by decide) _
  have hoperand :=
    operand_declaration (s := .stated follow) hword hliteral htext hn rfl hgap hstops
  rw [command_eq_map, hblock, Option.map_some, Option.bind_some,
    continued_of_stops rfl 0 true hends (by cases block <;> simp)] at hoperand
  refine statement_of_operand hkeyword hoperand hends ?_ ?_ <;> cases block <;> simp

theorem statement_of_no_block
    (hblock : Rules.attachedBlock (.upTo (n + 5)) (.stated follow) c' = none) :
    (Readers.upTo (n + 7)).statement follow false c = none := by
  have hkeyword : keywordAhead? c.text = none := by
    rw [htext]
    exact hword.keywordAhead? (by decide) _
  have hoperand :=
    operand_declaration (s := .stated follow) hword hliteral htext hn rfl hgap hstops
  rw [command_eq_map, hblock, Option.map_none, Option.bind_none] at hoperand
  exact statement_of_no_operand hkeyword hoperand

end Statements

/-- Whether some lines, followed by others, are read as one statement: a call of a certain kind. -/
def ReadAs (kind : Call → Prop) (lines : List NotedLine) : Prop :=
  ∀ (next : NotedLine) (more : List NotedLine) (ending : List Char) (n : Nat) (c : Cursor),
    next.Plain → c.Quiet → c.text = textFrom (lines ++ next :: more) ending →
      c.text.length + 10 ≤ n →
    ∃ e call c', (Readers.upTo n).statement Stop.body.follow false c =
        some (⟨e, .complete⟩, c') ∧
      e.toNode.call? = some call ∧ kind call ∧ c'.OpensLine (textFrom (next :: more) ending)

theorem ReadAs.mono {kind kind' : Call → Prop} {lines : List NotedLine} (h : ReadAs kind lines)
    (hkind : ∀ c, kind c → kind' c) : ReadAs kind' lines := by
  intro next more ending n c hnext hquiet htext hn
  obtain ⟨e, call, c', hread, hcall, hc, hopens⟩ := h next more ending n c hnext hquiet htext hn
  exact ⟨e, call, c', hread, hcall, hkind call hc, hopens⟩

/-- The call that declares a name without a block. -/
def bareDeclaration (word : List Char) (name : String) : Call where
  method := String.ofList word
  arguments := [.string name]

theorem readAs_declaration {word : List Char} (hword : IsWord word) {name : String}
    {literal : List Char} (hliteral : IsArgument literal name.toList) {l : NotedLine}
    (hl : l.code = word ++ ' ' :: literal) : ReadAs (· = bareDeclaration word name) [l] := by
  intro next more ending n c hnext hquiet htext hn
  obtain ⟨m, rfl⟩ : ∃ m, n = m + 7 := ⟨n - 7, by omega⟩
  obtain ⟨rest, hrest⟩ : ∃ rest, textAfter (next :: more) ending = '\n' :: rest :=
    ⟨_, by rw [textAfter_cons, List.cons_append]⟩
  have hspelled : c.text = word ++ ' ' :: (literal ++ textAfter (next :: more) ending) := by
    simp [htext, textFrom, hl]
  have hargument : ArgumentBefore literal (textAfter (next :: more) ending) name.toList := by
    rw [hrest]
    exact hliteral '\n' (by decide) rest
  have hlength : (textAfter (next :: more) ending).length < c.text.length := by
    simp only [hspelled, List.length_append, List.length_cons]
    omega
  obtain ⟨c', hgap, hopens⟩ := gap_textAfter hnext hquiet
    (show (textAfter (next :: more) ending).length < m + 2 by omega)
  have hnone : Rules.attachedBlock (.upTo (m + 5)) (.stated Stop.body.follow) c' =
      some (none, c') := attachedBlock_of_ends hopens.ends rfl
  refine ⟨.call none (some word) [.string name.toList] none, bareDeclaration word name, c', ?_, ?_,
    rfl, hopens⟩
  · exact statement_of_declaration hword hargument hspelled (by omega) hgap hopens.ends.stops hnone
      hopens.ends.stops
  · simp [Expr.toNode, Expr.optionToNode, Expr.listToNodes, Expr.blockToNodes, Node.call?,
      bareDeclaration]

/-! ### Blocks of declarations -/

/-- Whether the first of some lines begins with a word that is a name wherever it stands. -/
def BeginsWithWord (lines : List NotedLine) : Prop :=
  ∃ l more word b rest, lines = l :: more ∧ l.code = word ++ b :: rest ∧ IsWord word ∧
    endsWord b = true

theorem beginsWithWord_of_word {word rest : List Char} (hword : IsWord word) {l : NotedLine}
    (hl : l.code = word ++ ' ' :: rest) (more : List NotedLine) : BeginsWithWord (l :: more) :=
  ⟨l, more, word, ' ', rest, rfl, hl, hword, by decide⟩

theorem endsLine_textAfter_cons (l : NotedLine) (lines : List NotedLine) (ending : List Char) :
    EndsLine (textAfter (l :: lines) ending) :=
  .inr ⟨_, by rw [textAfter_cons, List.cons_append]⟩

theorem nameAhead_closing {rest : List Char} (h : EndsLine rest) :
    nameAhead (closing ++ rest) = Keyword.end_.spelling := by
  rcases h with rfl | ⟨more, rfl⟩ <;> rfl

theorem holds_closing {rest : List Char} (h : EndsLine rest) :
    Stop.body.holds (wordAhead (closing ++ rest)) (closing ++ rest) = true := by
  rcases h with rfl | ⟨more, rfl⟩ <;> rfl

theorem not_holds_of_word {word : List Char} (hword : IsWord word) {b : Char}
    (hb : endsWord b = true) (rest : List Char) (ks : List Keyword) :
    (Stop.words ks).holds (wordAhead (word ++ b :: rest)) (word ++ b :: rest) = false := by
  rw [wordAhead_append hword.chars hb]
  cases htext : word ++ b :: rest with
  | nil => simp at htext
  | cons first more => simp only [Stop.holds, hword.free]

/-- A list of declarations, each with the lines that declare it. -/
structure Declared {α : Type} (kind : α → Call → Prop) (items : List (α × List NotedLine)) :
    Prop where
  words : ∀ i ∈ items, BeginsWithWord i.2
  plain : ∀ i ∈ items, ∀ l ∈ i.2, l.Plain
  read : ∀ i ∈ items, ReadAs (kind i.1) i.2

/-- The code of a further line takes more than the line before it leaves. -/
theorem length_textFrom_lt {lines : List NotedLine} (hlines : BeginsWithWord lines)
    (next : NotedLine) (more : List NotedLine) (ending : List Char) :
    (textFrom (next :: more) ending).length + 2 ≤
      (textFrom (lines ++ next :: more) ending).length := by
  obtain ⟨l, others, word, b, rest, rfl, hcode, -, -⟩ := hlines
  have hafter : (textAfter (next :: more) ending).length =
      1 + (noteLines next.notes).length + (textFrom (next :: more) ending).length := by
    simp only [textAfter_cons, textFrom, List.length_append, List.length_cons]
    omega
  have hothers : (textAfter others (textAfter (next :: more) ending)).length ≥
      (textAfter (next :: more) ending).length := by
    rw [textAfter, List.length_append]
    omega
  have hl : 1 ≤ l.code.length := by
    rw [hcode, List.length_append, List.length_cons]
    omega
  have hwhole : (textFrom (l :: others ++ next :: more) ending).length =
      l.code.length + (textAfter others (textAfter (next :: more) ending)).length := by
    simp only [List.cons_append, textFrom, textAfter_append, List.length_append]
  omega

theorem following_of_broken {n : Nat} {stop : Stop} {c : Cursor} (hbroken : c.broken = true) :
    (Readers.upTo (n + 1)).following stop c =
      ((Readers.upTo n).statements stop c.nextLine).map fun x => (c.lineNotes ++ x.1, x.2) := by
  cases hes : (Readers.upTo n).statements stop c.nextLine <;>
    simp [-bind_pure_comp, upTo_following, Rules.following, Rules.takeTerminator, hbroken, hes,
      Reader.bind_apply, Reader.get_apply, Reader.pure_apply]

/-- Statements are a statement and those that follow it. -/
theorem statements_eq_bind {n : Nat} {stop : Stop} {c : Cursor} {first : Char}
    {rest : List Char} (htext : c.text = first :: rest) (hfirst : first ≠ ';')
    (hstop : stop.holds (wordAhead c.text) c.text = false) :
    (Readers.upTo (n + 1)).statements stop c =
      ((Readers.upTo n).statement stop.follow false c).bind fun x =>
        if x.1.form = .targets then none
        else ((Readers.upTo n).following stop x.2).map fun y =>
          (c.allNotes ++ x.1.expr :: y.1, y.2) := by
  rw [htext] at hstop
  have hread : (Readers.upTo (n + 1)).statements stop c =
      ((Readers.upTo n).statement stop.follow false c).bind fun x =>
        (if x.1.form = .targets then failure
          else (Readers.upTo n).following stop >>= fun more =>
            pure (c.allNotes ++ x.1.expr :: more) : Reader (List Expr)) x.2 := by
    simp [-bind_pure_comp, upTo_statements, Rules.statements, htext, hstop, hfirst,
      Reader.bind_apply, Reader.get_apply]
  rw [hread]
  congr 1
  funext x
  split
  · rfl
  · rw [Option.map_eq_bind]
    rfl

theorem ne_semicolon_of_isNameStart {c : Char} (h : isNameStart c = true) : c ≠ ';' := by
  rintro rfl
  simp [isNameStart, isNameChar, punctuation] at h

theorem statements_of_statement {n : Nat} {stop : Stop} {c c₁ c' : Cursor} {e : Expr}
    {es : List Expr} {first : Char} {rest : List Char} (htext : c.text = first :: rest)
    (hfirst : first ≠ ';') (hstop : stop.holds (wordAhead c.text) c.text = false)
    (hstatement : (Readers.upTo n).statement stop.follow false c = some (⟨e, .complete⟩, c₁))
    (hes : (Readers.upTo n).following stop c₁ = some (es, c')) :
    (Readers.upTo (n + 1)).statements stop c = some (c.allNotes ++ e :: es, c') := by
  rw [statements_eq_bind htext hfirst hstop, hstatement, Option.bind_some, if_neg (by simp), hes]
  rfl

theorem exists_next {α : Type} {kind : α → Call → Prop} {items : List (α × List NotedLine)}
    (hitems : Declared kind items) {last : NotedLine} (hlast : last.Plain)
    (lines : List NotedLine) :
    ∃ next more, items.flatMap Prod.snd ++ last :: lines = next :: more ∧ next.Plain := by
  cases items with
  | nil => exact ⟨last, lines, rfl, hlast⟩
  | cons i items =>
      obtain ⟨l, more, -, -, -, hlines, -⟩ := hitems.words i List.mem_cons_self
      refine ⟨l, more ++ items.flatMap Prod.snd ++ last :: lines, by simp [hlines], ?_⟩
      exact hitems.plain i List.mem_cons_self l (by simp [hlines])

section Blocks

variable {α : Type} {kind : α → Call → Prop} {last : NotedLine} (hlast : last.Plain)
  (hclosing : last.code = closing) {lines : List NotedLine} {ending : List Char}
  (hends : EndsLine (textAfter lines ending))

include hlast hclosing hends

/-- The statements of a block are read up to the word that closes it. -/
theorem statements_of_declared {items : List (α × List NotedLine)} (hitems : Declared kind items)
    {n : Nat} {c : Cursor} (hquiet : c.Quiet)
    (htext : c.text = textFrom (items.flatMap Prod.snd ++ last :: lines) ending)
    (hn : c.text.length + 12 ≤ n) :
    ∃ es c', (Readers.upTo n).statements .body c = some (es, c') ∧
      List.Forall₂ kind (items.map Prod.fst) (callsAmong es) ∧
      c'.text = textFrom (last :: lines) ending ∧ c'.Quiet := by
  induction items generalizing n c with
  | nil =>
      obtain ⟨m, rfl⟩ : ∃ m, n = m + 1 := ⟨n - 1, by omega⟩
      refine ⟨[], c, ?_, .nil, htext, hquiet⟩
      have hstop : Stop.body.holds (wordAhead c.text) c.text = true := by
        rw [htext, List.flatMap_nil, List.nil_append, textFrom, hclosing]
        exact holds_closing hends
      simp only [upTo_statements, Rules.statements, Reader.bind_apply, Reader.get_apply,
        Option.bind_some, hstop, if_true, Reader.pure_apply]
  | cons i items ih =>
      obtain ⟨m, rfl⟩ : ∃ m, n = m + 2 := ⟨n - 2, by omega⟩
      have htail : Declared kind items :=
        ⟨fun j hj => hitems.words j (List.mem_cons_of_mem _ hj),
          fun j hj => hitems.plain j (List.mem_cons_of_mem _ hj),
          fun j hj => hitems.read j (List.mem_cons_of_mem _ hj)⟩
      obtain ⟨next, more, hnext, hplain⟩ := exists_next htail hlast lines
      rw [List.flatMap_cons, List.append_assoc, hnext] at htext
      have hword := hitems.words i List.mem_cons_self
      have hlength := length_textFrom_lt hword next more ending
      obtain ⟨l, others, word, b, rest, hlines, hcode, hisWord, hb⟩ := hword
      obtain ⟨first, letters, hfirst, hstart⟩ := hisWord.start
      obtain ⟨e, call, c₁, hstatement, hcall, hkind, hopens⟩ :=
        hitems.read i List.mem_cons_self next more ending (m + 1) c hplain hquiet htext (by omega)
      obtain ⟨es, c', hes, hcalls, htext', hquiet'⟩ := ih htail (n := m) (c := c₁.nextLine)
        hopens.nextLine_quiet (by rw [hnext]; exact hopens.text) (by
          rw [htext] at hn
          change c₁.text.length + 12 ≤ m
          rw [hopens.text]
          omega)
      have hspelled :
          c.text = word ++ b :: (rest ++ textAfter (others ++ next :: more) ending) := by
        simp [htext, hlines, textFrom, hcode]
      refine ⟨c.allNotes ++ e :: (c₁.lineNotes ++ es), c', ?_, ?_, htext', hquiet'⟩
      · have hstop : Stop.body.holds (wordAhead c.text) c.text = false := by
          rw [hspelled]
          exact not_holds_of_word hisWord hb _ _
        rw [hfirst, List.cons_append] at hspelled
        exact statements_of_statement hspelled (ne_semicolon_of_isNameStart hstart) hstop hstatement
          (by rw [following_of_broken hopens.broken, hes]; rfl)
      · rw [callsAmong_append, callsAmong_allNotes, List.nil_append, callsAmong_cons,
          callsAmong_append, callsAmong_lineNotes, hcall]
        exact .cons hkind hcalls

/-- A block is read with the word that closes it. What `P` says of the place behind that word is
up to the gap there. -/
theorem body_of_declared {items : List (α × List NotedLine)} (hitems : Declared kind items)
    {n : Nat} {c : Cursor} (hquiet : c.Quiet) {P : Cursor → Prop}
    (hgap : ∀ c' : Cursor, c'.Quiet → ∃ c'',
      (Readers.upTo n).gap (c'.at_ (textAfter lines ending)) = some ((), c'') ∧ P c'')
    (htext : c.text = textFrom (items.flatMap Prod.snd ++ last :: lines) ending)
    (hn : c.text.length + 12 ≤ n + 1) :
    ∃ es c', Rules.body (.upTo (n + 1)) c = some (es, c') ∧
      List.Forall₂ kind (items.map Prod.fst) (callsAmong es) ∧ P c' := by
  obtain ⟨es, c₁, hes, hcalls, htext₁, hquiet₁⟩ :=
    statements_of_declared hlast hclosing hends hitems hquiet htext hn
  obtain ⟨c', hafter, hplace⟩ := hgap c₁ hquiet₁
  rw [textFrom, hclosing] at htext₁
  have hadvance : Rules.advance (.upTo n) 3 c₁ = some ((), c') := by
    rw [Rules.advance, htext₁]
    exact hafter
  have hend : Keyword.ofName? Keyword.end_.spelling = some .end_ := rfl
  have hclauses : (Readers.upTo (n + 1)).clauses c₁ = some (c₁.allNotes, c') := by
    simp only [upTo_clauses, Rules.clauses, Reader.bind_apply, Reader.get_apply, Option.bind_some,
      htext₁, nameAhead_closing hends, hend, hadvance, Reader.pure_apply]
  refine ⟨es ++ c₁.allNotes, c', ?_, ?_, hplace⟩
  · simp only [Rules.body, Reader.bind_apply, hes, hclauses, Option.bind_some, Reader.pure_apply]
  · rw [callsAmong_append, callsAmong_allNotes, List.append_nil]
    exact hcalls

theorem attachedBlock_of_declared {items : List (α × List NotedLine)}
    (hitems : Declared kind items) {n : Nat} {s : Setting} {c : Cursor} (hquiet : c.Quiet)
    {P : Cursor → Prop}
    (hgap : ∀ c' : Cursor, c'.Quiet → ∃ c'',
      (Readers.upTo n).gap (c'.at_ (textAfter lines ending)) = some ((), c'') ∧ P c'')
    (hs : s.follow.contains .do_ = false)
    (hn : (textAfter (items.flatMap Prod.snd ++ last :: lines) ending).length + 12 ≤ n) :
    ∃ es c', Rules.attachedBlock (.upTo (n + 1)) s
        (c.atBlock (textAfter (items.flatMap Prod.snd ++ last :: lines) ending)) =
          some (some es, c') ∧
      List.Forall₂ kind (items.map Prod.fst) (callsWithin es) ∧ P c' := by
  obtain ⟨next, more, hnext, hplain⟩ := exists_next hitems hlast lines
  rw [hnext] at hn ⊢
  obtain ⟨c₁, hadvance, hopens⟩ := gap_textAfter hplain hquiet
    (show (textAfter (next :: more) ending).length < n + 1 by omega)
  have hopened : c₁.nextLine.text = textFrom (items.flatMap Prod.snd ++ last :: lines) ending := by
    rw [hnext]
    exact hopens.text
  have hshorter : c₁.nextLine.text.length + 12 ≤ n + 1 := by
    rw [hopened, hnext]
    rw [textAfter_cons] at hn
    simp only [textFrom, List.length_append, List.length_cons] at hn ⊢
    omega
  obtain ⟨es, c', hbody, hcalls, hplace⟩ := body_of_declared hlast hclosing hends hitems
    hopens.nextLine_quiet hgap hopened hshorter
  have hbar : (textFrom (next :: more) ending).head? ≠ some '|' := by
    obtain ⟨first, letters, hcode, hfirst⟩ := hplain.name
    rw [textFrom, hcode, List.cons_append, List.head?_cons]
    rintro ⟨⟩
    simp [isNameStart, isNameChar, punctuation] at hfirst
  refine ⟨c₁.lineNotes ++ Expr.bodyOf .statement es, c', ?_, ?_, hplace⟩
  · rw [attachedBlock_atBlock (endsLine_textAfter_cons next more ending) hs, hadvance,
      Option.bind_some, doBlock_of_opensLine hopens hbar, hbody]
    rfl
  · rw [Cursor.lineNotes, callsWithin_append_bodyOf]
    exact hcalls

end Blocks

theorem endsLine_textAfter {α : Type} {kind : α → Call → Prop} {items : List (α × List NotedLine)}
    (hitems : Declared kind items) {last : NotedLine} (hlast : last.Plain)
    (lines : List NotedLine) (ending : List Char) :
    EndsLine (textAfter (items.flatMap Prod.snd ++ last :: lines) ending) := by
  obtain ⟨next, more, hnext, -⟩ := exists_next hitems hlast lines
  rw [hnext]
  exact endsLine_textAfter_cons next more ending

theorem length_ending_le (lines : List NotedLine) (ending : List Char) :
    ending.length ≤ (textAfter lines ending).length := by
  rw [textAfter, List.length_append]
  omega

/-- The call that declares a name with a block. -/
structure DeclaresWithBlock {α : Type} (word : List Char) (name : String)
    (kind : α → Call → Prop) (items : List α) (c : Call) : Prop where
  method : c.method = String.ofList word
  arguments : c.arguments = [.string name]
  block : List.Forall₂ kind items (c.blockStatements.filterMap Node.call?)

theorem readAs_declarationWithBlock {α : Type} {kind : α → Call → Prop} {word : List Char}
    (hword : IsWord word) {name : String} {literal : List Char}
    (hliteral : IsArgument literal name.toList) {items : List (α × List NotedLine)}
    (hitems : Declared kind items) {l last : NotedLine}
    (hl : l.code = word ++ ' ' :: literal ++ opening) (hlast : last.Plain)
    (hclosing : last.code = closing) :
    ReadAs (DeclaresWithBlock word name kind (items.map Prod.fst))
      (l :: items.flatMap Prod.snd ++ [last]) := by
  intro next more ending n c hnext hquiet htext hn
  obtain ⟨m, rfl⟩ : ∃ m, n = m + 7 := ⟨n - 7, by omega⟩
  let block : List Char := textAfter (items.flatMap Prod.snd ++ last :: next :: more) ending
  have hinner : c.text = word ++ ' ' :: (literal ++ (opening ++ block)) := by
    simp [htext, textFrom, hl, block]
  have hargument : ArgumentBefore literal (opening ++ block) name.toList :=
    hliteral ' ' (by decide) ('d' :: 'o' :: block)
  have hlength : block.length + 6 ≤ c.text.length := by
    obtain ⟨first, letters, hfirst, -⟩ := hword.start
    obtain ⟨mark, -, inside, hmark⟩ := hargument.mark
    simp only [hinner, hfirst, hmark, opening, List.length_append, List.length_cons]
    omega
  have hrest : (textAfter (next :: more) ending).length ≤ block.length := by
    rw [show block = textAfter (items.flatMap Prod.snd ++ [last]) (textAfter (next :: more) ending)
      from by rw [← textAfter_append, List.append_assoc]; rfl]
    exact length_ending_le _ _
  have hendsLine : EndsLine block := endsLine_textAfter hitems hlast (next :: more) ending
  obtain ⟨es, c', hblock, hcalls, hopens⟩ := attachedBlock_of_declared hlast hclosing
    (endsLine_textAfter_cons next more ending) hitems (n := m + 4)
    (s := .stated Stop.body.follow) hquiet
    (P := fun c'' => c''.OpensLine (textFrom (next :: more) ending))
    (fun c' hc' => gap_textAfter hnext hc' (by omega)) rfl (show block.length + 12 ≤ m + 4 by omega)
  refine ⟨.call none (some word) [.string name.toList] (some es), ⟨none, String.ofList word,
    [.string name], some (Expr.statementNodes es)⟩, c', ?_, ?_, ⟨rfl, rfl, hcalls⟩, hopens⟩
  · exact statement_of_declaration hword hargument hinner (by omega) (gap_opening (by omega) c)
      (c.stops_atBlock hendsLine) hblock hopens.ends.stops
  · simp [Expr.toNode, Expr.optionToNode, Expr.listToNodes, Expr.blockToNodes, Node.call?]

end FactoryRoster.Source
