import Mathlib.Data.List.TakeWhile
import FactoryRoster.Source.Listing
import FactoryRoster.Source.Program

/-!
# Reading words and gaps

How readers are run, what a text that begins with a word is taken for, and what the gap before a
token leaves behind. A gap at the end of a line passes over all notes on the lines after it, and the
place behind it is one where a statement may end.
-/

namespace FactoryRoster.Source

/-! ### Running readers -/

theorem Reader.bind_apply {α β : Type} (p : Reader α) (f : α → Reader β) (c : Cursor) :
    (p >>= f) c = (p c).bind fun x => f x.1 x.2 := rfl

theorem Reader.pure_apply {α : Type} (a : α) (c : Cursor) : (pure a : Reader α) c = some (a, c) :=
  rfl

theorem Reader.get_apply (c : Cursor) : (get : Reader Cursor) c = some (c, c) := rfl

theorem parse?_ofList (text : List Char) :
    parse? (String.ofList text) =
      (programStatements? text).map fun statements => (Expr.program statements).toNode := by
  rw [parse?, programTree?, String.toList_ofList, Option.map_map]
  rfl

/-- The readers that go through at most `n` rules within each other. -/
def Readers.upTo (n : Nat) : Readers :=
  ⟨Phrase.read n⟩

section Readers

variable (n : Nat) (stop : Stop) (s : Setting) (level : Nat) (commands : Bool) (left : Term)

theorem upTo_gap : (Readers.upTo (n + 1)).gap = Rules.gap (.upTo n) := rfl

theorem upTo_contents (o : Outline) (depth : Nat) :
    (Readers.upTo (n + 1)).contents o depth = Rules.contents (.upTo n) o depth := rfl

theorem upTo_statements :
    (Readers.upTo (n + 1)).statements stop = Rules.statements (.upTo n) stop := rfl

theorem upTo_following :
    (Readers.upTo (n + 1)).following stop = Rules.following (.upTo n) stop := rfl

theorem upTo_statement (follow : List Keyword) (first : Bool) :
    (Readers.upTo (n + 1)).statement follow first = Rules.statement (.upTo n) follow first := rfl

theorem upTo_modifiers (e : Expr) :
    (Readers.upTo (n + 1)).modifiers s e = Rules.modifiers (.upTo n) s e := rfl

theorem upTo_joins : (Readers.upTo (n + 1)).joins s left = Rules.joins (.upTo n) s left := rfl

theorem upTo_operand :
    (Readers.upTo (n + 1)).operand s level commands = Rules.operand (.upTo n) s level commands :=
  rfl

theorem upTo_operators :
    (Readers.upTo (n + 1)).operators s level commands left =
      Rules.operators (.upTo n) s level commands left := rfl

theorem upTo_access :
    (Readers.upTo (n + 1)).access s commands left = Rules.access (.upTo n) s commands left := rfl

theorem upTo_arguments : (Readers.upTo (n + 1)).arguments s = Rules.arguments (.upTo n) s := rfl

theorem upTo_argument : (Readers.upTo (n + 1)).argument s = Rules.argument (.upTo n) s := rfl

theorem upTo_clauses : (Readers.upTo (n + 1)).clauses = Rules.clauses (.upTo n) := rfl

end Readers

/-! ### Words -/

/-- A word that is a name wherever it stands. -/
structure IsWord (word : List Char) : Prop where
  start : ∃ c cs, word = c :: cs ∧ isNameStart c = true
  chars : ∀ c ∈ word, isNameChar c = true
  free : Keyword.ofName? word = none

/-- A character that no word goes on with. -/
def endsWord (c : Char) : Bool :=
  !isNameChar c && c != '?' && c != '!'

theorem isWord_factoryWord : IsWord factoryWord :=
  ⟨⟨_, _, rfl, by decide⟩, List.all_eq_true.mp (by decide), by decide⟩

theorem isWord_traitWord : IsWord traitWord :=
  ⟨⟨_, _, rfl, by decide⟩, List.all_eq_true.mp (by decide), by decide⟩

theorem nameAhead_append {word : List Char} (hword : ∀ c ∈ word, isNameChar c = true)
    {b : Char} (hb : isNameChar b = false) (rest : List Char) :
    nameAhead (word ++ b :: rest) = word := by
  rw [nameAhead, List.takeWhile_append_of_pos hword, List.takeWhile_cons, hb]
  simp

theorem wordAhead_append {word : List Char} (hword : ∀ c ∈ word, isNameChar c = true)
    {b : Char} (hb : endsWord b = true) (rest : List Char) :
    wordAhead (word ++ b :: rest) = word := by
  simp only [endsWord, Bool.and_eq_true, Bool.not_eq_true', bne_iff_ne, ne_eq] at hb
  obtain ⟨⟨hname, hquestion⟩, hbang⟩ := hb
  have hdrop : (word ++ b :: rest).drop word.length = b :: rest := List.drop_left
  simp only [wordAhead, nameAhead_append hword hname, hdrop]
  split <;> simp_all

theorem IsWord.wordAhead_self {word : List Char} (hword : IsWord word) : wordAhead word = word := by
  have hname : nameAhead word = word := List.takeWhile_eq_self_iff.mpr hword.chars
  rw [wordAhead, hname, List.drop_length]

theorem IsWord.keywordAhead? {word : List Char} (hword : IsWord word) {b : Char}
    (hb : endsWord b = true) (rest : List Char) : keywordAhead? (word ++ b :: rest) = none := by
  rw [Source.keywordAhead?, wordAhead_append hword.chars hb, hword.free]

/-! ### Gaps -/

/-- Whether a text begins with no part of a gap. -/
def stopsGap (text : List Char) : Bool :=
  match text with
  | [] => true
  | c :: _ => !isSpace c && c != '\\' && c != '#' && c != '='

/-- Whether a text begins with what no line before it is continued with. -/
def opensLine (text : List Char) : Bool :=
  stopsGap text && text.head? != some '.' && text.head? != some '&'

/-- A place outside of here documents where none has been announced. -/
structure Cursor.Quiet (c : Cursor) : Prop where
  documents : c.documents = []
  outside : c.inDocument = false

/-- A place before `text` at the beginning of a line. -/
structure Cursor.OpensLine (c : Cursor) (text : List Char) : Prop where
  text : c.text = text
  spaced : c.spaced = true
  broken : c.broken = true
  later : c.later = []
  quiet : c.Quiet

theorem Cursor.Quiet.at_ {c : Cursor} (h : c.Quiet) (text : List Char) : (c.at_ text).Quiet :=
  ⟨h.documents, h.outside⟩

theorem Cursor.OpensLine.nextLine_quiet {c : Cursor} {text : List Char} (h : c.OpensLine text) :
    c.nextLine.Quiet :=
  ⟨h.quiet.documents, h.quiet.outside⟩

theorem gap_of_stopsGap {n : Nat} {c : Cursor} (h : stopsGap c.text = true)
    (hn : c.text.length < n) : (Readers.upTo n).gap c = some ((), c) := by
  obtain ⟨m, rfl⟩ := Nat.exists_eq_succ_of_ne_zero (Nat.ne_of_gt (Nat.zero_lt_of_lt hn))
  rw [upTo_gap]
  cases htext : c.text with
  | nil => simp only [Rules.gap, htext]
  | cons ch rest =>
      simp only [htext, stopsGap, isSpace, Bool.and_eq_true, Bool.not_eq_true', bne_iff_ne,
        ne_eq, Bool.or_eq_false_iff, beq_eq_false_iff_ne] at h
      obtain ⟨⟨⟨⟨hblank, hline⟩, hslash⟩, hhash⟩, hequals⟩ := h
      have hreturn : ch ≠ '\r' := by
        rintro rfl
        simp [isBlank] at hblank
      have hcomment : afterComment? (ch :: rest) = none := by
        unfold afterComment?
        split <;> simp_all
      simp only [Rules.gap, htext, hblank, beq_eq_false_iff_ne.mpr hline,
        beq_eq_false_iff_ne.mpr hreturn, Bool.or_self, Bool.false_eq_true, if_false]
      split <;> simp_all

theorem gap_of_blank {n : Nat} {c : Cursor} {rest : List Char} (htext : c.text = ' ' :: rest)
    (h : stopsGap rest = true) (hn : c.text.length < n) :
    (Readers.upTo n).gap c = some ((), c.afterBlanks rest) := by
  rw [htext, List.length_cons] at hn
  obtain ⟨m, rfl⟩ := Nat.exists_eq_succ_of_ne_zero (Nat.ne_of_gt (Nat.zero_lt_of_lt hn))
  rw [upTo_gap]
  simp only [Rules.gap, htext]
  exact gap_of_stopsGap (c := c.afterBlanks rest) h (Nat.lt_of_succ_lt_succ hn)

theorem breaks_note (note rest : List Char) : Cursor.breaks ('#' :: note ++ rest) = false := by
  simp [Cursor.breaks, Cursor.skipBlanks]

theorem breaks_of_opensLine {text : List Char} (h : opensLine text = true) :
    Cursor.breaks text = true := by
  cases text with
  | nil => rfl
  | cons ch rest =>
      simp only [opensLine, stopsGap, isSpace, isBlank, List.head?_cons, Bool.and_eq_true,
        Bool.not_eq_true', bne_iff_ne, ne_eq, Bool.or_eq_false_iff, beq_eq_false_iff_ne,
        Option.some.injEq] at h
      have hskip : Cursor.skipBlanks (ch :: rest) = ch :: rest := by
        unfold Cursor.skipBlanks
        split <;> simp_all
      rw [Cursor.breaks, hskip]
      split <;> simp_all

/-- A note ends with its line. -/
theorem afterComment?_note {note : List Char} (hnote : ∀ c ∈ note, isControl c = false)
    (rest : List Char) : afterComment? ('#' :: note ++ '\n' :: rest) = some ('\n' :: rest) := by
  have hinside : ∀ c ∈ note, (c != '\n' && c != '\x00') = true := by
    intro c hc
    have hcontrol := hnote c hc
    simp only [Bool.and_eq_true, bne_iff_ne, ne_eq]
    constructor <;> rintro rfl <;> simp [isControl] at hcontrol
  simp only [List.cons_append, afterComment?]
  rw [List.dropWhile_append_of_pos hinside]
  simp

theorem gap_of_note {note rest : List Char} (hnote : ∀ c ∈ note, isControl c = false) {n : Nat}
    {c : Cursor} (htext : c.text = '#' :: note ++ '\n' :: rest) (hbroken : c.broken = false) :
    (Readers.upTo (n + 1)).gap c =
      (Readers.upTo n).gap
        { c with text := '\n' :: rest, notes := c.notes ++ ["comment"] } := by
  rw [upTo_gap]
  have hcomment := afterComment?_note hnote rest
  simp only [List.cons_append] at htext hcomment
  simp [Rules.gap, htext, hcomment, isBlank, Cursor.afterNote, hbroken]

theorem gap_of_lineEnd {n : Nat} {c : Cursor} {rest : List Char} (htext : c.text = '\n' :: rest)
    (hquiet : c.Quiet) :
    (Readers.upTo (n + 1)).gap c = (Readers.upTo n).gap (c.afterLine rest) := by
  rw [upTo_gap]
  simp [Rules.gap, htext, hquiet.documents, hquiet.outside]

/-- The gap at the end of a line passes over the notes on the lines after it. -/
theorem gap_of_line {notes : List (List Char)} {rest : List Char}
    (hnotes : ∀ note ∈ notes, ∀ c ∈ note, isControl c = false) (hrest : opensLine rest = true)
    {n : Nat} {c : Cursor} (hquiet : c.Quiet) (hbroken : c.broken = false) (hlater : c.later = [])
    (htext : c.text = '\n' :: noteLines notes ++ rest) (hn : c.text.length < n) :
    ∃ c', (Readers.upTo n).gap c = some ((), c') ∧ c'.OpensLine rest := by
  induction notes generalizing n c with
  | nil =>
      simp only [noteLines, List.flatMap_nil, List.cons_append, List.nil_append] at htext
      rw [htext, List.length_cons] at hn
      obtain ⟨m, rfl⟩ := Nat.exists_eq_succ_of_ne_zero (Nat.ne_of_gt (Nat.zero_lt_of_lt hn))
      have hstop : stopsGap rest = true := by
        simp only [opensLine, Bool.and_eq_true] at hrest
        exact hrest.1.1
      refine ⟨{ c with text := rest, spaced := true, broken := true }, ?_,
        rfl, rfl, rfl, hlater, hquiet.documents, hquiet.outside⟩
      rw [gap_of_lineEnd htext hquiet, Cursor.afterLine, if_pos (breaks_of_opensLine hrest)]
      exact gap_of_stopsGap hstop (Nat.lt_of_succ_lt_succ hn)
  | cons note notes ih =>
      have hline : '\n' :: noteLines (note :: notes) ++ rest =
          '\n' :: ('#' :: note ++ '\n' :: (noteLines notes ++ rest)) := by
        simp [noteLines]
      rw [hline] at htext
      rw [htext] at hn
      obtain ⟨m, rfl⟩ : ∃ m, n = m + 2 := ⟨n - 2, by simp at hn; omega⟩
      let folded : Cursor :=
        { c with
          text := '#' :: note ++ '\n' :: (noteLines notes ++ rest)
          spaced := true
          folded := true }
      have hfolded : (Readers.upTo (m + 2)).gap c = (Readers.upTo (m + 1)).gap folded := by
        rw [gap_of_lineEnd htext hquiet, Cursor.afterLine, breaks_note]
        rfl
      rw [hfolded, gap_of_note (c := folded) (hnotes note List.mem_cons_self) rfl hbroken]
      refine ih (fun other h => hnotes other (List.mem_cons_of_mem _ h))
        ⟨hquiet.documents, hquiet.outside⟩ hbroken hlater rfl ?_
      simp only [List.length_cons, List.length_append] at hn ⊢
      omega

end FactoryRoster.Source
