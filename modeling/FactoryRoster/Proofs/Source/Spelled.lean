import Mathlib.Data.List.Chain
import FactoryRoster.Proofs.Source.Escapes
import FactoryRoster.Proofs.Source.Literals

/-!
# Texts in double quotes

A text may be written in double quotes in many ways: each character as it is, by a letter, by itself
or by its code point, and on several lines. All of them are read as the same text but for one thing:
a backslash at the end of a line takes the escape that stands right after it with it.
-/

namespace FactoryRoster.Source

/-! ### Bodies in double quotes -/

/-- The outline of a string or, if `symbol` holds, of a quoted symbol in double quotes. -/
def doubleQuotes (symbol : Bool) : Outline :=
  ⟨if symbol then .symbol else .string, .double, '\"', '\"'⟩

/-- The opening of a string or a quoted symbol in double quotes. -/
def doubleOpening (symbol : Bool) : List Char :=
  if symbol then [':', '\"'] else ['\"']

/-- A character that may stand as it is between double quotes. -/
def isRaw (c : Char) : Bool :=
  !(['\"', '\\', '#', '\r', '\x00'].contains c)

theorem ne_of_isRaw {c d : Char} (h : isRaw c = true) (hd : isRaw d = false) : c ≠ d := by
  rintro rfl
  exact Bool.false_ne_true (hd.symm.trans h)

section Bodies

variable (symbol : Bool)

theorem opens_doubleQuotes : (doubleQuotes symbol).Opens (doubleOpening symbol) := by
  cases symbol
  · exact ⟨fun _ => rfl, ⟨'\"', by decide, _, rfl⟩, by decide⟩
  · exact ⟨fun _ => rfl, ⟨':', by decide, _, rfl⟩, by decide⟩

theorem ofLiteral_doubleQuotes {parts : List Part} {text : List Char} :
    Expr.ofLiteral (doubleQuotes symbol).kind (doubleQuotes symbol).quoting parts = .string text ↔
      parts.all Expr.ofLiteral.isText = true ∧ parts.flatMap Expr.ofLiteral.decoded = text := by
  cases symbol <;> cases hall : parts.all Expr.ofLiteral.isText <;>
    simp [Expr.ofLiteral, doubleQuotes, hall]

theorem special?_of_isRaw {c : Char} (h : isRaw c = true) (rest : List Char) :
    (doubleQuotes symbol).special? 0 c rest = none := by
  have hquote : c ≠ '\"' := ne_of_isRaw h rfl
  have hhash : c ≠ '#' := ne_of_isRaw h rfl
  have hslash : c ≠ '\\' := ne_of_isRaw h rfl
  simp only [Outline.special?, doubleQuotes, beq_eq_false_iff_ne.mpr hquote, Bool.false_and,
    Bool.false_eq_true, if_false, beq_self_eq_true, if_true]
  split <;> simp_all

theorem plainRun_of_isRaw {c : Char} (h : isRaw c = true) (rest : List Char) :
    (doubleQuotes symbol).plainRun 0 false (c :: rest) =
      (c :: ((doubleQuotes symbol).plainRun 0 false rest).1,
        ((doubleQuotes symbol).plainRun 0 false rest).2) := by
  have hslash : (c == '\\') = false := beq_eq_false_iff_ne.mpr (ne_of_isRaw h rfl)
  have hnesting : (doubleQuotes symbol).nesting 0 c = 0 := by
    simp [Outline.nesting, doubleQuotes, ne_of_isRaw (d := '\"') h rfl]
  simp [Outline.plainRun, special?_of_isRaw symbol h, hslash, hnesting]

theorem Outline.Reads.nil : (doubleQuotes symbol).Reads [] [] := by
  intro n c rest htext hn
  obtain ⟨m, rfl⟩ := Nat.exists_eq_succ_of_ne_zero (Nat.ne_of_gt hn)
  refine ⟨[], ?_, (ofLiteral_doubleQuotes symbol).mpr ⟨rfl, rfl⟩⟩
  have hclose : (doubleQuotes symbol).stretch 0 c.text = .close rest := by
    rw [htext]
    rfl
  rw [upTo_contents, Rules.contents, hclose]

variable {symbol} {body text : List Char} (h : (doubleQuotes symbol).Reads body text)

include h

/-- An escape is read as what it denotes. -/
theorem Outline.Reads.escape {e : List Char}
    (he : ∀ rest, Escape.length? (e ++ (body ++ '\"' :: rest)) = some e.length) :
    (doubleQuotes symbol).Reads ('\\' :: e ++ body) (Escape.decode e ++ text) := by
  intro n c rest htext hn
  simp only [List.length_append, List.length_cons] at hn
  obtain ⟨m, rfl⟩ : ∃ m, n = m + 1 := ⟨n - 1, by omega⟩
  have htext' : c.text = '\\' :: (e ++ (body ++ '\"' :: rest)) := by
    rw [htext]
    simp [doubleQuotes]
  obtain ⟨parts, hparts, hvalue⟩ := h m { c with text := body ++ '\"' :: rest } rest rfl (by omega)
  rw [ofLiteral_doubleQuotes] at hvalue
  refine ⟨.escape e :: parts, ?_, (ofLiteral_doubleQuotes symbol).mpr ⟨hvalue.1, ?_⟩⟩
  · have hescape : (doubleQuotes symbol).stretch 0 c.text =
        .escape (e ++ (body ++ '\"' :: rest)) := by
      rw [htext']
      rfl
    simp only [upTo_contents, Rules.contents, hescape, he, List.take_left, List.drop_left, hparts]
    rfl
  · rw [List.flatMap_cons, hvalue.2]
    rfl

/-- The parts behind the plain characters that a body begins with. -/
theorem Outline.Reads.behind_run {m : Nat} {c : Cursor} {next : Char}
    {more run left rest : List Char}
    {depth : Nat} (hbody : next :: more = body ++ '\"' :: rest) (hm : body.length < m)
    (hrun : (doubleQuotes symbol).plainRun 0 false (next :: more) = (run, left, depth)) :
    ∃ parts, (Readers.upTo m).contents (doubleQuotes symbol) depth { c with text := left } =
        some (parts, { c with text := rest }) ∧
      parts.all Expr.ofLiteral.isText = true ∧
      run ++ parts.flatMap Expr.ofLiteral.decoded = text := by
  cases hspecial : (doubleQuotes symbol).special? 0 next more with
  | some s =>
      -- There are none: the body is all behind them.
      obtain ⟨parts, hparts, hvalue⟩ := h m { c with text := next :: more } rest hbody hm
      simp only [Outline.plainRun, Bool.false_eq_true, if_false, hspecial, Option.isSome_some,
        if_true, Prod.mk.injEq] at hrun
      obtain ⟨rfl, rfl, rfl⟩ := hrun
      exact ⟨parts, hparts, (ofLiteral_doubleQuotes symbol).mp hvalue⟩
  | none =>
      -- They are the first part of the body.
      obtain ⟨parts, hparts, hvalue⟩ :=
        h (m + 1) { c with text := next :: more } rest hbody (Nat.lt_succ_of_lt hm)
      rw [contents_of_plainRun rfl hspecial hrun, Option.map_eq_some_iff] at hparts
      obtain ⟨⟨parts, after⟩, hcontents, heq⟩ := hparts
      obtain ⟨rfl, rfl⟩ := Prod.mk.inj heq
      exact ⟨parts, hcontents, (ofLiteral_doubleQuotes symbol).mp hvalue⟩

/-- A raw character is read as itself. -/
theorem Outline.Reads.raw {ch : Char} (hch : isRaw ch = true) :
    (doubleQuotes symbol).Reads (ch :: body) (ch :: text) := by
  intro n c rest htext hn
  rw [List.length_cons] at hn
  obtain ⟨m, rfl⟩ : ∃ m, n = m + 1 := ⟨n - 1, by omega⟩
  obtain ⟨next, more, hafter⟩ : ∃ next more, body ++ '\"' :: rest = next :: more :=
    List.exists_cons_of_ne_nil (by simp)
  have htext' : c.text = ch :: next :: more := htext.trans (congrArg (ch :: ·) hafter)
  rcases hrun : (doubleQuotes symbol).plainRun 0 false (next :: more) with ⟨run, left, depth⟩
  have hread := contents_of_plainRun (n := m) htext' (special?_of_isRaw symbol hch _)
    (by rw [htext', plainRun_of_isRaw symbol hch, hrun])
  obtain ⟨parts, hparts, hall, hvalue⟩ :=
    h.behind_run (c := c) hafter.symm (Nat.lt_of_succ_lt_succ hn) hrun
  refine ⟨.plain (ch :: run) :: parts, ?_, (ofLiteral_doubleQuotes symbol).mpr ⟨hall, ?_⟩⟩
  · rw [hread, hparts]
    rfl
  · rw [← hvalue]
    rfl

end Bodies

/-! ### Spellings -/

/-- A piece of a text between double quotes: a character as it is, an escape, or a backslash at the
end of a line, which stands for nothing. -/
inductive Spelling where
  | raw (c : Char) (h : isRaw c = true)
  | escaped (e : Escaped)
  | lineEnd

namespace Spelling

/-- What is written. -/
def written : Spelling → List Char
  | raw c _ => [c]
  | escaped e => '\\' :: e.body
  | lineEnd => ['\\', '\n']

/-- The characters that a spelling stands for. -/
def denoted : Spelling → List Char
  | raw c _ => [c]
  | escaped e => e.denoted
  | lineEnd => []

/-- The characters that are read of some spellings. Right after a backslash at the end of a line,
which is what `joined` says, an escape belongs to that backslash. -/
def heard : (joined : Bool) → List Spelling → List Char
  | _, [] => []
  | _, raw c _ :: more => c :: heard false more
  | true, escaped _ :: more => heard false more
  | false, escaped e :: more => e.denoted ++ heard false more
  | _, lineEnd :: more => heard true more

/-- Whether a spelling may stand before another without taking it with it. -/
def isApart : Spelling → Spelling → Bool
  | lineEnd, escaped _ => false
  | _, _ => true

/-- No backslash at the end of a line stands right before an escape. -/
def Apart (spellings : List Spelling) : Prop :=
  spellings.IsChain fun s t => isApart s t = true

/-- The string or quoted symbol of some spellings. -/
def literal (symbol : Bool) (spellings : List Spelling) : List Char :=
  doubleOpening symbol ++ spellings.flatMap written ++ ['\"']

end Spelling

/-! ### Spellings that are read -/

/-- A body that a backslash at the end of a line stands before: the escape that belongs to that
backslash, if one comes first, and what is read of the rest. -/
def Outline.ReadsJoined (o : Outline) (body text : List Char) : Prop :=
  ∃ taken rest, body = taken ++ rest ∧ o.Reads rest text ∧
    ∀ more, Escape.length? ('\n' :: (taken ++ (rest ++ '\"' :: more))) = some (taken.length + 1)

theorem length?_lineEnd_escape {cs : List Char} {n : Nat} (h : Escape.length? cs = some n) :
    Escape.length? ('\n' :: '\\' :: cs) = some (n + 2) := by
  rw [Escape.length?, h]

theorem length?_lineEnd_plain {c : Char} (hc : c ≠ '\\') (rest : List Char) :
    Escape.length? ('\n' :: c :: rest) = some 1 := by
  rw [Escape.length?]
  · rfl
  all_goals simp [hc]

section Joined

variable {symbol : Bool} {body text : List Char}

theorem Outline.ReadsJoined.nil : (doubleQuotes symbol).ReadsJoined [] [] :=
  ⟨[], [], rfl, .nil symbol, fun more => length?_lineEnd_plain (by decide) more⟩

theorem Outline.Reads.joined_raw {c : Char} (hc : isRaw c = true)
    (h : (doubleQuotes symbol).Reads body text) :
    (doubleQuotes symbol).ReadsJoined (c :: body) (c :: text) :=
  ⟨[], c :: body, rfl, h.raw hc, fun _ => length?_lineEnd_plain (ne_of_isRaw hc rfl) _⟩

theorem Outline.Reads.joined_escape (e : Escaped) (h : (doubleQuotes symbol).Reads body text) :
    (doubleQuotes symbol).ReadsJoined ('\\' :: e.body ++ body) text :=
  ⟨'\\' :: e.body, body, rfl, h, fun _ => length?_lineEnd_escape (e.length?_body _)⟩

theorem Outline.ReadsJoined.joined_lineEnd (h : (doubleQuotes symbol).ReadsJoined body text) :
    (doubleQuotes symbol).ReadsJoined ('\\' :: '\n' :: body) text := by
  obtain ⟨taken, rest, rfl, hrest, hlength⟩ := h
  exact ⟨'\\' :: '\n' :: taken, rest, rfl, hrest, fun more => length?_lineEnd_escape (hlength more)⟩

/-- A backslash at the end of a line is read, with the escape after it, as nothing. -/
theorem Outline.ReadsJoined.reads (h : (doubleQuotes symbol).ReadsJoined body text) :
    (doubleQuotes symbol).Reads ('\\' :: '\n' :: body) text := by
  obtain ⟨taken, rest, rfl, hrest, hlength⟩ := h
  exact hrest.escape (e := '\n' :: taken) hlength

end Joined

theorem reads_spellings (symbol : Bool) (spellings : List Spelling) :
    (doubleQuotes symbol).Reads (spellings.flatMap Spelling.written)
        (Spelling.heard false spellings) ∧
      (doubleQuotes symbol).ReadsJoined (spellings.flatMap Spelling.written)
        (Spelling.heard true spellings) := by
  induction spellings with
  | nil => exact ⟨.nil symbol, .nil⟩
  | cons s spellings ih =>
      obtain ⟨hreads, hjoined⟩ := ih
      cases s with
      | raw c hc => exact ⟨hreads.raw hc, hreads.joined_raw hc⟩
      | escaped e =>
          refine ⟨?_, hreads.joined_escape e⟩
          rw [Spelling.heard, ← e.decode_body]
          exact hreads.escape fun rest => e.length?_body _
      | lineEnd => exact ⟨hjoined.reads, hjoined.joined_lineEnd⟩

/-! ### What is lost -/

namespace Spelling

theorem length_heard_le (joined : Bool) (spellings : List Spelling) :
    (heard joined spellings).length ≤ (spellings.flatMap denoted).length := by
  fun_induction heard joined spellings with
  | case1 => exact Nat.le_refl 0
  | case2 joined c h more ih => exact Nat.succ_le_succ ih
  | case3 e more ih =>
      rw [List.flatMap_cons, List.length_append]
      exact Nat.le_add_left_of_le ih
  | case4 e more ih =>
      rw [List.flatMap_cons, List.length_append, List.length_append]
      exact Nat.add_le_add_left ih _
  | case5 joined more ih => exact ih

theorem apart_cons (s : Spelling) (spellings : List Spelling) :
    Apart (s :: spellings) ↔ (∀ t ∈ spellings.head?, isApart s t = true) ∧ Apart spellings :=
  List.isChain_cons

/-- Nothing is lost exactly if no escape stands right after the end of a line. -/
theorem heard_eq_iff (spellings : List Spelling) :
    (heard false spellings = spellings.flatMap denoted ↔ Apart spellings) ∧
      (heard true spellings = spellings.flatMap denoted ↔ Apart (lineEnd :: spellings)) := by
  induction spellings with
  | nil => simp [heard, Apart]
  | cons s spellings ih =>
      obtain ⟨hapart, hjoined⟩ := ih
      cases s with
      | raw c hc => simp [heard, denoted, apart_cons, isApart, hapart]
      | escaped e =>
          refine ⟨by simp [heard, denoted, apart_cons, isApart, hapart], iff_of_false ?_ ?_⟩
          · -- The text that is read is too short by what the escape denotes.
            intro heq
            have hlength := congrArg List.length heq
            have hle := length_heard_le false spellings
            have hpos := List.length_pos_iff.mpr e.denoted_ne_nil
            simp only [heard, denoted, List.flatMap_cons, List.length_append] at hlength
            omega
          · simp [apart_cons, isApart]
      | lineEnd =>
          refine ⟨hjoined, ?_⟩
          rw [apart_cons, ← hjoined]
          simp [isApart, heard, denoted]

end Spelling

/-- A text in double quotes is read as what its spellings denote, but for the escapes right after
a backslash at the end of a line. -/
theorem readAsString_spellings (symbol : Bool) (spellings : List Spelling) :
    ReadAsString (Spelling.literal symbol spellings) (Spelling.heard false spellings) ∧
      (ReadAsString (Spelling.literal symbol spellings) (spellings.flatMap Spelling.denoted) ↔
        Spelling.Apart spellings) := by
  have hread : ReadAsString (Spelling.literal symbol spellings) (Spelling.heard false spellings) :=
    readAsString_of_reads (opens_doubleQuotes symbol) (reads_spellings symbol spellings).1
  exact ⟨hread, hread.iff_eq.trans (Spelling.heard_eq_iff spellings).1⟩

/-- The end of a line takes a tab with it. -/
example : Spelling.heard false
    [.raw 'a' rfl, .lineEnd, .escaped (.named 't' '\t' (by decide)), .raw 'b' rfl] = ['a', 'b'] :=
  rfl

end FactoryRoster.Source
