import FactoryRoster.Proofs.Source.Quoted

/-!
# Pieces of texts in single quotes

A text in single quotes is made of escaped backslashes, escaped quotes and characters that stand for
themselves. Where no backslash of the last kind stands before a character that it would escape
(`Apart`), the text is read piece by piece. Every text falls into such pieces in exactly one way, so
a run of backslashes is read as its pairs and the one that may be left over, which a quote after the
run takes with it.
-/

namespace FactoryRoster.Source

/-! ### Pieces -/

/-- A piece of a text in single quotes. -/
inductive QuotedPiece where
  /-- An escaped backslash. -/
  | slash
  /-- An escaped quote. -/
  | quote
  /-- A character that stands for itself. -/
  | itself (c : Char)

namespace QuotedPiece

/-- What is written. -/
def written : QuotedPiece → List Char
  | slash => ['\\', '\\']
  | quote => ['\\', '\'']
  | itself c => [c]

/-- The character that a piece stands for. -/
def value : QuotedPiece → Char
  | slash => '\\'
  | quote => '\''
  | itself c => c

/-- The text that some pieces make up. -/
def text (pieces : List QuotedPiece) : List Char :=
  pieces.flatMap written

/-- A text at whose beginning a backslash before it escapes nothing. -/
def BeginsPlain (cs : List Char) : Prop :=
  ∀ c ∈ cs.head?, c ≠ '\\' ∧ c ≠ '\''

/-- No backslash that stands for itself escapes what comes after it. -/
def Apart : List QuotedPiece → Prop
  | [] => True
  | piece :: more => (piece = itself '\\' → BeginsPlain (text more)) ∧ Apart more

/-- The pieces that a text falls into. -/
def split : List Char → List QuotedPiece
  | '\\' :: '\\' :: rest => slash :: split rest
  | '\\' :: '\'' :: rest => quote :: split rest
  | c :: rest => itself c :: split rest
  | [] => []

theorem text_cons (piece : QuotedPiece) (more : List QuotedPiece) :
    text (piece :: more) = piece.written ++ text more :=
  List.flatMap_cons

/-- Where neither pair of characters is ahead, a backslash escapes nothing. -/
theorem beginsPlain_of_no_pair {c : Char} {rest : List Char}
    (hslash : ∀ more, c = '\\' → rest = '\\' :: more → False)
    (hquote : ∀ more, c = '\\' → rest = '\'' :: more → False) (hc : c = '\\') :
    BeginsPlain rest := by
  intro d hd
  obtain ⟨more, rfl⟩ := List.head?_eq_some_iff.mp hd
  constructor
  · rintro rfl
    exact hslash more hc rfl
  · rintro rfl
    exact hquote more hc rfl

theorem split_itself {c : Char} {rest : List Char} (h : c = '\\' → BeginsPlain rest) :
    split (c :: rest) = itself c :: split rest := by
  rw [split]
  · rintro more rfl rfl
    exact (h rfl _ rfl).1 rfl
  · rintro more rfl rfl
    exact (h rfl _ rfl).2 rfl

/-! ### The one way in which a text falls into pieces -/

theorem text_split (cs : List Char) : text (split cs) = cs := by
  fun_induction split cs with
  | case1 rest ih => rw [text_cons, ih]; rfl
  | case2 rest ih => rw [text_cons, ih]; rfl
  | case3 c rest hslash hquote ih => rw [text_cons, ih]; rfl
  | case4 => rfl

theorem apart_split (cs : List Char) : Apart (split cs) := by
  fun_induction split cs with
  | case1 rest ih => exact ⟨nofun, ih⟩
  | case2 rest ih => exact ⟨nofun, ih⟩
  | case3 c rest hslash hquote ih =>
      refine ⟨fun hc => ?_, ih⟩
      rw [text_split]
      exact beginsPlain_of_no_pair hslash hquote (itself.inj hc)
  | case4 => trivial

theorem split_text {pieces : List QuotedPiece} (h : Apart pieces) :
    split (text pieces) = pieces := by
  induction pieces with
  | nil => rfl
  | cons piece more ih =>
      obtain ⟨hpiece, hmore⟩ := h
      rw [text_cons]
      cases piece with
      | slash => exact congrArg (slash :: ·) (ih hmore)
      | quote => exact congrArg (quote :: ·) (ih hmore)
      | itself c =>
          have hplain : c = '\\' → BeginsPlain (text more) := fun hc => hpiece (hc ▸ rfl)
          rw [written, List.singleton_append, split_itself hplain, ih hmore]

theorem existsUnique_pieces (cs : List Char) : ∃! pieces, Apart pieces ∧ text pieces = cs := by
  refine ⟨split cs, ⟨apart_split cs, text_split cs⟩, ?_⟩
  rintro pieces ⟨hapart, rfl⟩
  exact (split_text hapart).symm

theorem getLast?_ne_of_cons {c : Char} {rest : List Char}
    (h : (c :: rest).getLast? ≠ some '\\') : rest.getLast? ≠ some '\\' := by
  intro hlast
  rw [List.getLast?_cons, hlast] at h
  exact h rfl

/-- A text whose first part does not end in a backslash falls into the pieces of its parts. -/
theorem split_append {before : List Char} (h : before.getLast? ≠ some '\\') (after : List Char) :
    split (before ++ after) = split before ++ split after := by
  fun_induction split before with
  | case1 rest ih =>
      have hrest := ih (getLast?_ne_of_cons (getLast?_ne_of_cons h))
      exact congrArg (slash :: ·) hrest
  | case2 rest ih =>
      have hrest := ih (getLast?_ne_of_cons (getLast?_ne_of_cons h))
      exact congrArg (quote :: ·) hrest
  | case3 c rest hslash hquote ih =>
      have hplain : c = '\\' → BeginsPlain (rest ++ after) := by
        intro hc
        have hrest := beginsPlain_of_no_pair hslash hquote hc
        -- The backslash is not the last of the first part, so what follows it is in that part too.
        cases rest with
        | nil => exact absurd (congrArg some hc) h
        | cons d more => exact hrest
      rw [List.cons_append, split_itself hplain, ih (getLast?_ne_of_cons h), List.cons_append]
  | case4 => rfl

end QuotedPiece

open QuotedPiece

/-! ### Reading -/

/-- A text is read as what its pieces stand for. -/
theorem unescapeQuotes_eq_map (cs : List Char) : unescapeQuotes cs = (split cs).map value := by
  fun_induction split cs with
  | case1 rest ih => rw [unescapeQuotes, ih]; rfl
  | case2 rest ih => rw [unescapeQuotes, ih]; rfl
  | case3 c rest hslash hquote ih =>
      rw [unescapeQuotes, ih]
      · rfl
      · exact hslash
      · exact hquote
  | case4 => rfl

/-- How many backslashes are read of a run of `n` of them that stands before `after`. -/
def readOfRun (n : Nat) (after : List Char) : Nat :=
  if after.head? = some '\'' then n / 2 else (n + 1) / 2

theorem unescapeQuotes_run (n : Nat) {after : List Char} (h : after.head? ≠ some '\\') :
    unescapeQuotes (List.replicate n '\\' ++ after) =
      List.replicate (readOfRun n after) '\\' ++ unescapeQuotes after := by
  induction n using Nat.twoStepInduction with
  | zero => simp [readOfRun]
  | one =>
      by_cases hquote : after.head? = some '\''
      · obtain ⟨more, rfl⟩ := List.head?_eq_some_iff.mp hquote
        simp [readOfRun, unescapeQuotes]
      · have hplain : BeginsPlain after := fun c hc =>
          ⟨fun heq => h (heq ▸ hc), fun heq => hquote (heq ▸ hc)⟩
        rw [unescapeQuotes_eq_map, unescapeQuotes_eq_map, List.replicate_one, List.singleton_append,
          split_itself fun _ => hplain, readOfRun, if_neg hquote]
        rfl
  | more n ih _ =>
      have hpair : readOfRun (n + 2) after = readOfRun n after + 1 := by
        unfold readOfRun
        split <;> omega
      rw [hpair, List.replicate_succ, List.replicate_succ, List.cons_append, List.cons_append,
        unescapeQuotes, ih, List.replicate_succ, List.cons_append]

/-- A text is read piece by piece, in the one way in which it falls into pieces: so escaped texts
are read as themselves, and runs of backslashes pair by pair. -/
theorem unescapeQuotes_by_pieces :
    (∀ pieces, Apart pieces → unescapeQuotes (text pieces) = pieces.map value) ∧
      (∀ cs, ∃! pieces, Apart pieces ∧ text pieces = cs) ∧
      (∀ cs, unescapeQuotes (escapeQuotes cs) = cs) ∧
      ∀ before n after, before.getLast? ≠ some '\\' → after.head? ≠ some '\\' →
        unescapeQuotes (before ++ (List.replicate n '\\' ++ after)) =
          unescapeQuotes before ++
            (List.replicate (readOfRun n after) '\\' ++ unescapeQuotes after) := by
  refine ⟨fun pieces hapart => ?_, existsUnique_pieces, unescapeQuotes_escapeQuotes, ?_⟩
  · rw [unescapeQuotes_eq_map, split_text hapart]
  · intro before n after hbefore hafter
    have hrun := unescapeQuotes_run n hafter
    rw [unescapeQuotes_eq_map, split_append hbefore, List.map_append, ← unescapeQuotes_eq_map,
      ← unescapeQuotes_eq_map, hrun]

/-- Three backslashes before a quote are read as one, and one at the end as itself. -/
theorem unescapeQuotes_by_pieces_odd :
    (Apart [.slash, .quote, .itself '\'', .itself '\\', .itself 'n'] ∧
        unescapeQuotes ['\\', '\\', '\\', '\'', '\'', '\\', 'n'] =
          ['\\', '\'', '\'', '\\', 'n']) ∧
      (['a'].getLast? ≠ some '\\' ∧ ['\''].head? ≠ some '\\' ∧
        unescapeQuotes ['a', '\\', '\\', '\\', '\''] = ['a', '\\', '\'']) ∧
      unescapeQuotes ['a', '\\'] = ['a', '\\'] := by
  obtain ⟨hpieces, -, -, hrun⟩ := unescapeQuotes_by_pieces
  have hapart : Apart [.slash, .quote, .itself '\'', .itself '\\', .itself 'n'] := by
    simp [Apart, BeginsPlain, text, written]
  have hlast : ['a'].getLast? ≠ some '\\' := by decide
  have hhead : ['\''].head? ≠ some '\\' := by decide
  exact ⟨⟨hapart, hpieces _ hapart⟩, ⟨hlast, hhead, hrun ['a'] 3 ['\''] hlast hhead⟩,
    hrun ['a'] 1 [] hlast (by decide)⟩

end FactoryRoster.Source
