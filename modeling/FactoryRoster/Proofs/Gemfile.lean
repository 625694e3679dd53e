import Mathlib.Data.List.TakeWhile
import Mathlib.Data.List.TakeDrop
import FactoryRoster.Gemfile

/-!
# Gemfiles line by line

The gems of a Gemfile are the names of its declaring lines, as long as no line leaves the quotation
mark open after which a name comes. Each line then says what it says whatever stands above and below
it, so the gems of one Gemfile under another are the gems of the one and then of the other.
-/

namespace FactoryRoster.Gemfile

/-- What stands before a name: blanks, `gem`, and a quotation mark, perhaps after a parenthesis. -/
inductive Opening : List Char → Prop
  | mk {indent gap parenthesis inner : List Char} {mark : Char}
      (hindent : ∀ c ∈ indent, isBlank c = true) (hgap : ∀ c ∈ gap, isBlank c = true)
      (hparenthesis : parenthesis = [] ∨ parenthesis = ['('])
      (hinner : ∀ c ∈ inner, isBlank c = true) (hmark : isMark mark = true) :
      Opening (indent ++ 'g' :: 'e' :: 'm' :: (gap ++ (parenthesis ++ (inner ++ [mark]))))

/-- A text without quotation marks. -/
def Unmarked (cs : List Char) : Prop :=
  ∀ c ∈ cs, isMark c = false

/-- Whether a line declares a gem. Anything may come after the name. -/
def Declares (line name : List Char) : Prop :=
  name ≠ [] ∧ Unmarked name ∧
    ∃ head mark rest, Opening head ∧ isMark mark = true ∧ line = head ++ (name ++ mark :: rest)

/-- Whether a line ends before the name that it begins does. -/
def LeavesOpen (line : List Char) : Prop :=
  ∃ head rest, Opening head ∧ Unmarked rest ∧ line = head ++ rest

/-- The names that lines declare, one for each declaring line. -/
inductive NamesOf : List (List Char) → List (List Char) → Prop
  | nil : NamesOf [] []
  | declaring {line name : List Char} {lines names : List (List Char)} (hline : Declares line name)
      (hmore : NamesOf lines names) : NamesOf (line :: lines) (name :: names)
  | other {line : List Char} {lines names : List (List Char)} (hline : ∀ name, ¬ Declares line name)
      (hmore : NamesOf lines names) : NamesOf (line :: lines) names

/-- The lines of a text, without their ends. -/
def lines (content : String) : List (List Char) :=
  content.toList.splitOn '\n'

/-- A Gemfile in which no line leaves a name open. -/
def Closed (content : String) : Prop :=
  ∀ line ∈ lines content, ¬ LeavesOpen line

/-! ### A declaration at the front of a text -/

theorem dropBlanks_append {gap : List Char} (hgap : ∀ c ∈ gap, isBlank c = true) {c : Char}
    (hc : isBlank c = false) (cs : List Char) : dropBlanks (gap ++ c :: cs) = c :: cs := by
  rw [dropBlanks, List.dropWhile_append_of_pos hgap]
  exact List.dropWhile_cons_of_neg (by simp [hc])

theorem exists_blanks (cs : List Char) :
    ∃ gap, (∀ c ∈ gap, isBlank c = true) ∧ cs = gap ++ dropBlanks cs := by
  refine ⟨cs.takeWhile isBlank, ?_, List.takeWhile_append_dropWhile.symm⟩
  intro c hc
  exact List.mem_takeWhile_imp hc

theorem exists_parenthesis (cs : List Char) :
    ∃ parenthesis, (parenthesis = [] ∨ parenthesis = ['(']) ∧
      cs = parenthesis ++ dropParenthesis cs := by
  unfold dropParenthesis
  split
  · exact ⟨['('], .inr rfl, rfl⟩
  · exact ⟨[], .inl rfl, rfl⟩

theorem dropParenthesis_of_ne {c : Char} (hc : c ≠ '(') (cs : List Char) :
    dropParenthesis (c :: cs) = c :: cs := by
  unfold dropParenthesis
  split
  · rename_i heq
    exact absurd (List.cons.inj heq).1 hc
  · rfl

theorem not_isBlank_of_isMark {mark : Char} (hmark : isMark mark = true) :
    isBlank mark = false ∧ mark ≠ '(' ∧ mark ≠ '\n' := by
  simp only [isMark, Bool.or_eq_true, beq_iff_eq] at hmark
  rcases hmark with rfl | rfl <;> decide

theorem quotedName?_eq_some_iff {cs name rest : List Char} :
    quotedName? cs = some (name, rest) ↔
      ∃ mark closing, isMark mark = true ∧ isMark closing = true ∧ name ≠ [] ∧ Unmarked name ∧
        cs = mark :: (name ++ closing :: rest) := by
  constructor
  · intro h
    cases cs with
    | nil => cases h
    | cons mark cs =>
        rw [quotedName?, List.span_eq_takeWhile_dropWhile] at h
        split at h
        · rename_i hmark
          split at h
          · rename_i run closing more hspan
            obtain ⟨hrun, hmore⟩ := Prod.mk.inj hspan
            split at h
            · cases h
            · rename_i hempty
              obtain ⟨rfl, rfl⟩ := Prod.mk.inj (Option.some.inj h)
              have hclosing : isMark closing = true := by
                have hhead :=
                  List.head_dropWhile_not (fun c => !isMark c) (l := cs) (by simp [hmore])
                simpa [hmore] using hhead
              refine ⟨mark, closing, hmark, hclosing, ?_, ?_, ?_⟩
              · rintro rfl
                exact hempty rfl
              · intro c hc
                rw [← hrun] at hc
                simpa using List.mem_takeWhile_imp hc
              · rw [← hmore, ← hrun, List.takeWhile_append_dropWhile]
          · cases h
        · cases h
  · rintro ⟨mark, closing, hmark, hclosing, hname, hunmarked, rfl⟩
    have hall : ∀ c ∈ name, (!isMark c) = true := fun c hc => by rw [hunmarked c hc]; rfl
    rw [quotedName?, if_pos hmark, List.span_eq_takeWhile_dropWhile,
      List.takeWhile_append_of_pos hall, List.dropWhile_append_of_pos hall,
      List.takeWhile_cons_of_neg (by simp [hclosing]),
      List.dropWhile_cons_of_neg (by simp [hclosing]), List.append_nil]
    simp [hname]

/-- The declaration at the front of a text is one by the form of declaring lines. -/
theorem declaration?_eq_some_iff {cs name rest : List Char} :
    declaration? cs = some (name, rest) ↔ name ≠ [] ∧ Unmarked name ∧
      ∃ head mark, Opening head ∧ isMark mark = true ∧ cs = head ++ (name ++ mark :: rest) := by
  constructor
  · intro h
    obtain ⟨indent, hindent, hcs⟩ := exists_blanks cs
    rw [declaration?] at h
    split at h
    · rename_i more hword
      obtain ⟨mark, closing, hmark, hclosing, hname, hunmarked, hquoted⟩ :=
        quotedName?_eq_some_iff.mp h
      obtain ⟨gap, hgap, hmore⟩ := exists_blanks more
      obtain ⟨parenthesis, hparenthesis, hafter⟩ := exists_parenthesis (dropBlanks more)
      obtain ⟨inner, hinner, hlast⟩ := exists_blanks (dropParenthesis (dropBlanks more))
      refine ⟨hname, hunmarked, _, closing, .mk hindent hgap hparenthesis hinner hmark, hclosing,
        ?_⟩
      rw [hcs, hword, hmore, hafter, hlast, hquoted]
      simp
    · cases h
  · rintro ⟨hname, hunmarked, head, closing, hopening, hclosing, rfl⟩
    obtain @⟨indent, gap, parenthesis, inner, mark, hindent, hgap, hparenthesis, hinner, hmark⟩ :=
      hopening
    obtain ⟨hblank, hbracket, -⟩ := not_isBlank_of_isMark hmark
    have htext : indent ++ 'g' :: 'e' :: 'm' :: (gap ++ (parenthesis ++ (inner ++ [mark]))) ++
        (name ++ closing :: rest) = indent ++ 'g' :: 'e' :: 'm' ::
          (gap ++ (parenthesis ++ (inner ++ mark :: (name ++ closing :: rest)))) := by simp
    have hquoted : quotedName? (mark :: (name ++ closing :: rest)) = some (name, rest) :=
      quotedName?_eq_some_iff.mpr ⟨mark, closing, hmark, hclosing, hname, hunmarked, rfl⟩
    rw [htext, declaration?, dropBlanks_append hindent (by decide)]
    show quotedName? (dropBlanks (dropParenthesis (dropBlanks (gap ++ (parenthesis ++ _))))) = _
    rcases hparenthesis with rfl | rfl
    · have hinside : ∀ c ∈ gap ++ inner, isBlank c = true := by
        intro c hc
        exact (List.mem_append.mp hc).elim (hgap c) (hinner c)
      rw [List.nil_append, ← List.append_assoc, dropBlanks_append hinside hblank]
      rw [dropParenthesis_of_ne hbracket, ← List.nil_append (mark :: _),
        dropBlanks_append (by simp) hblank, hquoted]
    · rw [List.singleton_append, dropBlanks_append hgap (by decide)]
      show quotedName? (dropBlanks (inner ++ mark :: _)) = _
      rw [dropBlanks_append hinner hblank, hquoted]

theorem Declares.declaration?_append {line name : List Char} (h : Declares line name) :
    ∃ rest, rest.length < line.length ∧
      ∀ more, declaration? (line ++ more) = some (name, rest ++ more) := by
  obtain ⟨hname, hunmarked, head, mark, rest, hopening, hmark, rfl⟩ := h
  refine ⟨rest, ?_, fun more => ?_⟩
  · simp only [List.length_append, List.length_cons]
    omega
  · rw [declaration?_eq_some_iff]
    refine ⟨hname, hunmarked, head, mark, hopening, hmark, ?_⟩
    simp

/-- A line declares one gem at most. -/
theorem Declares.unique {line name other : List Char} (h : Declares line name)
    (hother : Declares line other) : name = other := by
  obtain ⟨rest, -, hfirst⟩ := h.declaration?_append
  obtain ⟨rest', -, hsecond⟩ := hother.declaration?_append
  have hsame := (hfirst []).symm.trans (hsecond [])
  exact congrArg Prod.fst (Option.some.inj hsame)

theorem Opening.not_mem {head : List Char} (h : Opening head) : '\n' ∉ head := by
  have hblanks : ∀ {gap : List Char}, (∀ c ∈ gap, isBlank c = true) → '\n' ∉ gap :=
    fun hgap hmem => absurd (hgap _ hmem) (by decide)
  obtain @⟨indent, gap, parenthesis, inner, mark, hindent, hgap, hparenthesis, hinner, hmark⟩ := h
  obtain ⟨-, -, hline⟩ := not_isBlank_of_isMark hmark
  simp only [List.mem_append, List.mem_cons, List.not_mem_nil, or_false, hblanks hindent,
    hblanks hgap, hblanks hinner, hline.symm, false_or]
  rcases hparenthesis with rfl | rfl <;> decide

/-- Whether a text begins with the end of a line, or is at its own end. -/
def EndsLine (cs : List Char) : Prop :=
  ∀ c ∈ cs.head?, c = '\n'

/-- What is read at the front of a line is a declaration of that line: a name that went on after its
end would have been left open. -/
theorem declaration?_eq_none {line : List Char} (hnone : ∀ name, ¬ Declares line name)
    (hclosed : ¬ LeavesOpen line) {more : List Char} (hmore : EndsLine more) :
    declaration? (line ++ more) = none := by
  rw [Option.eq_none_iff_forall_ne_some]
  rintro ⟨name, rest⟩ hread
  obtain ⟨hname, hunmarked, head, mark, hopening, hmark, htext⟩ := declaration?_eq_some_iff.mp hread
  obtain ⟨cut, hhead, hcut⟩ | ⟨cut, hline, hcut⟩ := List.append_eq_append_iff.mp htext
  · -- the line ends within what stands before the name
    cases cut with
    | nil =>
        rw [List.append_nil] at hhead
        exact hclosed ⟨head, [], hopening, by simp [Unmarked], by simp [hhead]⟩
    | cons c cut =>
        obtain rfl : c = '\n' := hmore c (by rw [hcut]; rfl)
        exact hopening.not_mem (by simp [hhead])
  · obtain ⟨left, rfl, hleft⟩ | ⟨left, rfl, -⟩ := List.append_eq_append_iff.mp hcut
    · cases left with
      | nil => exact hclosed ⟨head, name, hopening, hunmarked, by rw [hline, List.append_nil]⟩
      | cons c left =>
          obtain rfl := (List.cons.inj hleft).1
          exact hnone name ⟨hname, hunmarked, head, mark, left, hopening, hmark, hline⟩
    · -- the line ends within the name
      exact hclosed ⟨head, cut, hopening,
        fun c hc => hunmarked c (List.mem_append_left left hc), hline⟩

/-! ### Line by line -/

/-- In a line, no character begins the next one. -/
theorem beq_eq_false_of_line {c : Char} {cs : List Char} (hline : '\n' ∉ c :: cs) :
    (c == '\n') = false ∧ '\n' ∉ cs := by
  rw [List.mem_cons, not_or] at hline
  exact ⟨beq_eq_false_iff_ne.mpr (Ne.symm hline.1), hline.2⟩

theorem gemsFrom_line {cs : List Char} (hcs : '\n' ∉ cs) {skip : Nat} (hskip : skip ≤ cs.length)
    (more : List Char) : gemsFrom false skip (cs ++ more) = gemsFrom false 0 more := by
  induction cs generalizing skip with
  | nil =>
      obtain rfl := Nat.le_zero.mp hskip
      rfl
  | cons c cs ih =>
      obtain ⟨hfresh, hcs⟩ := beq_eq_false_of_line hcs
      rw [List.cons_append]
      cases skip with
      | zero =>
          rw [gemsFrom, if_neg (by decide), hfresh]
          exact ih hcs (Nat.zero_le _)
      | succ skip =>
          rw [gemsFrom, hfresh]
          exact ih hcs (Nat.le_of_succ_le_succ hskip)

/-- A declaring line gives its name, and the search goes on behind it. -/
theorem Declares.gemsFrom {line name : List Char} (h : Declares line name) (hline : '\n' ∉ line)
    (more : List Char) :
    gemsFrom true 0 (line ++ more) = name :: gemsFrom false 0 more := by
  obtain ⟨rest, hlength, hread⟩ := h.declaration?_append
  cases line with
  | nil => exact absurd hlength (Nat.not_lt_zero _)
  | cons c line =>
      obtain ⟨hfresh, hrest⟩ := beq_eq_false_of_line hline
      have hfront := hread more
      rw [List.cons_append] at hfront ⊢
      rw [Gemfile.gemsFrom, if_pos rfl, hfront]
      dsimp only
      rw [hfresh, gemsFrom_line hrest]
      simp only [List.length_append]
      omega

/-- Any other line gives nothing. -/
theorem gemsFrom_other {line : List Char} (hnone : ∀ name, ¬ Declares line name)
    (hclosed : ¬ LeavesOpen line) (hline : '\n' ∉ line) {more : List Char} (hmore : EndsLine more) :
    gemsFrom true 0 (line ++ more) = gemsFrom false 0 more := by
  have hread := declaration?_eq_none hnone hclosed hmore
  cases line with
  | nil =>
      cases more with
      | nil => rfl
      | cons c more =>
          rw [List.nil_append] at hread ⊢
          rw [gemsFrom, gemsFrom, if_pos rfl, hread, if_neg (by decide)]
  | cons c line =>
      obtain ⟨hfresh, hrest⟩ := beq_eq_false_of_line hline
      rw [List.cons_append] at hread ⊢
      rw [gemsFrom, if_pos rfl, hread]
      dsimp only
      rw [hfresh, gemsFrom_line hrest (Nat.zero_le _)]

theorem NamesOf.unique {lines names others : List (List Char)} (h : NamesOf lines names)
    (hothers : NamesOf lines others) : names = others := by
  induction h generalizing others with
  | nil =>
      cases hothers
      rfl
  | declaring hline hmore ih =>
      cases hothers with
      | declaring hother hrest => rw [hline.unique hother, ih hrest]
      | other hnone hrest => exact absurd hline (hnone _)
  | other hnone hmore ih =>
      cases hothers with
      | declaring hother hrest => exact absurd hother (hnone _)
      | other hother hrest => exact ih hrest

/-- The names of closed lines come first, whatever comes after the last of the lines. -/
theorem exists_namesOf {line : List Char} {rest : List (List Char)}
    (hlines : ∀ l ∈ line :: rest, '\n' ∉ l) (hclosed : ∀ l ∈ line :: rest, ¬ LeavesOpen l) :
    ∃ names, NamesOf (line :: rest) names ∧ ∀ more, EndsLine more →
      gemsFrom true 0 (['\n'].intercalate (line :: rest) ++ more) =
        names ++ gemsFrom false 0 more := by
  induction rest generalizing line with
  | nil =>
      rw [List.forall_mem_singleton] at hlines hclosed
      have htext : ['\n'].intercalate [line] = line := by simp [List.intercalate]
      rw [htext]
      by_cases hdeclares : ∃ name, Declares line name
      · obtain ⟨name, hname⟩ := hdeclares
        exact ⟨[name], .declaring hname .nil, fun more _ => hname.gemsFrom hlines more⟩
      · rw [not_exists] at hdeclares
        exact ⟨[], .other hdeclares .nil, fun more => gemsFrom_other hdeclares hclosed hlines⟩
  | cons next rest ih =>
      rw [List.forall_mem_cons] at hlines hclosed
      obtain ⟨names, hnames, hread⟩ := ih hlines.2 hclosed.2
      have hstart : ∀ more, EndsLine more →
          gemsFrom false 0 ('\n' :: (['\n'].intercalate (next :: rest) ++ more)) =
            names ++ gemsFrom false 0 more := hread
      by_cases hdeclares : ∃ name, Declares line name
      · obtain ⟨name, hname⟩ := hdeclares
        refine ⟨name :: names, .declaring hname hnames, fun more hmore => ?_⟩
        rw [List.intercalate_cons_cons, List.append_assoc, List.append_assoc,
          hname.gemsFrom hlines.1, List.singleton_append, hstart more hmore, List.cons_append]
      · rw [not_exists] at hdeclares
        refine ⟨names, .other hdeclares hnames, fun more hmore => ?_⟩
        rw [List.intercalate_cons_cons, List.append_assoc, List.append_assoc, List.singleton_append,
          gemsFrom_other hdeclares hclosed.1 hlines.1 (by rintro c ⟨⟩; rfl), hstart more hmore]

theorem not_mem_of_mem_splitOn {cs line : List Char} (hline : line ∈ cs.splitOn '\n') :
    '\n' ∉ line := by
  rw [List.splitOn_eq_splitOnP] at hline
  induction cs generalizing line with
  | nil =>
      obtain rfl : line = [] := by simpa using hline
      exact List.not_mem_nil
  | cons c cs ih =>
      obtain ⟨first, rest, hlines⟩ :=
        List.exists_cons_of_ne_nil (List.splitOnP_ne_nil (fun x => x == '\n') cs)
      rw [List.splitOnP_cons_eq_if_modifyHead, hlines] at hline
      rw [hlines] at ih
      split at hline
      · obtain rfl | hline := List.mem_cons.mp hline
        · exact List.not_mem_nil
        · exact ih hline
      · rename_i hc
        obtain rfl | hline := List.mem_cons.mp hline
        · rw [List.mem_cons, not_or]
          exact ⟨fun heq => hc (beq_iff_eq.mpr heq.symm), ih List.mem_cons_self⟩
        · exact ih (List.mem_cons_of_mem first hline)

/-- A Gemfile in which no name is left open has the names of its declaring lines, whatever comes
below its last line. -/
theorem Closed.exists_namesOf {content : String} (h : Closed content) :
    ∃ names, NamesOf (lines content) names ∧ ∀ more, EndsLine more →
      gemsFrom true 0 (content.toList ++ more) = names ++ gemsFrom false 0 more := by
  obtain ⟨line, rest, hlines⟩ :=
    List.exists_cons_of_ne_nil (List.splitOn_ne_nil '\n' content.toList)
  have hall : ∀ l ∈ line :: rest, '\n' ∉ l := fun l hl =>
    not_mem_of_mem_splitOn (hlines ▸ hl)
  rw [Closed, lines, hlines] at h
  have htext : ['\n'].intercalate (line :: rest) = content.toList := by
    rw [← hlines, List.intercalate_splitOn]
  rw [lines, hlines, ← htext]
  exact Gemfile.exists_namesOf hall h

/-- The gems of a Gemfile in which no name is left open are the names of its declaring lines, one
for each of them, and those of no other line. With more lines below, the gems of these come after
them. -/
theorem gems_line_by_line :
    (∀ content, Closed content → ∀ names,
      NamesOf (lines content) (names.map String.toList) ↔ gems content = names) ∧
    ∀ above below, Closed above → gems (above ++ "\n" ++ below) = gems above ++ gems below := by
  constructor
  · intro content hclosed names
    obtain ⟨found, hfound, hread⟩ := hclosed.exists_namesOf
    have hgems : gems content = found.map String.ofList := by
      have hwhole := hread [] (by rintro c ⟨⟩)
      rw [List.append_nil, gemsFrom, List.append_nil] at hwhole
      rw [gems, hwhole]
    rw [hgems]
    constructor
    · intro hnames
      rw [hfound.unique hnames, List.map_map]
      simp [Function.comp_def]
    · rintro rfl
      rw [List.map_map]
      simpa [Function.comp_def] using hfound
  · intro above below hclosed
    obtain ⟨found, -, hread⟩ := hclosed.exists_namesOf
    have hends : EndsLine ('\n' :: below.toList) := by
      rintro c ⟨⟩
      rfl
    have habove := hread [] (by rintro c ⟨⟩)
    have hboth := hread ('\n' :: below.toList) hends
    have htext : (above ++ "\n" ++ below).toList = above.toList ++ '\n' :: below.toList := by
      simp
    rw [List.append_nil, gemsFrom, List.append_nil] at habove
    rw [gems, htext, hboth, List.map_append, gems, habove]
    rfl

/-- A line that leaves a name open has one quotation mark, the one before the name. -/
theorem LeavesOpen.countP_isMark {line : List Char} (h : LeavesOpen line) :
    line.countP isMark = 1 := by
  have hblanks : ∀ {gap : List Char}, (∀ c ∈ gap, isBlank c = true) → gap.countP isMark = 0 := by
    intro gap hgap
    rw [List.countP_eq_zero]
    intro c hc hmark
    have hblank := (not_isBlank_of_isMark hmark).1
    rw [hgap c hc] at hblank
    cases hblank
  obtain ⟨head, rest, hopening, hunmarked, rfl⟩ := h
  obtain @⟨indent, gap, parenthesis, inner, mark, hindent, hgap, hparenthesis, hinner, hmark⟩ :=
    hopening
  have hrest : rest.countP isMark = 0 := by
    rw [List.countP_eq_zero]
    intro c hc
    rw [hunmarked c hc]
    decide
  have hbracket : parenthesis.countP isMark = 0 := by
    rcases hparenthesis with rfl | rfl <;> decide
  have hword : ∀ cs : List Char, ('g' :: 'e' :: 'm' :: cs).countP isMark = cs.countP isMark := by
    intro cs
    rfl
  simp only [List.countP_append, hword, hblanks hindent, hblanks hgap, hblanks hinner, hbracket,
    hrest, List.countP_singleton, hmark, if_true]

/-- A declaration with another text behind it and the end of a line in two characters, a comment,
and a name between two kinds of marks. -/
def mixed : String :=
  "gem \"rails\", '~> 7.1'\r\n# gem 'pg'\n\tgem( 'puma\")"

/-- Below these lines, an empty name and a word that only begins as a declaration does declare
nothing. -/
theorem gems_line_by_line_mixed :
    Closed mixed ∧ NamesOf (lines mixed) (["rails", "puma"].map String.toList) ∧
      gems (mixed ++ "\n" ++ "gem ''\ngemspec 'a'\n gem 'rspec-rails'") =
        ["rails", "puma", "rspec-rails"] := by
  have hclosed : Closed mixed := by
    have hcount : ∀ line ∈ lines mixed, line.countP isMark ≠ 1 := by decide
    exact fun line hline hopen => hcount line hline hopen.countP_isMark
  refine ⟨hclosed, ?_, ?_⟩
  · rw [gems_line_by_line.1 mixed hclosed]
    decide
  · rw [gems_line_by_line.2 _ _ hclosed]
    decide

/-- A name that is left open goes on in the next line. -/
example : gems "gem 'pg\ngem 'puma'" = ["pg\ngem "] := by
  decide

end FactoryRoster.Gemfile
