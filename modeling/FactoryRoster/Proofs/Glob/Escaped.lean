import FactoryRoster.Glob.Search
import FactoryRoster.Proofs.Disk.Texts
import FactoryRoster.Scan

/-!
# Patterns of escaped texts

The tokens of an escaped text match that text and nothing else, so the pattern of the factory files
below a directory first goes along the parts of the directory's path, and then to the entries at any
depth that end in the extension.
-/

namespace FactoryRoster.Glob

/-- A character that has a meaning in patterns. -/
def IsSpecial (c : Char) : Prop :=
  c ∈ ['?', '*', '[', ']']

instance (c : Char) : Decidable (IsSpecial c) :=
  inferInstanceAs (Decidable (c ∈ _))

/-- The token of an escaped character. -/
def only (c : Char) : Token :=
  if IsSpecial c then .oneOf [⟨c, c⟩] else .char c

theorem escape_cons (c : Char) (text : List Char) :
    escape (c :: text) = (if IsSpecial c then ['[', c, ']'] else [c]) ++ escape text := by
  rw [escape, List.flatMap_cons]
  congr 1
  by_cases hc : IsSpecial c
  · rw [if_pos hc, if_pos (List.contains_iff_mem.mpr hc)]
  · rw [if_neg hc, if_neg fun h => hc (List.contains_iff_mem.mp h)]

/-! ### Reading an escaped text -/

theorem tokensFrom_plain {c : Char} (hany : c ≠ '?') (hrun : c ≠ '*') (hopen : c ≠ '[')
    (position : Nat) (last : Option Char) (cs : List Char) :
    tokensFrom position last 0 (c :: cs) =
      (tokensFrom (position + 1) (some c) 0 cs).map (.char c :: ·) := by
  rw [tokensFrom.eq_def]
  split <;> simp_all

theorem tokensFrom_class {c : Char} (hc : IsSpecial c) (position : Nat) (last : Option Char)
    (cs : List Char) :
    tokensFrom position last 0 ('[' :: c :: ']' :: cs) =
      (tokensFrom (position + 3) (some ']') 0 cs).map (.oneOf [⟨c, c⟩] :: ·) := by
  simp only [IsSpecial, List.mem_cons, List.not_mem_nil, or_false] at hc
  rcases hc with rfl | rfl | rfl | rfl <;> rfl

theorem tokensFrom_escaped (c : Char) (position : Nat) (last : Option Char) (cs : List Char) :
    ∃ position' last', tokensFrom position last 0 (escape [c] ++ cs) =
      (tokensFrom position' last' 0 cs).map (only c :: ·) := by
  rw [escape_cons]
  by_cases hc : IsSpecial c
  · refine ⟨position + 3, some ']', ?_⟩
    rw [if_pos hc, only, if_pos hc]
    exact tokensFrom_class hc position last cs
  · refine ⟨position + 1, some c, ?_⟩
    rw [if_neg hc, only, if_neg hc]
    simp only [IsSpecial, List.mem_cons, List.not_mem_nil, or_false, not_or] at hc
    exact tokensFrom_plain hc.1 hc.2.1 hc.2.2.1 position last cs

theorem tokensFrom_escape (text : List Char) (position : Nat) (last : Option Char)
    (cs : List Char) :
    ∃ position' last', tokensFrom position last 0 (escape text ++ cs) =
      (tokensFrom position' last' 0 cs).map (text.map only ++ ·) := by
  induction text generalizing position last with
  | nil =>
      refine ⟨position, last, ?_⟩
      rw [escape, List.flatMap_nil, List.nil_append]
      cases tokensFrom position last 0 cs <;> rfl
  | cons c text ih =>
      have hsplit : escape (c :: text) ++ cs = escape [c] ++ (escape text ++ cs) := by
        rw [escape, List.flatMap_cons, List.append_assoc]
        simp [escape]
      obtain ⟨position₁, last₁, hfirst⟩ :=
        tokensFrom_escaped c position last (escape text ++ cs)
      obtain ⟨position₂, last₂, hrest⟩ := ih position₁ last₁
      refine ⟨position₂, last₂, ?_⟩
      rw [hsplit, hfirst, hrest]
      cases tokensFrom position₂ last₂ 0 cs <;> rfl

theorem tokens_escape (text : List Char) : tokens (escape text) = .ok (text.map only) := by
  obtain ⟨position, last, h⟩ := tokensFrom_escape text 0 none []
  rw [List.append_nil] at h
  rw [tokens, h, tokensFrom]
  simp [Except.map]

/-- An extension of file names that stands for itself in a pattern. -/
structure IsLiteral (extension : List Char) : Prop where
  noSlash : '/' ∉ extension
  noAny : '?' ∉ extension
  noRun : '*' ∉ extension
  noClass : '[' ∉ extension

theorem tokensFrom_literal {extension : List Char} (h : IsLiteral extension) (position : Nat)
    (last : Option Char) :
    tokensFrom position last 0 extension = .ok (extension.map .char) := by
  obtain ⟨-, hany, hrun, hopen⟩ := h
  induction extension generalizing position last with
  | nil => rw [tokensFrom]; rfl
  | cons c cs ih =>
      simp only [List.mem_cons, not_or] at hany hrun hopen
      rw [tokensFrom_plain (Ne.symm hany.1) (Ne.symm hrun.1) (Ne.symm hopen.1),
        ih _ _ hany.2 hrun.2 hopen.2]
      rfl

/-! ### Matching an escaped text -/

theorem accepts_only (c x : Char) : (only c).accepts x = (c == x) := by
  by_cases hc : IsSpecial c
  · rw [only, if_pos hc]
    simp only [Token.accepts, List.any_cons, List.any_nil, Bool.or_false, Span.holds]
    rw [Bool.eq_iff_iff, Bool.and_eq_true, decide_eq_true_eq, decide_eq_true_eq, beq_iff_eq]
    exact ⟨fun h => Char.le_antisymm h.1 h.2, fun h => h ▸ ⟨Char.le_refl c, Char.le_refl c⟩⟩
  · rw [only, if_neg hc]
    rfl

theorem isRun_only (c : Char) : (only c).isRun = false := by
  by_cases hc : IsSpecial c
  · rw [only, if_pos hc]
    rfl
  · rw [only, if_neg hc]
    rfl

theorem matchesName_of_isRun {t : Token} (ht : t.isRun = true) (ts : List Token)
    (name : List Char) : matchesName (t :: ts) name = someSuffix (matchesName ts) name := by
  rw [matchesName.eq_def]
  exact if_pos ht

theorem matchesName_cons_cons {t : Token} (ht : t.isRun = false) (ts : List Token) (c : Char)
    (cs : List Char) : matchesName (t :: ts) (c :: cs) = (t.accepts c && matchesName ts cs) := by
  rw [matchesName.eq_def]
  exact if_neg (by simp [ht])

theorem matchesName_cons_nil {t : Token} (ht : t.isRun = false) (ts : List Token) :
    matchesName (t :: ts) [] = false := by
  rw [matchesName.eq_def]
  exact if_neg (by simp [ht])

theorem matchesName_only {text name : List Char} :
    matchesName (text.map only) name = true ↔ name = text := by
  induction text generalizing name with
  | nil => rw [List.map_nil, matchesName, List.isEmpty_iff]
  | cons c text ih =>
      rw [List.map_cons]
      cases name with
      | nil => simp [matchesName_cons_nil (isRun_only c)]
      | cons x name =>
          rw [matchesName_cons_cons (isRun_only c), Bool.and_eq_true, accepts_only, beq_iff_eq, ih,
            List.cons.injEq, @eq_comm _ c]

theorem matchesName_literal {text name : List Char} :
    matchesName (text.map .char) name = true ↔ name = text := by
  induction text generalizing name with
  | nil => rw [List.map_nil, matchesName, List.isEmpty_iff]
  | cons c text ih =>
      rw [List.map_cons]
      cases name with
      | nil => simp [matchesName_cons_nil (show (Token.char c).isRun = false from rfl)]
      | cons x name =>
          rw [matchesName_cons_cons rfl, Bool.and_eq_true, Token.accepts, beq_iff_eq, ih,
            List.cons.injEq, @eq_comm _ c]

theorem someSuffix_eq_true {holds : List Char → Bool} {text : List Char} :
    someSuffix holds text = true ↔ ∃ suffix, suffix <:+ text ∧ holds suffix = true := by
  induction text with
  | nil => simp [someSuffix]
  | cons c text ih =>
      rw [someSuffix, Bool.or_eq_true, ih]
      constructor
      · rintro (h | ⟨suffix, hsuffix, h⟩)
        · exact ⟨_, List.suffix_refl _, h⟩
        · exact ⟨suffix, hsuffix.trans (List.suffix_cons c text), h⟩
      · rintro ⟨suffix, hsuffix, h⟩
        rcases List.suffix_cons_iff.mp hsuffix with rfl | hsuffix
        · exact .inl h
        · exact .inr ⟨suffix, hsuffix, h⟩

/-- The tokens of a name that ends in a dot and an extension. -/
def nameTokens (extension : List Char) : List Token :=
  .run :: .char '.' :: extension.map .char

theorem matchesName_nameTokens {extension name : List Char} :
    matchesName (nameTokens extension) name = true ↔ ('.' :: extension) <:+ name := by
  have hliteral : .char '.' :: extension.map .char = ('.' :: extension).map Token.char := rfl
  rw [nameTokens, matchesName_of_isRun rfl, someSuffix_eq_true, hliteral]
  simp only [matchesName_literal, exists_eq_right]

/-! ### The steps of a pattern -/

/-- A segment that is shown with a character that has a meaning in patterns. -/
def HasSpecial (p : List Glyph) : Prop :=
  ∃ c ∈ shownText p, IsSpecial c

instance (p : List Glyph) : Decidable (HasSpecial p) :=
  List.decidableBEx _ _

theorem hasSpecial_cons {g : Glyph} {p : List Glyph} :
    HasSpecial (g :: p) ↔ IsSpecial g.shown ∨ HasSpecial p := by
  simp [HasSpecial, shownText]

/-- The step along a segment of a path, by the text that the segment is shown as. -/
def partStep (p : List Glyph) : Step :=
  if HasSpecial p then .entries ((shownText p).map only) else .name (shownText p)

theorem literal?_shownText (p : List Glyph) :
    literal? ((shownText p).map only) = if HasSpecial p then none else some (shownText p) := by
  induction p with
  | nil => rfl
  | cons g p ih =>
      have hshown : shownText (g :: p) = g.shown :: shownText p := rfl
      rw [literal?] at ih ⊢
      rw [hshown, List.map_cons, List.mapM_cons, ih]
      by_cases hg : IsSpecial g.shown
      · simp [only, hg, hasSpecial_cons]
      · by_cases hp : HasSpecial p <;> simp [only, hg, hp, hasSpecial_cons]

theorem steps_parts (parts : List (List Glyph)) (more : List (List Token)) :
    steps false (parts.map (fun p => (shownText p).map only) ++ more) =
      parts.map partStep ++ steps false more := by
  induction parts with
  | nil => rfl
  | cons p parts ih =>
      have hdeep : (shownText p).map only ≠ [.deep] := by
        intro h
        obtain ⟨c, -, hc⟩ := List.mem_map.mp (h ▸ List.mem_cons_self)
        have hrun := isRun_only c
        rw [hc] at hrun
        cases hrun
      rw [List.map_cons, List.cons_append, steps, if_neg hdeep, if_neg (by simp),
        literal?_shownText, List.map_cons, List.cons_append, partStep]
      by_cases hp : HasSpecial p
      · rw [if_pos hp, if_pos hp, ih]
      · rw [if_neg hp, if_neg hp, ih]

/-! ### Texts between slashes -/

theorem shown_eq_slash {g : Glyph} : g.shown = '/' ↔ g = Path.slash := by
  cases g with
  | char c => exact ⟨fun h => congrArg Glyph.char h, Glyph.char.inj⟩
  | broken bytes => exact ⟨fun h => absurd (show '\uFFFD' = '/' from h) (by decide), nofun⟩

/-- What is shown of a path is cut as the path is. -/
theorem splitSlashes_shownText (p : Path) :
    splitSlashes (shownText p) = (Path.segments p).map shownText := by
  induction p with
  | nil => rfl
  | cons g p ih =>
      have hshown : shownText (g :: p) = g.shown :: shownText p := rfl
      obtain ⟨s, ss, hp⟩ := List.exists_cons_of_ne_nil (Path.segments_ne_nil p)
      rw [hshown, splitSlashes, ih, Path.segments, hp]
      by_cases hg : g = Path.slash
      · rw [if_pos hg, if_pos (shown_eq_slash.mpr hg)]
        rfl
      · rw [if_neg hg, if_neg fun h => hg (shown_eq_slash.mp h)]
        rfl

theorem splitSlashes_eq (text : List Char) :
    splitSlashes text = (Path.segments (glyphs text)).map shownText := by
  rw [← splitSlashes_shownText, shownText_glyphs]

theorem splitSlashes_ne_nil (text : List Char) : splitSlashes text ≠ [] := by
  simpa [splitSlashes_eq] using Path.segments_ne_nil (glyphs text)

theorem splitSlashes_append (s t : List Char) :
    splitSlashes (s ++ '/' :: t) = splitSlashes s ++ splitSlashes t := by
  have hglyphs : glyphs (s ++ '/' :: t) = glyphs s ++ Path.slash :: glyphs t := by
    simp [glyphs, Path.slash]
  rw [splitSlashes_eq, hglyphs, Path.segments_append_slash, List.map_append, ← splitSlashes_eq,
    ← splitSlashes_eq]

theorem splitSlashes_of_not_mem {x : List Char} (hx : '/' ∉ x) : splitSlashes x = [x] := by
  have hslash : Path.slash ∉ glyphs x := by simpa [glyphs, Path.slash] using hx
  rw [splitSlashes_eq, Path.segments_of_not_mem hslash, List.map_singleton, shownText_glyphs]

/-! ### The pattern of the factory files -/

/-- The segments of a path, after the slash of an absolute one. -/
def partsOf (base : Path) : List (List Glyph) :=
  Path.segments (if Path.isAbsolute base then base.drop 1 else base)

theorem splitSlashes_append_of_not_mem {s t p : List Char} {ps : List (List Char)} (hs : '/' ∉ s)
    (ht : splitSlashes t = p :: ps) : splitSlashes (s ++ t) = (s ++ p) :: ps := by
  induction s with
  | nil => exact ht
  | cons c s ih =>
      rw [List.mem_cons, not_or] at hs
      rw [List.cons_append, splitSlashes, if_neg (Ne.symm hs.1), ih hs.2]
      rfl

theorem splitSlashes_escape (text : List Char) :
    splitSlashes (escape text) = (splitSlashes text).map escape := by
  induction text with
  | nil => rfl
  | cons c text ih =>
      rw [escape_cons, splitSlashes]
      by_cases hc : c = '/'
      · subst hc
        rw [if_neg (by decide), if_pos rfl, List.map_cons, ← ih, List.singleton_append,
          splitSlashes, if_pos rfl]
        rfl
      · rw [if_neg hc]
        obtain ⟨p, ps, htext⟩ := List.exists_cons_of_ne_nil (splitSlashes_ne_nil text)
        rw [htext] at ih ⊢
        rw [splitSlashes_append_of_not_mem _ ih]
        · simp [escape_cons]
        · split <;> simp [Ne.symm hc]

/-- The text that follows the directory in the pattern of its files. -/
def fileTail (extension : List Char) : List Char :=
  '/' :: '*' :: '*' :: '/' :: '*' :: '.' :: extension

theorem tokensFrom_fileTail {extension : List Char} (h : IsLiteral extension) (position : Nat)
    (last : Option Char) :
    tokensFrom position last 0 (fileTail extension) =
      .ok (.char '/' :: .deep :: nameTokens extension) := by
  have htail : tokensFrom position last 0 (fileTail extension) =
      ((((tokensFrom (position + 6) (some '.') 0 extension).map (.char '.' :: ·)).map
        (.run :: ·)).map (.deep :: ·)).map (.char '/' :: ·) := rfl
  rw [htail, tokensFrom_literal h]
  rfl

theorem splitSlashes_fileTail {extension : List Char} (h : IsLiteral extension)
    (text : List Char) :
    splitSlashes (text ++ fileTail extension) =
      splitSlashes text ++ [['*', '*'], '*' :: '.' :: extension] := by
  have hname : '/' ∉ '*' :: '.' :: extension := by simp [h.noSlash]
  have hdeep : splitSlashes (['*', '*'] ++ '/' :: '*' :: '.' :: extension) =
      [['*', '*'], '*' :: '.' :: extension] := by
    rw [splitSlashes_append, splitSlashes_of_not_mem hname]
    rfl
  rw [fileTail, splitSlashes_append]
  exact congrArg _ hdeep

theorem tokens_fileName {extension : List Char} (h : IsLiteral extension) :
    tokens ('*' :: '.' :: extension) = .ok (nameTokens extension) := by
  have hname : tokens ('*' :: '.' :: extension) =
      ((tokensFrom 2 (some '.') 0 extension).map (.char '.' :: ·)).map (.run :: ·) := rfl
  rw [hname, tokensFrom_literal h]
  rfl

theorem mapM_tokens_escape (parts : List (List Char)) :
    (parts.map escape).mapM tokens = .ok (parts.map (·.map only)) := by
  induction parts with
  | nil => rfl
  | cons p parts ih =>
      rw [List.map_cons, List.mapM_cons, tokens_escape, ih]
      rfl

theorem isAbsolute_eq_shown (base : Path) :
    Path.isAbsolute base = ((shownText base).head? == some '/') := by
  cases base with
  | nil => rfl
  | cons g base =>
      rw [Bool.eq_iff_iff, Path.isAbsolute, beq_iff_eq, beq_iff_eq, List.head?_cons, shownText,
        List.map_cons, List.head?_cons, Option.some.injEq, Option.some.injEq, shown_eq_slash]

theorem head?_escape {text : List Char} (htext : text ≠ []) (more : List Char) :
    ((escape text ++ more).head? == some '/') = (text.head? == some '/') := by
  obtain ⟨c, text, rfl⟩ := List.exists_cons_of_ne_nil htext
  rw [escape_cons]
  by_cases hc : IsSpecial c
  · rw [if_pos hc]
    have hslash : c ≠ '/' := by
      rintro rfl
      exact absurd hc (by decide)
    simp [hslash]
  · rw [if_neg hc]
    rfl

theorem drop_escape (text more : List Char) :
    (if text.head? == some '/' then (escape text ++ more).drop 1 else escape text ++ more) =
      escape (if text.head? == some '/' then text.drop 1 else text) ++ more := by
  split
  · rename_i hslash
    obtain ⟨text, rfl⟩ := List.head?_eq_some_iff.mp (beq_iff_eq.mp hslash)
    rw [escape_cons, if_neg (by decide)]
    rfl
  · rfl

theorem splitTerminated_fileTail {extension : List Char} (h : IsLiteral extension)
    (text : List Char) :
    splitTerminated (escape text ++ fileTail extension) =
      (splitSlashes text).map escape ++ [['*', '*'], '*' :: '.' :: extension] := by
  rw [splitTerminated, splitSlashes_fileTail h, splitSlashes_escape]
  exact if_neg (by simp)

theorem getLast?_fileTail {extension : List Char} (h : IsLiteral extension) (text : List Char) :
    ((text ++ fileTail extension).getLast? == some '/') = false := by
  have hlast : (fileTail extension).getLast? = some (('.' :: extension).getLast (by simp)) := by
    simp [fileTail, List.getLast?_eq_some_getLast]
  rw [List.getLast?_append, hlast, Option.some_or, beq_eq_false_iff_ne]
  intro heq
  have hmem := List.getLast_mem (show '.' :: extension ≠ [] by simp)
  rw [Option.some.inj heq, List.mem_cons] at hmem
  exact hmem.elim (by decide) h.noSlash

/-- The pattern of the files below a directory: along the parts of its path, and then to the names
that end in the extension. -/
def filesBelow (base : Path) (extension : List Char) : Pattern :=
  ⟨Path.isAbsolute base, false,
    (partsOf base).map partStep ++ [.deepEntries (nameTokens extension)]⟩

theorem ofText_filePattern {base : Path} (hbase : base ≠ []) {extension : String}
    (h : IsLiteral extension.toList) :
    Pattern.ofText (Disk.filePattern base extension) =
      .ok (filesBelow base extension.toList) := by
  have htext : Disk.filePattern base extension =
      escape (shownText base) ++ fileTail extension.toList := by
    rw [Disk.filePattern, List.append_assoc]
    rfl
  have hnonempty : shownText base ≠ [] := by simpa [shownText] using hbase
  have hvalid : ∃ ts, tokens (escape (shownText base) ++ fileTail extension.toList) = .ok ts := by
    obtain ⟨position, last, htokens⟩ :=
      tokensFrom_escape (shownText base) 0 none (fileTail extension.toList)
    rw [tokensFrom_fileTail h] at htokens
    exact ⟨_, htokens⟩
  have hparts : splitSlashes (if (shownText base).head? == some '/' then (shownText base).drop 1
      else shownText base) = (partsOf base).map shownText := by
    rw [partsOf, ← splitSlashes_shownText, isAbsolute_eq_shown]
    split <;> simp [shownText]
  obtain ⟨ts, hts⟩ := hvalid
  rw [htext, Pattern.ofText, hts, head?_escape hnonempty, getLast?_fileTail h, filesBelow,
    isAbsolute_eq_shown]
  simp only [drop_escape, splitTerminated_fileTail h, hparts, List.mapM_append,
    mapM_tokens_escape, List.mapM_cons, tokens_fileName h]
  rw [List.map_map]
  change Except.ok (Pattern.mk _ _ (steps false
    ((partsOf base).map (fun p => (shownText p).map only) ++
      [[.deep], nameTokens extension.toList]))) = _
  rw [steps_parts]
  rfl

/-- A name that is text matches as the text does, and no other name matches. -/
theorem matchesGlyphs_eq_true {ts : List Token} {name : List Glyph} :
    matchesGlyphs ts name = true ↔ ∃ text, name = glyphs text ∧ matchesName ts text = true := by
  unfold matchesGlyphs
  cases hname : text? name with
  | none =>
      constructor
      · exact nofun
      · rintro ⟨text, rfl, -⟩
        rw [text?_glyphs] at hname
        cases hname
  | some text =>
      obtain rfl := glyphs_of_text? hname
      constructor
      · exact fun h => ⟨text, rfl, h⟩
      · rintro ⟨other, hother, hmatch⟩
        rw [glyphs_injective hother]
        exact hmatch

end FactoryRoster.Glob
