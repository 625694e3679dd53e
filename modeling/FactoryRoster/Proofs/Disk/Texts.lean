import FactoryRoster.Proofs.Disk.Resolution

/-!
# Paths that are text

A name may be any sequence of glyphs. Where the names on a disk are all text, what leads somewhere
is text too: its segments are names of entries, and links are followed by names of entries in turn.
-/

namespace FactoryRoster

theorem glyphs_injective {x y : List Char} (h : glyphs x = glyphs y) : x = y := by
  have htext := congrArg text? h
  rw [text?_glyphs, text?_glyphs] at htext
  exact Option.some.inj htext

theorem mem_glyphs {c : Char} {text : List Char} : Glyph.char c ∈ glyphs text ↔ c ∈ text := by
  simp [glyphs]

theorem glyphs_of_text? {gs : List Glyph} {text : List Char} (h : text? gs = some text) :
    gs = glyphs text := by
  induction gs generalizing text with
  | nil =>
      obtain rfl := Option.some.inj h
      rfl
  | cons g gs ih =>
      cases g with
      | broken bytes => cases h
      | char c =>
          have hcons : text? (.char c :: gs) = (text? gs).map (c :: ·) := by
            rw [text?, List.mapM_cons, Option.map_eq_bind]
            rfl
          rw [hcons, Option.map_eq_some_iff] at h
          obtain ⟨rest, hrest, rfl⟩ := h
          rw [ih hrest]
          rfl

theorem isSome_text?_iff {gs : List Glyph} :
    (text? gs).isSome = true ↔ ∃ text, gs = glyphs text := by
  constructor
  · intro h
    obtain ⟨text, htext⟩ := Option.isSome_iff_exists.mp h
    exact ⟨text, glyphs_of_text? htext⟩
  · rintro ⟨text, rfl⟩
    rw [text?_glyphs]
    rfl

/-- Glyphs are text just if each of them is a character. -/
theorem exists_glyphs_iff {gs : List Glyph} :
    (∃ text, gs = glyphs text) ↔ ∀ g ∈ gs, ∃ c, g = .char c := by
  constructor
  · rintro ⟨text, rfl⟩ g hg
    obtain ⟨c, -, rfl⟩ := List.mem_map.mp hg
    exact ⟨c, rfl⟩
  · intro h
    refine ⟨shownText gs, ?_⟩
    rw [glyphs, shownText, List.map_map]
    refine (List.map_id gs).symm.trans (List.map_congr_left fun g hg => ?_)
    obtain ⟨c, rfl⟩ := h g hg
    rfl

/-- A path is text just if its segments are. -/
theorem Path.exists_glyphs_iff {p : Path} :
    (∃ text, p = glyphs text) ↔ ∀ s ∈ segments p, ∃ x, s = glyphs x := by
  simp only [FactoryRoster.exists_glyphs_iff]
  constructor
  · exact fun h s hs g hg => h g (mem_of_mem_segments hs hg)
  · intro h g hg
    rcases mem_segments_of_mem hg with rfl | ⟨s, hs, hmem⟩
    · exact ⟨'/', rfl⟩
    · exact h s hs g hmem

/-- Texts with slashes between them are a text. -/
theorem Path.exists_glyphs_ofSegments {ss : List (List Glyph)}
    (h : ∀ s ∈ ss, ∃ text, s = glyphs text) : ∃ text, ofSegments ss = glyphs text := by
  rw [FactoryRoster.exists_glyphs_iff]
  intro g hg
  rcases mem_ofSegments hg with rfl | ⟨s, hs, hg⟩
  · exact ⟨'/', rfl⟩
  · exact FactoryRoster.exists_glyphs_iff.mp (h s hs) g hg

theorem Path.exists_glyphs_of_isIdle {s : List Glyph} (h : isIdle s = true) :
    ∃ x, s = glyphs x := by
  have hidle : s = [] ∨ s = here := by simpa [isIdle] using h
  rcases hidle with rfl | rfl
  · exact ⟨[], rfl⟩
  · exact ⟨['.'], rfl⟩

namespace Disk

/-- A disk on which all names are text. -/
def Textual (d : Disk) : Prop :=
  ∀ place ∈ d.items.map Prod.fst, ∀ x ∈ place, (text? x).isSome = true

instance (d : Disk) : Decidable d.Textual :=
  inferInstanceAs (Decidable (∀ _ ∈ _, _))

variable {d : Disk}

theorem Textual.exists_glyphs (hd : d.Textual) {place : Place} (h : d.item? place ≠ none)
    {x : List Glyph} (hx : x ∈ place) : ∃ text, x = glyphs text :=
  isSome_text?_iff.mp (hd place (mem_places_of_item? (List.ne_nil_of_mem hx) h) x hx)

/-- A segment that leads anywhere is text. -/
theorem Textual.exists_glyphs_of_turn (hd : d.Textual) {p : Place} {s : List Glyph}
    (h : ∀ obstacle, d.turn p s ≠ .blocked obstacle) : ∃ x, s = glyphs x := by
  cases hidle : Path.isIdle s with
  | true => exact Path.exists_glyphs_of_isIdle hidle
  | false =>
      by_cases habove : s = Path.above
      · exact ⟨['.', '.'], habove⟩
      · have hmem : s ∈ p ++ [s] := by simp
        rcases d.turn_cases hidle habove p with ⟨obstacle, hturn⟩ | ⟨target, hitem, -⟩ | ⟨hitem, -⟩
        · exact absurd hturn (h obstacle)
        · exact hd.exists_glyphs (by simp [hitem]) hmem
        · exact hd.exists_glyphs hitem hmem

theorem Textual.exists_glyphs_of_resolveFrom (hd : d.Textual) {n : Nat} {start goal : Place}
    {ss : List (List Glyph)} (h : d.resolveFrom true n start ss = .ok goal) :
    ∀ s ∈ ss, ∃ x, s = glyphs x := by
  induction n, start, ss using d.way_induction with
  | nil n start =>
      intro s hs
      cases hs
  | blocked n start s rest obstacle hturn =>
      rw [resolveFrom_of_blocked hturn] at h
      cases h
  | place n start s rest next hturn ih =>
      rw [resolveFrom_of_place hturn] at h
      rw [List.forall_mem_cons]
      refine ⟨hd.exists_glyphs_of_turn (p := start) ?_, ih h⟩
      intro obstacle
      rw [hturn]
      simp
  | noLink start s rest target hturn =>
      rw [resolveFrom_zero_of_link hturn (.inl rfl)] at h
      cases h
  | link n start s rest target hturn ih =>
      rw [resolveFrom_of_link hturn (.inl rfl)] at h
      have hall := ih h
      rw [List.forall_mem_append] at hall
      rw [List.forall_mem_cons]
      refine ⟨hd.exists_glyphs_of_turn (p := start) ?_, hall.2⟩
      intro obstacle
      rw [hturn]
      simp

/-- A path that leads somewhere is text. -/
theorem Textual.exists_glyphs_of_resolve (hd : d.Textual) {p : Path} {goal : Place}
    (h : d.resolve p = .ok goal) : ∃ text, p = glyphs text := by
  have hsegments : ∀ s ∈ Path.segments p, ∃ x, s = glyphs x := by
    unfold resolve at h
    split at h
    · cases h
    · split at h
      · cases h
      · split at h
        · cases h
        · exact hd.exists_glyphs_of_resolveFrom h
  exact Path.exists_glyphs_iff.mpr hsegments

end Disk

end FactoryRoster
