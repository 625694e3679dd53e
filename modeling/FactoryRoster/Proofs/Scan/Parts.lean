import FactoryRoster.Proofs.Scan.Enumeration
import FactoryRoster.Proofs.Scan.Found
import FactoryRoster.Proofs.Scan.Order

/-!
# Scans of a part of a directory

What a search finds below a directory, it finds by the same paths below each directory above it
(`Disk.reached_written`). The names of the walks into one directory all begin alike, and so does
every text that lies between two of them, whatever characters come before the slash in the order of
characters. So the scan of a directory is one block of the scan of each directory above it.
-/

namespace FactoryRoster

/-- What lies between two texts that begin alike begins so too. -/
theorem prefix_of_between {front s t u : List Char} (hs : front <+: s) (hu : front <+: u)
    (hst : s < t) (htu : t < u) : front <+: t := by
  induction front generalizing s t u with
  | nil => exact List.nil_prefix
  | cons c front ih =>
      obtain ⟨s, rfl⟩ := hs
      obtain ⟨u, rfl⟩ := hu
      rw [List.cons_append] at hst htu
      cases t with
      | nil => exact absurd hst (List.not_lt_nil _)
      | cons x t =>
          rw [List.cons_lt_cons_iff] at hst htu
          rcases hst with hcx | ⟨rfl, hst⟩
          · rcases htu with hxc | ⟨rfl, -⟩
            · exact absurd hxc (Char.lt_asymm hcx)
            · exact absurd hcx (Char.lt_irrefl _)
          · rcases htu with hcc | ⟨-, htu⟩
            · exact absurd hcc (Char.lt_irrefl _)
            · rw [List.cons_prefix_cons]
              exact ⟨rfl, ih (List.prefix_append _ _) (List.prefix_append _ _) hst htu⟩

theorem append_lt_append (front : List Char) {s t : List Char} (h : s < t) :
    front ++ s < front ++ t := by
  induction front with
  | nil => exact h
  | cons c front ih => exact List.cons_lt_cons_iff.mpr (.inr ⟨rfl, ih⟩)

/-- In a sorted list, what is asked for makes one block if nothing else lies between. -/
theorem exists_block {α : Type} {r : α → α → Prop} {asked : α → Bool} {l : List α}
    (hsorted : l.Pairwise r)
    (hbetween : ∀ a ∈ l, ∀ b ∈ l, ∀ c ∈ l, r a b → r b c → asked a = true → asked c = true →
      asked b = true) :
    ∃ before after, l = before ++ l.filter asked ++ after ∧ (∀ a ∈ before, asked a = false) ∧
      ∀ a ∈ after, asked a = false := by
  induction l with
  | nil => exact ⟨[], [], rfl, by simp, by simp⟩
  | cons a l ih =>
      rw [List.pairwise_cons] at hsorted
      obtain ⟨before, after, hl, hbefore, hafter⟩ := ih hsorted.2 fun b hb c hc e he =>
        hbetween b (List.mem_cons_of_mem a hb) c (List.mem_cons_of_mem a hc) e
          (List.mem_cons_of_mem a he)
      by_cases ha : asked a = true
      · by_cases hnone : l.filter asked = []
        · rw [hnone, List.append_nil] at hl
          refine ⟨[], before ++ after, ?_, by simp, ?_⟩
          · rw [List.filter_cons_of_pos ha, hnone, hl]
            simp
          · rw [List.forall_mem_append]
            exact ⟨hbefore, hafter⟩
        · -- whatever came before the block would lie between its first element and the others
          have hempty : before = [] := by
            refine List.eq_nil_iff_forall_not_mem.mpr fun b hb => ?_
            obtain ⟨c, hc⟩ := List.exists_mem_of_ne_nil _ hnone
            have hpairs := hsorted.2
            rw [hl, List.append_assoc, List.pairwise_append] at hpairs
            have hbc := hpairs.2.2 b hb c (List.mem_append_left _ hc)
            have hbl : b ∈ l := by
              rw [hl]
              exact List.mem_append_left _ (List.mem_append_left _ hb)
            obtain ⟨hcl, hasked⟩ := List.mem_filter.mp hc
            have hb' := hbetween a List.mem_cons_self b (List.mem_cons_of_mem a hbl) c
              (List.mem_cons_of_mem a hcl) (hsorted.1 b hbl) hbc ha hasked
            rw [hbefore b hb] at hb'
            cases hb'
          rw [hempty, List.nil_append] at hl
          refine ⟨[], after, ?_, by simp, hafter⟩
          rw [List.filter_cons_of_pos ha, List.nil_append, List.cons_append, ← hl]
      · refine ⟨a :: before, after, ?_, ?_, hafter⟩
        · rw [List.filter_cons_of_neg ha, List.cons_append, List.cons_append, ← hl]
        · rw [List.forall_mem_cons]
          exact ⟨Bool.eq_false_iff.mpr ha, hbefore⟩

namespace Disk

open Glob FactoryRoster.Path

variable {d : Disk} {base : Path} {extension : List Char} {sub v w : Walk}

theorem joined_append (hsub : sub ≠ []) (hv : v ≠ []) :
    joined (sub ++ v) = joined sub ++ '/' :: joined v := by
  rw [joined, ofSegments_append hsub hv, shownText, List.map_append]
  rfl

/-- The names of a walk that begins with `sub` are those that begin with its names and a slash. -/
theorem isPrefixOf_iff (hsub : sub ≠ []) (hnames : ∀ x ∈ sub, IsName x) (hw : ∀ x ∈ w, IsName x)
    (htext : ∀ x ∈ sub, ∃ text, x = glyphs text) (htext' : ∀ x ∈ w, ∃ text, x = glyphs text)
    (hne : w ≠ sub) : sub <+: w ↔ joined sub ++ ['/'] <+: joined w := by
  constructor
  · rintro ⟨v, rfl⟩
    have hv : v ≠ [] := fun hnil => hne (by rw [hnil, List.append_nil])
    exact ⟨joined v, by rw [joined_append hsub hv, List.append_assoc, List.singleton_append]⟩
  · rintro ⟨rest, hrest⟩
    have hw' : w ≠ [] := by
      rintro rfl
      have hlength := congrArg List.length hrest
      simp [joined, ofSegments, shownText] at hlength
    obtain ⟨s, hs⟩ := exists_glyphs_ofSegments htext
    obtain ⟨t, ht⟩ := exists_glyphs_ofSegments htext'
    rw [joined, joined, hs, ht, shownText_glyphs, shownText_glyphs] at hrest
    have hpath : ofSegments w = ofSegments sub ++ slash :: glyphs rest := by
      rw [ht, ← hrest, hs]
      simp [glyphs, slash]
    refine ⟨segments (glyphs rest), ?_⟩
    rw [← segments_ofSegments hw' fun x hx => (hw x hx).noSlash, hpath, segments_append_slash,
      segments_ofSegments hsub fun x hx => (hnames x hx).noSlash]

/-! ### The path of the part -/

/-- The parts of a path of a walk are those of the directory's path, but for an empty one at the
end, and the names. -/
theorem exists_partsOf_written (hbase : base ≠ []) (hsub : sub ≠ [])
    (hnames : ∀ x ∈ sub, IsName x) :
    ∃ parts, partsOf (written base sub) = parts ++ sub ∧
      (partsOf base = parts ∨ partsOf base = parts ++ [[]]) := by
  have hsegments := segments_ofSegments hsub fun x hx => (hnames x hx).noSlash
  rw [written_eq hbase hsub hnames]
  cases habsolute : isAbsolute base with
  | true =>
      obtain ⟨rest, rfl⟩ := exists_of_isAbsolute habsolute
      have hparts : ∀ p : Path, partsOf (slash :: p) = segments p := fun _ => rfl
      by_cases hroot : rest = []
      · subst hroot
        exact ⟨[], hsegments, .inr rfl⟩
      · obtain ⟨ss, hss, -, hrest⟩ := exists_segments_ahead rest hsub hnames
        refine ⟨ss, ?_, hrest⟩
        rw [ahead_slash hroot, List.cons_append, hparts, hss]
  | false =>
      have habsolute' : isAbsolute (ahead base ++ ofSegments sub) = false := by
        rw [isAbsolute_ahead hbase, habsolute]
      obtain ⟨ss, hss, -, hrest⟩ := exists_segments_ahead base hsub hnames
      refine ⟨ss, by rw [partsOf_of_relative habsolute', hss], ?_⟩
      rwa [partsOf_of_relative habsolute]

theorem startOf_written (hbase : base ≠ []) (hsub : sub ≠ []) (hnames : ∀ x ∈ sub, IsName x) :
    startOf (written base sub) = startOf base := by
  rw [startOf, startOf, written_eq hbase hsub hnames, isAbsolute_ahead hbase]

/-- What is found below the path of a walk is found by the same path below the directory. -/
theorem reached_written (hbase : base ≠ []) (hsub : sub ≠ []) (hnames : ∀ x ∈ sub, IsName x)
    (v : Walk) : reached (written base sub) v = reached base (sub ++ v) := by
  have hstart := startOf_written hbase hsub hnames
  obtain ⟨parts, hparts, hbase' | hbase'⟩ := exists_partsOf_written hbase hsub hnames
  · rw [reached_eq, reached_eq, hstart, hparts, hbase', List.append_assoc]
  · obtain ⟨x, sub, rfl⟩ := List.exists_cons_of_ne_nil hsub
    rw [reached_eq, reached_eq, hstart, hparts, hbase']
    simp only [along_append, along_cons, List.cons_append, List.append_assoc, List.nil_append]
    rw [entry_entry_nil]

theorem not_dotted_written (hbase : base ≠ []) (hdot : ¬ Dotted base) (hsub : sub ≠ [])
    (hnames : ∀ x ∈ sub, IsName x) : ¬ Dotted (written base sub) := by
  obtain ⟨ss, hss, hne, hbase'⟩ := exists_segments_ahead base hsub hnames
  obtain ⟨s, ss, rfl⟩ := List.exists_cons_of_ne_nil hne
  have hhead : (segments base).head? = some s := by
    rcases hbase' with hbase' | hbase' <;> rw [hbase'] <;> rfl
  rw [Dotted, hhead] at hdot
  rwa [Dotted, written_eq hbase hsub hnames, hss]

theorem written_ne_nil (hbase : base ≠ []) (hsub : sub ≠ []) (hnames : ∀ x ∈ sub, IsName x) :
    written base sub ≠ [] := by
  rw [written_eq hbase hsub hnames]
  simp [ofSegments_ne_nil hsub hnames]

theorem not_stalled (hbase : base ≠ []) (hdot : ¬ Dotted base) : ¬ Stalled base := by
  rintro ⟨hrelative, hstops⟩
  obtain ⟨s, ss, hsegments⟩ := List.exists_cons_of_ne_nil (segments_ne_nil base)
  have hempty := first_ne_nil hrelative hbase hsegments
  have hsdot : s ≠ here := by
    rintro rfl
    exact hdot (by rw [Dotted, hsegments]; rfl)
  rw [partsOf_of_relative hrelative, hsegments, stops,
    List.dropWhile_cons_of_neg (by simpa using hsdot)] at hstops
  exact hempty (by simpa using hstops)

theorem snug_of_names (hnames : ∀ x ∈ sub, IsName x) : Snug sub where
  noSlash x hx := (hnames x hx).noSlash
  front x hx := (hnames x (List.mem_of_mem_head? hx)).not_isIdle
  back x hx := (hnames x (List.mem_of_mem_getLast? hx)).not_isIdle

/-- The components of a walk's path are those of the directory's path and its names. -/
theorem components_written (hsub : sub ≠ []) (hnames : ∀ x ∈ sub, IsName x) :
    components (written base sub) = components base ++ sub.map .name := by
  have hsnug : Snug sub := snug_of_names hnames
  have hnamed : sub.map component = sub.map .name :=
    List.map_congr_left fun x hx => component_name (hnames x hx)
  rw [written, if_neg hsub, components_join fun _ => hsnug.goesOn, hsnug.components_eq,
    counting_of_forall (not_isIdle_of_names hnames), hnamed]

/-! ### Getting to the part -/

theorem passes_append {p : Path} {parts more : List (List Glyph)} :
    d.Passes p (parts ++ more) ↔ d.Passes p parts ∧ d.Passes (along p parts) more := by
  induction parts generalizing p with
  | nil => exact (and_iff_right trivial).symm
  | cons s parts ih =>
      rw [List.cons_append, Passes, Passes, ih, along_cons, and_assoc]

/-- A search gets along names if the directories on the way give their names. -/
theorem passes_of_lists {p : Path} (h : ∀ v, v <+: sub → v ≠ sub → d.Lists (along p v)) :
    d.Passes p sub := by
  induction sub generalizing p with
  | nil => trivial
  | cons x sub ih =>
      refine ⟨fun _ => h [] List.nil_prefix (by simp), ih fun v hv hne => ?_⟩
      exact h (x :: v) (List.cons_prefix_cons.mpr ⟨rfl, hv⟩) (by simpa using hne)

section Part

variable {place : Place} (hplace : d.resolve base = .ok place)
  (hdirectory : d.item? place = some .directory) (hmoves : ¬ Stalled base) (hsub : sub ≠ [])
  (hnames : ∀ x ∈ sub, IsName x)

include hplace hdirectory hmoves hsub hnames

/-- A search gets to the directory at the end of a walk if it gets to the directory where the walk
begins, and the directories on the way give their names. -/
theorem searchable_written (h : d.Searchable base) (hmoves' : ¬ Stalled (written base sub))
    (hlists : ∀ v, v <+: sub → v ≠ sub → d.Lists (written base v)) :
    d.Searchable (written base sub) where
  moves := hmoves'
  passes := by
    have hbase : base ≠ [] := (Fits.of_resolve hplace).nonempty
    have hleads := leads_of_base hplace hdirectory hmoves
    have hpasses := h.passes
    have hreached : ∀ v, v <+: sub → v ≠ sub → d.Lists (reached base v) := fun v hv hne =>
      lists_reached hplace hdirectory hmoves (fun x hx => hnames x (hv.subset hx)) (hlists v hv hne)
    obtain ⟨parts, hparts, hbase' | hbase'⟩ := exists_partsOf_written hbase hsub hnames
    · rw [startOf_written hbase hsub hnames, hparts, passes_append]
      rw [hbase'] at hpasses
      refine ⟨hpasses, passes_of_lists fun v hv hne => ?_⟩
      have hv' := hreached v hv hne
      rwa [reached, baseSpot, hbase'] at hv'
    · rw [startOf_written hbase hsub hnames, hparts, passes_append]
      rw [hbase'] at hpasses hleads
      refine ⟨(passes_append.mp hpasses).1, passes_of_lists fun v hv hne => ?_⟩
      cases v with
      | nil =>
          obtain ⟨place', hplace', hlists'⟩ := hlists [] hv hne
          rw [written_nil, hplace] at hplace'
          obtain rfl := Except.ok.inj hplace'
          exact ⟨place, hleads.along_append.resolve_of_idle rfl, hlists'⟩
      | cons x v =>
          have hv' := hreached (x :: v) hv hne
          rw [reached, baseSpot, hbase', along_append] at hv'
          change d.Lists (along (entry (entry (along (startOf base) parts) []) x) v) at hv'
          rwa [entry_entry_nil] at hv'

omit hdirectory hmoves in
/-- A search that gets to the directory at the end of a walk gets to the directory where the walk
begins. -/
theorem searchable_of_written (h : d.Searchable (written base sub)) (hmoves : ¬ Stalled base) :
    d.Searchable base where
  moves := hmoves
  passes := by
    have hbase : base ≠ [] := (Fits.of_resolve hplace).nonempty
    have hpasses := h.passes
    obtain ⟨parts, hparts, hbase' | hbase'⟩ := exists_partsOf_written hbase hsub hnames
    · rw [startOf_written hbase hsub hnames, hparts, passes_append] at hpasses
      rw [hbase']
      exact hpasses.1
    · rw [startOf_written hbase hsub hnames, hparts, passes_append] at hpasses
      rw [hbase', passes_append]
      exact ⟨hpasses.1, fun hspecial => absurd hspecial (by decide), trivial⟩

/-! ### The walks of the part -/

theorem isFileWalk_written_iff (hlists : ∀ v, v <+: sub → v ≠ sub → d.Lists (written base v))
    (hv : v ≠ []) : d.IsFileWalk (written base sub) extension v ↔
      d.IsFileWalk base extension (sub ++ v) := by
  have hbase : base ≠ [] := (Fits.of_resolve hplace).nonempty
  have hending : (sub ++ v).getLastD [] = v.getLastD [] := by
    rw [List.getLastD_eq_getLast?, List.getLastD_eq_getLast?, List.getLast?_append_of_ne_nil _ hv]
  have hreached := reached_written hbase hsub hnames
  constructor
  · rintro ⟨-, hnames', hend, hlists', hfile⟩
    refine ⟨by simp [hsub], ?_, hending ▸ hend, ?_, hreached v ▸ hfile⟩
    · rw [List.forall_mem_append]
      exact ⟨hnames, hnames'⟩
    · intro u hu hne
      by_cases hbegins : sub <+: u
      · obtain ⟨t, rfl⟩ := hbegins
        rw [← hreached]
        exact hlists' t ((List.prefix_append_right_inj sub).mp hu) fun h => hne (by rw [h])
      · have hu' : u <+: sub :=
          (List.prefix_or_prefix_of_prefix hu (List.prefix_append sub v)).resolve_right hbegins
        refine lists_reached hplace hdirectory hmoves (fun x hx => hnames x (hu'.subset hx)) ?_
        exact hlists u hu' fun h => hbegins (by rw [h])
  · rintro ⟨-, hnames', hend, hlists', hfile⟩
    rw [List.forall_mem_append] at hnames'
    refine ⟨hv, hnames'.2, hending ▸ hend, fun u hu hne => ?_, hreached v ▸ hfile⟩
    rw [hreached]
    exact hlists' (sub ++ u) ((List.prefix_append_right_inj sub).mpr hu) (by simpa using hne)

omit hsub in
/-- A walk to a directory is no walk to a file. -/
theorem not_isFileWalk (hpart : d.isDirectory (written base sub) = true) :
    ¬ d.IsFileWalk base extension sub := by
  intro hfile
  obtain ⟨goal, hgoal, hitem⟩ := isDirectory_eq_true.mp hpart
  obtain ⟨goal', bytes, hgoal', hitem'⟩ := isFile_eq_true.mp hfile.file
  have hsame := resolve_reached hplace hdirectory hmoves hnames hgoal
  rw [hgoal'] at hsame
  obtain rfl := Except.ok.inj hsame
  rw [hitem] at hitem'
  cases hitem'

end Part

section Block

variable {place place' : Place} {walks inner : List Walk}
  (h : d.Course base extension place walks)
  (h' : d.Course (written base sub) extension place' inner) (hplace : d.resolve base = .ok place)
  (hdirectory : d.item? place = some .directory) (hdot : ¬ Dotted base) (hsub : sub ≠ [])
  (hnames : ∀ x ∈ sub, IsName x) (hpart : d.isDirectory (written base sub) = true)
  (hlists : ∀ v, v <+: sub → v ≠ sub → d.Lists (written base v))

include h hplace hdirectory hdot hnames hpart in
theorem Course.ne_of_mem : ∀ w ∈ walks, w ≠ sub := by
  have hbase : base ≠ [] := (Fits.of_resolve hplace).nonempty
  rintro w hw rfl
  exact not_isFileWalk hplace hdirectory (not_stalled hbase hdot) hnames hpart (h.isFileWalk hw)

include h h' hplace hdirectory hdot hsub hnames hpart hlists

/-- The walks that begin with the names of a directory go on with the walks of that directory. -/
theorem Course.begins_iff (w : Walk) :
    w ∈ walks ∧ sub <+: w ↔ ∃ v ∈ inner, sub ++ v = w := by
  have hbase : base ≠ [] := (Fits.of_resolve hplace).nonempty
  have hmoves := not_stalled hbase hdot
  have hmoves' := not_stalled (written_ne_nil hbase hsub hnames)
    (not_dotted_written hbase hdot hsub hnames)
  constructor
  · rintro ⟨hw, v, rfl⟩
    have hv : v ≠ [] := fun hnil =>
      h.ne_of_mem hplace hdirectory hdot hnames hpart _ hw (by rw [hnil, List.append_nil])
    obtain ⟨hsearchable, hfile⟩ := (h.complete _).mp hw
    refine ⟨v, (h'.complete v).mpr ⟨?_, ?_⟩, rfl⟩
    · exact searchable_written hplace hdirectory hmoves hsub hnames hsearchable hmoves' hlists
    · exact (isFileWalk_written_iff hplace hdirectory hmoves hsub hnames hlists hv).mpr hfile
  · rintro ⟨v, hv, rfl⟩
    obtain ⟨hsearchable, hfile⟩ := (h'.complete v).mp hv
    refine ⟨(h.complete _).mpr ⟨?_, ?_⟩, List.prefix_append _ _⟩
    · exact searchable_of_written hplace hsub hnames hsearchable hmoves
    · exact (isFileWalk_written_iff hplace hdirectory hmoves hsub hnames hlists
        hfile.nonempty).mp hfile

theorem Course.filter_begins : walks.filter (sub.isPrefixOf ·) = inner.map (sub ++ ·) := by
  have hbase : base ≠ [] := (Fits.of_resolve hplace).nonempty
  have hwalks := h.ascending (.inl hdot)
  have hinner := h'.ascending (.inl (not_dotted_written hbase hdot hsub hnames))
  refine eq_of_ascending (hwalks.filter _) ?_ ?_
  · refine List.pairwise_map.mpr (hinner.imp_of_mem fun {v w} hv hw hlt => ?_)
    rw [joined_append hsub (h'.isFileWalk hv).nonempty,
      joined_append hsub (h'.isFileWalk hw).nonempty]
    exact append_lt_append _ (List.cons_lt_cons_iff.mpr (.inr ⟨rfl, hlt⟩))
  · intro w
    rw [List.mem_filter, List.isPrefixOf_iff_prefix, List.mem_map]
    exact h.begins_iff h' hplace hdirectory hdot hsub hnames hpart hlists w

/-- The walks that begin with the names of a directory are the walks of that directory, and nothing
lies between them. -/
theorem Course.exists_block (htext : ∀ x ∈ sub, ∃ text, x = glyphs text) :
    ∃ before after, walks = before ++ inner.map (sub ++ ·) ++ after ∧
      (∀ w ∈ before, ¬ sub <+: w) ∧ ∀ w ∈ after, ¬ sub <+: w := by
  have hne := h.ne_of_mem hplace hdirectory hdot hnames hpart
  have hbegins : ∀ w ∈ walks, sub <+: w ↔ joined sub ++ ['/'] <+: joined w := fun w hw =>
    isPrefixOf_iff hsub hnames (h.isFileWalk hw).names htext (h.texts w hw) (hne w hw)
  have hbetween : ∀ u ∈ walks, ∀ v ∈ walks, ∀ w ∈ walks, joined u < joined v →
      joined v < joined w → sub.isPrefixOf u = true → sub.isPrefixOf w = true →
      sub.isPrefixOf v = true := by
    intro u hu v hv w hw huv hvw hsu hsw
    rw [List.isPrefixOf_iff_prefix] at hsu hsw ⊢
    rw [hbegins v hv]
    exact prefix_of_between ((hbegins u hu).mp hsu) ((hbegins w hw).mp hsw) huv hvw
  obtain ⟨before, after, hblock, hbefore, hafter⟩ :=
    FactoryRoster.exists_block (h.ascending (.inl hdot)) hbetween
  rw [h.filter_begins h' hplace hdirectory hdot hsub hnames hpart hlists] at hblock
  refine ⟨before, after, hblock, fun w hw hsw => ?_, fun w hw hsw => ?_⟩
  · have hfalse := hbefore w hw
    rw [List.isPrefixOf_iff_prefix.mpr hsw] at hfalse
    cases hfalse
  · have hfalse := hafter w hw
    rw [List.isPrefixOf_iff_prefix.mpr hsw] at hfalse
    cases hfalse

end Block

/-! ### What lies below the part -/

theorem filter_components_of_not_dotted (hdot : ¬ Dotted base) :
    (components base).filter (· ≠ .here) = components base := by
  refine List.filter_eq_self.mpr fun c hc => ?_
  have hhere := here_not_mem_components hdot
  simpa using fun h : c = .here => hhere (h ▸ hc)

theorem components_prefix_iff (hbase : base ≠ []) (hdot : ¬ Dotted base) (hsub : sub ≠ [])
    (hnames : ∀ x ∈ sub, IsName x) (hw : d.IsFileWalk base extension w) :
    components (written base sub) <+: components (reached base w) ↔ sub <+: w := by
  rw [components_written hsub hnames,
    components_reached hw.nonempty hw.names (not_stalled hbase hdot),
    filter_components_of_not_dotted hdot, List.prefix_append_right_inj,
    List.prefix_map_iff_of_injective name_injective]

theorem not_dotted_of_components (h : (components base).head? ≠ some .here) : ¬ Dotted base := by
  intro hdotted
  obtain ⟨ss, hss⟩ := List.head?_eq_some_iff.mp hdotted
  apply h
  rw [components_eq, anatomy_of_here hss]
  rfl

end Disk

open Disk Glob

/-- The files of the directory at `part` are one block of the files of the directory at `base`: the
same paths in the same order, with no file below `part` before or after them. The entries of `part`
are one block of the entries of `base` with them. -/
def Settings.IsBlock (s : Settings) (parse : Parser) (d : Disk) (base part : Path) : Prop :=
  ∃ (before inner after : List Path) (notices notices' : List Notice),
    d.factoryFiles base s.extension = .ok ⟨before ++ inner ++ after, notices⟩ ∧
    d.factoryFiles part s.extension = .ok ⟨inner, notices'⟩ ∧
    (∀ p ∈ inner, Path.components part <+: Path.components p) ∧
    (∀ p ∈ before ++ after, ¬ Path.components part <+: Path.components p) ∧
    ∃ found, (s.scanDirectory parse d part).value = some found ∧
      (s.scanDirectory parse d base).value = some
        (before.flatMap (s.entriesAt parse d) ++ found ++ after.flatMap (s.entriesAt parse d))

/-- On a disk whose names are text without backslashes, and for a directory whose path does not
begin with a dot, what a scan of a directory below it gives is one block of what the scan of the
directory gives, by any parser. For this the path of the part has to lead there as it is written,
and the directories above it have to give their names. -/
theorem scanDirectory_of_part (s : Settings) (parse : Parser) {d : Disk} (hd : d.Tidy)
    (htextual : d.Textual) (hplain : ∀ p ∈ d.items.map Prod.fst, ∀ x ∈ p, .char '\\' ∉ x)
    {base : Path} (hbase : d.isDirectory base = true)
    (hdot : (Path.components base).head? ≠ some .here)
    (hextension : IsLiteral s.extension.toList) {sub : Walk} (hsub : sub ≠ [])
    (hnames : ∀ x ∈ sub, IsName x) (hpart : d.isDirectory (written base sub) = true)
    (hlists : ∀ v, v <+: sub → v ≠ sub → d.Lists (written base v)) :
    s.IsBlock parse d base (written base sub) := by
  obtain ⟨place, hplace, hdirectory⟩ := isDirectory_eq_true.mp hbase
  obtain ⟨place', hplace', hdirectory'⟩ := isDirectory_eq_true.mp hpart
  have hne : base ≠ [] := (Fits.of_resolve hplace).nonempty
  have hdot' := not_dotted_of_components hdot
  have htext : ∀ x ∈ sub, ∃ text, x = glyphs text := by
    obtain ⟨ss, hss, -⟩ := exists_segments_ahead base hsub hnames
    intro x hx
    apply Path.exists_glyphs_iff.mp (htextual.exists_glyphs_of_resolve hplace')
    rw [written_eq hne hsub hnames, hss]
    exact List.mem_append_right ss hx
  obtain ⟨walks, notices, hcourse, hfiles⟩ :=
    exists_course hd htextual hplain hplace hdirectory hextension
  obtain ⟨inner, notices', hcourse', hfiles'⟩ :=
    exists_course hd htextual hplain hplace' hdirectory' hextension
  obtain ⟨before, after, hwalks, hbefore, hafter⟩ :=
    hcourse.exists_block hcourse' hplace hdirectory hdot' hsub hnames hpart hlists htext
  have hinner : (inner.map (sub ++ ·)).map (reached base) =
      inner.map (reached (written base sub)) := by
    rw [List.map_map]
    exact List.map_congr_left fun v _ => (reached_written hne hsub hnames v).symm
  rw [hwalks, List.map_append, List.map_append, hinner] at hfiles
  have hbelow : ∀ w ∈ walks, Path.components (written base sub) <+:
      Path.components (reached base w) ↔ sub <+: w := fun w hw =>
    components_prefix_iff hne hdot' hsub hnames (hcourse.isFileWalk hw)
  rw [hwalks] at hbelow
  simp only [List.forall_mem_append] at hbelow
  obtain ⟨⟨hbelowBefore, hbelowInner⟩, hbelowAfter⟩ := hbelow
  refine ⟨before.map (reached base), inner.map (reached (written base sub)),
    after.map (reached base), notices, notices', hfiles, hfiles', ?_, ?_, _,
    s.scanDirectory_of_files parse d _ hpart hfiles', ?_⟩
  · rw [← hinner, List.forall_mem_map]
    intro w hw
    obtain ⟨v, -, rfl⟩ := List.mem_map.mp hw
    exact (hbelowInner _ hw).mpr (List.prefix_append _ _)
  · rw [List.forall_mem_append, List.forall_mem_map, List.forall_mem_map]
    exact ⟨fun w hw hbegins => hbefore w hw ((hbelowBefore w hw).mp hbegins),
      fun w hw hbegins => hafter w hw ((hbelowAfter w hw).mp hbegins)⟩
  · rw [s.scanDirectory_of_files parse d _ hbase hfiles, List.flatMap_append, List.flatMap_append]
    simp only [Settings.contribution_value]

/-- A directory beside a directory and a file whose names go on from its name with characters that
come before the slash, and with a link to it. -/
def siblings : Disk where
  items :=
    [([['f']], .directory), ([['f'], ['a', '-', 'b']], .directory),
      ([['f'], ['a', '-', 'b'], ['x', '.', 'r', 'b']], .file []), ([['f'], ['a']], .directory),
      ([['f'], ['a'], ['y', '.', 'r', 'b']], .file []), ([['f'], ['a', '.', 'r', 'b']], .file []),
      ([['f'], ['l']], .link ['a'])]

/-- The files by way of the link are one block. -/
theorem scanDirectory_of_part_siblings :
    siblings.Tidy ∧ siblings.Textual ∧
    (∀ p ∈ siblings.items.map Prod.fst, ∀ x ∈ p, .char '\\' ∉ x) ∧
    siblings.isDirectory (glyphs ['f']) = true ∧
    (Path.components (glyphs ['f'])).head? ≠ some .here ∧
    IsLiteral ({} : Settings).extension.toList ∧
    siblings.isDirectory (written (glyphs ['f']) [['l']]) = true ∧
    siblings.Lists (glyphs ['f']) ∧
    ({} : Settings).IsBlock rubyParser siblings (glyphs ['f']) (glyphs ['f', '/', 'l']) := by
  have htidy : siblings.Tidy := by decide
  have htextual : siblings.Textual := by decide
  have hplain : ∀ p ∈ siblings.items.map Prod.fst, ∀ x ∈ p, .char '\\' ∉ x := by decide
  have hbase : siblings.isDirectory (glyphs ['f']) = true := by decide
  have hdot : (Path.components (glyphs ['f'])).head? ≠ some .here := by decide
  have hextension : IsLiteral ({} : Settings).extension.toList :=
    ⟨by decide, by decide, by decide, by decide⟩
  have hpart : siblings.isDirectory (written (glyphs ['f']) [['l']]) = true := by decide
  have hlists : ∀ v : Walk, v <+: [glyphs ['l']] → v ≠ [glyphs ['l']] →
      siblings.Lists (written (glyphs ['f']) v) := by
    intro v hv hne
    obtain rfl := (List.prefix_cons_iff.mp hv).resolve_right (by
      rintro ⟨t, rfl, ht⟩
      exact hne (by rw [List.prefix_nil.mp ht]))
    decide
  exact ⟨htidy, htextual, hplain, hbase, hdot, hextension, hpart, by decide,
    scanDirectory_of_part {} rubyParser htidy htextual hplain hbase hdot hextension (by simp)
      (by decide) hpart hlists⟩

/-- The file `a.rb` comes before what is below `a`, and not between. -/
example : siblings.factoryFiles (glyphs ['f']) "rb" =
    .ok ⟨["f/a-b/x.rb", "f/a.rb", "f/a/y.rb", "f/l/y.rb"].map Path.ofText, []⟩ := by
  cbv

/-! ### Parts that are no block -/

/-- A directory at the end of names below a directory whose path does not begin with a dot, with no
backslash in any name on the disk. -/
structure Disk.HasPart (d : Disk) (base : Path) (sub : Walk) : Prop where
  tidy : d.Tidy
  plain : ∀ p ∈ d.items.map Prod.fst, ∀ x ∈ p, .char '\\' ∉ x
  undotted : (Path.components base).head? ≠ some .here
  names : ∀ x ∈ sub, IsName x
  leads : ∃ place, d.resolve base = .ok place ∧ d.item? place = some .directory ∧
    d.item? (place ++ sub) = some .directory

/-- A name that is no text. -/
def veil : List Glyph := [.broken [0xff]]

/-- A directory of that name, with a file in it. -/
def veiled : Disk where
  items :=
    [([['f']], .directory), ([['f'], veil], .directory),
      ([['f'], veil, ['a', '.', 'r', 'b']], .file [])]

/-- The directory above finds the file, the directory itself does not: what is shown of its name is
another name. -/
theorem not_isBlock_veiled :
    veiled.HasPart (glyphs ['f']) [veil] ∧
    (({} : Settings).scanDirectory ubiquitous veiled (glyphs ['f'])).value =
      some [⟨"user", none⟩] ∧
    (({} : Settings).scanDirectory ubiquitous veiled (written (glyphs ['f']) [veil])).value =
      some [] ∧
    ¬ ({} : Settings).IsBlock ubiquitous veiled (glyphs ['f'])
      (written (glyphs ['f']) [veil]) := by
  have hfiles : veiled.factoryFiles (glyphs ['f']) "rb" =
      .ok ⟨[written (glyphs ['f']) [veil, ['a', '.', 'r', 'b']]], []⟩ := by
    decide +kernel
  have hinner : veiled.factoryFiles (written (glyphs ['f']) [veil]) "rb" = .ok ⟨[], []⟩ := by
    decide +kernel
  have hbase : veiled.isDirectory (glyphs ['f']) = true := by decide
  have hpart : veiled.isDirectory (written (glyphs ['f']) [veil]) = true := by decide
  refine ⟨⟨by decide, by decide, by decide, by decide, _, rfl, rfl, by decide⟩, ?_, ?_, ?_⟩
  · rw [Settings.scanDirectory_of_files {} ubiquitous veiled (glyphs ['f']) hbase hfiles]
    rfl
  · rw [Settings.scanDirectory_of_files {} ubiquitous veiled _ hpart hinner]
    rfl
  · rintro ⟨before, inner, after, notices, notices', hbase, hpart, -, houter, -⟩
    rw [hfiles] at hbase
    rw [hinner] at hpart
    obtain ⟨rfl, -⟩ := Report.mk.inj (Except.ok.inj hpart)
    obtain ⟨hblock, -⟩ := Report.mk.inj (Except.ok.inj hbase)
    rw [List.append_nil] at hblock
    rw [← hblock, List.forall_mem_singleton] at houter
    exact houter (by decide)

/-- Fifteen directories of that name, each in the one before, and a file in the last. -/
def deep : Disk where
  items := (List.range 15).map (fun k => (List.replicate (k + 1) longName, .directory)) ++
    [(List.replicate 15 longName ++ [glyphs ['a', '.', 'r', 'b']], .file [])]

/-- The path of the fourteenth, with more slashes in it than are needed. -/
def deepBase : Path :=
  Path.ofSegments (longName :: List.replicate 310 [] ++ List.replicate 13 longName)

/-- The directory above finds the file, but the path of the directory itself is too long to lead
there. -/
theorem not_isBlock_deep :
    deep.HasPart deepBase [longName] ∧ deep.Textual ∧
    (∃ records, (({} : Settings).scanDirectory ubiquitous deep deepBase).value = some records ∧
      ⟨"user", none⟩ ∈ records) ∧
    (({} : Settings).scanDirectory ubiquitous deep (written deepBase [longName])).value = none ∧
    ¬ ({} : Settings).IsBlock ubiquitous deep deepBase (written deepBase [longName]) := by
  have htidy : deep.Tidy := by decide +kernel
  have htextual : deep.Textual := by decide +kernel
  have hplain : ∀ p ∈ deep.items.map Prod.fst, ∀ x ∈ p, .char '\\' ∉ x := by decide +kernel
  have hplace : deep.resolve deepBase = .ok (List.replicate 14 longName) := by decide +kernel
  have hdirectory : deep.item? (List.replicate 14 longName) = some .directory := by
    decide +kernel
  have hmissing :
      (({} : Settings).scanDirectory ubiquitous deep (written deepBase [longName])).value =
        none := by
    have hpart : deep.isDirectory (written deepBase [longName]) = false := by decide +kernel
    simp [Settings.scanDirectory, hpart]
  refine ⟨⟨htidy, hplain, by decide +kernel, by decide +kernel, _, hplace, hdirectory,
    by decide +kernel⟩, htextual, ?_, hmissing, ?_⟩
  · have hextension : IsLiteral ({} : Settings).extension.toList :=
      ⟨by decide, by decide, by decide, by decide⟩
    obtain ⟨walks, notices, hcourse, hfiles⟩ :=
      exists_course htidy htextual hplain hplace hdirectory hextension
    refine ⟨_, Settings.scanDirectory_of_files {} ubiquitous deep _
      (isDirectory_eq_true.mpr ⟨_, hplace, hdirectory⟩) hfiles, ?_⟩
    have hwalk : [longName, ['a', '.', 'r', 'b']] ∈ walks :=
      (hcourse.complete _).mpr ⟨by decide +kernel, by decide +kernel⟩
    refine List.mem_flatMap.mpr ⟨_, List.mem_map_of_mem hwalk, ?_⟩
    rw [Settings.contribution_value]
    decide +kernel
  · rintro ⟨before, inner, after, notices, notices', -, -, -, -, found, hfound, -⟩
    rw [hmissing] at hfound
    cases hfound

/-- A directory with a file, in a directory whose names may not be read. -/
def walled : Disk where
  items :=
    [([['f']], .directory), ([['f'], ['d']], .directory),
      ([['f'], ['d'], ['a', '.', 'r', 'b']], .file [])]
  closed := [[['f']]]

/-- The directory itself finds the file, the directory above does not. -/
theorem not_isBlock_walled :
    walled.HasPart (glyphs ['f']) [['d']] ∧ walled.Textual ∧
    (({} : Settings).scanDirectory ubiquitous walled (glyphs ['f'])).value = some [] ∧
    (({} : Settings).scanDirectory ubiquitous walled (written (glyphs ['f']) [['d']])).value =
      some [⟨"user", none⟩] ∧
    ¬ ({} : Settings).IsBlock ubiquitous walled (glyphs ['f'])
      (written (glyphs ['f']) [['d']]) := by
  have hfiles : walled.factoryFiles (glyphs ['f']) "rb" =
      .ok ⟨[], [.unlisted "f" .notPermitted]⟩ := by
    decide +kernel
  have hinner : walled.factoryFiles (written (glyphs ['f']) [['d']]) "rb" =
      .ok ⟨[glyphs ['f', '/', 'd', '/', 'a', '.', 'r', 'b']], []⟩ := by
    decide +kernel
  have hbase : walled.isDirectory (glyphs ['f']) = true := by decide
  have hpart : walled.isDirectory (written (glyphs ['f']) [['d']]) = true := by decide
  refine ⟨⟨by decide, by decide, by decide, by decide, _, rfl, rfl, by decide⟩, by decide, ?_, ?_,
    ?_⟩
  · rw [Settings.scanDirectory_of_files {} ubiquitous walled (glyphs ['f']) hbase hfiles]
    rfl
  · rw [Settings.scanDirectory_of_files {} ubiquitous walled _ hpart hinner]
    rfl
  · rintro ⟨before, inner, after, notices, notices', hbase, hpart, -⟩
    rw [hfiles] at hbase
    rw [hinner] at hpart
    obtain ⟨rfl, -⟩ := Report.mk.inj (Except.ok.inj hpart)
    obtain ⟨hblock, -⟩ := Report.mk.inj (Except.ok.inj hbase)
    simp at hblock

/-- A directory below another need not be a block of it: its name may be no text, its path may be
too long to lead there, and the directory above may not give its name. -/
theorem not_isBlock :
    (veiled.HasPart (glyphs ['f']) [veil] ∧
      (({} : Settings).scanDirectory ubiquitous veiled (glyphs ['f'])).value =
        some [⟨"user", none⟩] ∧
      (({} : Settings).scanDirectory ubiquitous veiled (written (glyphs ['f']) [veil])).value =
        some [] ∧
      ¬ ({} : Settings).IsBlock ubiquitous veiled (glyphs ['f'])
        (written (glyphs ['f']) [veil])) ∧
    (deep.HasPart deepBase [longName] ∧ deep.Textual ∧
      (∃ records, (({} : Settings).scanDirectory ubiquitous deep deepBase).value = some records ∧
        ⟨"user", none⟩ ∈ records) ∧
      (({} : Settings).scanDirectory ubiquitous deep (written deepBase [longName])).value = none ∧
      ¬ ({} : Settings).IsBlock ubiquitous deep deepBase (written deepBase [longName])) ∧
    (walled.HasPart (glyphs ['f']) [['d']] ∧ walled.Textual ∧
      (({} : Settings).scanDirectory ubiquitous walled (glyphs ['f'])).value = some [] ∧
      (({} : Settings).scanDirectory ubiquitous walled (written (glyphs ['f']) [['d']])).value =
        some [⟨"user", none⟩] ∧
      ¬ ({} : Settings).IsBlock ubiquitous walled (glyphs ['f'])
        (written (glyphs ['f']) [['d']])) :=
  ⟨not_isBlock_veiled, not_isBlock_deep, not_isBlock_walled⟩

end FactoryRoster
