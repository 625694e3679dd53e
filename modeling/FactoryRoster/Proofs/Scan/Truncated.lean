import FactoryRoster.Proofs.Scan.RoundTrip
import FactoryRoster.Proofs.Source.Unclosed

/-!
# A listing that breaks off

The listing of a roster without its last characters has no entries: it is no program, or it breaks
off before its block and registers nothing. So no part of a roster is ever taken for the whole.
-/

namespace FactoryRoster

open Source

/-- The listing of a roster, without notes. -/
def Roster.listing (entries : Roster) : List Char :=
  textOf ((Roster.lines entries).map fun code => { code })

/-! ### Where a listing may break off -/

/-- The declaration of an entry may break off anywhere. -/
theorem exists_breakable (e : Entry) :
    ∃ item, Breakable item ∧ e.lines.flatMap (· ++ ['\n']) = item ++ ['\n'] := by
  unfold Entry.lines
  cases htraits : e.traitList with
  | nil =>
      exact ⟨_, breakable_declaration isFreeWord_factoryWord e.name, by simp⟩
  | cons trait traits =>
      let codes : List (List Char) := (trait :: traits).map (declaration traitWord)
      let lines : List NotedLine := codes.map fun code => { code }
      have hnotes : ∀ l ∈ lines, ∀ note ∈ l.notes, ∀ c ∈ note, isControl c = false := by
        simp [lines]
      have hlines : lines.map NotedLine.code = (trait :: traits).map (declaration traitWord) := by
        simp only [lines, codes, List.map_map, Function.comp_def]
      obtain ⟨items, -, hcodes, hitems⟩ := exists_traits hnotes hlines
      have hbreakable : ∀ code ∈ codes, Breakable code := by
        intro code hcode
        obtain ⟨t, -, rfl⟩ := List.mem_map.mp hcode
        exact breakable_declaration isFreeWord_traitWord t
      refine ⟨_, breakable_block isFreeWord_factoryWord e.name hitems hcodes hbreakable, ?_⟩
      simp [codes]

theorem exists_breakables (entries : Roster) :
    ∃ items : List (List Char), (∀ i ∈ items, Breakable i) ∧
      (entries.flatMap Entry.lines).flatMap (· ++ ['\n']) = items.flatMap (· ++ ['\n']) := by
  induction entries with
  | nil => exact ⟨[], by simp, rfl⟩
  | cons e entries ih =>
      obtain ⟨items, hitems, htail⟩ := ih
      obtain ⟨item, hitem, hhead⟩ := exists_breakable e
      refine ⟨item :: items, List.forall_mem_cons.mpr ⟨hitem, hitems⟩, ?_⟩
      rw [List.flatMap_cons, List.flatMap_append, hhead, htail, List.flatMap_cons]

theorem listing_eq (entries : Roster) :
    entries.listing = registrationLine ++
      ('\n' :: ((entries.flatMap Entry.lines).flatMap (· ++ ['\n']) ++ ['e', 'n'])) ++ ['d'] := by
  have hlines := textOf_append { code := registrationLine }
    ((entries.flatMap Entry.lines ++ [closing]).map fun code => { code }) []
  rw [List.append_nil] at hlines
  rw [Roster.listing, Roster.lines, List.cons_append, List.map_cons, hlines, textFrom,
    textAfter_bareLines]
  simp [noteLines, closing]

/-- What is left of a listing that breaks off: a part of its first line, or that line and a block
that is not closed. -/
theorem take_listing_cases {entries : Roster} {n : Nat} (hn : n < entries.listing.length) :
    entries.listing.take n = registrationLine.take n ∧ n < registrationLine.length ∨
      ∃ rest, entries.listing.take n = registrationLine ++ rest ∧ BreaksOff rest := by
  have hproper : entries.listing.take n ≠ entries.listing := by
    intro heq
    have hlength := congrArg List.length heq
    rw [List.length_take] at hlength
    omega
  have hpart := List.take_prefix n entries.listing
  nth_rewrite 2 [listing_eq] at hpart
  rw [List.prefix_concat_iff, ← listing_eq, or_iff_right hproper] at hpart
  rcases prefix_append_cases hpart with hline | ⟨rest, hrest, hopen⟩
  · rcases Nat.lt_or_ge n registrationLine.length with hlt | hge
    · refine .inl ⟨?_, hlt⟩
      rw [List.prefix_iff_eq_take.mp hline, List.length_take, Nat.min_eq_left hn.le]
    · refine .inr ⟨[], ?_, .inl rfl⟩
      rw [List.append_nil]
      refine hline.eq_of_length_le ?_
      rw [List.length_take, Nat.min_eq_left hn.le]
      exact hge
  · refine .inr ⟨rest, hrest, ?_⟩
    rw [List.prefix_cons_iff] at hopen
    rcases hopen with rfl | ⟨text, rfl, htext⟩
    · exact .inl rfl
    · obtain ⟨items, hitems, hlines⟩ := exists_breakables entries
      rw [hlines] at htext
      exact .inr ⟨text, rfl, leftOpen_of_breakable hitems htext⟩

/-! ### Entries of what is left -/

/-- No call with a block is read of a part of the first line. -/
theorem programStatements_registrationLine : ∀ n < registrationLine.length,
    ((programStatements? (registrationLine.take n)).all fun statements =>
      (callsAmong statements).all fun c => c.block.isNone) = true := by
  decide +kernel

theorem entries_of_no_block {text : List Char} {statements : List Expr}
    (htext : programStatements? text = some statements) (k : Conventions)
    (h : ∀ c ∈ callsAmong statements, c.block.isNone = true) :
    k.entries (Expr.program statements).toNode = ⟨[], []⟩ := by
  have hnone : (Expr.program statements).toNode.registration? k = none := by
    rw [registration?_of_programStatements? htext, List.find?_eq_none]
    intro c hc
    simp [Conventions.registers, Option.isNone_iff_eq_none.mp (h c hc)]
  rw [Conventions.entries, hnone]

/-- A listing that breaks off before its last character has no entries: it has broken syntax, or it
is a program that registers nothing. Once its first line is whole, its syntax is broken. -/
theorem entriesInSource_truncated (entries : Roster) (ending : List Char) {n : Nat}
    (hn : n < entries.listing.length) (s : Settings) (origin : String) :
    let source := String.ofList ((entries.listing ++ ending).take n)
    ((s.entriesInSource rubyParser source origin).value = .error (.brokenSyntax origin) ∨
      (s.entriesInSource rubyParser source origin).value = .ok []) ∧
    (registrationLine.length ≤ n →
      (s.entriesInSource rubyParser source origin).value = .error (.brokenSyntax origin)) := by
  intro source
  have hsource : source = String.ofList (entries.listing.take n) := by
    exact congrArg String.ofList (List.take_append_of_le_length hn.le)
  rcases take_listing_cases hn with ⟨htake, hlt⟩ | ⟨rest, htake, hrest⟩
  · refine ⟨?_, fun hle => absurd hle (Nat.not_le.mpr hlt)⟩
    have hcalls := programStatements_registrationLine n hlt
    cases hread : programStatements? (registrationLine.take n) with
    | none =>
        have hparse : parse? source = none := by
          rw [hsource, parse?_ofList, htake, hread, Option.map_none]
        simp only [Settings.entriesInSource, rubyParser, hparse, Settings.collect, true_or]
    | some statements =>
        have hparse : parse? source = some (Expr.program statements).toNode := by
          rw [hsource, parse?_ofList, htake, hread, Option.map_some]
        rw [hread, Option.all_some, List.all_eq_true] at hcalls
        simp only [Settings.entriesInSource, rubyParser, hparse, Settings.collect,
          entries_of_no_block hread s.conventions hcalls, or_true]
  · have hparse : parse? source = none := by
      rw [hsource, parse?_ofList, htake, programStatements_of_breaksOff hrest, Option.map_none]
    simp only [Settings.entriesInSource, rubyParser, hparse, Settings.collect, true_or,
      implies_true, and_self]

theorem entriesInSource_truncated_oddRoster :
    61 < oddRoster.listing.length ∧ registrationLine.length ≤ 61 ∧
      (Settings.entriesInSource {} rubyParser
        (String.ofList ((oddRoster.listing ++ ['\n']).take 61)) "odd.rb").value =
          .error (.brokenSyntax "odd.rb") := by
  have hn : 61 < oddRoster.listing.length := by decide
  have hline : registrationLine.length ≤ 61 := by decide
  exact ⟨hn, hline, (entriesInSource_truncated oddRoster ['\n'] hn {} "odd.rb").2 hline⟩

end FactoryRoster
