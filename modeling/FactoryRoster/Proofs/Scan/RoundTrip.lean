import FactoryRoster.Proofs.Source.Registrations
import FactoryRoster.Proofs.Source.Shape
import FactoryRoster.Scan

/-!
# A roster is read back from its listing

The lines that declare a roster are a program, and the entries found in it are those of the roster,
in their order: every name and trait may hold any characters, and notes may stand before any line
and after the last one.
-/

namespace FactoryRoster

open Source

/-! ### Lines of entries -/

/-- A declaration of an entry: the call of the factory, with its traits in the block. -/
abbrev DeclaresEntry (e : Entry) (c : Call) : Prop :=
  DeclaresWithBlock factoryWord e.name (fun t call => call = bareDeclaration traitWord t)
    e.traitList c

theorem declaration_eq (word : List Char) (name : String) (rest : List Char) :
    declaration word name ++ rest = word ++ ' ' :: (quoted name.toList ++ rest) := by
  simp [declaration]

/-- Lines of several declarations are told apart. -/
theorem exists_items {α : Type} (kind : α → Call → Prop) (linesOf : α → List (List Char))
    {as : List α} {body : List NotedLine}
    (hlines : ∀ a ∈ as, ∀ lines, lines.map NotedLine.code = linesOf a →
      (∀ l ∈ lines, l ∈ body) → BeginsWithWord lines ∧ (∀ l ∈ lines, l.Plain) ∧
        ReadAs (kind a) lines)
    (hbody : body.map NotedLine.code = as.flatMap linesOf) :
    ∃ items : List (α × List NotedLine), items.map Prod.fst = as ∧
      items.flatMap Prod.snd = body ∧ Declared kind items := by
  induction as generalizing body with
  | nil =>
      rw [List.flatMap_nil, List.map_eq_nil_iff] at hbody
      exact ⟨[], rfl, by rw [hbody]; rfl, by simp, by simp, by simp⟩
  | cons a as ih =>
      rw [List.flatMap_cons, List.map_eq_append_iff] at hbody
      obtain ⟨own, others, rfl, hown, hothers⟩ := hbody
      obtain ⟨hword, hplain, hread⟩ :=
        hlines a List.mem_cons_self own hown fun l hl => List.mem_append_left _ hl
      obtain ⟨items, hfst, hsnd, hitems⟩ := ih (fun b hb lines hcode hmem =>
        hlines b (List.mem_cons_of_mem _ hb) lines hcode fun l hl =>
          List.mem_append_right _ (hmem l hl)) hothers
      refine ⟨(a, own) :: items, by rw [List.map_cons, hfst], by rw [List.flatMap_cons, hsnd],
        ?_, ?_, ?_⟩ <;> simp only [List.forall_mem_cons]
      · exact ⟨hword, hitems.words⟩
      · exact ⟨hplain, hitems.plain⟩
      · exact ⟨hread, hitems.read⟩

section Lines

variable {lines : List NotedLine}
  (hnotes : ∀ l ∈ lines, ∀ note ∈ l.notes, ∀ c ∈ note, isControl c = false)

include hnotes

theorem readAs_bareLines {word : List Char} (hword : IsWord word) {name : String}
    (hcode : lines.map NotedLine.code = [declaration word name]) :
    BeginsWithWord lines ∧ (∀ l ∈ lines, l.Plain) ∧
      ReadAs (· = bareDeclaration word name) lines := by
  rw [List.map_eq_singleton_iff] at hcode
  obtain ⟨l, rfl, hl⟩ := hcode
  refine ⟨beginsWithWord_of_word hword hl [], fun other hother => ?_,
    readAs_declaration hword (isArgument_quoted _) hl⟩
  rw [List.mem_singleton] at hother
  subst hother
  exact NotedLine.Plain.of_word hword hl (hnotes other List.mem_cons_self)

theorem exists_traits {traits : List String}
    (hcode : lines.map NotedLine.code = traits.map (declaration traitWord)) :
    ∃ items : List (String × List NotedLine), items.map Prod.fst = traits ∧
      items.flatMap Prod.snd = lines ∧
      Declared (fun t call => call = bareDeclaration traitWord t) items := by
  refine exists_items _ (fun t => [declaration traitWord t]) (fun t _ own hown hmem => ?_) ?_
  · exact readAs_bareLines (fun l hl => hnotes l (hmem l hl)) isWord_traitWord hown
  · rw [hcode, List.map_eq_flatMap]

theorem readAs_entryLines {e : Entry} (hcode : lines.map NotedLine.code = e.lines) :
    BeginsWithWord lines ∧ (∀ l ∈ lines, l.Plain) ∧ ReadAs (DeclaresEntry e) lines := by
  unfold Entry.lines at hcode
  cases htraits : e.traitList with
  | nil =>
      rw [htraits] at hcode
      obtain ⟨hword, hplain, hread⟩ := readAs_bareLines hnotes isWord_factoryWord hcode
      refine ⟨hword, hplain, hread.mono ?_⟩
      rintro c rfl
      exact ⟨rfl, rfl, by rw [htraits]; exact .nil⟩
  | cons trait traits =>
      rw [htraits] at hcode
      have hsplit : lines.map NotedLine.code =
          (declaration factoryWord e.name ++ opening) ::
            (e.traitList.map (declaration traitWord) ++ [closing]) := by
        rw [hcode, htraits]
        rfl
      rw [List.map_eq_cons_iff] at hsplit
      obtain ⟨l, rest, rfl, hl, hrest⟩ := hsplit
      rw [List.map_eq_append_iff] at hrest
      obtain ⟨inner, ends, rfl, hinner, hends⟩ := hrest
      rw [List.map_eq_singleton_iff] at hends
      obtain ⟨last, rfl, hclosing⟩ := hends
      obtain ⟨items, hfst, rfl, hitems⟩ := exists_traits
        (fun l hl => hnotes l (List.mem_cons_of_mem _ (List.mem_append_left _ hl))) hinner
      have hspelled := hl.trans (declaration_eq ..)
      have hfirst : l.Plain :=
        NotedLine.Plain.of_word isWord_factoryWord hspelled (hnotes l List.mem_cons_self)
      have hlast : last.Plain := NotedLine.Plain.of_closing hclosing (hnotes last (by simp))
      refine ⟨beginsWithWord_of_word isWord_factoryWord hspelled _, ?_, ?_⟩
      · simp only [List.forall_mem_cons, List.forall_mem_append]
        refine ⟨hfirst, fun other hother => ?_, hlast, by simp⟩
        rw [List.mem_flatMap] at hother
        obtain ⟨i, hi, hother⟩ := hother
        exact hitems.plain i hi other hother
      · have hread := readAs_declarationWithBlock isWord_factoryWord (isArgument_quoted _)
          hitems hl hlast hclosing
        rw [hfst] at hread
        exact hread

end Lines

/-! ### Entries of declarations -/

theorem declaredName_of_argument {c : Call} {name : String} (hc : c.arguments = [.string name])
    (hname : name ≠ "") : c.declaredName = .ok name := by
  simp [Call.declaredName, Call.firstArgument?, hc, hname]

/-- Calls that each yield one thing yield a list of them. -/
theorem join_callsOf {α β : Type} {kind : α → Call → Prop} {method : String}
    {report : Call → Report (List β)} {value : α → β} {as : List α} {statements : List Node}
    (h : List.Forall₂ kind as (statements.filterMap Node.call?))
    (hmethod : ∀ a c, kind a c → c.method = method)
    (hreport : ∀ a ∈ as, ∀ c, kind a c → report c = ⟨[value a], []⟩) :
    Report.join ((callsOf method statements).map report) = ⟨as.map value, []⟩ := by
  unfold callsOf
  generalize statements.filterMap Node.call? = calls at h
  induction h with
  | nil => rfl
  | @cons a c as calls hac _ ih =>
      have htail := ih fun b hb => hreport b (List.mem_cons_of_mem _ hb)
      have hhead := hreport a List.mem_cons_self c hac
      have hfound : (c.method == method) = true := beq_iff_eq.mpr (hmethod a c hac)
      simp only [Report.join, Report.mk.injEq] at htail
      rw [List.filter_cons_of_pos (p := fun call : Call => call.method == method) hfound]
      simp only [Report.join, List.map_cons, List.flatMap_cons, hhead, htail.1, htail.2,
        List.singleton_append, List.nil_append]

theorem traits_of_declared {traits : List String} {statements : List Node}
    (h : List.Forall₂ (fun t call => call = bareDeclaration traitWord t) traits
      (statements.filterMap Node.call?))
    (htraits : ∀ t ∈ traits, t ≠ "") :
    Conventions.traits {} statements = ⟨traits, []⟩ := by
  have hjoin : Report.join ((callsOf "trait" statements).map Conventions.trait) =
      ⟨traits.map id, []⟩ := by
    refine join_callsOf h ?_ ?_
    · rintro t c rfl
      rfl
    · rintro t ht c rfl
      rw [Conventions.trait, declaredName_of_argument rfl (htraits t ht)]
      rfl
  rw [List.map_id] at hjoin
  exact hjoin

theorem declared_of_entries {entries : Roster} {es : List Expr}
    (h : List.Forall₂ DeclaresEntry entries (callsWithin es))
    (hnames : ∀ e ∈ entries, e.name ≠ "" ∧ ∀ t ∈ e.traitList, t ≠ "") :
    Conventions.declared {} (registrationOf es) =
      ⟨entries.map fun e => .ofTraits e.name e.traitList, []⟩ := by
  refine join_callsOf h (fun e c hc => hc.method) fun e he c hc => ?_
  obtain ⟨hname, htraits⟩ := hnames e he
  rw [Conventions.factory, declaredName_of_argument hc.arguments hname]
  simp only [traits_of_declared hc.block htraits]

/-- The registration of a program is the first call among its statements that is one. -/
theorem registration?_of_programStatements? {text : List Char} {statements : List Expr}
    (h : programStatements? text = some statements) (k : Conventions) :
    (Expr.program statements).toNode.registration? k =
      (callsAmong statements).find? k.registers := by
  apply firstRegistration?_eq_find?_call?
  intro n hn
  obtain ⟨e, he, rfl⟩ := exists_of_mem_listToNodes (arePlain_programStatements? h) hn
  exact he.not_isContainer

/-- A roster is read back from the lines that declare it, with no notice. Notes may stand on lines
of their own between these lines and after them. -/
theorem entriesInSource_listing {entries : Roster} {lines : List NotedLine} {ending : List Char}
    (hlines : lines.map NotedLine.code = Roster.lines entries)
    (hnotes : ∀ l ∈ lines, ∀ note ∈ l.notes, ∀ c ∈ note, isControl c = false)
    (hending : IsEnding ending)
    (hnames : ∀ e ∈ entries, e.name ≠ "" ∧ ∀ t ∈ e.traitList, t ≠ "")
    (s : Settings) (hs : s.conventions = {}) (origin : String) :
    s.entriesInSource rubyParser (String.ofList (textOf lines ++ ending)) origin =
        ⟨.ok (entries.map fun e => .ofTraits e.name e.traitList), []⟩ ∧
      ((∀ e ∈ entries, e.traits ≠ some []) →
        s.entriesInSource rubyParser (String.ofList (textOf lines ++ ending)) origin =
          ⟨.ok entries, []⟩) := by
  have hread : s.entriesInSource rubyParser (String.ofList (textOf lines ++ ending)) origin =
      ⟨.ok (entries.map fun e => .ofTraits e.name e.traitList), []⟩ := by
    unfold Roster.lines at hlines
    rw [List.cons_append, List.map_eq_cons_iff] at hlines
    obtain ⟨first, rest, rfl, hfirst, hrest⟩ := hlines
    rw [List.map_eq_append_iff] at hrest
    obtain ⟨body, ends, rfl, hbody, hends⟩ := hrest
    rw [List.map_eq_singleton_iff] at hends
    obtain ⟨last, rfl, hclosing⟩ := hends
    obtain ⟨items, hfst, rfl, hitems⟩ := exists_items DeclaresEntry Entry.lines
      (fun e _ own hown hmem => readAs_entryLines
        (fun l hl => hnotes l (List.mem_cons_of_mem _ (List.mem_append_left _ (hmem l hl)))) hown)
      hbody
    have hlast : last.Plain := ⟨hnotes last (by simp), 'e', ['n', 'd'], hclosing, by decide⟩
    obtain ⟨statements, es, hstatements, hcalls, hkinds⟩ :=
      programStatements_of_registration hitems hfirst (hnotes first List.mem_cons_self) hlast
        hclosing hending
    rw [hfst] at hkinds
    have hregistration : (Expr.program statements).toNode.registration? {} =
        some (registrationOf es) := by
      rw [registration?_of_programStatements? hstatements, hcalls]
      rfl
    have hparse : parse? (String.ofList (textOf (first :: (items.flatMap Prod.snd ++ [last])) ++
        ending)) = some (Expr.program statements).toNode := by
      rw [parse?_ofList, ← List.cons_append, hstatements, Option.map_some]
    simp only [Settings.entriesInSource, rubyParser, hparse, Settings.collect, hs,
      Conventions.entries, hregistration, declared_of_entries hkinds hnames, List.nil_append]
  refine ⟨hread, fun hlists => ?_⟩
  have hsame : (entries.map fun e => Entry.ofTraits e.name e.traitList) = entries :=
    calc
      _ = entries.map id := List.map_congr_left fun e he => Entry.ofTraits_traitList (hlists e he)
      _ = entries := List.map_id entries
  rw [hread, hsame]

/-- A roster whose names look like code: a quote, a reserved word, a backslash, an interpolation. -/
def oddRoster : Roster :=
  [{ name := "it's", traits := some ["end", "a\\"] }, { name := "#\x7bé\x7d" }]

/-- The lines of `oddRoster`, with notes before two of them. -/
def oddLines : List NotedLine :=
  [{ code := registrationLine },
    { notes := [[' ', 'd', 'o'], []], code := declaration factoryWord "it's" ++ opening },
    { code := declaration traitWord "end" },
    { code := declaration traitWord "a\\" },
    { code := closing },
    { notes := [['\'']], code := declaration factoryWord "#\x7bé\x7d" },
    { code := closing }]

theorem entriesInSource_listing_oddRoster :
    oddLines.map NotedLine.code = Roster.lines oddRoster ∧
      (∀ l ∈ oddLines, ∀ note ∈ l.notes, ∀ c ∈ note, isControl c = false) ∧
      IsEnding ['\n'] ∧
      (∀ e ∈ oddRoster, e.name ≠ "" ∧ ∀ t ∈ e.traitList, t ≠ "") ∧
      (∀ e ∈ oddRoster, e.traits ≠ some []) ∧
      Settings.entriesInSource {} rubyParser (String.ofList (textOf oddLines ++ ['\n'])) "odd.rb" =
        ⟨.ok oddRoster, []⟩ := by
  have hlines : oddLines.map NotedLine.code = Roster.lines oddRoster := by decide
  have hnotes : ∀ l ∈ oddLines, ∀ note ∈ l.notes, ∀ c ∈ note, isControl c = false := by
    have hall : (oddLines.all fun l => l.notes.all fun note => note.all (!isControl ·)) = true := by
      decide
    simpa only [List.all_eq_true, Bool.not_eq_true'] using hall
  have hending : IsEnding ['\n'] := .inr ⟨[], by simp, rfl⟩
  have hnames : ∀ e ∈ oddRoster, e.name ≠ "" ∧ ∀ t ∈ e.traitList, t ≠ "" := by decide
  have hlists : ∀ e ∈ oddRoster, e.traits ≠ some [] := by decide
  exact ⟨hlines, hnotes, hending, hnames, hlists,
    (entriesInSource_listing hlines hnotes hending hnames {} rfl "odd.rb").2 hlists⟩

end FactoryRoster
