import FactoryRoster.Proofs.Scan.RoundTrip
import FactoryRoster.Proofs.Source.Names

/-!
# The spelling of a name does not matter

A factory and its trait are found under their names, whichever literals spell these names and
whichever scope the registration names its receiver in. A name may be a reserved word.
-/

namespace FactoryRoster

open Source

/-- The lines that register a factory with one trait, each named by a literal. -/
def spelledLines (scope factory trait : List Char) : List (List Char) :=
  [scope ++ registrationLine, factoryWord ++ ' ' :: factory ++ opening, traitWord ++ ' ' :: trait,
    closing, closing]

/-- The entries of a program with one registration are those that its block declares. -/
theorem entriesInSource_of_registration {text : List Char} {statements es : List Expr}
    {entries : Roster} (htext : programStatements? text = some statements)
    (hcalls : callsAmong statements = [registrationOf es])
    (hkinds : List.Forall₂ DeclaresEntry entries (callsWithin es))
    (hnames : ∀ e ∈ entries, e.name ≠ "" ∧ ∀ t ∈ e.traitList, t ≠ "") {s : Settings}
    (hs : s.conventions = {}) (origin : String) :
    s.entriesInSource rubyParser (String.ofList text) origin =
      ⟨.ok (entries.map fun e => .ofTraits e.name e.traitList), []⟩ := by
  have hregistration : (Expr.program statements).toNode.registration? {} =
      some (registrationOf es) := by
    rw [registration?_of_programStatements? htext, hcalls]
    rfl
  have hparse : parse? (String.ofList text) = some (Expr.program statements).toNode := by
    rw [parse?_ofList, htext, Option.map_some]
  simp only [Settings.entriesInSource, rubyParser, hparse, Settings.collect, hs,
    Conventions.entries, hregistration, declared_of_entries hkinds hnames, List.nil_append]

section Declared

variable {factory trait : String} {literal literal' : List Char}
  (hfactory : IsArgument literal factory.toList) (htrait : IsArgument literal' trait.toList)
  {opens inner closes : NotedLine} (hopens : opens.code = factoryWord ++ ' ' :: literal ++ opening)
  (hinner : inner.code = traitWord ++ ' ' :: literal') (hcloses : closes.code = closing)
  (hnotes : ∀ l ∈ [opens, inner, closes], ∀ note ∈ l.notes, ∀ c ∈ note, isControl c = false)

include hfactory htrait hopens hinner hcloses hnotes

/-- Three lines declare a factory with one trait, whatever arguments name them. -/
theorem declared_of_arguments :
    Declared DeclaresEntry [(Entry.ofTraits factory [trait], [opens, inner, closes])] := by
  simp only [List.forall_mem_cons] at hnotes
  obtain ⟨hopensNotes, hinnerNotes, hclosesNotes, -⟩ := hnotes
  have hfirst : opens.Plain :=
    .of_word isWord_factoryWord (hopens.trans (List.append_assoc ..)) hopensNotes
  have hmiddle : inner.Plain := .of_word isWord_traitWord hinner hinnerNotes
  have hlast : closes.Plain := .of_closing hcloses hclosesNotes
  have htraits : Declared (fun t call => call = bareDeclaration traitWord t)
      [(trait, [inner])] := by
    refine ⟨?_, ?_, ?_⟩ <;> simp only [List.forall_mem_singleton]
    · exact beginsWithWord_of_word isWord_traitWord hinner []
    · exact hmiddle
    · exact readAs_declaration isWord_traitWord htrait hinner
  have hread := readAs_declarationWithBlock isWord_factoryWord hfactory htraits hopens hlast hcloses
  refine ⟨?_, ?_, ?_⟩ <;> simp only [List.forall_mem_singleton]
  · exact beginsWithWord_of_word isWord_factoryWord (hopens.trans (List.append_assoc ..)) _
  · simp only [List.forall_mem_cons]
    exact ⟨hfirst, hmiddle, hlast, by simp⟩
  · exact hread

end Declared

/-- A factory and its trait are found under their names in any two spellings, with no notice. Notes
may stand on lines of their own between the lines of the registration and after them. -/
theorem entriesInSource_of_spellings {scope : List Char} (hscope : IsScope scope)
    {factory trait : String} (hfactory : IsPlainName factory.toList)
    (htrait : IsPlainName trait.toList) (spelling spelling' : NameSpelling)
    {lines : List NotedLine} {ending : List Char}
    (hlines : lines.map NotedLine.code = spelledLines scope (spelling.written factory.toList)
      (spelling'.written trait.toList))
    (hnotes : ∀ l ∈ lines, ∀ note ∈ l.notes, ∀ c ∈ note, isControl c = false)
    (hending : IsEnding ending) (s : Settings) (hs : s.conventions = {}) (origin : String) :
    s.entriesInSource rubyParser (String.ofList (textOf lines ++ ending)) origin =
      ⟨.ok [{ name := factory, traits := some [trait] }], []⟩ := by
  simp only [spelledLines, List.map_eq_cons_iff, List.map_eq_nil_iff] at hlines
  obtain ⟨first, _, rfl, hfirst, opens, _, rfl, hopens, inner, _, rfl, hinner, closes, _, rfl,
    hcloses, last, _, rfl, hclosing, rfl⟩ := hlines
  rw [List.forall_mem_cons] at hnotes
  obtain ⟨hfirstNotes, hnotes⟩ := hnotes
  have hitems := declared_of_arguments (spelling.isArgument_written hfactory)
    (spelling'.isArgument_written htrait) hopens hinner hcloses
    fun l hl => hnotes l (List.mem_append_left [last] hl)
  have hlast : last.Plain := .of_closing hclosing (hnotes last (by simp))
  obtain ⟨statements, es, htext, hcalls, hkinds⟩ := programStatements_of_scopedRegistration hitems
    hscope hfirst hfirstNotes hlast hclosing hending
  have hnames : ∀ e ∈ [Entry.ofTraits factory [trait]],
      e.name ≠ "" ∧ ∀ t ∈ e.traitList, t ≠ "" := by
    simp only [List.forall_mem_singleton, Entry.traitList_ofTraits]
    exact ⟨hfactory.ne_empty, htrait.ne_empty⟩
  exact entriesInSource_of_registration htext hcalls hkinds hnames hs origin

/-- A registration in the outermost scope, whose names are reserved words. -/
def reservedLines : List NotedLine :=
  [{ code := ':' :: ':' :: registrationLine },
    { code := "factory :end do".toList },
    { notes := [[' ', 'd', 'o']], code := "trait %q(do)".toList },
    { code := closing },
    { code := closing }]

theorem entriesInSource_of_spellings_reserved :
    IsScope [':', ':'] ∧ IsPlainName "end".toList ∧ IsPlainName "do".toList ∧
      reservedLines.map NotedLine.code = spelledLines [':', ':']
        (NameSpelling.symbol.written "end".toList)
        (NameSpelling.percentString.written "do".toList) ∧
      (∀ l ∈ reservedLines, ∀ note ∈ l.notes, ∀ c ∈ note, isControl c = false) ∧
      IsEnding ['\n'] ∧
      Settings.entriesInSource {} rubyParser (String.ofList (textOf reservedLines ++ ['\n']))
        "reserved.rb" = ⟨.ok [{ name := "end", traits := some ["do"] }], []⟩ := by
  have hfactory : IsPlainName "end".toList := ⟨by decide, List.all_eq_true.mp (by decide)⟩
  have htrait : IsPlainName "do".toList := ⟨by decide, List.all_eq_true.mp (by decide)⟩
  have hlines : reservedLines.map NotedLine.code = spelledLines [':', ':']
      (NameSpelling.symbol.written "end".toList)
      (NameSpelling.percentString.written "do".toList) := by decide
  have hnotes : ∀ l ∈ reservedLines, ∀ note ∈ l.notes, ∀ c ∈ note, isControl c = false := by
    have hall : (reservedLines.all fun l => l.notes.all fun note => note.all (!isControl ·)) =
        true := by decide
    simpa only [List.all_eq_true, Bool.not_eq_true'] using hall
  have hending : IsEnding ['\n'] := .inr ⟨[], by simp, rfl⟩
  exact ⟨.outermost, hfactory, htrait, hlines, hnotes, hending,
    entriesInSource_of_spellings .outermost hfactory htrait .symbol .percentString hlines hnotes
      hending {} rfl "reserved.rb"⟩

end FactoryRoster
