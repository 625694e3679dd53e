import Mathlib.Data.List.Forall2
import FactoryRoster.Proofs.Disk.Refusals
import FactoryRoster.Proofs.Scan.Files
import FactoryRoster.Proofs.Scan.Found
import FactoryRoster.Proofs.Scan.Turns

/-!
# What a log accounts for

The log of a scan is made of one notice per directory that is passed over, one account per file, in
the order of the files, and a last notice that sums the accounts up. An account is closed by one
notice, which says how many entries the file gave or why it was skipped (`Settings.Accounts`). So
nothing is left out without a notice, and the numbers in the log are those of the roster.
-/

namespace FactoryRoster

namespace Notice

/-- How many entries a notice says a file gave. -/
def extractedCount? : Notice → Option Nat
  | extracted count _ => some count
  | _ => none

/-- Whether a notice says that a file was skipped. -/
def isSkipped : Notice → Bool
  | skipped .. => true
  | _ => false

/-- Whether a notice accounts for a file or for the whole scan. -/
def isTally : Notice → Bool
  | extracted .. | skipped .. | loaded .. => true
  | _ => false

end Notice

/-- A parser that says nothing by which a log accounts for files. -/
def Parser.Quiet (parse : Parser) : Prop :=
  ∀ source origin, ∀ n ∈ (parse source origin).notices, n.isTally = false

theorem rubyParser_quiet : rubyParser.Quiet := by
  intro source origin n hn
  unfold rubyParser at hn
  split at hn
  · cases hn
  · obtain rfl := List.mem_singleton.mp hn
    rfl

/-- What is said of one file, and what it gave. -/
structure Account where
  /-- What the parser said. -/
  parsing : List Notice
  /-- What was said of declarations without a name. -/
  declarations : List Notice
  entries : Roster
  /-- The notice that closes the account. -/
  closing : Notice

/-- The notices of an account. -/
def Account.notices (a : Account) : List Notice :=
  a.parsing ++ a.declarations ++ [a.closing]

theorem Report.mem_notices_join {α : Type} {reports : List (Report (List α))} {n : Notice} :
    n ∈ (join reports).notices ↔ ∃ r ∈ reports, n ∈ r.notices :=
  List.mem_flatMap

namespace Conventions

variable (k : Conventions)

/-- A notice of a declaration without a name. -/
def IsNameless (n : Notice) : Prop :=
  ∃ lack, n = .nameless k.factoryWord lack ∨ n = .nameless k.traitWord lack

variable {k}

theorem IsNameless.isTally {n : Notice} (h : k.IsNameless n) : n.isTally = false := by
  obtain ⟨lack, rfl | rfl⟩ := h <;> rfl

theorem method_of_mem_callsOf {method : String} {statements : List Node} {c : Call}
    (hc : c ∈ callsOf method statements) : c.method = method :=
  beq_iff_eq.mp (List.mem_filter.mp hc).2

theorem isNameless_of_mem_traits {statements : List Node} {n : Notice}
    (hn : n ∈ (k.traits statements).notices) : k.IsNameless n := by
  obtain ⟨r, hr, hn⟩ := Report.mem_notices_join.mp hn
  obtain ⟨c, hc, rfl⟩ := List.mem_map.mp hr
  unfold trait at hn
  split at hn
  · cases hn
  · rename_i lack _
    obtain rfl := List.mem_singleton.mp hn
    exact ⟨lack, .inr (by rw [method_of_mem_callsOf hc])⟩

theorem isNameless_of_mem_declared {c : Call} {n : Notice}
    (hn : n ∈ (k.declared c).notices) : k.IsNameless n := by
  obtain ⟨r, hr, hn⟩ := Report.mem_notices_join.mp hn
  obtain ⟨c, hc, rfl⟩ := List.mem_map.mp hr
  unfold factory at hn
  split at hn
  · exact isNameless_of_mem_traits hn
  · rename_i lack _
    obtain rfl := List.mem_singleton.mp hn
    exact ⟨lack, .inl (by rw [method_of_mem_callsOf hc])⟩

/-- All that is said of the declarations of a tree is that some have no name. -/
theorem isNameless_of_mem_entries {tree : Node} {n : Notice}
    (hn : n ∈ (k.entries tree).notices) : k.IsNameless n := by
  unfold entries at hn
  split at hn
  · exact isNameless_of_mem_declared hn
  · cases hn

end Conventions

namespace Settings

variable (s : Settings) (parse : Parser) (d : Disk) (base : Path)

/-- The account of a file: it cannot be read, it has no tree, or its entries are extracted. -/
inductive Accounts (p : Path) : Account → Prop
  | unreadable (obstacle : Obstacle) (hread : d.read p = .error obstacle) :
      Accounts p ⟨[], [], [], .skipped (d.label p base) (.unreadable p.shown obstacle)⟩
  | treeless (text : String) (fault : SourceFault) (parsing : List Notice)
      (hread : d.read p = .ok text) (hparse : parse text p.shown = ⟨.error fault, parsing⟩) :
      Accounts p ⟨parsing, [], [], .skipped (d.label p base) fault⟩
  | extracted (text : String) (tree : Node) (parsing : List Notice)
      (hread : d.read p = .ok text) (hparse : parse text p.shown = ⟨.ok tree, parsing⟩) :
      Accounts p ⟨parsing, (s.conventions.entries tree).notices, (s.conventions.entries tree).value,
        .extracted (s.conventions.entries tree).value.length (d.label p base)⟩

variable {s parse d base} {files : List Path} {accounts : List Account}

/-- The notice that closes an account says how many entries the file gave, or that it was skipped
and gave none. -/
theorem Accounts.closing {p : Path} {a : Account} (h : s.Accounts parse d base p a) :
    a.closing.extractedCount? = some a.entries.length ∧ a.closing.isSkipped = false ∨
      a.closing.extractedCount? = none ∧ a.closing.isSkipped = true ∧ a.entries = [] := by
  cases h with
  | unreadable obstacle hread => exact .inr ⟨rfl, rfl, rfl⟩
  | treeless text fault parsing hread hparse => exact .inr ⟨rfl, rfl, rfl⟩
  | extracted text tree parsing hread hparse => exact .inl ⟨rfl, rfl⟩

theorem Accounts.declarations {p : Path} {a : Account} (h : s.Accounts parse d base p a) :
    ∀ n ∈ a.declarations, s.conventions.IsNameless n := by
  cases h with
  | unreadable obstacle hread => exact fun n hn => absurd hn (by simp)
  | treeless text fault parsing hread hparse => exact fun n hn => absurd hn (by simp)
  | extracted text tree parsing hread hparse =>
      exact fun n hn => Conventions.isNameless_of_mem_entries hn

section Each

variable (h : List.Forall₂ (s.Accounts parse d base) files accounts)

include h

end Each

end Settings

end FactoryRoster
