import Mathlib.Algebra.GroupWithZero.Nat
import Mathlib.Tactic.ByContra
import FactoryRoster.Proofs.Scan.Isolation
import FactoryRoster.Scan.Pool

/-!
# The order of turns does not matter

However the tasks of a pool take turns, each slot receives what its file contributes, and each task
gives the notices of its file in their order. The invariant says for every file how far its task has
got: what it has said together with what it is still to say are the notices of the file, and its
slot is empty until it has delivered. Any pool can be brought to its end, and there all that is left
open is how the notices of different files are mixed.
-/

namespace FactoryRoster

/-- How far the task for `file` has got when it has said `said` and its slot holds `slot`. -/
def Task.Fits (work : Path → Report Roster) (file : Path) (said : List MarkedNotice) (i : Nat)
    (slot : Option Roster) : Task → Prop
  | .waiting own => own = file ∧ said = [] ∧ slot = none
  | .speaking notices entries =>
    said ++ notices.map (some i, ·) = (work file).notices.map (some i, ·) ∧
      entries = (work file).value ∧ slot = none
  | .delivered => said = (work file).notices.map (some i, ·) ∧ slot = some (work file).value

/-- How many turns a task still needs. -/
def Task.turnsLeft (work : Path → Report Roster) : Task → Nat
  | .waiting file => (work file).notices.length + 2
  | .speaking notices _ => notices.length + 1
  | .delivered => 0

namespace Pool

/-- What task `i` has said. -/
def saidBy (pool : Pool) (i : Nat) : List MarkedNotice :=
  pool.log.filter (·.1 == some i)

/-- A pool at work on some files. -/
structure Sound (work : Path → Report Roster) (files : List Path) (pool : Pool) : Prop where
  tasks : pool.tasks.length = files.length
  slots : pool.slots.length = files.length
  marks : ∀ e ∈ pool.log, ∃ i, e.1 = some i ∧ i < files.length
  fits : ∀ (i : Nat) (file : Path), files[i]? = some file →
    ∃ task slot, pool.tasks[i]? = some task ∧ pool.slots[i]? = some slot ∧
      task.Fits work file (pool.saidBy i) i slot

/-- How many turns the tasks of a pool still need. -/
def turnsLeft (work : Path → Report Roster) (pool : Pool) : Nat :=
  (pool.tasks.map (Task.turnsLeft work)).sum

variable {work : Path → Report Roster} {files : List Path} {pool : Pool}

variable (work files) in
theorem sound_start : Sound work files (start files) where
  tasks := by simp [start]
  slots := by simp [start]
  marks := by simp [start]
  fits := by
    intro i file hfile
    have hslot : (start files).slots[i]? = some none := by
      rw [start, List.getElem?_map, hfile]
      rfl
    exact ⟨.waiting file, none, by simp [start, hfile], hslot, rfl, rfl, rfl⟩

/-- A turn of task `i` that leaves it at `task`, its slot at `slot` and adds `said` to the log keeps
the pool sound if the task fits. -/
theorem Sound.update (h : Sound work files pool) {i : Nat} {file : Path}
    (hfile : files[i]? = some file) (task : Task) (slot : Option Roster) (said : List MarkedNotice)
    (hsaid : ∀ e ∈ said, e.1 = some i)
    (hfits : task.Fits work file (pool.saidBy i ++ said) i slot) :
    Sound work files
      { tasks := pool.tasks.set i task, slots := pool.slots.set i slot,
        log := pool.log ++ said } where
  tasks := by rw [List.length_set, h.tasks]
  slots := by rw [List.length_set, h.slots]
  marks := by
    intro e he
    rcases List.mem_append.mp he with he | he
    · exact h.marks e he
    · exact ⟨i, hsaid e he, (List.getElem?_eq_some_iff.mp hfile).1⟩
  fits := by
    intro j other hother
    by_cases hij : i = j
    · subst hij
      obtain rfl : file = other := Option.some.inj (hfile.symm.trans hother)
      have hlt := (List.getElem?_eq_some_iff.mp hfile).1
      have hall : said.filter (·.1 == some i) = said :=
        List.filter_eq_self.mpr fun e he => beq_iff_eq.mpr (hsaid e he)
      refine ⟨task, slot, List.getElem?_set_self (by rw [h.tasks]; exact hlt),
        List.getElem?_set_self (by rw [h.slots]; exact hlt), ?_⟩
      simpa only [saidBy, List.filter_append, hall] using hfits
    · obtain ⟨t, r, ht, hr, hothers⟩ := h.fits j other hother
      have hnone : said.filter (·.1 == some j) = [] := by
        refine List.filter_eq_nil_iff.mpr fun e he => ?_
        simp [hsaid e he, hij]
      refine ⟨t, r, by rw [List.getElem?_set_ne hij, ht], by rw [List.getElem?_set_ne hij, hr], ?_⟩
      simpa only [saidBy, List.filter_append, hnone, List.append_nil] using hothers

/-- A turn keeps a pool sound. -/
theorem Sound.turn (h : Sound work files pool) (i : Nat) : Sound work files (pool.turn work i) := by
  cases hfile : files[i]? with
  | none =>
      have hnone : pool.tasks[i]? = none := by
        rw [List.getElem?_eq_none_iff] at hfile ⊢
        rw [h.tasks]
        exact hfile
      simpa only [Pool.turn, hnone] using h
  | some file =>
      obtain ⟨task, slot, htask, hslot, hfits⟩ := h.fits i file hfile
      have hsame : pool.slots.set i slot = pool.slots := by
        obtain ⟨hlt, rfl⟩ := List.getElem?_eq_some_iff.mp hslot
        exact List.set_getElem_self hlt
      cases task with
      | waiting own =>
          obtain ⟨rfl, hsaid, hempty⟩ := hfits
          have := h.update hfile (.speaking (work own).notices (work own).value) slot []
            (by simp) ⟨by simp [hsaid], rfl, hempty⟩
          simpa only [Pool.turn, htask, hsame, List.append_nil] using this
      | speaking notices entries =>
          obtain ⟨hsaid, hentries, hempty⟩ := hfits
          cases notices with
          | nil =>
              have := h.update hfile .delivered (some entries) [] (by simp)
                ⟨by simpa using hsaid, by rw [hentries]⟩
              simpa only [Pool.turn, htask, List.append_nil] using this
          | cons n notices =>
              have := h.update hfile (.speaking notices entries) slot [(some i, n)] (by simp)
                ⟨by simpa using hsaid, hentries, hempty⟩
              simpa only [Pool.turn, htask, hsame] using this
      | delivered => simpa only [Pool.turn, htask] using h

/-- Turns in any order keep a pool sound. -/
theorem Sound.run (h : Sound work files pool) (order : List Nat) :
    Sound work files (pool.run work order) := by
  induction order generalizing pool with
  | nil => exact h
  | cons i order ih => exact ih (h.turn i)

/-! ### Every order of turns can be brought to an end -/

private theorem sum_set_add {l : List Nat} {i a : Nat} (b : Nat) (h : l[i]? = some a) :
    (l.set i b).sum + a = l.sum + b := by
  induction l generalizing i with
  | nil => simp at h
  | cons x l ih =>
      cases i with
      | zero =>
          obtain rfl : x = a := by simpa using h
          simp only [List.set_cons_zero, List.sum_cons]
          omega
      | succ i =>
          have := ih (i := i) (by simpa using h)
          simp only [List.set_cons_succ, List.sum_cons]
          omega

private theorem mapM_id_eq_some {α : Type} {slots : List (Option α)} {values : List α} :
    slots.mapM id = some values ↔ slots = values.map some := by
  induction slots generalizing values with
  | nil => cases values <;> simp
  | cons slot slots ih =>
      cases slot with
      | none => cases values <;> simp
      | some value =>
          cases values with
          | nil => simp [Option.bind_eq_some_iff]
          | cons first values =>
              simp only [List.mapM_cons, id, Option.bind_eq_bind, Option.pure_def,
                Option.bind_some, Option.bind_eq_some_iff, Option.some.injEq, List.cons.injEq,
                List.map_cons, ← ih]
              constructor
              · rintro ⟨rest, hrest, rfl, rfl⟩
                exact ⟨rfl, hrest⟩
              · rintro ⟨rfl, hrest⟩
                exact ⟨values, hrest, rfl, rfl⟩

variable (work) in
/-- Each turn of a task that has not delivered brings the pool nearer to its end. -/
theorem turnsLeft_turn {i : Nat} {task : Task} (htask : pool.tasks[i]? = some task)
    (hleft : task ≠ .delivered) :
    (pool.turn work i).turnsLeft work + 1 = pool.turnsLeft work := by
  have hset : ∀ next : Task,
      ((pool.tasks.set i next).map (Task.turnsLeft work)).sum + task.turnsLeft work =
        (pool.tasks.map (Task.turnsLeft work)).sum + next.turnsLeft work := by
    intro next
    rw [List.map_set]
    exact sum_set_add _ (by rw [List.getElem?_map, htask, Option.map_some])
  cases task with
  | waiting own =>
      have h := hset (.speaking (work own).notices (work own).value)
      simp only [Task.turnsLeft] at h
      simp only [Pool.turn, htask, turnsLeft]
      omega
  | speaking notices entries =>
      cases notices with
      | nil =>
          have h := hset .delivered
          simp only [Task.turnsLeft, List.length_nil] at h
          simp only [Pool.turn, htask, turnsLeft]
          omega
      | cons n notices =>
          have h := hset (.speaking notices entries)
          simp only [Task.turnsLeft, List.length_cons] at h
          simp only [Pool.turn, htask, turnsLeft]
          omega
  | delivered => exact absurd rfl hleft

/-- Where all tasks have delivered, all slots are filled. -/
theorem Sound.collected?_of_delivered (h : Sound work files pool)
    (hall : ∀ task ∈ pool.tasks, task = .delivered) :
    pool.collected? = some (files.map fun p => (work p).value) := by
  rw [collected?, mapM_id_eq_some]
  refine List.ext_getElem? fun i => ?_
  cases hfile : files[i]? with
  | none =>
      have hlength : files.length ≤ i := List.getElem?_eq_none_iff.mp hfile
      rw [List.getElem?_eq_none (by rw [h.slots]; exact hlength),
        List.getElem?_eq_none (by simpa using hlength)]
  | some file =>
      obtain ⟨task, slot, htask, hslot, hfits⟩ := h.fits i file hfile
      obtain rfl := hall task (List.mem_of_getElem? htask)
      rw [hslot, hfits.2]
      simp [hfile]

/-- From wherever the tasks have got to, there are turns that bring the scan to its end. -/
theorem Sound.exists_completion (h : Sound work files pool) :
    ∃ order, (pool.run work order).collected? = some (files.map fun p => (work p).value) := by
  induction hn : pool.turnsLeft work generalizing pool with
  | zero =>
      refine ⟨[], h.collected?_of_delivered fun task htask => ?_⟩
      obtain ⟨i, hi⟩ := List.getElem?_of_mem htask
      by_contra hleft
      have := turnsLeft_turn work hi hleft
      omega
  | succ n ih =>
      by_cases hall : ∀ task ∈ pool.tasks, task = .delivered
      · exact ⟨[], h.collected?_of_delivered hall⟩
      · push Not at hall
        obtain ⟨task, htask, hleft⟩ := hall
        obtain ⟨i, hi⟩ := List.getElem?_of_mem htask
        have hturn := turnsLeft_turn work hi hleft
        obtain ⟨order, horder⟩ := ih (h.turn i) (by omega)
        exact ⟨i :: order, horder⟩

/-! ### What is collected at the end -/

/-- When all slots are filled, each holds what its file contributes, and each task has given the
notices of its file. -/
theorem Sound.of_collected? (h : Sound work files pool) {delivered : List Roster}
    (hcollected : pool.collected? = some delivered) :
    delivered = files.map (fun p => (work p).value) ∧
      ∀ (i : Nat) (file : Path), files[i]? = some file →
        pool.saidBy i = (work file).notices.map (some i, ·) := by
  rw [collected?, mapM_id_eq_some] at hcollected
  have hdone : ∀ (i : Nat) (file : Path), files[i]? = some file →
      delivered[i]? = some (work file).value ∧
        pool.saidBy i = (work file).notices.map (some i, ·) := by
    intro i file hfile
    obtain ⟨task, slot, htask, hslot, hfits⟩ := h.fits i file hfile
    rw [hcollected, List.getElem?_map] at hslot
    obtain ⟨entries, hentries, rfl⟩ := Option.map_eq_some_iff.mp hslot
    cases task with
    | waiting own => cases hfits.2.2
    | speaking notices entries => cases hfits.2.2
    | delivered => exact ⟨hentries.trans (by rw [Option.some.inj hfits.2]), hfits.1⟩
  refine ⟨List.ext_getElem? fun i => ?_, fun i file hfile => (hdone i file hfile).2⟩
  cases hfile : files[i]? with
  | none =>
      have hlength : files.length ≤ i := List.getElem?_eq_none_iff.mp hfile
      have hslots := h.slots
      rw [hcollected, List.length_map] at hslots
      rw [List.getElem?_eq_none (by rw [hslots]; exact hlength),
        List.getElem?_eq_none (by simpa using hlength)]
  | some file =>
      rw [(hdone i file hfile).1]
      simp [hfile]

end Pool

/-! ### Logs -/

/-- The notices of one file among those of files that are numbered from `first` on. -/
private theorem filter_zipIdx_flatMap (said : Path → List Notice) (files : List Path)
    (first i : Nat) :
    ((files.zipIdx first).flatMap fun (p, j) => (said p).map (some j, ·)).filter
        (fun e : MarkedNotice => e.1 == some (first + i)) =
      match files[i]? with
      | some p => (said p).map (some (first + i), ·)
      | none => [] := by
  induction files generalizing first i with
  | nil => simp
  | cons p files ih =>
      simp only [List.zipIdx_cons, List.flatMap_cons, List.filter_append]
      cases i with
      | zero =>
          have hlater : ((files.zipIdx (first + 1)).flatMap fun (p, j) =>
              (said p).map (some j, ·)).filter
                (fun e : MarkedNotice => e.1 == some (first + 0)) = [] := by
            refine List.filter_eq_nil_iff.mpr fun e he => ?_
            obtain ⟨⟨q, j⟩, hj, he⟩ := List.mem_flatMap.mp he
            obtain ⟨n, _, rfl⟩ := List.mem_map.mp he
            have := List.le_snd_of_mem_zipIdx hj
            simp only [beq_iff_eq, Option.some.injEq]
            omega
          rw [hlater]
          simp
      | succ i =>
          have hfirst : ((said p).map (some first, ·)).filter
              (fun e : MarkedNotice => e.1 == some (first + (i + 1))) = [] := by
            refine List.filter_eq_nil_iff.mpr fun e he => ?_
            obtain ⟨n, _, rfl⟩ := List.mem_map.mp he
            simp
          have := ih (first + 1) i
          rw [show first + 1 + i = first + (i + 1) by omega] at this
          rw [hfirst, this, List.nil_append, List.getElem?_cons_succ]

/-- Logs that say the same under each mark say the same as a whole. -/
theorem perm_of_filter_mark {left right : List MarkedNotice}
    (h : ∀ mark, left.filter (·.1 == mark) = right.filter (·.1 == mark)) : left.Perm right := by
  rw [List.perm_iff_count]
  intro e
  rw [← List.count_filter (p := (·.1 == e.1)) (l := left) (by simp),
    ← List.count_filter (p := (·.1 == e.1)) (l := right) (by simp), h]

namespace Settings

variable (s : Settings) (parse : Parser) (d : Disk) (base : Path)

theorem filter_mark_fileNotices (files : List Path) (i : Nat) :
    (s.fileNotices parse d base files).filter (·.1 == some i) =
      match files[i]? with
      | some p => (s.contribution parse d base p).notices.map (some i, ·)
      | none => [] := by
  have h := filter_zipIdx_flatMap (fun p => (s.contribution parse d base p).notices) files 0 i
  rw [Nat.zero_add] at h
  exact h

theorem filter_none_fileNotices (files : List Path) :
    (s.fileNotices parse d base files).filter (·.1 == none) = [] := by
  refine List.filter_eq_nil_iff.mpr fun e he => ?_
  obtain ⟨⟨p, i⟩, _, he⟩ := List.mem_flatMap.mp he
  obtain ⟨n, _, rfl⟩ := List.mem_map.mp he
  simp

/-- The notices of a pool at its end are those of the files in order, mixed. -/
theorem filter_mark_log {files : List Path} {pool : Pool}
    (h : pool.Sound (s.contribution parse d base) files)
    (hsaid : ∀ (i : Nat) (file : Path), files[i]? = some file →
      pool.saidBy i = (s.contribution parse d base file).notices.map (some i, ·))
    (mark : Option Nat) :
    pool.log.filter (·.1 == mark) = (s.fileNotices parse d base files).filter (·.1 == mark) := by
  cases mark with
  | none =>
      rw [filter_none_fileNotices]
      refine List.filter_eq_nil_iff.mpr fun e he => ?_
      obtain ⟨i, hi, _⟩ := h.marks e he
      simp [hi]
  | some i =>
      rw [filter_mark_fileNotices]
      cases hfile : files[i]? with
      | some file => exact hsaid i file hfile
      | none =>
          refine List.filter_eq_nil_iff.mpr fun e he => ?_
          obtain ⟨j, hj, hlt⟩ := h.marks e he
          have := List.getElem?_eq_none_iff.mp hfile
          simp only [hj, beq_iff_eq, Option.some.injEq]
          omega

theorem map_snd_fileNotices (files : List Path) :
    (s.fileNotices parse d base files).map Prod.snd =
      files.flatMap fun p => (s.contribution parse d base p).notices := by
  have hfst : files.flatMap (fun p => (s.contribution parse d base p).notices) =
      (files.zipIdx.map Prod.fst).flatMap fun p => (s.contribution parse d base p).notices := by
    rw [List.zipIdx_map_fst]
  rw [hfst, fileNotices, List.map_flatMap, List.flatMap_map]
  simp [Function.comp_def]

/-- Reading one file after the other finds and says what `scanDirectory` does. -/
theorem scans_scanDirectory (hseq : s.parallel = false) :
    ∃ value log, s.Scans parse d base value log ∧
      s.scanDirectory parse d base = ⟨value, log.map Prod.snd⟩ := by
  cases hbase : d.isDirectory base with
  | false => exact ⟨_, _, .noDirectory hbase, by simp [scanDirectory, hbase, unmarked]⟩
  | true =>
      cases hfiles : d.factoryFiles base s.extension with
      | error fault =>
          exact ⟨_, _, .refused fault hbase hfiles, by
            simp [scanDirectory, hbase, hfiles, unmarked, Function.comp_def]⟩
      | ok files =>
          refine ⟨_, _, .inOrder files _ hseq hbase hfiles rfl, ?_⟩
          simp [scanDirectory, hbase, hfiles, unmarked, map_snd_fileNotices, Report.join,
            List.flatMap_map, Function.comp_def]

/-- What a pool of the files finds at its end, and says there in all. -/
theorem Scans.agree {value value' : Option Roster} {log log' : List MarkedNotice}
    (hseq : ({ s with parallel := false } : Settings).Scans parse d base value log)
    (hpar : ({ s with parallel := true } : Settings).Scans parse d base value' log') :
    value' = value ∧ ∀ mark, log'.filter (·.1 == mark) = log.filter (·.1 == mark) := by
  cases hseq with
  | noDirectory hdir =>
      cases hpar with
      | noDirectory => exact ⟨rfl, fun _ => rfl⟩
      | refused _ hdir' => simp [hdir] at hdir'
      | inOrder _ _ hflag => cases hflag
      | inTurns _ _ _ _ _ hdir' => simp [hdir] at hdir'
  | refused fault hdir hfault =>
      cases hpar with
      | noDirectory hdir' => simp [hdir] at hdir'
      | refused fault' _ hfault' =>
          obtain rfl : fault = fault' := Except.error.inj (hfault.symm.trans hfault')
          exact ⟨rfl, fun _ => rfl⟩
      | inOrder _ _ hflag => cases hflag
      | inTurns _ _ _ _ _ _ hfiles => simp [hfault] at hfiles
  | inTurns _ _ _ _ hflag => cases hflag
  | inOrder files entries _ hdir hfiles hentries =>
      cases hpar with
      | noDirectory hdir' => simp [hdir] at hdir'
      | refused _ _ hfault' => simp [hfiles] at hfault'
      | inOrder _ _ hflag => cases hflag
      | inTurns files' order pool delivered _ _ hfiles' hpool hcollected =>
          obtain rfl : files = files' := Except.ok.inj (hfiles.symm.trans hfiles')
          have hsound : pool.Sound (s.contribution parse d base) files.value := by
            rw [hpool]
            exact (Pool.sound_start _ _).run order
          obtain ⟨hdelivered, hsaid⟩ := hsound.of_collected? hcollected
          have hvalue : delivered.flatten = entries := by
            rw [hdelivered, hentries, ← List.flatMap_def]
            rfl
          refine ⟨by rw [hvalue], fun mark => ?_⟩
          rw [hvalue, List.filter_append, List.filter_append, List.filter_append,
            List.filter_append, s.filter_mark_log parse d base hsound hsaid mark]
          rfl

/-- A scan whose files are read at the same time comes to an end in some order of turns. -/
theorem exists_scans_parallel (hpar : s.parallel = true) :
    ∃ value log, s.Scans parse d base value log := by
  cases hbase : d.isDirectory base with
  | false => exact ⟨_, _, .noDirectory hbase⟩
  | true =>
      cases hfiles : d.factoryFiles base s.extension with
      | error fault => exact ⟨_, _, .refused fault hbase hfiles⟩
      | ok files =>
          obtain ⟨order, hcollected⟩ :=
            (Pool.sound_start (s.contribution parse d base) files.value).exists_completion
          exact ⟨_, _, .inTurns files order _ _ hpar hbase hfiles rfl hcollected⟩

end Settings

/-- A scan whose files are read at the same time finds what a scan finds that reads them one after
the other, however the tasks take turns; it gives the same notices, those of each file in the same
order. Turns can always be continued so that the scan ends. -/
theorem scans_parallel_agree (s : Settings) (parse : Parser) (d : Disk) (base : Path) :
    (∀ files order, ∃ more, ((Pool.start files).run (s.contribution parse d base)
      (order ++ more)).collected?.isSome) ∧
    ∃ value log, ({ s with parallel := false } : Settings).Scans parse d base value log ∧
      ({ s with parallel := false } : Settings).scanDirectory parse d base =
        ⟨value, log.map Prod.snd⟩ ∧
      (∃ log', ({ s with parallel := true } : Settings).Scans parse d base value log') ∧
      ∀ value' log', ({ s with parallel := true } : Settings).Scans parse d base value' log' →
        value' = value ∧ log'.Perm log ∧
          ∀ mark, log'.filter (·.1 == mark) = log.filter (·.1 == mark) := by
  constructor
  · intro files order
    obtain ⟨more, hmore⟩ :=
      ((Pool.sound_start (s.contribution parse d base) files).run order).exists_completion
    refine ⟨more, ?_⟩
    rw [Pool.run, List.foldl_append]
    exact Option.isSome_iff_exists.mpr ⟨_, hmore⟩
  · obtain ⟨value, log, hseq, hreport⟩ :=
      ({ s with parallel := false } : Settings).scans_scanDirectory parse d base rfl
    obtain ⟨found, log', hpar⟩ :=
      ({ s with parallel := true } : Settings).exists_scans_parallel parse d base rfl
    obtain ⟨rfl, -⟩ := hseq.agree s parse d base hpar
    refine ⟨found, log, hseq, hreport, ⟨log', hpar⟩, ?_⟩
    intro value' log'' hother
    obtain ⟨hvalue, hmarks⟩ := hseq.agree s parse d base hother
    exact ⟨hvalue, perm_of_filter_mark hmarks, hmarks⟩

/-- Two files whose tasks take turns so that the later one speaks first. -/
theorem scans_parallel_agree_halfBroken :
    ∃ log, ({} : Settings).Scans (fun _ _ => ⟨.ok (.program []), []⟩) halfBroken (glyphs ['f'])
        (some []) log ∧
      log.map Prod.fst = [some 1, some 0, none] ∧
      ∃ log', ({ parallel := false } : Settings).Scans (fun _ _ => ⟨.ok (.program []), []⟩)
          halfBroken (glyphs ['f']) (some []) log' ∧ log.Perm log' := by
  obtain ⟨-, value, log', hseq, -, -, hagree⟩ :=
    scans_parallel_agree {} (fun _ _ => ⟨.ok (.program []), []⟩) halfBroken (glyphs ['f'])
  have hpar : ({} : Settings).Scans (fun _ _ => ⟨.ok (.program []), []⟩) halfBroken
      (glyphs ['f']) (some []) _ :=
    .inTurns _ [0, 1, 1, 0, 0, 1] _ [[], []] rfl (by decide) factoryFiles_halfBroken rfl
      (by decide)
  obtain ⟨hvalue, hperm, -⟩ := hagree _ _ hpar
  exact ⟨_, hpar, by decide, log', hvalue ▸ hseq, hperm⟩

end FactoryRoster
