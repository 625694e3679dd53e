import FactoryRoster.Scan

/-!
# Scans of files at the same time

When files may be read at the same time, each of them is a task of a pool, and the tasks take turns
in any order. A task begins, gives its notices one by one and delivers its entries, which go into
the slot of its file. The scan is over when all slots are filled.
-/

namespace FactoryRoster

/-- A notice marked with the number of the file that it is about, if it is about one. -/
abbrev MarkedNotice := Option Nat × Notice

/-- Notices that are about no file. -/
def unmarked (notices : List Notice) : List MarkedNotice :=
  notices.map (none, ·)

/-- What is left to do for a file. -/
inductive Task where
  | waiting (file : Path)
  /-- The notices that are still to be given before the entries are delivered. -/
  | speaking (notices : List Notice) (entries : Roster)
  | delivered
  deriving Repr

/-- The tasks of a scan, the slots for what they deliver, and what they have said. -/
structure Pool where
  tasks : List Task
  slots : List (Option Roster)
  log : List MarkedNotice := []
  deriving Repr

namespace Pool

/-- The pool of the tasks for some files, none of which has begun. -/
def start (files : List Path) : Pool where
  tasks := files.map .waiting
  slots := files.map fun _ => none

/-- The pool after a turn of task `i`, where `work` is what is to be done for a file. -/
def turn (work : Path → Report Roster) (pool : Pool) (i : Nat) : Pool :=
  match pool.tasks[i]? with
  | some (.waiting file) =>
    { pool with tasks := pool.tasks.set i (.speaking (work file).notices (work file).value) }
  | some (.speaking (n :: notices) entries) =>
    { pool with
      tasks := pool.tasks.set i (.speaking notices entries)
      log := pool.log ++ [(some i, n)] }
  | some (.speaking [] entries) =>
    { pool with
      tasks := pool.tasks.set i .delivered
      slots := pool.slots.set i (some entries) }
  | _ => pool

/-- The pool after turns of the tasks in the given order. -/
def run (work : Path → Report Roster) (pool : Pool) (order : List Nat) : Pool :=
  order.foldl (turn work) pool

/-- What the tasks have delivered, once all slots are filled. -/
def collected? (pool : Pool) : Option (List Roster) :=
  pool.slots.mapM id

end Pool

namespace Settings

/-- The notices of files that are read one after the other. -/
def fileNotices (s : Settings) (parse : Parser) (d : Disk) (base : Path) (files : List Path) :
    List MarkedNotice :=
  files.zipIdx.flatMap fun (p, i) => (s.contribution parse d base p).notices.map (some i, ·)

/-- What a scan of a directory may find and say. -/
inductive Scans (s : Settings) (parse : Parser) (d : Disk) (base : Path) :
    Option Roster → List MarkedNotice → Prop where
  | noDirectory : d.isDirectory base = false →
      Scans s parse d base none (unmarked [.noDirectory base.shown])
  | refused (fault : Glob.Fault) : d.isDirectory base = true →
      d.factoryFiles base s.extension = .error fault →
      Scans s parse d base (some [])
        (unmarked (s.extensionNotices ++ [.patternRefused base.shown fault]))
  /-- The files are read one after the other. -/
  | inOrder (files : Report (List Path)) (entries : Roster) : s.parallel = false →
      d.isDirectory base = true → d.factoryFiles base s.extension = .ok files →
      entries = files.value.flatMap (fun p => (s.contribution parse d base p).value) →
      Scans s parse d base (some entries)
        (unmarked (s.extensionNotices ++ files.notices) ++ s.fileNotices parse d base files.value ++
          unmarked [.loaded entries.length files.value.length base.shown])
  /-- The files are read by a pool whose tasks take turns in some order. -/
  | inTurns (files : Report (List Path)) (order : List Nat) (pool : Pool)
      (delivered : List Roster) :
      s.parallel = true → d.isDirectory base = true →
      d.factoryFiles base s.extension = .ok files →
      pool = (Pool.start files.value).run (s.contribution parse d base) order →
      pool.collected? = some delivered →
      Scans s parse d base (some delivered.flatten)
        (unmarked (s.extensionNotices ++ files.notices) ++ pool.log ++
          unmarked [.loaded delivered.flatten.length files.value.length base.shown])

end Settings

end FactoryRoster
