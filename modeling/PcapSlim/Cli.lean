/-
PcapSlim.Cli — `main.rs`: the program from its arguments to its report.

A `Process` is the place in `run` where a process is. `PlanStep` has the steps that
change no file: working out the list of files, handing a file to a thread of the
pool, and the report. The other two kinds are a step of `cleanup_stale_tmp` and a
step of the call that a thread is in. A thread takes up any file that is left; the
pool has `worker_count` of them. A panic of one call ends the process without a
report, and the other calls stop wherever they are.

With limits, a call may have to wait before any of its steps: for the mutex, in
`acquire` or asleep in `cpu_tick`, and also for ever. What the limits do is in `Limit`,
`Governor` and `Fleet`; here `Pool.lets` is any answer to the question when they let the
call for a file go on.

A `World` has a disk and any number of processes. They are started and, in a
setting with `crashes`, killed at any time. All paths are in one directory, and
`--single` may be given any name there; `singles` are those that it is given. Left out:
the choice of the reader and what is written to stderr on the way, none of which decides
about a file. `Args::parse` is taken as done.
-/
import PcapSlim.Directory
import PcapSlim.Limit
import PcapSlim.Report

namespace PcapSlim.Cli

open Lib.Octets Lib.Files PcapIo Coord Report

/-- `Args`, as far as files and limits are concerned. The four options of the limits are the
fields of `limit_config`. -/
structure Args where
  dir : Bool
  single : Option Name
  workers : Nat
  dryRun : Bool
  checkOnly : Bool
  json : Bool
  limits : Limit.LimitConfig
  ageMinutes : Option Nat

/-- `limit_config.build()` gives some limits, at whatever time it is called. -/
def Args.limited (args : Args) : Bool := (args.limits.build 0).isSome

/-! ## The pool -/

/-- The call that a thread is in. -/
inductive Task where
  | slim (w : Worker)
  | check (c : Checker)

/-- How the call has ended. -/
def Task.outcome : Task → Option Outcome
  | .slim (.done outcome) => some outcome
  | .check (.done outcome) => some outcome
  | _ => none

inductive TaskStep (σ : Setting) (n : Name) (fs : FileSystem Path) :
    Task → Action Path → Task → Prop
  | slim {w a w'} (h : WorkerStep σ n fs w a w') : TaskStep σ n fs (.slim w) a (.slim w')
  | check {c c'} (h : CheckerStep σ n fs c c') : TaskStep σ n fs (.check c) .idle (.check c')

/-- The closure that is mapped over the files: `check_file` or `slim_file_in_place`. -/
def Args.task (args : Args) : Task := if args.checkOnly then .check .check else .slim .check

/-- The files, the number of threads, the calls for the files that were taken up, and when
the limits let each of them go on. -/
structure Pool where
  files : List Name
  workerCount : Nat
  tasks : Name → Option Task
  lets : Time → Name → Bool

/-- How many threads are in a call. -/
def Pool.running (pool : Pool) : Nat :=
  pool.files.countP fun n => (pool.tasks n).any (·.outcome.isNone)

/-- The call for `n` is at `t`. -/
def Pool.set (pool : Pool) (n : Name) (t : Task) : Pool :=
  { pool with tasks := Function.update pool.tasks n (some t) }

/-! ## The process -/

/-- What is printed on stdout, or by `print_human`. -/
inductive Printed where
  | nothing
  | wouldSlim (files : List String)
  | report (r : RunReport)

/-- The errors of `run`. -/
inductive RunError where
  | noTarget
  | io (error : IoError)
  | threadPool
  | filesFailed

/-- Where a process is. -/
inductive Process where
  | absent
  | start (args : Args)
  | cleaning (args : Args) (cutoff : Time) (cleaner : Cleaner)
  | toList (args : Args)
  | listing (args : Args) (cutoff : Option Time) (lister : Lister)
  | working (args : Args) (pool : Pool)
  | ended (args : Args) (printed : Printed) (result : Except RunError Unit)
  | panicked (args : Args)

namespace Process

/-- `run` once it has the list of files: nothing to do, a dry run, or the pool. -/
def select (args : Args) (lets : Time → Name → Bool) (files : List Name) : Process :=
  if files.isEmpty then
    .ended args (if args.json then .report (.empty args.checkOnly) else .nothing) (.ok ())
  else if args.dryRun then .ended args (.wouldSlim (files.map display)) (.ok ())
  else
    .working args
      { files, workerCount := min (max args.workers 1) files.length, tasks := fun _ => none, lets }

/-- The end of `run`: the reports in the order of the files, the summary, and an error if
a file has failed. -/
def finish (osText : IoError → String) (args : Args) (files : List Name) (elapsedMs : Name → Nat)
    (totalMs : Nat) (results : Name → Except CoordError (FileResult × Option SlimStats)) : Process :=
  let fileReports := files.map fun n =>
    FileReport.ofResult osText (display n) (elapsedMs n) (results n)
  let report := RunReport.ofFiles fileReports totalMs args.checkOnly
  .ended args (.report report) (if 0 < report.summary.fail then .error .filesFailed else .ok ())

/-- The process has ended, or was never started. -/
def isOver : Process → Bool
  | absent | ended _ _ _ | panicked _ => true
  | _ => false

end Process

/-- The steps of `run` that change no file. -/
inductive PlanStep (σ : Setting) (osText : IoError → String) (d : Disk) : Process → Process → Prop
  | single {args n} (lets : Time → Name → Bool) (hsingle : args.single = some n) :
      PlanStep σ osText d (.start args) (.select args lets [n])
  | noTarget {args} (hsingle : args.single = none) (hdir : args.dir = false) :
      PlanStep σ osText d (.start args) (.ended args .nothing (.error .noTarget))
  -- `cleanup_stale_tmp`, unless `check_only`
  | cleanup {args entries} (hsingle : args.single = none) (hdir : args.dir = true)
      (hcheck : args.checkOnly = false) (hread : ReadDir σ d entries) :
      PlanStep σ osText d (.start args)
        (.cleaning args (secondsBefore d.now staleTmpSecs) (.entries entries 0))
  | cleanupUnread {args} (hsingle : args.single = none) (hdir : args.dir = true)
      (hcheck : args.checkOnly = false) (hfaults : σ.faults = true) :
      PlanStep σ osText d (.start args) (.toList args)
  | noCleanup {args} (hsingle : args.single = none) (hdir : args.dir = true)
      (hcheck : args.checkOnly = true) : PlanStep σ osText d (.start args) (.toList args)
  | cleaned {args cutoff cleaned} :
      PlanStep σ osText d (.cleaning args cutoff (.done cleaned)) (.toList args)
  -- `list_pending_pcaps`
  | readDir {args entries} (hread : ReadDir σ d entries) :
      PlanStep σ osText d (.toList args)
        (.listing args (args.ageMinutes.map fun minutes => secondsBefore d.now (minutes * 60))
          (.entries entries []))
  | dirUnread {args} (e : IoError) (hfaults : σ.faults = true) :
      PlanStep σ osText d (.toList args) (.ended args .nothing (.error (.io e)))
  | list {args cutoff l l'} (h : ListerStep σ cutoff d l l') :
      PlanStep σ osText d (.listing args cutoff l) (.listing args cutoff l')
  | listed {args cutoff files} (lets : Time → Name → Bool) :
      PlanStep σ osText d (.listing args cutoff (.done (.ok files))) (.select args lets files)
  | listFailed {args cutoff e} :
      PlanStep σ osText d (.listing args cutoff (.done (.error e)))
        (.ended args .nothing (.error (.io e)))
  -- the pool
  | noPool {args pool} (hfaults : σ.faults = true) (hqueued : ∀ n, pool.tasks n = none) :
      PlanStep σ osText d (.working args pool) (.ended args .nothing (.error .threadPool))
  | take {args pool n} (hmem : n ∈ pool.files) (hqueued : pool.tasks n = none)
      (hfree : pool.running < pool.workerCount) :
      PlanStep σ osText d (.working args pool) (.working args (pool.set n args.task))
  | report {args pool results} (elapsedMs : Name → Nat) (totalMs : Nat)
      (hdone : ∀ n ∈ pool.files, (pool.tasks n).bind Task.outcome = some (.returned (results n))) :
      PlanStep σ osText d (.working args pool)
        (.finish osText args pool.files elapsedMs totalMs results)
  | panic {args pool n} (hmem : n ∈ pool.files)
      (hpanic : (pool.tasks n).bind Task.outcome = some .panicked) :
      PlanStep σ osText d (.working args pool) (.panicked args)

/-- One step of a process, and what it does to the files. -/
inductive ProcessStep (σ : Setting) (osText : IoError → String) (d : Disk) :
    Process → Action Path → Process → Prop
  | plan {p p'} (h : PlanStep σ osText d p p') : ProcessStep σ osText d p .idle p'
  | clean {args cutoff c a c'} (h : CleanerStep σ cutoff d c a c') :
      ProcessStep σ osText d (.cleaning args cutoff c) a (.cleaning args cutoff c')
  | task {args pool n t a t'} (htask : pool.tasks n = some t)
      (hlets : args.limited = true → pool.lets d.now n = true) (h : TaskStep σ n d.files t a t') :
      ProcessStep σ osText d (.working args pool) a (.working args (pool.set n t'))

/-! ## Several processes -/

/-- The disk and the processes. -/
structure World (κ : Type) where
  disk : Disk
  processes : κ → Process

variable {κ : Type}

/-- No process has been started yet. -/
def World.start (files : Path → Option Bytes) (mtime : Ino Path → Time) (now : Time) : World κ where
  disk := { files := .ofFiles files, mtime, now }
  processes := fun _ => .absent

variable [DecidableEq κ]

/-- Process `k` goes on to `p` and does `a` to the files. -/
def World.advance (w : World κ) (k : κ) (a : Action Path) (p : Process) : World κ where
  disk := w.disk.apply a
  processes := Function.update w.processes k p

/-- A step of a process that is running, or of the clock. -/
inductive SessionStep (σ : Setting) (osText : IoError → String) (k : κ) (w : World κ) :
    Action Path → World κ → Prop
  | act {a p} (h : ProcessStep σ osText w.disk (w.processes k) a p) :
      SessionStep σ osText k w a (w.advance k a p)
  | tick (now : Time) : SessionStep σ osText k w .idle { w with disk := { w.disk with now } }

/-- A step of the world: of a process or the clock, or a process is started or killed. -/
inductive WorldStep (σ : Setting) (osText : IoError → String) (singles : Set Name) (k : κ)
    (w : World κ) : Action Path → World κ → Prop
  | session {a w'} (h : SessionStep σ osText k w a w') : WorldStep σ osText singles k w a w'
  | launch {args} (hover : (w.processes k).isOver = true)
      (hsingle : ∀ n, args.single = some n → n ∈ singles) :
      WorldStep σ osText singles k w .idle (w.advance k .idle (.start args))
  | kill (hcrashes : σ.crashes = true) :
      WorldStep σ osText singles k w .idle (w.advance k .idle .absent)

end PcapSlim.Cli
