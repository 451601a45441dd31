/-
PcapSlim.TerminationTheorems — a run over a directory ends.

One process, alone, with nothing failing and `.pcap` and `.pcap.pcap` not both there. Every
step makes `Process.left` smaller, a pair of numbers: the phase, and what is left to do in
it. So it makes finitely many steps, with and without limits (`session_terminates`).

Without limits a process that is not over has a next step, whatever the order in which its
calls have acted so far, and can be brought to its end (`session_finishes`). With limits it
may have to wait for ever: `acquire` never returns for more bytes than the burst.
-/
import PcapSlim.SessionTheorems
import Mathlib.Algebra.GroupWithZero.Nat
import Mathlib.Algebra.Order.Group.Nat
import Mathlib.Algebra.Order.BigOperators.Group.List
import Mathlib.Data.Set.Finite.Lattice

namespace PcapSlim.Coord

open Lib.Octets Lib.Files PcapIo Capture

variable {σ : Setting} {n : Name} {content : Bytes} {fs : FileSystem Path} {d : Disk}
  {a : Action Path} {cutoff : Time}

/-! ## The loops and `check_file` -/

/-- How many steps are left at most. -/
def Cleaner.left : Cleaner → Nat
  | .entries todo _ => 2 * todo.length + 1
  | .remove _ todo _ => 2 * todo.length + 2
  | .done _ => 0

theorem Cleaner.left_lt {c c' : Cleaner} (hstep : CleanerStep σ cutoff d c a c') :
    c'.left < c.left := by
  cases hstep <;> simp only [Cleaner.left, List.length_cons] <;> omega

def Cleaner.isDone : Cleaner → Bool
  | .done _ => true
  | _ => false

theorem Cleaner.exists_step {c : Cleaner} (hrunning : c.isDone = false) :
    ∃ a c', CleanerStep σ cutoff d c a c' := by
  cases c with
  | entries todo cleaned =>
    cases todo with
    | nil => exact ⟨_, _, .done⟩
    | cons n todo =>
      cases hname : dotPcapTmp.isSuffixOf n with
      | false => exact ⟨_, _, .other hname⟩
      | true =>
        cases htime : d.modified n with
        | none => exact ⟨_, _, .gone hname htime⟩
        | some mtime =>
          by_cases hstale : mtime < cutoff
          · exact ⟨_, _, .stale hname htime hstale⟩
          · exact ⟨_, _, .young hname htime hstale⟩
  | remove n todo cleaned =>
    cases hthere : d.isFile n with
    | true => exact ⟨_, _, .removed hthere⟩
    | false => exact ⟨_, _, .vanished hthere⟩
  | done cleaned => cases hrunning

/-- How many steps are left at most. -/
def Lister.left : Lister → Nat
  | .entries todo _ => todo.length + 1
  | .done _ => 0

theorem Lister.left_lt {cutoff : Option Time} {l l' : Lister} (hstep : ListerStep σ cutoff d l l') :
    l'.left < l.left := by
  cases hstep <;> simp only [Lister.left, List.length_cons] <;> omega

theorem Lister.exists_step {cutoff : Option Time} {todo found : List Name} :
    ∃ l', ListerStep σ cutoff d (.entries todo found) l' := by
  cases todo with
  | nil => exact ⟨_, .sort d.modified fun _ => .inl rfl⟩
  | cons n todo =>
    cases h : listEntry cutoff n (d.isFile n) (d.modified n) (d.isMarked n) with
    | error e => exact absurd h listEntry_ne_error
    | ok pushed => exact ⟨_, .entry (.inl rfl) (.inl rfl) h⟩

/-- How many steps are left at most, for a file of `size` bytes. -/
def Checker.left (size : Nat) : Checker → Nat
  | .check => size + 4
  | .stat => size + 3
  | .openSrc _ => size + 2
  | .analyze _ _ input => size - input.length + 1
  | .done _ => 0

theorem Checker.left_lt (hfaults : σ.faults = false) {i : Ino Path} {c c' : Checker}
    (hsrc : Untouched n i content fs) (hinv : CheckInv σ.build n i content c)
    (hstep : CheckerStep σ n fs c c') : c'.left content.length < c.left content.length := by
  cases hstep with
  | readSrc k hdata hmore hk =>
    obtain ⟨rfl, -⟩ := hinv
    cases hsrc.data.symm.trans hdata
    simp only [Checker.left, List.length_append, List.length_take, List.length_drop]
    omega
  | missing hneeds hgone => exact absurd hgone (Checker.ne_none_of_needs hsrc hneeds)
  | fail e h =>
    rw [hfaults] at h
    cases h
  | marked | unmarked | stat | openSrc | analyzePanic | analyzeError | analyzeDone =>
    simp only [Checker.left, List.length_nil]
    omega

theorem Checker.exists_step {i : Ino Path} {c : Checker} (hsrc : Untouched n i content fs)
    (hinv : CheckInv σ.build n i content c) (hrunning : c.isDone = false) :
    ∃ c', CheckerStep σ n fs c c' := by
  cases c with
  | check => exact ⟨_, .unmarked hsrc.marker⟩
  | stat => exact ⟨_, .stat hsrc.src hsrc.data⟩
  | openSrc inBytes => exact ⟨_, .openSrc hsrc.src⟩
  | analyze inp inBytes input =>
    obtain ⟨rfl, -, -⟩ := hinv
    by_cases hmore : input.length < content.length
    · exact ⟨_, .readSrc content.length hsrc.data hmore (by omega)⟩
    have hend : content.length ≤ input.length := by omega
    cases h : analyzePcap σ.build (display n) input with
    | error failure =>
      cases failure with
      | panic fault => exact ⟨_, .analyzePanic h⟩
      | error err => exact ⟨_, .analyzeError hsrc.data (.inl hend) h⟩
    | ok stats => exact ⟨_, .analyzeDone hsrc.data hend h⟩
  | done outcome => cases hrunning

end PcapSlim.Coord

namespace PcapSlim.Cli

open Lib.Octets Lib.Files PcapIo Coord Report Capture

variable {σ : Setting} {build : Build} {osText : IoError → String} {files : Path → Option Bytes}
  {n : Name} {d₀ d : Disk} {fs : FileSystem Path} {a : Action Path} {p p' : Process} {args : Args}

/-! ## What is left of a process -/

/-- What is left of the call for a file with the given contents, also before it is taken up. -/
def taskLeft (build : Build) (content : Bytes) : Option Task → Nat
  | none => content.length + 2 * (emittedFor build content).length + 13
  | some (.slim v) => remaining content.length (emittedFor build content).length v
  | some (.check c) => c.left content.length

theorem taskLeft_lt (hfaults : σ.faults = false) {checkOnly : Bool} {t t' : Task}
    (h : TaskInv σ.build checkOnly d₀ n fs (some t)) (hstep : TaskStep σ n fs t a t') :
    taskLeft σ.build (contentOf d₀ n) (some t') < taskLeft σ.build (contentOf d₀ n) (some t) := by
  cases hstep with
  | slim hstep =>
    obtain ⟨-, i, hcall⟩ := h
    exact remaining_lt hfaults hcall hstep
  | check hstep =>
    obtain ⟨-, -, i, hsrc, hcall⟩ := h
    exact Checker.left_lt hfaults hsrc hcall hstep

theorem exists_taskStep {checkOnly : Bool} {t : Task}
    (h : TaskInv σ.build checkOnly d₀ n fs (some t)) (hrunning : t.outcome = none) :
    ∃ a t', TaskStep σ n fs t a t' := by
  cases t with
  | slim v =>
    obtain ⟨-, i, hcall⟩ := h
    have hnot : v.isDone = false := by
      cases v with
      | done outcome => cases hrunning
      | _ => rfl
    obtain ⟨a, v', hstep⟩ := exists_step hcall hnot
    exact ⟨_, _, .slim hstep⟩
  | check c =>
    obtain ⟨-, -, i, hsrc, hcall⟩ := h
    have hnot : c.isDone = false := by
      cases c with
      | done outcome => cases hrunning
      | _ => rfl
    obtain ⟨c', hstep⟩ := Checker.exists_step hsrc hcall hnot
    exact ⟨_, _, .check hstep⟩

/-- What is left of all calls. -/
def Pool.left (build : Build) (d₀ : Disk) (pool : Pool) : Nat :=
  (pool.files.map fun n => taskLeft build (contentOf d₀ n) (pool.tasks n)).sum

theorem Pool.left_set_lt {pool : Pool} {t : Task} (hmem : n ∈ pool.files)
    (h : taskLeft build (contentOf d₀ n) (some t) < taskLeft build (contentOf d₀ n) (pool.tasks n)) :
    (pool.set n t).left build d₀ < pool.left build d₀ := by
  refine List.sum_lt_sum _ _ (fun m _ => ?_) ⟨n, hmem, ?_⟩
  · by_cases hm : m = n
    · rw [hm, pool.tasks_set_self]
      exact Nat.le_of_lt h
    · rw [pool.tasks_set_of_ne hm]
  · rw [pool.tasks_set_self]
    exact h

/-- The phase, and what is left to do in it. -/
def Process.left (build : Build) (d₀ : Disk) : Process → Nat × Nat
  | start _ => (5, 0)
  | cleaning _ _ c => (4, c.left)
  | toList _ => (3, 0)
  | listing _ _ l => (2, l.left)
  | working _ pool => (1, pool.left build d₀)
  | absent | ended _ _ _ | panicked _ => (0, 0)

/-- The order in which phases and what is left in them go down. -/
abbrev Nearer : Nat × Nat → Nat × Nat → Prop := Prod.Lex (· < ·) (· < ·)

theorem nearer_select {lets : Time → Name → Bool} {names : List Name} {k m : Nat} (hk : 1 < k) :
    Nearer ((Process.select args lets names).left build d₀) (k, m) := by
  unfold Process.select
  split
  · exact .left _ _ (by omega)
  · split
    · exact .left _ _ (by omega)
    · exact .left _ _ hk

variable {clock : Time → Prop}

theorem nearer_step (hfaults : σ.faults = false) (hsound : p.Sound (IsCapture files))
    (h : SessionInv σ.build osText files args clock d₀ d p) (hstep : ProcessStep σ osText d p a p') :
    Nearer (p'.left σ.build d₀) (p.left σ.build d₀) := by
  cases hstep with
  | plan hplan =>
    cases hplan with
    | single | listed => exact nearer_select (by decide)
    | list hlist => exact .right _ (Lister.left_lt hlist)
    | @take args' pool m hmem hqueued =>
      refine .right _ (Pool.left_set_lt hmem ?_)
      rw [hqueued, Args.task]
      split <;> simp only [taskLeft, remaining, Checker.left] <;> omega
    | noTarget | cleanup | cleanupUnread | noCleanup | cleaned | readDir | dirUnread | listFailed
    | noPool | report | panic => exact .left _ _ (by decide)
  | clean hclean => exact .right _ (Cleaner.left_lt hclean)
  | @task args' pool m t a t' htask hlets hstep =>
    obtain ⟨rfl, -, -, -, -, -, htasks⟩ := h
    have hmem := hsound.2.2 m t htask
    have hinv := htasks m hmem
    rw [htask] at hinv
    refine .right _ (Pool.left_set_lt hmem ?_)
    rw [htask]
    exact taskLeft_lt hfaults hinv hstep

/-! ## Directories are finite -/

/-- There are finitely many files in the directory. -/
def Disk.Finite (d : Disk) : Prop := {n | d.isFile n = true}.Finite

/-- A system call adds one file at most. -/
theorem Disk.Finite.apply (h : Disk.Finite d) : Disk.Finite (d.apply a) := by
  have hone : ∀ q : Path, {n | srcPath n = q}.Finite := fun q =>
    Set.Subsingleton.finite fun n hn m hm => Path.file.inj (hn.trans hm.symm)
  have hsame : ∀ {n}, (d.files.apply a).dir (srcPath n) = none ∨
      (d.files.apply a).dir (srcPath n) = d.files.dir (srcPath n) →
      (d.apply a).isFile n = true → d.isFile n = true := by
    intro n hdir hfile
    change ((d.files.apply a).dir (srcPath n)).isSome = true at hfile
    rcases hdir with hdir | hdir
    · rw [hdir] at hfile
      cases hfile
    · rwa [hdir] at hfile
  cases a with
  | idle | write => exact h
  | create q j =>
    refine (h.union (hone q)).subset fun n hn => ?_
    by_cases hq : srcPath n = q
    · exact .inr hq
    · exact .inl (hsame (.inr (FileSystem.dir_create_of_ne hq)) hn)
  | rename q r =>
    refine (h.union (hone r)).subset fun n hn => ?_
    by_cases hr : srcPath n = r
    · exact .inr hr
    · refine .inl (hsame ?_ hn)
      cases hdir : d.files.dir q with
      | none => exact .inr (if_pos hdir)
      | some j =>
        rw [FileSystem.dir_rename hdir, if_neg hr]
        split
        · exact .inl rfl
        · exact .inr rfl
  | remove q =>
    refine h.subset fun n hn => ?_
    by_cases hq : srcPath n = q
    · change ((d.files.apply (.remove q)).dir (srcPath n)).isSome = true at hn
      rw [hq, FileSystem.dir_remove_self] at hn
      cases hn
    · exact hsame (.inr (FileSystem.dir_remove_of_ne hq)) hn

theorem Disk.Finite.step {κ : Type} [DecidableEq κ] {w w' : World κ} {k : κ} {singles : Set Name}
    (h : Disk.Finite w.disk) (hstep : WorldStep σ osText singles k w a w') :
    Disk.Finite w'.disk := by
  cases hstep with
  | session hstep =>
    cases hstep with
    | act => exact h.apply
    | tick => exact h
  | launch | kill => exact h

theorem finite_start {κ : Type} {mtime : Ino Path → Time} {now : Time}
    (hfinite : {n | files (srcPath n) ≠ none}.Finite) :
    Disk.Finite (World.start files mtime now : World κ).disk := by
  refine hfinite.subset fun n hn hnone => ?_
  change ((FileSystem.ofFiles files).dir (srcPath n)).isSome = true at hn
  rw [FileSystem.dir_ofFiles_none hnone] at hn
  cases hn

theorem Disk.Finite.readDir (h : Disk.Finite d) : ∃ entries, ReadDir σ d entries :=
  ⟨h.toFinset.toList, Finset.nodup_toList _, fun _ _ hn =>
    Finset.mem_toList.mpr (h.mem_toFinset.mpr hn)⟩

/-! ## There is always a next step -/

/-- Without limits the pool does not block: a call that is running can act, or one that is
queued can be taken up, or the pool is done. -/
theorem exists_poolStep {pool : Pool} (hfree : args.limited = false) (hcount : 0 < pool.workerCount)
    (htasks : ∀ n ∈ pool.files, TaskInv σ.build args.checkOnly d₀ n d.files (pool.tasks n)) :
    ∃ a p', ProcessStep σ osText d (.working args pool) a p' := by
  by_cases hrunning : ∃ n ∈ pool.files, ∃ t, pool.tasks n = some t ∧ t.outcome = none
  · obtain ⟨n, hn, t, ht, houtcome⟩ := hrunning
    have htask := htasks n hn
    rw [ht] at htask
    obtain ⟨a, t', hstep⟩ := exists_taskStep htask houtcome
    refine ⟨_, _, .task ht (fun hlimited => ?_) hstep⟩
    rw [hfree] at hlimited
    cases hlimited
  by_cases hqueued : ∃ n ∈ pool.files, pool.tasks n = none
  · obtain ⟨n, hn, hnone⟩ := hqueued
    have hnobody : pool.running = 0 := by
      refine List.countP_eq_zero.mpr fun m hm => ?_
      cases ht : pool.tasks m with
      | none => simp
      | some t =>
        have hdone : t.outcome ≠ none := fun h => hrunning ⟨m, hm, t, ht, h⟩
        simpa using hdone
    exact ⟨_, _, .plan (.take hn hnone (hnobody ▸ hcount))⟩
  -- all calls have ended
  have hdone : ∀ n ∈ pool.files, ∃ outcome, (pool.tasks n).bind Task.outcome = some outcome := by
    intro n hn
    cases ht : pool.tasks n with
    | none => exact absurd ⟨n, hn, ht⟩ hqueued
    | some t => exact Option.ne_none_iff_exists'.mp fun h => hrunning ⟨n, hn, t, ht, h⟩
  by_cases hpanic : ∃ n ∈ pool.files, (pool.tasks n).bind Task.outcome = some .panicked
  · obtain ⟨n, hn, h⟩ := hpanic
    exact ⟨_, _, .plan (.panic hn h)⟩
  · let results : Name → Except CoordError (FileResult × Option SlimStats) := fun n =>
      match (pool.tasks n).bind Task.outcome with
      | some (.returned result) => result
      | _ => .ok (.skippedMarker, none)
    have hresults : ∀ n ∈ pool.files,
        (pool.tasks n).bind Task.outcome = some (.returned (results n)) := by
      intro n hn
      obtain ⟨outcome, h⟩ := hdone n hn
      cases outcome with
      | returned result => simp only [results, h]
      | panicked => exact absurd ⟨n, hn, h⟩ hpanic
    exact ⟨_, _, .plan (.report (fun _ => 0) 0 hresults)⟩

/-- Without limits a process that is not over has a next step. -/
theorem exists_processStep (hdir : args.dir = true) (hsingle : args.single = none)
    (hfree : args.limited = false) (hfinite : Disk.Finite d)
    (h : SessionInv σ.build osText files args clock d₀ d p) (hrunning : p.isOver = false) :
    ∃ a p', ProcessStep σ osText d p a p' := by
  cases p with
  | start args' =>
    obtain ⟨rfl, -⟩ := h
    cases hcheck : args'.checkOnly with
    | true => exact ⟨_, _, .plan (.noCleanup hsingle hdir hcheck)⟩
    | false =>
      obtain ⟨entries, hread⟩ := hfinite.readDir
      exact ⟨_, _, .plan (.cleanup hsingle hdir hcheck hread)⟩
  | cleaning args' cutoff c =>
    cases hdone : c.isDone with
    | true =>
      cases c with
      | done cleaned => exact ⟨_, _, .plan .cleaned⟩
      | entries | remove => cases hdone
    | false =>
      obtain ⟨a, c', hstep⟩ := Cleaner.exists_step hdone
      exact ⟨_, _, .clean hstep⟩
  | toList args' =>
    obtain ⟨entries, hread⟩ := hfinite.readDir
    exact ⟨_, _, .plan (.readDir hread)⟩
  | listing args' cutoff l =>
    cases l with
    | entries todo found =>
      obtain ⟨l', hstep⟩ := Lister.exists_step
      exact ⟨_, _, .plan (.list hstep)⟩
    | done result =>
      cases result with
      | ok found => exact ⟨_, _, .plan (.listed fun _ _ => true)⟩
      | error e => exact ⟨_, _, .plan .listFailed⟩
  | working args' pool =>
    obtain ⟨rfl, -, -, hcount, -, -, htasks⟩ := h
    exact exists_poolStep hfree hcount htasks
  | absent | ended | panicked => cases hrunning

/-! ## Whole runs -/

section Session

variable {mtime : Ino Path → Time} {now : Time} {w₀ w : World Unit}

/-- The files are as they were, and the process is where it was. -/
def OnlyTicks (w w' : World Unit) : Prop := ∃ now, w' = { w with disk := { w.disk with now } }

/-- What is known of the directory and the process during a run. -/
structure Underway (build : Build) (osText : IoError → String) (files : Path → Option Bytes)
    (args : Args) (d₀ : Disk) (w : World Unit) : Prop where
  known : w.Known build files
  finite : Disk.Finite w.disk
  inv : SessionInv build osText files args (fun _ => True) d₀ w.disk (w.processes ())

theorem underway_start (hshared : NoSharedTmp files)
    (hfinite : {n | files (srcPath n) ≠ none}.Finite)
    (hhistory : WorldRun σ osText (captures files) (World.start files mtime now) w₀)
    (hidle : (w₀.processes ()).isOver = true) (hdir : args.dir = true)
    (hsingle : args.single = none) :
    Underway σ.build osText files args w₀.disk (w₀.advance () .idle (.start args)) := by
  have hknown := known_of_run hshared (undisturbedRun_of_worldRun hhistory)
  obtain ⟨hknown', hinv⟩ := sessionInv_run hshared hknown hidle hdir hsingle .refl
  have hfinite₀ : Disk.Finite w₀.disk :=
    Lib.Run.invariant_of_run (fun w : World Unit => Disk.Finite w.disk)
      (fun _ _ h ⟨_, _, hstep⟩ => h.step hstep) hhistory (finite_start hfinite)
  exact ⟨hknown', hfinite₀, hinv.mono fun _ _ => trivial⟩

/-- A step of the process brings it nearer to its end, a tick changes nothing. -/
theorem underway_step (hshared : NoSharedTmp files) (hready : Ready files d₀)
    (hdir : args.dir = true) (hsingle : args.single = none) {w w' : World Unit}
    (h : Underway build osText files args d₀ w)
    (hstep : SessionStep (.quiet build) osText () w a w') :
    Underway build osText files args d₀ w' ∧
      (Nearer ((w'.processes ()).left build d₀) ((w.processes ()).left build d₀) ∨
        (OnlyTicks w w' ∧ (w'.processes ()).left build d₀ = (w.processes ()).left build d₀)) := by
  refine ⟨⟨World.Known.step (σ := .quiet build) hshared h.known (.session hstep)
    (undisturbed_unit _ _), h.finite.step (.session hstep : WorldStep _ _ (captures files) _ _ _ _),
      sessionInv_step (σ := .quiet build) rfl hshared hready hdir hsingle h.known.inv.sound h.inv hstep
        fun _ _ => trivial⟩, ?_⟩
  cases hstep with
  | tick now => exact .inr ⟨⟨now, rfl⟩, rfl⟩
  | act hstep =>
    refine .inl ?_
    rw [processes_advance_self]
    exact nearer_step (σ := .quiet build) rfl (h.known.inv.sound.processes ()) h.inv hstep

/-- Without limits a run can be brought to its end from wherever it is. -/
theorem session_finishes (hshared : NoSharedTmp files)
    (hfinite : {n | files (srcPath n) ≠ none}.Finite)
    (hhistory : WorldRun σ osText (captures files) (World.start files mtime now) w₀)
    (hidle : (w₀.processes ()).isOver = true) (hdir : args.dir = true)
    (hsingle : args.single = none) (hfree : args.limited = false)
    (hrun : SessionRun (.quiet σ.build) osText (w₀.advance () .idle (.start args)) w) :
    ∃ w', SessionRun (.quiet σ.build) osText w w' ∧ (w'.processes ()).isOver = true := by
  have hready := ready_of_known (known_of_run hshared (undisturbedRun_of_worldRun hhistory))
  have hbegin := underway_start hshared hfinite hhistory hidle hdir hsingle
  have hsteps : ∀ w w', Underway σ.build osText files args w₀.disk w →
      (∃ a, SessionStep (.quiet σ.build) osText () w a w') →
      Underway σ.build osText files args w₀.disk w' := fun w w' h ⟨a, hstep⟩ =>
    (underway_step hshared hready hdir hsingle h hstep).1
  refine Lib.Run.exists_final (μ := fun w : World Unit => (w.processes ()).left σ.build w₀.disk)
    (WellFounded.prod_lex Nat.lt_wfRel.wf Nat.lt_wfRel.wf) hsteps (fun w h hrunning => ?_)
    (Lib.Run.invariant_of_run _ hsteps hrun hbegin)
  obtain ⟨a, p, hstep⟩ := exists_processStep (σ := .quiet σ.build) hdir hsingle hfree h.finite h.inv
    (Bool.eq_false_iff.mpr hrunning)
  refine ⟨_, ⟨a, .act hstep⟩, ?_⟩
  rw [processes_advance_self]
  exact nearer_step (σ := .quiet σ.build) rfl (h.known.inv.sound.processes ()) h.inv hstep

/-- **A run over a directory ends**: alone, with nothing failing in it, a run that goes on for
ever makes finitely many steps, and without limits it can always make one until it is over.
The directory is finite, `--single` has named captures only, and `.pcap` and `.pcap.pcap`
are not both there. -/
theorem session_terminates (hshared : NoSharedTmp files)
    (hfinite : {n | files (srcPath n) ≠ none}.Finite)
    (hhistory : WorldRun σ osText (captures files) (World.start files mtime now) w₀)
    (hidle : (w₀.processes ()).isOver = true) (hdir : args.dir = true)
    (hsingle : args.single = none) {run : ℕ → World Unit}
    (hstart : run 0 = w₀.advance () .idle (.start args))
    (hrun : ∀ i, ∃ a, SessionStep (.quiet σ.build) osText () (run i) a (run (i + 1))) :
    (∃ N, ∀ i, N ≤ i → OnlyTicks (run i) (run (i + 1))) ∧
      (args.limited = false → ∀ i, ((run i).processes ()).isOver = false → ∃ a p,
        ProcessStep (.quiet σ.build) osText (run i).disk ((run i).processes ()) a p) := by
  have hready := ready_of_known (known_of_run hshared (undisturbedRun_of_worldRun hhistory))
  have hbegin := underway_start hshared hfinite hhistory hidle hdir hsingle
  rw [← hstart] at hbegin
  have hsteps : ∀ w w', Underway σ.build osText files args w₀.disk w →
      (∃ a, SessionStep (.quiet σ.build) osText () w a w') →
      Underway σ.build osText files args w₀.disk w' ∧ _ := fun w w' h ⟨a, hstep⟩ =>
    underway_step hshared hready hdir hsingle h hstep
  have hunderway : ∀ i, Underway σ.build osText files args w₀.disk (run i) := by
    intro i
    induction i with
    | zero => exact hbegin
    | succ i ih => exact (hsteps _ _ ih (hrun i)).1
  refine ⟨?_, fun hfree i hrunning => ?_⟩
  · exact Lib.Run.eventually_idle (WellFounded.prod_lex Nat.lt_wfRel.wf Nat.lt_wfRel.wf) hsteps hrun
      hbegin
  · exact exists_processStep (σ := .quiet σ.build) hdir hsingle hfree (hunderway i).finite
      (hunderway i).inv hrunning

theorem captureFiles_finite : {n | captureFiles (srcPath n) ≠ none}.Finite :=
  (Set.finite_singleton captureName).subset fun _ hn => eq_captureName hn

/-- A run that slims the capture and waits for ever when it is over. -/
theorem session_terminates_capture : ∃ (run : ℕ → World Unit) (N : ℕ),
    run 0 = captureWorld.advance () .idle (.start captureArgs) ∧
      ((run N).processes ()).isOver = true ∧
      ∃ N, ∀ i, N ≤ i → OnlyTicks (run i) (run (i + 1)) := by
  obtain ⟨w, hrun, hover⟩ := session_finishes (σ := .quiet .release) captureFiles_noSharedTmp
    captureFiles_finite (.refl : WorldRun _ (fun _ => "") _ captureWorld captureWorld) rfl
    (rfl : captureArgs.dir = true) rfl rfl .refl
  obtain ⟨run, hstart, hsteps, N, hN⟩ := Lib.Run.exists_run_append (fun _ => w) hrun rfl
    fun _ => ⟨_, .tick w.disk.now⟩
  refine ⟨run, N, hstart, ?_, (session_terminates (σ := .quiet .release) captureFiles_noSharedTmp
    captureFiles_finite .refl rfl rfl rfl hstart hsteps).1⟩
  rw [← Nat.add_zero N, hN]
  exact hover

end Session

end PcapSlim.Cli
