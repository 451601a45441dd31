/-
PcapSlim.SessionTheorems — what a run of the program does to a directory.

One process, alone, with nothing failing, on a disk that any number of earlier runs may
have left behind (`Ready`). `SessionInv` says for each place of the process what it has
made of the disk `d₀` that it started on: nothing but stale tmp files is gone before the
first call, the list holds the pending captures in the order of their times, and each
call is where it would be alone. So what is printed, and what becomes of the captures, is
a function of `d₀` and of the time at which the list is made (`SessionEnd`), which is that of
one step of the run (`ListedAt`).
-/
import PcapSlim.FrameTheorems
import PcapSlim.ReportTheorems

namespace PcapSlim.Coord

open Lib.Octets Lib.Files PcapIo Capture

/-! ## The order of the list -/

theorem timeLe_trans (s t u : Option Time) (hst : timeLe s t = true) (htu : timeLe t u = true) :
    timeLe s u = true := by
  cases s with
  | none => rfl
  | some s =>
    cases t with
    | none => cases hst
    | some t =>
      cases u with
      | none => cases htu
      | some u =>
        simp only [timeLe, decide_eq_true_eq] at *
        exact Int.le_trans hst htu

theorem timeLe_total (s t : Option Time) : (timeLe s t || timeLe t s) = true := by
  cases s with
  | none => rfl
  | some s =>
    cases t with
    | none => rfl
    | some t =>
      simp only [timeLe, Bool.or_eq_true, decide_eq_true_eq]
      exact Int.le_total s t

/-- The list is in the order of the keys. -/
theorem pairwise_sortByKey (key : Name → Option Time) (files : List Name) :
    (sortByKey key files).Pairwise fun n m => timeLe (key n) (key m) = true :=
  List.pairwise_mergeSort (fun n m k => timeLe_trans (key n) (key m) (key k))
    (fun n m => timeLe_total (key n) (key m)) files

/-- Only the keys of the files count. -/
theorem sortByKey_congr {key key' : Name → Option Time} {files : List Name}
    (h : ∀ n ∈ files, key n = key' n) : sortByKey key files = sortByKey key' files := by
  have hmap := List.map_mergeSort (r := fun p q => timeLe (key p) (key q))
    (s := fun p q => timeLe (key' p) (key' q)) (f := id) (l := files) fun n hn m hm => by
      rw [h n hn, h m hm]
      rfl
  rwa [List.map_id, List.map_id] at hmap

end PcapSlim.Coord

namespace PcapSlim.Cli

open Lib.Octets Lib.Files PcapIo Coord Report

variable {build : Build} {osText : IoError → String} {files : Path → Option Bytes} {n m : Name}
  {d₀ d : Disk} {fs fs' : FileSystem Path} {a : Action Path} {p p' : Process} {args : Args}
  {now : Time} {names : List Name}

/-! ## The disk at the start -/

/-- What is in the file `n`. -/
def contentOf (d : Disk) (n : Name) : Bytes := (d.files.read (srcPath n)).getD []

theorem isFile_eq_isSome_read : d.isFile n = (d.files.read (srcPath n)).isSome := by
  rw [Disk.isFile, FileSystem.isSome_read]

/-- The captures are at rest: the tmp file of one that is to be slimmed is another file. -/
structure Ready (files : Path → Option Bytes) (d : Disk) : Prop where
  known : ∀ n, d.isFile n = true → isPendingName n = true → IsCapture files n
  closed : ∀ n, IsCapture files n → Closed (paths n) d.files
  tmp : ∀ n, IsCapture files n → d.isMarked n = false → ∀ j,
    d.files.dir (srcPath n) = some j → d.files.dir (tmpPath n) ≠ some j

/-- Any number of processes leave the captures at rest. -/
theorem ready_of_known {κ : Type} {w : World κ} (h : w.Known build files) :
    Ready files w.disk where
  known := h.inv.sound.known
  closed := h.inv.sound.closed
  tmp n hn hmarked j hsrc htmp := by
    obtain ⟨source, hkeeps⟩ := h.keeps hn hmarked
    exact (hkeeps.file.tmp j htmp).2 hsrc

namespace Kept

theorem isMarked (h : Kept n d₀ d.files) : d.isMarked n = d₀.isMarked n := by
  rw [Disk.isMarked, h.marker, Disk.isMarked]

theorem isFile (h : Kept n d₀ d.files) : d.isFile n = d₀.isFile n := by
  rw [Disk.isFile, h.src, Disk.isFile]

theorem modified (h : Kept n d₀ d.files) (hmtime : d.mtime = d₀.mtime) :
    d.modified n = d₀.modified n := by
  rw [Disk.modified, h.src, hmtime, Disk.modified]

/-- A capture to be slimmed that nothing has been done to is ready for a call. -/
theorem untouched {fs : FileSystem Path} (hready : Ready files d₀) (hn : IsCapture files n)
    (h : Kept n d₀ fs) (hfile : d₀.isFile n = true) (hmarked : d₀.isMarked n = false) :
    ∃ i, Untouched n i (contentOf d₀ n) fs := by
  obtain ⟨i, hi⟩ := Option.isSome_iff_exists.mp hfile
  obtain ⟨content, hcontent⟩ := FileSystem.exists_data hi
  have hsame : contentOf d₀ n = content := by
    rw [contentOf, FileSystem.read_of_dir hi, hcontent, Option.getD_some]
  refine ⟨i, h.src.trans hi, ?_, fun htmp => hready.tmp n hn hmarked i hi (h.tmp i htmp), ?_⟩
  · rw [h.data i (hready.closed n hn _ (srcPath_mem n) i hi), hcontent, hsame]
  · rw [h.marker]
    exact Option.not_isSome_iff_eq_none.mp (Bool.eq_false_iff.mp hmarked)

end Kept

/-! ## The list -/

/-- Before the first call nothing is gone but tmp files. -/
structure Waiting (d₀ d : Disk) : Prop where
  kept : ∀ n, isPendingName n = true → Kept n d₀ d.files
  mtime : d.mtime = d₀.mtime

theorem Waiting.pending_iff (h : Waiting d₀ d) {cutoff : Option Time} :
    d.Pending cutoff n ↔ d₀.Pending cutoff n := by
  constructor
  · rintro ⟨hfile, hname, hold, hunmarked⟩
    have hkept := h.kept n hname
    rw [hkept.isFile] at hfile
    rw [hkept.modified h.mtime] at hold
    rw [hkept.isMarked] at hunmarked
    exact ⟨hfile, hname, hold, hunmarked⟩
  · rintro ⟨hfile, hname, hold, hunmarked⟩
    have hkept := h.kept n hname
    rw [← hkept.isFile] at hfile
    rw [← hkept.modified h.mtime] at hold
    rw [← hkept.isMarked] at hunmarked
    exact ⟨hfile, hname, hold, hunmarked⟩

/-- The age limit that is in force when the list is made at the time `now`. -/
def Args.cutoff (args : Args) (now : Time) : Option Time :=
  args.ageMinutes.map fun minutes => secondsBefore now (minutes * 60)

/-- What `read_dir` has delivered of the captures on `d₀`. -/
structure Entries (d₀ : Disk) (entries : List Name) : Prop where
  nodup : entries.Nodup
  complete : ∀ n, isPendingName n = true → d₀.isFile n = true → n ∈ entries

/-- The list of a process that started on `d₀` and makes its list at the time `now`: the
captures that are then pending, in the order of their times, and in the order of `read_dir`
where these are the same. -/
def Listed (args : Args) (d₀ : Disk) (now : Time) (names : List Name) : Prop :=
  ∃ entries, Entries d₀ entries ∧
    names = sortByKey d₀.modified (entries.filter fun n => decide (d₀.Pending (args.cutoff now) n))

namespace Listed

theorem nodup (h : Listed args d₀ now names) : names.Nodup := by
  obtain ⟨entries, hentries, rfl⟩ := h
  exact (perm_sortByKey _ _).nodup_iff.mpr (hentries.nodup.filter _)

theorem mem_iff (h : Listed args d₀ now names) :
    n ∈ names ↔ d₀.Pending (args.cutoff now) n := by
  obtain ⟨entries, hentries, rfl⟩ := h
  rw [(perm_sortByKey _ _).mem_iff, List.mem_filter, decide_eq_true_eq]
  exact ⟨And.right, fun h => ⟨hentries.complete n h.name h.isFile, h⟩⟩

theorem sorted (h : Listed args d₀ now names) :
    names.Pairwise fun n m => timeLe (d₀.modified n) (d₀.modified m) = true := by
  obtain ⟨entries, hentries, rfl⟩ := h
  exact pairwise_sortByKey _ _

/-- What the loop has found on `d` is the list for `d₀`. -/
theorem of_exact {entries : List Name} (hwaiting : Waiting d₀ d) (hentries : Entries d₀ entries)
    (h : (Lister.done (.ok names)).Exact d (args.cutoff now) entries) :
    Listed args d₀ now names := by
  refine ⟨entries, hentries, ?_⟩
  have hfilter : (entries.filter fun n => decide (d.Pending (args.cutoff now) n)) =
      entries.filter fun n => decide (d₀.Pending (args.cutoff now) n) :=
    List.filter_congr fun n _ => decide_eq_decide.mpr hwaiting.pending_iff
  rw [Lister.Exact, hfilter] at h
  rw [h]
  refine sortByKey_congr fun n hn => ?_
  have hpending := of_decide_eq_true (List.mem_filter.mp hn).2
  exact (hwaiting.kept n hpending.name).modified hwaiting.mtime

end Listed

theorem Args.Full.mem_iff (hfull : args.Full) (h : Listed args d₀ now names) :
    n ∈ names ↔ d₀.Pending none n := by
  rw [h.mem_iff, Args.cutoff, hfull.ageMinutes, Option.map_none]

/-! ## The calls -/

/-- Where the call for the capture `n` is, among others. -/
def TaskInv (build : Build) (checkOnly : Bool) (d₀ : Disk) (n : Name) (fs : FileSystem Path) :
    Option Task → Prop
  | none => Kept n d₀ fs
  | some (.slim v) => checkOnly = false ∧ ∃ i, CallInv build n i (contentOf d₀ n) fs v
  | some (.check c) => checkOnly = true ∧ Kept n d₀ fs ∧ ∃ i,
      Untouched n i (contentOf d₀ n) fs ∧ CheckInv build n i (contentOf d₀ n) c

theorem TaskInv.of_agree {checkOnly : Bool} {t : Option Task} (hclosed : Closed (paths n) fs)
    (hagree : AgreeOn (paths n) fs' fs) (h : TaskInv build checkOnly d₀ n fs t) :
    TaskInv build checkOnly d₀ n fs' t := by
  cases t with
  | none => exact Kept.of_agree h hagree
  | some t =>
    cases t with
    | slim v =>
      obtain ⟨hcheck, i, hcall⟩ := h
      exact ⟨hcheck, i, hcall.of_agree hclosed hagree⟩
    | check c =>
      obtain ⟨hcheck, hkept, i, hsrc, hcall⟩ := h
      exact ⟨hcheck, hkept.of_agree hagree, i, hsrc.of_agree hclosed hagree, hcall⟩

/-- A call that is taken up starts on what was there at the start. -/
theorem TaskInv.take (hready : Ready files d₀) (hn : IsCapture files n) (hfile : d₀.isFile n = true)
    (hmarked : d₀.isMarked n = false) (h : Kept n d₀ fs) :
    TaskInv build args.checkOnly d₀ n fs (some args.task) := by
  obtain ⟨i, hsrc⟩ := h.untouched hready hn hfile hmarked
  unfold Args.task
  cases hcheck : args.checkOnly with
  | true => exact ⟨rfl, h, i, hsrc, trivial⟩
  | false => exact ⟨rfl, i, hsrc⟩

theorem TaskInv.step {σ : Setting} (hfaults : σ.faults = false) {checkOnly : Bool} {t t' : Task}
    (h : TaskInv σ.build checkOnly d₀ n fs (some t)) (hstep : TaskStep σ n fs t a t') :
    TaskInv σ.build checkOnly d₀ n (fs.apply a) (some t') := by
  cases hstep with
  | slim hstep =>
    obtain ⟨hcheck, i, hcall⟩ := h
    exact ⟨hcheck, i, callInv_step hfaults hcall hstep⟩
  | check hstep =>
    obtain ⟨hcheck, hkept, i, hsrc, hcall⟩ := h
    exact ⟨hcheck, hkept, i, hsrc, checkInv_step hfaults hsrc hcall hstep⟩

/-- The pass of a call for the file `n`. `check_file` does without a tmp file. -/
def passOf (build : Build) (checkOnly : Bool) (n : Name) (content : Bytes) :
    Except Failure (WriteBatch × SlimStats) :=
  if checkOnly then slimPcapToWriter build (display n) content else callPass build n content

/-- Every call ends as its pass does. -/
theorem TaskInv.outcome {checkOnly : Bool} {t : Task} {outcome : Outcome}
    (h : TaskInv build checkOnly d₀ n fs (some t)) (houtcome : t.outcome = some outcome) :
    outcome = .ofPass (passOf build checkOnly n (contentOf d₀ n)) := by
  cases t with
  | slim v =>
    obtain ⟨rfl, i, hcall⟩ := h
    cases v with
    | done outcome' =>
      cases houtcome
      exact hcall.outcome
    | _ => cases houtcome
  | check c =>
    obtain ⟨rfl, -, i, -, hcall⟩ := h
    cases c with
    | done outcome' =>
      cases houtcome
      exact hcall
    | _ => cases houtcome

/-! ## Where the process is -/

/-- An entry but for the time that the call has taken. -/
def timeless (r : FileReport) : FileReport := { r with elapsedMs := none }

/-- The entry for the capture `n`. A call that panics has none. -/
def expectedReport (build : Build) (osText : IoError → String) (checkOnly : Bool) (n : Name)
    (content : Bytes) : Option FileReport :=
  match Outcome.ofPass (passOf build checkOnly n content) with
  | .returned result => some (timeless (.ofResult osText (display n) 0 result))
  | .panicked => none

/-- What a process that started on `d₀` and made its list at the time `now` leaves behind. -/
structure SessionEnd (build : Build) (osText : IoError → String) (files : Path → Option Bytes)
    (args : Args) (d₀ : Disk) (fs : FileSystem Path) (now : Time) (names : List Name)
    (printed : Printed) (result : Except RunError Unit) : Prop where
  listed : Listed args d₀ now names
  others : ∀ n, IsCapture files n → n ∉ names → Kept n d₀ fs
  /-- `--dry-run` and `--check-only` leave the captures alone. -/
  looked : args.dryRun = true ∨ args.checkOnly = true → ∀ n ∈ names, Kept n d₀ fs
  /-- What slims is replaced and gets a marker, the rest stays. -/
  slimmed : args.dryRun = false → args.checkOnly = false → ∀ n ∈ names,
    fs.read (srcPath n) = some ((slimOutput build n (contentOf d₀ n)).getD (contentOf d₀ n)) ∧
      fs.read (markerPath n) = (slimOutput build n (contentOf d₀ n)).map fun _ => []
  nothing : names = [] →
    printed = if args.json then .report (.empty args.checkOnly) else .nothing
  /-- The report has an entry for each file of the list, in its order. -/
  printed : names ≠ [] → args.dryRun = false → ∃ reports totalMs,
    printed = .report (.ofFiles reports totalMs args.checkOnly) ∧
      reports.map (fun file => some (timeless file)) =
        names.map fun n => expectedReport build osText args.checkOnly n (contentOf d₀ n)
  result : result = .ok () ↔ args.dryRun = true ∨
    ∀ n ∈ names, ∃ r, passOf build args.checkOnly n (contentOf d₀ n) = .ok r

/-- What holds at each place of a process that goes through a directory alone. The list is
made at a time of which `clock` is known. -/
def SessionInv (build : Build) (osText : IoError → String) (files : Path → Option Bytes)
    (args : Args) (clock : Time → Prop) (d₀ d : Disk) : Process → Prop
  | .absent => False
  | .start args' | .cleaning args' _ _ | .toList args' => args' = args ∧ Waiting d₀ d
  | .listing args' cutoff l => args' = args ∧ Waiting d₀ d ∧ ∃ now entries, clock now ∧
      cutoff = args.cutoff now ∧ Entries d₀ entries ∧ l.Exact d cutoff entries
  | .working args' pool => args' = args ∧ args.dryRun = false ∧ pool.files ≠ [] ∧
      0 < pool.workerCount ∧ (∃ now, clock now ∧ Listed args d₀ now pool.files) ∧
      (∀ n, IsCapture files n → n ∉ pool.files → Kept n d₀ d.files) ∧
      ∀ n ∈ pool.files, TaskInv build args.checkOnly d₀ n d.files (pool.tasks n)
  | .ended args' printed result => args' = args ∧ ∃ now names, clock now ∧
      SessionEnd build osText files args d₀ d.files now names printed result
  | .panicked args' => args' = args ∧ ∃ now names, clock now ∧ Listed args d₀ now names ∧
      ∃ n ∈ names, .ofPass (passOf build args.checkOnly n (contentOf d₀ n)) = Outcome.panicked

variable {clock clock' : Time → Prop}

theorem SessionInv.mono (hclock : ∀ now, clock now → clock' now)
    (h : SessionInv build osText files args clock d₀ d p) :
    SessionInv build osText files args clock' d₀ d p := by
  cases p with
  | absent | start | cleaning | toList => exact h
  | listing args' cutoff l =>
    obtain ⟨hargs, hwaiting, now, entries, hnow, hlisting⟩ := h
    exact ⟨hargs, hwaiting, now, entries, hclock now hnow, hlisting⟩
  | working args' pool =>
    obtain ⟨hargs, hdry, hne, hcount, ⟨now, hnow, hlisted⟩, hpool⟩ := h
    exact ⟨hargs, hdry, hne, hcount, ⟨now, hclock now hnow, hlisted⟩, hpool⟩
  | ended args' printed result =>
    obtain ⟨hargs, now, names, hnow, hend⟩ := h
    exact ⟨hargs, now, names, hclock now hnow, hend⟩
  | panicked args' =>
    obtain ⟨hargs, now, names, hnow, hpanic⟩ := h
    exact ⟨hargs, now, names, hclock now hnow, hpanic⟩

/-- The start of the pool, or the end when there is nothing to slim. -/
theorem sessionInv_select (lets : Time → Name → Bool) (hclock : clock now)
    (hwaiting : Waiting d₀ d) (hlisted : Listed args d₀ now names) :
    SessionInv build osText files args clock d₀ d (Process.select args lets names) := by
  have hkept : ∀ n, IsCapture files n → Kept n d₀ d.files := fun n hn => hwaiting.kept n hn.name
  unfold Process.select
  split
  · next hempty =>
    obtain rfl := List.isEmpty_iff.mp hempty
    exact ⟨rfl, now, [], hclock, hlisted, fun n hn _ => hkept n hn, nofun, nofun, fun _ => rfl,
      fun h => absurd rfl h, ⟨fun _ => .inr nofun, fun _ => rfl⟩⟩
  · next hne =>
    have hne : names ≠ [] := fun h => hne (List.isEmpty_iff.mpr h)
    split
    · next hdry =>
      refine ⟨rfl, now, names, hclock, hlisted, fun n hn _ => hkept n hn,
        fun _ n hn => hwaiting.kept n (hlisted.mem_iff.mp hn).name, fun h => ?_,
        fun h => absurd h hne, fun _ h => ?_, ⟨fun _ => .inl hdry, fun _ => rfl⟩⟩
      · rw [hdry] at h
        cases h
      · rw [hdry] at h
        cases h
    · next hdry =>
      have hpos := List.length_pos_iff.mpr hne
      refine ⟨rfl, Bool.eq_false_iff.mpr hdry, hne, ?_, ⟨now, hclock, hlisted⟩,
        fun n hn _ => hkept n hn, fun n hn => hwaiting.kept n (hlisted.mem_iff.mp hn).name⟩
      dsimp only
      omega

/-- The entry of a call that has returned. -/
theorem expectedReport_of_returned {checkOnly : Bool} {content : Bytes} (elapsedMs : Nat)
    {result : Except CoordError (FileResult × Option SlimStats)}
    (h : .ofPass (passOf build checkOnly n content) = Outcome.returned result) :
    expectedReport build osText checkOnly n content =
      some (timeless (FileReport.ofResult osText (display n) elapsedMs result)) := by
  rw [expectedReport, h]
  cases result with
  | error e => rfl
  | ok r =>
    obtain ⟨status, stats⟩ := r
    cases status <;> cases stats <;> rfl

/-- A call that has returned has failed exactly if its pass has. -/
theorem status_of_returned {pass : Except Failure (WriteBatch × SlimStats)} (elapsedMs : Nat)
    {result : Except CoordError (FileResult × Option SlimStats)}
    (h : Outcome.ofPass pass = .returned result) :
    (FileReport.ofResult osText (display n) elapsedMs result).status ≠ .fail ↔
      ∃ r, pass = .ok r := by
  cases pass with
  | ok r =>
    obtain ⟨b, stats⟩ := r
    cases h
    exact ⟨fun _ => ⟨_, rfl⟩, fun _ => nofun⟩
  | error failure =>
    cases failure with
    | panic fault => cases h
    | error err =>
      cases h
      exact ⟨fun hstatus => absurd rfl hstatus, nofun⟩

/-- A call of `check_file` leaves the capture alone. -/
theorem TaskInv.looked {t : Task} (h : TaskInv build true d₀ n fs (some t)) : Kept n d₀ fs := by
  cases t with
  | slim v => cases h.1
  | check c => exact h.2.1

/-- A call of `slim_file_in_place` that is over has replaced what slims. -/
theorem TaskInv.slimmed {t : Task} {outcome : Outcome}
    (h : TaskInv build false d₀ n fs (some t)) (houtcome : t.outcome = some outcome) :
    fs.read (srcPath n) = some ((slimOutput build n (contentOf d₀ n)).getD (contentOf d₀ n)) ∧
      fs.read (markerPath n) = (slimOutput build n (contentOf d₀ n)).map fun _ => [] := by
  cases t with
  | check c => cases h.1
  | slim v =>
    obtain ⟨-, i, hcall⟩ := h
    cases v with
    | done outcome' => exact ⟨hcall.src, hcall.marker⟩
    | _ => cases houtcome

section Working

variable {pool : Pool} (hlisted : ∃ now, clock now ∧ Listed args d₀ now pool.files)
  (htasks : ∀ n ∈ pool.files, TaskInv build args.checkOnly d₀ n d.files (pool.tasks n))
include hlisted htasks

/-- The report, once all calls have returned. -/
theorem sessionInv_finish (hne : pool.files ≠ []) (hdry : args.dryRun = false)
    (hothers : ∀ n, IsCapture files n → n ∉ pool.files → Kept n d₀ d.files)
    {results : Name → Except CoordError (FileResult × Option SlimStats)}
    (elapsedMs : Name → Nat) (totalMs : Nat)
    (hdone : ∀ n ∈ pool.files, (pool.tasks n).bind Task.outcome = some (.returned (results n))) :
    SessionInv build osText files args clock d₀ d
      (Process.finish osText args pool.files elapsedMs totalMs results) := by
  obtain ⟨now, hclock, hlisted⟩ := hlisted
  have hover : ∀ n ∈ pool.files, ∃ t, TaskInv build args.checkOnly d₀ n d.files (some t) ∧
      t.outcome = some (.returned (results n)) := by
    intro n hn
    obtain ⟨t, ht, houtcome⟩ := Option.bind_eq_some_iff.mp (hdone n hn)
    have htask := htasks n hn
    rw [ht] at htask
    exact ⟨t, htask, houtcome⟩
  have hreturned : ∀ n ∈ pool.files, .ofPass (passOf build args.checkOnly n (contentOf d₀ n)) =
      Outcome.returned (results n) := by
    intro n hn
    obtain ⟨t, htask, houtcome⟩ := hover n hn
    exact (htask.outcome houtcome).symm
  refine ⟨rfl, now, pool.files, hclock, hlisted, hothers, fun hlooks n hn => ?_,
    fun _ hslims n hn => ?_,
    fun h => absurd h hne, fun _ _ => ⟨_, totalMs, rfl, ?_⟩, ?_⟩
  · obtain ⟨t, htask, -⟩ := hover n hn
    rw [hlooks.resolve_left (by rw [hdry]; nofun)] at htask
    exact htask.looked
  · obtain ⟨t, htask, houtcome⟩ := hover n hn
    rw [hslims] at htask
    exact htask.slimmed houtcome
  · rw [List.map_map]
    exact List.map_congr_left fun n hn => (expectedReport_of_returned _ (hreturned n hn)).symm
  · refine (tallied_finish args pool.files elapsedMs totalMs results).2.trans ?_
    constructor
    · intro hall
      exact .inr fun n hn => (status_of_returned _ (hreturned n hn)).mp
        (hall _ (List.mem_map.mpr ⟨n, hn, rfl⟩))
    · intro hall file hfile
      obtain ⟨n, hn, rfl⟩ := List.mem_map.mp hfile
      exact (status_of_returned _ (hreturned n hn)).mpr
        (hall.resolve_left (by rw [hdry]; nofun) n hn)

/-- A panic of a call is one of the pass, on a file of the list. -/
theorem sessionInv_panic (hn : n ∈ pool.files)
    (hpanic : (pool.tasks n).bind Task.outcome = some .panicked) :
    SessionInv build osText files args clock d₀ d (.panicked args) := by
  obtain ⟨now, hclock, hlisted⟩ := hlisted
  obtain ⟨t, ht, houtcome⟩ := Option.bind_eq_some_iff.mp hpanic
  have htask := htasks n hn
  rw [ht] at htask
  exact ⟨rfl, now, pool.files, hclock, hlisted, n, hn, (htask.outcome houtcome).symm⟩

end Working

/-- With `--output json` there is always a report. -/
theorem SessionEnd.reported {printed : Printed} {result : Except RunError Unit}
    (h : SessionEnd build osText files args d₀ fs now names printed result)
    (hjson : args.json = true)
    (hdry : args.dryRun = false) : ∃ r, printed = .report r := by
  by_cases hne : names = []
  · have hprinted := h.nothing hne
    rw [if_pos hjson] at hprinted
    exact ⟨_, hprinted⟩
  · obtain ⟨reports, totalMs, hprinted, -⟩ := h.printed hne hdry
    exact ⟨_, hprinted⟩

/-! ## Steps -/

variable {σ : Setting}

theorem sessionInv_plan (hfaults : σ.faults = false) (hready : Ready files d₀)
    (hdir : args.dir = true) (hsingle : args.single = none)
    (h : SessionInv σ.build osText files args clock d₀ d p) (hstep : PlanStep σ osText d p p')
    (hlists : p = .toList args → p' ≠ .toList args → clock d.now) :
    SessionInv σ.build osText files args clock d₀ d p' := by
  have hnever : ∀ {P : Prop}, σ.faults = true → P := by
    intro P hfault
    rw [hfaults] at hfault
    cases hfault
  cases hstep with
  | single _ h' =>
    obtain ⟨rfl, -⟩ := h
    rw [hsingle] at h'
    cases h'
  | noTarget _ h' =>
    obtain ⟨rfl, -⟩ := h
    rw [hdir] at h'
    cases h'
  | cleanup | noCleanup | cleaned => exact h
  | cleanupUnread _ _ _ hfault | dirUnread _ hfault | noPool hfault => exact hnever hfault
  | @readDir args entries hread =>
    obtain ⟨rfl, hwaiting⟩ := h
    refine ⟨rfl, hwaiting, d.now, entries, hlists rfl nofun, rfl,
      ⟨hread.nodup, fun n hname hfile => ?_⟩, [], rfl, rfl⟩
    refine hread.complete hfaults n ?_
    rw [(hwaiting.kept n hname).isFile, hfile]
  | list hlist =>
    obtain ⟨rfl, hwaiting, now, entries, hclock, hcutoff, hentries, hexact⟩ := h
    exact ⟨rfl, hwaiting, now, entries, hclock, hcutoff, hentries, hexact.step hfaults hlist⟩
  | listed lets =>
    obtain ⟨rfl, hwaiting, now, entries, hclock, rfl, hentries, hexact⟩ := h
    exact sessionInv_select lets hclock hwaiting (Listed.of_exact hwaiting hentries hexact)
  | listFailed =>
    obtain ⟨-, -, now, entries, -, -, -, hexact⟩ := h
    exact hexact.elim
  | @take args pool m hmem hqueued hfree =>
    obtain ⟨rfl, hdry, hne, hcount, hlisted, hothers, htasks⟩ := h
    refine ⟨rfl, hdry, hne, hcount, hlisted, hothers, fun n hn => ?_⟩
    by_cases hnm : n = m
    · subst hnm
      rw [pool.tasks_set_self]
      obtain ⟨now, -, hlisted⟩ := hlisted
      have hpending := hlisted.mem_iff.mp hmem
      have hkept := htasks n hmem
      rw [hqueued] at hkept
      exact .take hready (hready.known n hpending.isFile hpending.name) hpending.isFile
        hpending.unmarked hkept
    · rw [pool.tasks_set_of_ne hnm]
      exact htasks n hn
  | report elapsedMs totalMs hdone =>
    obtain ⟨rfl, hdry, hne, -, hlisted, hothers, htasks⟩ := h
    exact sessionInv_finish hlisted htasks hne hdry hothers elapsedMs totalMs hdone
  | panic hmem hpanic =>
    obtain ⟨rfl, -, -, -, hlisted, -, htasks⟩ := h
    exact sessionInv_panic hlisted htasks hmem hpanic

theorem Waiting.clean {cutoff : Time} {c c' : Cleaner} (hc : c.Sound) (h : Waiting d₀ d)
    (hstep : CleanerStep σ cutoff d c a c') : Waiting d₀ (d.apply a) := by
  refine ⟨fun n hn => ?_, ?_⟩
  · rcases clean_cases hn hc hstep d.files with rfl | hagree
    · exact (h.kept n hn).remove
    · exact (h.kept n hn).of_agree hagree
  · rw [← h.mtime]
    rcases hc.action hstep with rfl | ⟨m, -, rfl⟩ <;> rfl

/-- The clock decides about nothing until the list is made. -/
theorem sessionInv_tick (now : Time) (h : SessionInv build osText files args clock d₀ d p) :
    SessionInv build osText files args clock d₀ { d with now } p := by
  have hpending : ∀ {cutoff n}, ({ d with now } : Disk).Pending cutoff n ↔ d.Pending cutoff n :=
    ⟨fun h => ⟨h.isFile, h.name, h.old, h.unmarked⟩, fun h => ⟨h.isFile, h.name, h.old, h.unmarked⟩⟩
  cases p with
  | start | cleaning | toList => exact ⟨h.1, h.2.kept, h.2.mtime⟩
  | listing args' cutoff l =>
    obtain ⟨hargs, hwaiting, now', entries, hclock, hcutoff, hentries, hexact⟩ := h
    refine ⟨hargs, ⟨hwaiting.kept, hwaiting.mtime⟩, now', entries, hclock, hcutoff, hentries, ?_⟩
    cases l with
    | entries todo found =>
      obtain ⟨seen, hseen, hfound⟩ := hexact
      exact ⟨seen, hseen, by simpa only [hpending] using hfound⟩
    | done result =>
      cases result with
      | ok found =>
        rw [Lister.Exact] at hexact
        simp only [Lister.Exact, hpending, hexact]
        rfl
      | error e => exact hexact
  | working | ended | panicked => exact h
  | absent => exact h

/-- **What a step makes of the directory.** -/
theorem sessionInv_step (hfaults : σ.faults = false) (hshared : NoSharedTmp files)
    (hready : Ready files d₀) (hdir : args.dir = true) (hsingle : args.single = none)
    {w w' : World Unit} (hsound : w.Sound files)
    (h : SessionInv σ.build osText files args clock d₀ w.disk (w.processes ()))
    (hstep : SessionStep σ osText () w a w')
    (hlists : w.processes () = .toList args → w'.processes () ≠ .toList args → clock w.disk.now) :
    SessionInv σ.build osText files args clock d₀ w'.disk (w'.processes ()) := by
  cases hstep with
  | tick now => exact sessionInv_tick now h
  | @act a p hstep =>
    rw [processes_advance_self] at hlists ⊢
    have hclosed := hsound.closed
    have hprocess := hsound.processes ()
    have hlocal : ∀ {m v}, (w.processes ()).tasks m = some (.slim v) →
        Local (paths m) m w.disk.files v := hsound.localTo
    change SessionInv _ _ _ _ _ _ (w.disk.apply a) _
    generalize w.processes () = q at h hstep hlists hprocess hlocal
    cases hstep with
    | plan hplan => exact sessionInv_plan hfaults hready hdir hsingle h hplan hlists
    | clean hclean => exact ⟨h.1, h.2.clean hprocess hclean⟩
    | @task args' pool m t a t' htask hlets hstep =>
      obtain ⟨rfl, hdry, hne, hcount, hlisted, hothers, htasks⟩ := h
      have hm : IsCapture files m := hprocess.2.1 m (hprocess.2.2 m t htask)
      have hagree : ∀ n, IsCapture files n → n ≠ m →
          AgreeOn (paths n) (w.disk.files.apply a) w.disk.files := by
        intro n hn hnm
        cases hstep with
        | slim hstep =>
          exact agreeOn_apply (hshared.separate hn hm hnm) _ (within_of_step (hlocal htask) hstep)
        | check => exact .rfl
      refine ⟨rfl, hdry, hne, hcount, hlisted, fun n hn hnot => ?_, fun n hn => ?_⟩
      · have hnm : n ≠ m := fun heq => hnot (heq ▸ hprocess.2.2 m t htask)
        exact (hothers n hn hnot).of_agree (hagree n hn hnm)
      · by_cases hnm : n = m
        · subst hnm
          rw [pool.tasks_set_self]
          have hinv := htasks n hn
          rw [htask] at hinv
          exact hinv.step hfaults hstep
        · rw [pool.tasks_set_of_ne hnm]
          have hcapture := hprocess.2.1 n hn
          exact (htasks n hn).of_agree (hclosed n hcapture) (hagree n hcapture hnm)

/-! ## Whole runs -/

/-- One process runs, with nobody else in the directory. -/
def SessionRun (σ : Setting) (osText : IoError → String) : World Unit → World Unit → Prop :=
  Relation.ReflTransGen fun w w' => ∃ a, SessionStep σ osText () w a w'

/-- On the way from `v` to `w` the process makes its list at the time `now`. -/
def ListedAt (σ : Setting) (osText : IoError → String) (args : Args) (v w : World Unit)
    (now : Time) : Prop :=
  ∃ u u', SessionRun σ osText v u ∧ u.processes () = .toList args ∧ u.disk.now = now ∧
    (∃ a, SessionStep σ osText () u a u') ∧ u'.processes () ≠ .toList args ∧
    SessionRun σ osText u' w

theorem ListedAt.tail {v w w' : World Unit} (h : ListedAt σ osText args v w now)
    (hstep : ∃ a, SessionStep σ osText () w a w') : ListedAt σ osText args v w' now := by
  obtain ⟨u, u', hbefore, hu, hnow, hlists, hu', hafter⟩ := h
  exact ⟨u, u', hbefore, hu, hnow, hlists, hu', hafter.tail hstep⟩

section Session

variable {mtime : Ino Path → Time} {w₀ w : World Unit}

/-- A run of one process is a part of the history of the directory. -/
theorem worldRun_of_sessionRun {singles : Set Name} {v : World Unit}
    (hhistory : WorldRun σ osText singles v w₀) (hidle : (w₀.processes ()).isOver = true)
    (hsingle : args.single = none)
    (hrun : SessionRun σ osText (w₀.advance () .idle (.start args)) w) :
    WorldRun σ osText singles v w :=
  (hhistory.tail ⟨(), _, launch_over hidle hsingle⟩).trans
    (Relation.ReflTransGen.mono (fun _ _ ⟨a, hstep⟩ => ⟨(), a, .session hstep⟩) _ _ hrun)

/-- What is known while a process goes through a directory that earlier ones have left. -/
theorem sessionInv_run (hshared : NoSharedTmp files) (hknown : w₀.Known σ.build files)
    (hidle : (w₀.processes ()).isOver = true) (hdir : args.dir = true) (hsingle : args.single = none)
    (hrun : SessionRun (.quiet σ.build) osText (w₀.advance () .idle (.start args)) w) :
    w.Known σ.build files ∧ SessionInv σ.build osText files args
      (ListedAt (.quiet σ.build) osText args (w₀.advance () .idle (.start args)) w) w₀.disk w.disk
      (w.processes ()) := by
  have hready := ready_of_known hknown
  have hlaunch : WorldStep (.quiet σ.build) osText (captures files) () w₀ .idle
      (w₀.advance () .idle (.start args)) := launch_over hidle hsingle
  have hknown' := World.Known.step (σ := .quiet σ.build) hshared hknown hlaunch (undisturbed_unit _ _)
  have hstart : SessionInv σ.build osText files args
      (ListedAt (.quiet σ.build) osText args (w₀.advance () .idle (.start args))
        (w₀.advance () .idle (.start args))) w₀.disk w₀.disk (.start args) :=
    ⟨rfl, fun n _ => Kept.rfl, rfl⟩
  refine (Lib.Run.invariant_of_run (fun w : World Unit =>
    SessionRun (.quiet σ.build) osText (w₀.advance () .idle (.start args)) w ∧
      w.Known σ.build files ∧ SessionInv σ.build osText files args
        (ListedAt (.quiet σ.build) osText args (w₀.advance () .idle (.start args)) w) w₀.disk w.disk
        (w.processes ()))
    (fun w w' ⟨hrun, hw, hinv⟩ ⟨a, hstep⟩ => ?_) hrun ⟨.refl, hknown', hstart⟩).2
  refine ⟨hrun.tail ⟨a, hstep⟩, World.Known.step (σ := .quiet σ.build) hshared hw (.session hstep)
    (undisturbed_unit _ _), ?_⟩
  refine sessionInv_step (σ := .quiet σ.build) rfl hshared hready hdir hsingle hw.inv.sound
    (hinv.mono fun now hnow => hnow.tail ⟨a, hstep⟩) hstep fun hbefore hafter => ?_
  exact ⟨w, w', hrun, hbefore, rfl, ⟨a, hstep⟩, hafter, .refl⟩

/-- What is known when the process is over. -/
theorem sessionEnd_of_run (hshared : NoSharedTmp files) (hknown : w₀.Known σ.build files)
    (hidle : (w₀.processes ()).isOver = true) (hdir : args.dir = true) (hsingle : args.single = none)
    (hrun : SessionRun (.quiet σ.build) osText (w₀.advance () .idle (.start args)) w)
    {args' : Args} {printed : Printed} {result : Except RunError Unit}
    (hover : w.processes () = .ended args' printed result) :
    w.Known σ.build files ∧ (w.processes ()).isOver = true ∧ ∃ now names,
      ListedAt (.quiet σ.build) osText args (w₀.advance () .idle (.start args)) w now ∧
      SessionEnd σ.build osText files args w₀.disk w.disk.files now names printed result := by
  obtain ⟨hknown', hinv⟩ := sessionInv_run hshared hknown hidle hdir hsingle hrun
  rw [hover] at hinv ⊢
  exact ⟨hknown', rfl, hinv.2⟩

end Session

end PcapSlim.Cli
