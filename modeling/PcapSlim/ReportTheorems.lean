/-
PcapSlim.ReportTheorems — what there is to know of a process on its way to its report.

Markers are never removed (`marked_of_step`), so that what a call has returned stays
true of its file. `Truthful` says that nothing is reported as done without a marker,
`Covers` that no capture is left out by a process that goes through all of them. Both
only ask for markers, so that no step of another process can make them false
(`forall_step`).
-/
import PcapSlim.CliTheorems

namespace PcapSlim.Report

/-! ## The summary -/

/-- The counting loop, from any summary on. -/
theorem foldl_count (reports : List FileReport) (s : RunSummary) :
    reports.foldl RunSummary.count s =
      { s with
        ok := s.ok + reports.countP (·.status = .ok)
        skip := s.skip + reports.countP (·.status = .skippedMarker)
        fail := s.fail + reports.countP (·.status = .fail) } := by
  induction reports generalizing s with
  | nil => rfl
  | cons r reports ih =>
    rw [List.foldl_cons, ih]
    cases hstatus : r.status <;> simp [RunSummary.count, hstatus] <;> omega

/-- Every file is counted once. -/
theorem length_eq_count (reports : List FileReport) :
    reports.countP (·.status = .ok) + reports.countP (·.status = .skippedMarker) +
      reports.countP (·.status = .fail) = reports.length := by
  induction reports with
  | nil => rfl
  | cons r reports ih =>
    rw [List.length_cons, ← ih]
    cases hstatus : r.status <;> simp [hstatus] <;> omega

/-- A call that has not failed has returned with a result. -/
theorem ofResult_status {osText : PcapIo.IoError → String} {path : String} {elapsedMs : Nat}
    {result : Except Coord.CoordError (Coord.FileResult × Option PcapIo.SlimStats)}
    (h : (FileReport.ofResult osText path elapsedMs result).status ≠ .fail) :
    ∃ r, result = .ok r := by
  cases result with
  | error e => exact absurd rfl h
  | ok r => exact ⟨r, rfl⟩

theorem ofResult_file (osText : PcapIo.IoError → String) (path : String) (elapsedMs : Nat)
    (result : Except Coord.CoordError (Coord.FileResult × Option PcapIo.SlimStats)) :
    (FileReport.ofResult osText path elapsedMs result).file = path := by
  cases result with
  | error e => rfl
  | ok r =>
    obtain ⟨status, stats⟩ := r
    cases status <;> cases stats <;> rfl

end PcapSlim.Report

namespace PcapSlim.Cli

open Lib.Octets Lib.Files PcapIo Coord Report

variable {σ : Setting} {osText : IoError → String} {files : Path → Option Bytes} {n m : Name}
  {source : Bytes} {d : Disk} {a : Action Path} {p p' : Process}

/-! ## Markers stay -/

theorem marked_of_worker {fs : FileSystem Path} {v v' : Worker} (hstep : WorkerStep σ n fs v a v')
    (h : fs.dir (markerPath m) ≠ none) : (fs.apply a).dir (markerPath m) ≠ none := by
  cases hstep with
  | create => rwa [FileSystem.dir_create_of_ne (markerPath_ne_tmpPath m n)]
  | rename hdir =>
    rwa [FileSystem.dir_rename hdir, if_neg (markerPath_ne_srcPath m n),
      if_neg (markerPath_ne_tmpPath m n)]
  | @writeMarker stats j =>
    by_cases hm : markerPath m = markerPath n
    · rw [hm, FileSystem.dir_create_self]
      nofun
    · rwa [FileSystem.dir_create_of_ne hm]
  | cleanup => rwa [FileSystem.dir_remove_of_ne (markerPath_ne_tmpPath m n)]
  | marked | unmarked | createDir | stat | openSrc | readSrc | writeTmp | copyPanic | copyError
  | copyDone | statTmp | openTmp | readTmp | countError | countMismatch | countMatch
  | makeMarkerDir | chmodMarker | cleanupDir | missing | fail => exact h

theorem marked_of_step {capture : Name → Prop} (hp : p.Sound capture)
    (hstep : ProcessStep σ osText d p a p') (h : d.isMarked n = true) :
    (d.apply a).isMarked n = true := by
  rw [isMarked_iff] at h ⊢
  cases hstep with
  | plan => exact h
  | clean hclean =>
    rcases hp.action hclean with rfl | ⟨m, -, rfl⟩
    · exact h
    · change (d.files.apply (.remove (srcPath m))).dir (markerPath n) ≠ none
      rwa [FileSystem.dir_remove_of_ne (markerPath_ne_srcPath n m)]
  | task htask hlets hstep =>
    cases hstep with
    | slim hstep => exact marked_of_worker hstep h
    | check => exact h

/-! ## Calls and reports -/

/-- A call that is about to return `Ok`, or has, leaves a marker. -/
def MarksBefore (marked : Prop) : Worker → Prop
  | .chmodMarker _ => marked
  | .done outcome => ∀ r, outcome = .returned (.ok r) → marked
  | _ => True

theorem MarksBefore.mono {marked marked' : Prop} (himp : marked → marked') {v : Worker}
    (h : MarksBefore marked v) : MarksBefore marked' v := by
  cases v with
  | chmodMarker stats => exact himp h
  | done outcome => exact fun r hr => himp (h r hr)
  | _ => trivial

theorem MarksBefore.step {v v' : Worker} (h : MarksBefore (d.isMarked n = true) v)
    (hstep : WorkerStep σ n d.files v a v') : MarksBefore ((d.apply a).isMarked n = true) v' := by
  have hfailed : ∀ (e : IoError) (u : Worker), MarksBefore (d.isMarked n = true) u →
      MarksBefore (d.isMarked n = true) (u.failed e) := by
    intro e u hu
    cases u with
    | done outcome => exact hu
    | rename | makeMarkerDir | writeMarker | chmodMarker | cleanup => exact fun r hr => nomatch hr
    | check | create | stat | openSrc | copy | statTmp | openTmp | count => trivial
  cases hstep with
  | marked hmarked => exact fun _ _ => isMarked_iff.mpr hmarked
  | @writeMarker stats j hcreate =>
    refine isMarked_iff.mpr ?_
    change (d.files.apply (.create (markerPath n) j)).dir (markerPath n) ≠ none
    rw [FileSystem.dir_create_self]
    nofun
  | chmodMarker => exact fun _ _ => h
  | copyPanic | cleanup | cleanupDir => exact fun r hr => nomatch hr
  | missing hneeds hgone => exact hfailed _ _ h
  | fail e => exact hfailed e _ h
  | unmarked | create | createDir | stat | openSrc | readSrc | writeTmp | copyError | copyDone
  | statTmp | openTmp | readTmp | countError | countMismatch | countMatch | rename
  | makeMarkerDir => trivial

namespace Process

/-- What a process that slims reports as done has a marker. -/
def Truthful (capture marked : Name → Prop) : Process → Prop
  | working args pool => args.checkOnly = false → ∀ n t, pool.tasks n = some t →
      ∃ v, t = .slim v ∧ MarksBefore (marked n) v
  | ended args (.report r) _ => args.checkOnly = false → ∀ file ∈ r.files, file.status ≠ .fail →
      ∃ n, capture n ∧ file.file = display n ∧ marked n
  | _ => True

theorem Truthful.mono {capture marked marked' : Name → Prop} (himp : ∀ n, marked n → marked' n)
    (h : p.Truthful capture marked) : p.Truthful capture marked' := by
  cases p with
  | working args pool =>
    intro hcheck n t ht
    obtain ⟨v, rfl, hv⟩ := h hcheck n t ht
    exact ⟨v, rfl, hv.mono (himp n)⟩
  | ended args printed result =>
    cases printed with
    | report r =>
      intro hcheck file hfile hstatus
      obtain ⟨n, hn, hname, hmarked⟩ := h hcheck file hfile hstatus
      exact ⟨n, hn, hname, himp n hmarked⟩
    | nothing | wouldSlim => trivial
  | absent | start | cleaning | toList | listing | panicked => trivial

theorem truthful_select {capture marked : Name → Prop} (args : Args) (lets : Time → Name → Bool)
    (files : List Name) : (select args lets files).Truthful capture marked := by
  unfold select
  split
  · cases args.json with
    | true => exact fun _ file hfile => nomatch hfile
    | false => trivial
  · split
    · trivial
    · exact fun _ n t ht => nomatch ht

theorem Truthful.plan {capture marked : Name → Prop} (hsound : p.Sound capture)
    (h : p.Truthful capture marked) (hstep : PlanStep σ osText d p p') :
    p'.Truthful capture marked := by
  cases hstep with
  | single | listed => exact truthful_select _ _ _
  | @take args pool m hmem =>
    intro hcheck n t ht
    by_cases hn : n = m
    · rw [hn, pool.tasks_set_self, Args.task, hcheck] at ht
      cases ht
      exact ⟨.check, rfl, trivial⟩
    · rw [pool.tasks_set_of_ne hn] at ht
      exact h hcheck n t ht
  | @report args pool results elapsedMs totalMs hdone =>
    intro hcheck file hfile hstatus
    obtain ⟨n, hn, rfl⟩ := List.mem_map.mp hfile
    obtain ⟨r, hr⟩ := ofResult_status hstatus
    refine ⟨n, hsound.2.1 n hn, ofResult_file _ _ _ _, ?_⟩
    · obtain ⟨t, ht, houtcome⟩ := Option.bind_eq_some_iff.mp (hdone n hn)
      obtain ⟨v, rfl, hv⟩ := h hcheck n t ht
      cases v with
      | done outcome =>
        cases houtcome
        exact hv r (by rw [hr])
      | _ => cases houtcome
  | noTarget | cleanup | cleanupUnread | noCleanup | cleaned | readDir | dirUnread | list
  | listFailed | noPool | panic => trivial

end Process

theorem truthful_step {capture : Name → Prop} (hsound : p.Sound capture)
    (h : p.Truthful capture (d.isMarked · = true)) (hstep : ProcessStep σ osText d p a p') :
    p'.Truthful capture ((d.apply a).isMarked · = true) := by
  have hmarked := fun n => marked_of_step (n := n) hsound hstep
  cases hstep with
  | plan hplan => exact h.plan hsound hplan
  | clean => trivial
  | @task args pool m t a t' htask hlets hstep =>
    intro hcheck n u hu
    by_cases hn : n = m
    · subst hn
      rw [pool.tasks_set_self] at hu
      cases hu
      obtain ⟨v, rfl, hv⟩ := h hcheck n t htask
      cases hstep with
      | slim hstep => exact ⟨_, rfl, hv.step hstep⟩
    · rw [pool.tasks_set_of_ne hn] at hu
      obtain ⟨v, rfl, hv⟩ := h hcheck n u hu
      exact ⟨v, rfl, hv.mono (hmarked n)⟩

/-! ## What a successful run has looked at -/

/-- A run over all captures of the directory that slims them. -/
structure Args.Full (args : Args) : Prop where
  dir : args.dir = true
  single : args.single = none
  dryRun : args.dryRun = false
  checkOnly : args.checkOnly = false
  ageMinutes : args.ageMinutes = none

/-- The captures without a marker are found, or among the entries that are left. -/
def ListerCovers (capture marked : Name → Prop) : Lister → Prop
  | .entries todo found => ∀ n, capture n → marked n ∨ n ∈ found ∨ n ∈ todo
  | .done (.ok found) => ∀ n, capture n → marked n ∨ n ∈ found
  | .done (.error _) => True

theorem ListerCovers.mono {capture marked marked' : Name → Prop} {l : Lister}
    (himp : ∀ n, marked n → marked' n) (h : ListerCovers capture marked l) :
    ListerCovers capture marked' l := by
  cases l with
  | entries todo found => exact fun n hn => (h n hn).imp (himp n) id
  | done result =>
    cases result with
    | ok found => exact fun n hn => (h n hn).imp (himp n) id
    | error e => trivial

theorem ListerCovers.step (hfaults : σ.faults = false) {capture : Name → Prop}
    (hname : ∀ n, capture n → isPendingName n = true)
    (hpresent : ∀ n, capture n → d.isMarked n = false → d.isFile n = true) {l l' : Lister}
    (h : ListerCovers capture (d.isMarked · = true) l) (hstep : ListerStep σ none d l l') :
    ListerCovers capture (d.isMarked · = true) l' := by
  cases hstep with
  | @entry m todo found isFile isMarked pushed hfile hmarked hpushed =>
    rw [hfile.eq hfaults, hmarked.eq hfaults] at hpushed
    intro n hn
    rcases h n hn with hdone | hfound | htodo
    · exact .inl hdone
    · refine .inr (.inl ?_)
      split
      · exact List.mem_append_left _ hfound
      · exact hfound
    · rcases List.mem_cons.mp htodo with rfl | htodo
      · cases hmark : d.isMarked n with
        | true => exact .inl hmark
        | false =>
          have hpushed := (listEntry_eq_ok hpushed).mpr ⟨hpresent n hn hmark, hname n hn, nofun, hmark⟩
          refine .inr (.inl ?_)
          rw [if_pos hpushed]
          exact List.mem_append_right _ (List.mem_singleton_self n)
      · exact .inr (.inr htodo)
  | sort key =>
    intro n hn
    rcases h n hn with hdone | hfound | htodo
    · exact .inl hdone
    · exact .inr ((perm_sortByKey key _).mem_iff.mpr hfound)
    · cases htodo
  | entryError | fail => trivial

/-- No capture without a marker is left out by a process that goes through all of them. -/
def Process.Covers (capture marked : Name → Prop) : Process → Prop
  | listing args cutoff l => args.Full → cutoff = none ∧ ListerCovers capture marked l
  | working args pool => args.Full → ∀ n, capture n → marked n ∨ n ∈ pool.files
  | ended args _ (.ok ()) => args.Full → ∀ n, capture n → marked n
  | _ => True

theorem Process.Covers.mono {capture marked marked' : Name → Prop}
    (himp : ∀ n, marked n → marked' n) (h : p.Covers capture marked) :
    p.Covers capture marked' := by
  cases p with
  | listing args cutoff l => exact fun hfull => ⟨(h hfull).1, (h hfull).2.mono himp⟩
  | working args pool => exact fun hfull n hn => (h hfull n hn).imp (himp n) id
  | ended args printed result =>
    cases result with
    | ok u => exact fun hfull n hn => himp n (h hfull n hn)
    | error e => trivial
  | absent | start | cleaning | toList | panicked => trivial

theorem Process.covers_select {capture marked : Name → Prop} {args : Args}
    {lets : Time → Name → Bool} {found : List Name}
    (h : args.Full → ∀ n, capture n → marked n ∨ n ∈ found) :
    (Process.select args lets found).Covers capture marked := by
  unfold Process.select
  split
  · next hempty =>
    intro hfull n hn
    rw [List.isEmpty_iff.mp hempty] at h
    exact (h hfull n hn).resolve_right List.not_mem_nil
  · split
    · next hdry =>
      intro hfull
      rw [hfull.dryRun] at hdry
      cases hdry
    · exact h

/-- When `run` returns without an error, every call has returned a result. -/
theorem results_of_finish {args : Args} {names : List Name} {elapsedMs : Name → Nat} {totalMs : Nat}
    {results : Name → Except CoordError (FileResult × Option SlimStats)} {args' : Args}
    {printed : Printed}
    (h : Process.finish osText args names elapsedMs totalMs results = .ended args' printed (.ok ()))
    (hn : n ∈ names) : ∃ r, results n = .ok r := by
  unfold Process.finish at h
  dsimp only at h
  split at h
  · cases h
  · next hnone =>
    have hzero : (names.map fun n => FileReport.ofResult osText (display n) (elapsedMs n)
        (results n)).countP (·.status = .fail) = 0 := by
      simpa [RunReport.ofFiles, foldl_count] using hnone
    have hstatus := List.countP_eq_zero.mp hzero _ (List.mem_map.mpr ⟨n, hn, rfl⟩)
    exact ofResult_status (by simpa using hstatus)

theorem Process.Covers.plan (hfaults : σ.faults = false) {capture : Name → Prop}
    (hname : ∀ n, capture n → isPendingName n = true)
    (hpresent : ∀ n, capture n → d.isMarked n = false → d.isFile n = true)
    (htrue : p.Truthful capture (d.isMarked · = true))
    (h : p.Covers capture (d.isMarked · = true)) (hstep : PlanStep σ osText d p p') :
    p'.Covers capture (d.isMarked · = true) := by
  cases hstep with
  | single lets hsingle =>
    refine Process.covers_select fun hfull => ?_
    rw [hfull.single] at hsingle
    cases hsingle
  | @readDir args entries hread =>
    intro hfull
    refine ⟨by rw [hfull.ageMinutes]; rfl, fun n hn => ?_⟩
    cases hmark : d.isMarked n with
    | true => exact .inl hmark
    | false => exact .inr (.inr (hread.complete hfaults n (hpresent n hn hmark)))
  | list hlist =>
    intro hfull
    obtain ⟨rfl, hcovers⟩ := h hfull
    exact ⟨rfl, hcovers.step hfaults hname hpresent hlist⟩
  | listed => exact Process.covers_select fun hfull => (h hfull).2
  | take => exact h
  | @report args pool results elapsedMs totalMs hdone =>
    have hreturned : args.Full → ∀ n ∈ pool.files, ∀ r, results n = .ok r →
        d.isMarked n = true := by
      intro hfull n hn r hr
      obtain ⟨t, ht, houtcome⟩ := Option.bind_eq_some_iff.mp (hdone n hn)
      obtain ⟨v, rfl, hv⟩ := htrue hfull.checkOnly n t ht
      cases v with
      | done outcome =>
        cases houtcome
        exact hv r (by rw [hr])
      | _ => cases houtcome
    cases hfinish : Process.finish osText args pool.files elapsedMs totalMs results with
    | ended args' printed result =>
      cases result with
      | error e => trivial
      | ok u =>
        intro hfull n hn
        have hargs : args = args' := (Process.ended.inj hfinish).1
        subst hargs
        rcases h hfull n hn with hmarked | hmem
        · exact hmarked
        · obtain ⟨r, hr⟩ := results_of_finish hfinish hmem
          exact hreturned hfull n hmem r hr
    | _ => cases hfinish
  | cleanupUnread _ _ _ hfault | dirUnread _ hfault | noPool hfault =>
    rw [hfaults] at hfault
    cases hfault
  | noTarget | cleanup | noCleanup | cleaned | listFailed | panic => trivial

/-! ## What a report adds up to -/

/-- The summary counts the entries, and the process ends with an error if one has failed. -/
def Process.Tallied : Process → Prop
  | ended _ (.report r) result =>
      (r.summary.ok = r.files.countP (·.status = .ok) ∧
        r.summary.skip = r.files.countP (·.status = .skippedMarker) ∧
        r.summary.fail = r.files.countP (·.status = .fail)) ∧
      (result = .ok () ↔ ∀ file ∈ r.files, file.status ≠ .fail)
  | _ => True

theorem tallied_select (args : Args) (lets : Time → Name → Bool) (found : List Name) :
    (Process.select args lets found).Tallied := by
  unfold Process.select
  split
  · cases args.json with
    | true => exact ⟨⟨rfl, rfl, rfl⟩, fun _ => nofun, fun _ => rfl⟩
    | false => trivial
  · split <;> trivial

theorem tallied_finish (args : Args) (names : List Name) (elapsedMs : Name → Nat) (totalMs : Nat)
    (results : Name → Except CoordError (FileResult × Option SlimStats)) :
    (Process.finish osText args names elapsedMs totalMs results).Tallied := by
  unfold Process.finish
  generalize names.map (fun n => FileReport.ofResult osText (display n) (elapsedMs n) (results n)) =
    reports
  have hcount := foldl_count reports
    { ok := 0, skip := 0, fail := 0, elapsedMs := totalMs, checkOnly := args.checkOnly }
  dsimp only [RunReport.ofFiles, Process.Tallied]
  rw [hcount]
  simp only [Nat.zero_add, true_and, and_self]
  have hzero : reports.countP (·.status = .fail) = 0 ↔ ∀ file ∈ reports, file.status ≠ .fail := by
    rw [List.countP_eq_zero]
    simp
  rw [← hzero]
  split
  · next hfailed =>
    constructor
    · nofun
    · intro hnone
      rw [hnone] at hfailed
      cases hfailed
  · next hnone => exact ⟨fun _ => Nat.eq_zero_of_not_pos hnone, fun _ => rfl⟩

theorem tallied_step (h : p.Tallied) (hstep : ProcessStep σ osText d p a p') : p'.Tallied := by
  cases hstep with
  | plan hplan =>
    cases hplan with
    | single | listed => exact tallied_select _ _ _
    | report => exact tallied_finish _ _ _ _ _
    | noTarget | cleanup | cleanupUnread | noCleanup | cleaned | readDir | dirUnread | list
    | listFailed | noPool | take | panic => trivial
  | clean | task => trivial

/-! ## Whole runs -/

section World

variable {κ : Type} {w : World κ}

/-- What is known of the processes of a run that others do not disturb. -/
structure World.Known (build : Build) (files : Path → Option Bytes) (w : World κ) : Prop where
  inv : w.Inv build files
  marked : ∀ n, files (markerPath n) ≠ none → w.disk.isMarked n = true
  truthful : ∀ k, (w.processes k).Truthful (IsCapture files) (w.disk.isMarked · = true)
  tallied : ∀ k, (w.processes k).Tallied

theorem known_start (build : Build) (files : Path → Option Bytes) (mtime : Ino Path → Time)
    (now : Time) : (World.start files mtime now : World κ).Known build files where
  inv := inv_start build files mtime now
  marked n h := by
    obtain ⟨content, hcontent⟩ := Option.ne_none_iff_exists'.mp h
    rw [isMarked_iff]
    change (FileSystem.ofFiles files).dir _ ≠ _
    rw [FileSystem.dir_ofFiles hcontent]
    nofun
  truthful _ := trivial
  tallied _ := trivial

/-- A capture with a marker has been slimmed, or had the marker at the start. -/
theorem World.Known.slimmed {build : Build} (h : w.Known build files)
    (hmarked : w.disk.isMarked n = true) : Slimmed build files w.disk n :=
  ⟨hmarked, fun _ horiginal => ((h.inv.keeps n _ horiginal).slimmed horiginal hmarked).output _
    horiginal⟩

/-- A capture without a marker had none at the start, and it is kept. -/
theorem World.Known.keeps {build : Build} (h : w.Known build files) (hn : IsCapture files n)
    (hmarked : w.disk.isMarked n = false) : ∃ source, w.Keeps build n source := by
  have hunmarked : files (markerPath n) = none := by
    by_contra hmark
    rw [h.marked n hmark] at hmarked
    cases hmarked
  obtain ⟨source, hsource⟩ := Option.ne_none_iff_exists'.mp hn.isFile
  exact ⟨source, h.inv.keeps n source ⟨hn.name, hsource, hunmarked⟩⟩

/-- So it is still there. -/
theorem World.Known.isFile {build : Build} (h : w.Known build files) (hn : IsCapture files n)
    (hmarked : w.disk.isMarked n = false) : w.disk.isFile n = true := by
  obtain ⟨source, hkeeps⟩ := h.keeps hn hmarked
  rw [Disk.isFile, Option.isSome_iff_ne_none]
  rcases hkeeps.file.src with ⟨i, hdir, -⟩ | ⟨-, i, hdir, -⟩ <;> simp [hdir]

variable [DecidableEq κ] {w' : World κ} {k : κ} {singles : Set Name}

theorem marked_of_worldStep (hsound : w.Sound files) (hstep : WorldStep σ osText singles k w a w')
    (h : w.disk.isMarked n = true) : w'.disk.isMarked n = true := by
  cases hstep with
  | session hstep =>
    cases hstep with
    | act hstep => exact marked_of_step (hsound.processes k) hstep h
    | tick => exact h
  | launch | kill => exact h

/-- What only asks for markers, and holds of a process that starts, stays true of all
processes if each of them keeps it. -/
theorem forall_step {P : (Name → Prop) → Process → Prop} (hsound : w.Sound files)
    (hmono : ∀ {marked marked' : Name → Prop} {p : Process}, (∀ n, marked n → marked' n) →
      P marked p → P marked' p)
    (hstart : ∀ marked args, P marked (.start args)) (habsent : ∀ marked, P marked .absent)
    (hact : ∀ {a p}, ProcessStep σ osText w.disk (w.processes k) a p →
      P (w.disk.isMarked · = true) (w.processes k) →
      P ((w.disk.apply a).isMarked · = true) p)
    (h : ∀ l, P (w.disk.isMarked · = true) (w.processes l))
    (hstep : WorldStep σ osText singles k w a w') (l : κ) :
    P (w'.disk.isMarked · = true) (w'.processes l) := by
  have hothers : ∀ l, P (w'.disk.isMarked · = true) (w.processes l) := fun l =>
    hmono (fun n => marked_of_worldStep hsound hstep) (h l)
  cases hstep with
  | session hstep =>
    cases hstep with
    | act hstep => exact forall_processes (fun _ => P _) (hact hstep (h k)) (fun l _ => hothers l) l
    | tick => exact h l
  | launch => exact forall_processes (fun _ => P _) (hstart _ _) (fun l _ => hothers l) l
  | kill => exact forall_processes (fun _ => P _) (habsent _) (fun l _ => hothers l) l

theorem World.Known.step (hshared : NoSharedTmp files) (h : w.Known σ.build files)
    (hstep : WorldStep σ osText (captures files) k w a w') (hquiet : Undisturbed k w a) :
    w'.Known σ.build files where
  inv := h.inv.step hshared hstep hquiet
  marked n hn := marked_of_worldStep h.inv.sound hstep (h.marked n hn)
  truthful := forall_step (P := fun marked p => p.Truthful (IsCapture files) marked) h.inv.sound
    (fun himp hp => hp.mono himp) (fun _ _ => trivial) (fun _ => trivial)
    (fun hact hp => truthful_step (h.inv.sound.processes k) hp hact) h.truthful hstep
  tallied := forall_step (P := fun _ p => p.Tallied) h.inv.sound (fun _ hp => hp)
    (fun _ _ => trivial) (fun _ => trivial) (fun hact hp => tallied_step hp hact) h.tallied hstep

theorem known_of_run {mtime : Ino Path → Time} {now : Time} (hshared : NoSharedTmp files)
    (hrun : UndisturbedRun σ osText (captures files) (World.start files mtime now) w) :
    w.Known σ.build files :=
  Lib.Run.invariant_of_run _ (fun _ _ h ⟨_, _, hstep, hquiet⟩ => h.step hshared hstep hquiet) hrun
    (known_start _ _ _ _)

/-- No capture is left out by a process. -/
def World.Covers (files : Path → Option Bytes) (w : World κ) : Prop :=
  ∀ k, (w.processes k).Covers (IsCapture files) (w.disk.isMarked · = true)

theorem World.Covers.step (hfaults : σ.faults = false) (hknown : w.Known σ.build files)
    (h : w.Covers files) (hstep : WorldStep σ osText singles k w a w') : w'.Covers files := by
  refine forall_step (P := fun marked p => p.Covers (IsCapture files) marked) hknown.inv.sound
    (fun himp hp => hp.mono himp) (fun _ _ => trivial) (fun _ => trivial) (fun hact hp => ?_) h hstep
  have htruthful := hknown.truthful k
  have hmarked := fun n => marked_of_step (n := n) (hknown.inv.sound.processes k) hact
  generalize w.processes k = p at hact hp htruthful
  cases hact with
  | plan hplan =>
    exact hp.plan hfaults (fun n hn => hn.name) (fun n hn => hknown.isFile hn) htruthful hplan
  | clean => trivial
  | task => exact fun hfull n hn => (hp hfull n hn).imp (hmarked n) id

theorem covers_of_run {mtime : Ino Path → Time} {now : Time} (hfaults : σ.faults = false)
    (hshared : NoSharedTmp files)
    (hrun : UndisturbedRun σ osText (captures files) (World.start files mtime now) w) :
    w.Covers files :=
  (Lib.Run.invariant_of_run (fun w : World κ => w.Known σ.build files ∧ w.Covers files)
    (fun _ _ ⟨hknown, hcovers⟩ ⟨_, _, hstep, hquiet⟩ =>
      ⟨hknown.step hshared hstep hquiet, hcovers.step hfaults hknown hstep⟩)
    hrun ⟨known_start _ _ _ _, fun _ => trivial⟩).2

end World

end PcapSlim.Cli
