/-
PcapSlim.FrameTheorems — what no run ever touches.

Whatever any number of processes do, fail at or are killed in, and whatever `--single` is
given: `--check-only` does nothing to a file (`checkOnly_never_writes`), and what is
neither a capture nor given to `--single`, nor the tmp file or marker of one, nor any other
tmp file, stays as it is (`others_untouched`).

A capture that has a marker stays as it is if no call fails, `--single` is given captures
only, and `.pcap` and `.pcap.pcap` are not both there (`marked_untouched`): a call for the
second would write into the first, whose tmp file it shares.
-/
import PcapSlim.ReportTheorems

namespace PcapSlim.Cli

open Lib.Octets Lib.Files PcapIo Coord Report

variable {σ : Setting} {osText : IoError → String} {files : Path → Option Bytes}
  {n m : Name} {d d₀ : Disk} {a : Action Path} {p p' : Process} {args : Args} {singles : Set Name}

/-! ## `--check-only` -/

namespace Process

/-- The arguments that a process was started with. -/
def args? : Process → Option Args
  | absent => none
  | start args | cleaning args _ _ | toList args | listing args _ _ | working args _
  | ended args _ _ | panicked args => some args

/-- A process that only checks neither cleans up nor slims. -/
def Looks : Process → Prop
  | cleaning args _ _ => args.checkOnly = false
  | working args pool => args.checkOnly = true → ∀ n t, pool.tasks n = some t → ∃ c, t = .check c
  | _ => True

theorem looks_select (args : Args) (lets : Time → Name → Bool) (found : List Name) :
    (select args lets found).Looks := by
  unfold select
  split
  · trivial
  · split
    · trivial
    · exact fun _ n t ht => nomatch ht

theorem Looks.step (h : p.Looks) (hstep : ProcessStep σ osText d p a p') : p'.Looks := by
  cases hstep with
  | plan hplan =>
    cases hplan with
    | single | listed => exact looks_select _ _ _
    | cleanup _ _ hcheck => exact hcheck
    | @take args pool m =>
      intro hcheck n t ht
      by_cases hn : n = m
      · rw [hn, pool.tasks_set_self, Args.task, if_pos hcheck] at ht
        exact ⟨.check, (Option.some.inj ht).symm⟩
      · rw [pool.tasks_set_of_ne hn] at ht
        exact h hcheck n t ht
    | noTarget | cleanupUnread | noCleanup | cleaned | readDir | dirUnread | list | listFailed
    | noPool | report | panic => trivial
  | clean => exact h
  | @task args pool m t a t' htask hlets hstep =>
    intro hcheck n u hu
    by_cases hn : n = m
    · rw [hn, pool.tasks_set_self] at hu
      cases hu
      cases hstep with
      | check => exact ⟨_, rfl⟩
      | slim =>
        obtain ⟨c, hc⟩ := h hcheck m _ htask
        cases hc
    · rw [pool.tasks_set_of_ne hn] at hu
      exact h hcheck n u hu

theorem Looks.idle (h : p.Looks) (hargs : p.args? = some args) (hcheck : args.checkOnly = true)
    (hstep : ProcessStep σ osText d p a p') : a = .idle ∧ p'.args? = some args := by
  cases hstep with
  | plan hplan =>
    refine ⟨rfl, ?_⟩
    cases hplan with
    | single | listed =>
      cases hargs
      unfold select
      split
      · rfl
      · split <;> rfl
    | noTarget | cleanup | cleanupUnread | noCleanup | cleaned | readDir | dirUnread | list
    | listFailed | noPool | take | report | panic => exact hargs
  | clean =>
    cases hargs
    cases hcheck.symm.trans h
  | task htask hlets hstep =>
    cases hargs
    cases hstep with
    | check => exact ⟨rfl, rfl⟩
    | slim =>
      obtain ⟨c, hc⟩ := h hcheck _ _ htask
      cases hc

end Process

section World

variable {κ : Type} [DecidableEq κ] {w w' : World κ} {k : κ}

theorem looks_step (h : ∀ l, (w.processes l).Looks)
    (hstep : WorldStep σ osText singles k w a w') (l : κ) : (w'.processes l).Looks := by
  cases hstep with
  | session hstep =>
    cases hstep with
    | act hstep =>
      exact forall_processes (fun _ => Process.Looks) ((h k).step hstep) (fun l _ => h l) l
    | tick => exact h l
  | launch =>
    exact forall_processes (fun _ => Process.Looks) (p := .start _) trivial (fun l _ => h l) l
  | kill => exact forall_processes (fun _ => Process.Looks) (p := .absent) trivial (fun l _ => h l) l

theorem looks_of_run {mtime : Ino Path → Time} {now : Time}
    (hrun : WorldRun σ osText singles (World.start files mtime now) w) (k : κ) :
    (w.processes k).Looks :=
  Lib.Run.invariant_of_run (fun w : World κ => ∀ l, (w.processes l).Looks)
    (fun _ _ h ⟨_, _, hstep⟩ => looks_step h hstep) hrun (fun _ => trivial) k

/-- **`--check-only` never does anything to a file**, whatever fails, whatever other
processes do and whatever `--single` is given. -/
theorem checkOnly_never_writes {mtime : Ino Path → Time} {now : Time}
    (hrun : WorldRun σ osText singles (World.start files mtime now) w)
    (hargs : (w.processes k).args? = some args) (hcheck : args.checkOnly = true)
    (hstep : ProcessStep σ osText w.disk (w.processes k) a p) : a = .idle :=
  ((looks_of_run hrun k).idle hargs hcheck hstep).1

/-- `--single` and `--check-only` for the file `n`. -/
def checkArgs (n : Name) : Args := { singleArgs n with checkOnly := true }

/-- A process that is reading the file that it checks. -/
theorem checkOnly_never_writes_capture : ∃ (w : World Unit) (i : Ino Path) (size : Nat)
    (a : Action Path) (p : Process),
    w.processes () = calling (checkArgs captureName) captureName (.check (.analyze i size [])) ∧
      ProcessStep (.quiet .release) (fun _ => "") w.disk (w.processes ()) a p ∧ a = .idle := by
  let σ : Setting := .quiet .release
  let args := checkArgs captureName
  obtain ⟨w₁, hrun, hdisk, hw₁⟩ := exists_taken (fun _ => "") args (w := captureWorld) rfl
    (Set.mem_univ captureName) rfl rfl
  have hsrc : w₁.disk.files.dir (srcPath captureName) = some ⟨srcPath captureName, 0⟩ := by
    rw [hdisk]
    exact FileSystem.dir_ofFiles captureFiles_src
  have hdata : w₁.disk.files.data ⟨srcPath captureName, 0⟩ = some oneRecordFile := by
    rw [hdisk]
    exact captureFiles_src
  have hunmarked : w₁.disk.files.dir (markerPath captureName) = none := by
    rw [hdisk]
    exact FileSystem.dir_ofFiles_none captureFiles_marker
  let w₂ := w₁.advance () .idle (calling args captureName (.check .stat))
  let w₃ := w₂.advance () .idle
    (calling args captureName (.check (.openSrc oneRecordFile.length)))
  let w₄ := w₃.advance () .idle
    (calling args captureName (.check (.analyze ⟨srcPath captureName, 0⟩ oneRecordFile.length [])))
  have hrun₄ : WorldRun σ (fun _ => "") Set.univ captureWorld w₄ :=
    (((hrun σ).tail ⟨(), _, calling_step hw₁ (.check (.unmarked hunmarked))⟩).tail
      ⟨(), _, calling_step processes_advance_self (.check (.stat hsrc hdata))⟩).tail
      ⟨(), _, calling_step processes_advance_self (.check (.openSrc hsrc))⟩
  have hw₄ : w₄.processes () = calling args captureName
      (.check (.analyze ⟨srcPath captureName, 0⟩ oneRecordFile.length [])) :=
    processes_advance_self
  have hstep : ∃ p, ProcessStep σ (fun _ => "") w₄.disk (w₄.processes ()) .idle p := by
    have hmore : 0 < oneRecordFile.length := List.length_pos_iff.mpr nofun
    rw [hw₄]
    exact ⟨_, processStep_calling (.check (.readSrc 1 hdata hmore Nat.one_pos))⟩
  obtain ⟨p, hstep⟩ := hstep
  have hargs : (w₄.processes ()).args? = some args := by
    rw [hw₄]
    rfl
  exact ⟨w₄, _, _, .idle, p, hw₄, hstep, checkOnly_never_writes hrun₄ hargs rfl hstep⟩

end World

/-! ## What nobody gets at -/

section World

variable {κ : Type} [DecidableEq κ] {w w' : World κ} {k : κ} {names : Set Name}

/-- A step does nothing to what the processes cannot get at. -/
theorem agreeOn_of_step {q : Path} (hconfined : w.Confined names) (hq : q ∉ touched names)
    (hstep : WorldStep σ osText singles k w a w') : AgreeOn {q} w'.disk.files w.disk.files := by
  cases hstep with
  | session hstep =>
    cases hstep with
    | act hstep =>
      refine agreeOn_apply (fun p hp => ?_) _ (within_touched hconfined hstep)
      obtain rfl : p = q := hp
      exact hq
    | tick => exact .rfl
  | launch | kill => exact .rfl

/-- **What no process deals with is never touched**: a path that belongs to no capture of the
start and to no file that `--single` is given, and is no tmp file. -/
theorem others_untouched {mtime : Ino Path → Time} {now : Time}
    (hrun : WorldRun σ osText singles (World.start files mtime now) w) {q : Path}
    (hq : q ∉ touched (captures files ∪ singles)) : w.disk.files.read q = files q := by
  have hagree := (Lib.Run.invariant_of_run
    (fun w : World κ => w.Confined (captures files ∪ singles) ∧
      AgreeOn {q} w.disk.files (.ofFiles files))
    (fun _ _ ⟨hconfined, hagree⟩ ⟨_, _, hstep⟩ =>
      ⟨hconfined.step Set.subset_union_right hstep,
        (agreeOn_of_step hconfined hq hstep).trans hagree⟩)
    hrun ⟨confined_start Set.subset_union_left _ _, .rfl⟩).2
  have hdir := hagree.dir q rfl
  cases hfile : files q with
  | none =>
    rw [FileSystem.dir_ofFiles_none hfile] at hdir
    exact FileSystem.read_of_dir_none hdir
  | some c =>
    rw [FileSystem.dir_ofFiles hfile] at hdir
    rw [FileSystem.read_of_dir hdir, hagree.data ⟨q, 0⟩ rfl]
    exact hfile

/-- A directory with another file in it. -/
def notesFiles (p : Path) : Option Bytes :=
  if p = .file ['n'] then some [1, 2, 3] else captureFiles p

theorem eq_captureName_of_notes (hm : IsCapture notesFiles m) : m = captureName := by
  have hne : srcPath m ≠ .file ['n'] := fun h => by
    have := hm.name
    rw [Path.file.inj h] at this
    cases this
  have hfile := hm.isFile
  rw [notesFiles, if_neg hne] at hfile
  exact eq_captureName hfile

/-- `--single` is given a file that is no capture, and creates its tmp file. -/
theorem others_untouched_notes : ∃ (w : World Unit) (j : Ino Path),
    w.processes () = calling (singleArgs ['a', '.', 'c', 'a', 'p']) ['a', '.', 'c', 'a', 'p']
      (.slim (.stat j)) ∧ w.disk.files.read (.file ['n']) = some [1, 2, 3] := by
  let n : Name := ['a', '.', 'c', 'a', 'p']
  obtain ⟨w, j, hrun, hw, -⟩ := exists_created (fun _ => "")
    (w := World.start notesFiles (fun _ => 0) 0) rfl (Set.mem_singleton n)
    (FileSystem.dir_ofFiles_none rfl) (by decide)
  have hforeign : (.file ['n'] : Path) ∉ touched (captures notesFiles ∪ {n}) := by
    rintro (⟨m, hm | rfl, hpath⟩ | ⟨m, hm, hpath⟩)
    · rw [eq_captureName_of_notes hm] at hpath
      rcases hpath with h | h | h <;> cases h
    · have hne : srcPath n ≠ .file ['n'] ∧ tmpPath n ≠ .file ['n'] := by decide
      rcases hpath with h | h | h
      · exact hne.1 h.symm
      · exact hne.2 h.symm
      · cases h
    · rw [← Path.file.inj hpath] at hm
      cases hm
  exact ⟨w, j, hw, others_untouched (hrun (.quiet .release)) hforeign⟩

/-! ## Captures with a marker -/

/-- Nothing has been done to the capture `n`, except that its tmp file may be gone. -/
structure Kept (n : Name) (d₀ : Disk) (fs : FileSystem Path) : Prop where
  src : fs.dir (srcPath n) = d₀.files.dir (srcPath n)
  marker : fs.dir (markerPath n) = d₀.files.dir (markerPath n)
  tmp : ∀ j, fs.dir (tmpPath n) = some j → d₀.files.dir (tmpPath n) = some j
  data : ∀ j : Ino Path, j.origin ∈ paths n → fs.data j = d₀.files.data j

namespace Kept

theorem rfl : Kept n d d.files := ⟨.refl _, .refl _, fun _ h => h, fun _ _ => .refl _⟩

theorem of_agree {fs fs' : FileSystem Path} (h : Kept n d₀ fs) (hagree : AgreeOn (paths n) fs' fs) :
    Kept n d₀ fs' where
  src := (hagree.dir _ (srcPath_mem n)).trans h.src
  marker := (hagree.dir _ (markerPath_mem n)).trans h.marker
  tmp j hj := h.tmp j ((hagree.dir _ (tmpPath_mem n)).symm.trans hj)
  data j hj := (hagree.data j hj).trans (h.data j hj)

theorem remove {fs : FileSystem Path} (h : Kept n d₀ fs) :
    Kept n d₀ (fs.apply (.remove (tmpPath n))) where
  src := (FileSystem.dir_remove_of_ne (tmpPath_ne_srcPath n).symm).trans h.src
  marker := (FileSystem.dir_remove_of_ne (markerPath_ne_tmpPath n n)).trans h.marker
  tmp j hj := by
    rw [FileSystem.dir_remove_self] at hj
    cases hj
  data := h.data

/-- The file and the marker of a capture that nothing has been done to read as before. -/
theorem read (hclosed : Closed (paths n) d₀.files) {fs : FileSystem Path} (h : Kept n d₀ fs)
    {q : Path}
    (hq : q = srcPath n ∨ q = markerPath n) : fs.read q = d₀.files.read q := by
  have hdir : fs.dir q = d₀.files.dir q := by
    rcases hq with rfl | rfl
    · exact h.src
    · exact h.marker
  have hmem : q ∈ paths n := by
    rcases hq with rfl | rfl
    · exact srcPath_mem n
    · exact markerPath_mem n
  cases hj : d₀.files.dir q with
  | none => rw [FileSystem.read_of_dir_none hj, FileSystem.read_of_dir_none (hdir.trans hj)]
  | some j =>
    rw [FileSystem.read_of_dir hj, FileSystem.read_of_dir (hdir.trans hj),
      h.data j (hclosed q hmem j hj)]

end Kept

/-- The capture `n` has a marker, and no call for it is under way. -/
structure Settled (n : Name) (w : World κ) : Prop where
  marked : w.disk.isMarked n = true
  idle : ∀ k v, (w.processes k).tasks n = some (.slim v) → v = .check ∨ v.isDone = true

/-- A call that finds a marker does nothing. -/
theorem idle_of_marked {fs : FileSystem Path} {v v' : Worker} (hfaults : σ.faults = false)
    (hmarked : fs.dir (markerPath n) ≠ none) (hidle : v = .check ∨ v.isDone = true)
    (hstep : WorkerStep σ n fs v a v') : a = .idle ∧ v'.isDone = true := by
  rcases hidle with rfl | hdone
  · cases hstep with
    | marked => exact ⟨rfl, rfl⟩
    | unmarked h => exact absurd h hmarked
    | missing hneeds => cases hneeds
    | fail e h =>
      rw [hfaults] at h
      cases h
  · cases v with
    | done outcome =>
      cases hstep with
      | missing hneeds => cases hneeds
      | fail e h =>
        rw [hfaults] at h
        cases h
    | _ => cases hdone

theorem Settled.step (hfaults : σ.faults = false) (hshared : NoSharedTmp files)
    (hsound : w.Sound files) (hn : IsCapture files n) (h : Settled n w)
    (hkept : Kept n d₀ w.disk.files) (hstep : WorldStep σ osText singles k w a w') :
    Settled n w' ∧ Kept n d₀ w'.disk.files := by
  have hothers : ∀ {p : Process}, (∀ v, p.tasks n = some (.slim v) → v = .check ∨ v.isDone = true) →
      ∀ l v, ((w.advance k a p).processes l).tasks n = some (.slim v) →
        v = .check ∨ v.isDone = true := fun hp l =>
    forall_processes (fun _ p => ∀ v, p.tasks n = some (.slim v) → v = .check ∨ v.isDone = true) hp
      (fun l _ => h.idle l) l
  cases hstep with
  | session hstep =>
    cases hstep with
    | tick => exact ⟨⟨h.marked, h.idle⟩, hkept⟩
    | act hstep =>
      rcases effect_cases hshared hsound hn hstep with ⟨v, v', hacts⟩ | hlooks
      · obtain ⟨rfl, hdone⟩ := idle_of_marked hfaults (isMarked_iff.mp h.marked)
          (h.idle k v hacts.before) hacts.step
        refine ⟨⟨h.marked, hothers fun u hu => ?_⟩, hkept⟩
        cases hacts.after.symm.trans hu
        exact .inr hdone
      · refine ⟨⟨marked_of_step (hsound.processes k) hstep h.marked, hothers fun u hu => ?_⟩, ?_⟩
        · rcases hlooks.tasks u hu with hu | rfl
          · exact h.idle k u hu
          · exact .inl rfl
        · rcases hlooks.effect with rfl | hagree
          · exact hkept.remove
          · exact hkept.of_agree hagree
  | launch | kill => exact ⟨⟨h.marked, hothers nofun⟩, hkept⟩

theorem sound_of_run {mtime : Ino Path → Time} {now : Time} (hshared : NoSharedTmp files)
    (hrun : WorldRun σ osText (captures files) (World.start files mtime now) w) : w.Sound files :=
  Lib.Run.invariant_of_run _ (fun _ _ h ⟨_, _, hstep⟩ => h.step hshared hstep) hrun
    (sound_start _ _ _)

/-- **A capture with a marker is never touched again**, if no call fails and no call for it is
under way: any number of processes may come and go. `--single` names captures, and
`.pcap` and `.pcap.pcap` are not both there. -/
theorem marked_untouched (σ₀ : Setting) {mtime : Ino Path → Time} {now : Time} {w₀ : World κ}
    (hfaults : σ.faults = false) (hshared : NoSharedTmp files)
    (hhistory : WorldRun σ₀ osText (captures files) (World.start files mtime now) w₀)
    (hn : IsCapture files n) (hsettled : Settled n w₀)
    (hrun : WorldRun σ osText (captures files) w₀ w) :
    w.disk.files.read (srcPath n) = w₀.disk.files.read (srcPath n) ∧
      w.disk.files.read (markerPath n) = w₀.disk.files.read (markerPath n) := by
  have hsound₀ := sound_of_run hshared hhistory
  have hkept := (Lib.Run.invariant_of_run
    (fun w : World κ => w.Sound files ∧ Settled n w ∧ Kept n w₀.disk w.disk.files)
    (fun _ _ ⟨hsound, hsettled, hkept⟩ ⟨_, _, hstep⟩ =>
      ⟨hsound.step hshared hstep, hsettled.step hfaults hshared hsound hn hkept hstep⟩)
    hrun ⟨hsound₀, hsettled, Kept.rfl⟩).2.2
  exact ⟨hkept.read (hsound₀.closed n hn) (.inl rfl), hkept.read (hsound₀.closed n hn) (.inr rfl)⟩

/-- The first process slims the capture and is killed, the second finds the marker. -/
theorem marked_untouched_capture : ∃ (w₀ w : World Unit) (output : Bytes) (outcome : Outcome),
    slimOutput .release captureName oneRecordFile = some output ∧
      w₀.processes () = calling (singleArgs captureName) captureName (.slim (.done outcome)) ∧
      w.processes () = calling (singleArgs captureName) captureName (.slim (.done .skipped)) ∧
      w.disk.files.read (srcPath captureName) = some output := by
  let σ₀ : Setting := .quiet .release
  let σ : Setting := ⟨.release, false, true⟩
  have hname : captureName ∈ captures captureFiles := ⟨by decide, by rw [captureFiles_src]; nofun⟩
  obtain ⟨output, houtput, -⟩ := oneRecordFile_output
  obtain ⟨w₁, hrun₁, hdisk₁, hw₁⟩ := exists_taken (fun _ => "") (singleArgs captureName)
    (w := captureWorld) rfl hname rfl rfl
  have huntouched := untouched_start captureFiles_src captureFiles_marker
  obtain ⟨t, hcall, hdone⟩ := exists_done (σ := σ₀) (n := captureName) (s := .start captureFiles) rfl
    huntouched
  obtain ⟨w₂, hrun₂, hfiles₂, hw₂⟩ := lift_call (fun _ => "") (captures captureFiles) rfl
    hcall (by rw [hdisk₁]; rfl) hw₁
  cases ht : t.workers () with
  | done outcome =>
    rw [ht] at hw₂
    have hfinished := call_alone rfl rfl hcall rfl huntouched ht
    have hsrc : w₂.disk.files.read (srcPath captureName) = some output := by
      rw [hfiles₂, hfinished.src]
      change some ((slimOutput .release captureName oneRecordFile).getD oneRecordFile) = _
      rw [houtput, Option.getD_some]
    have hmarked : w₂.disk.isMarked captureName = true := by
      rw [isMarked_eq_isSome_read, hfiles₂, hfinished.marker]
      change ((slimOutput .release captureName oneRecordFile).map fun _ => []).isSome = true
      rw [houtput, Option.map_some, Option.isSome_some]
    have hsettled : Settled captureName w₂ := by
      refine ⟨hmarked, fun k v hv => .inr ?_⟩
      rw [hw₂] at hv
      cases (tasks_calling.mp hv).2
      rfl
    obtain ⟨w₃, hrun₃, hdisk₃, hw₃⟩ := exists_taken (fun _ => "") (singleArgs captureName)
      (w := w₂.advance () .idle .absent) rfl hname rfl rfl
    have hmark : w₃.disk.files.dir (markerPath captureName) ≠ none := by
      rw [hdisk₃]
      exact isMarked_iff.mp hmarked
    have hrun : WorldRun σ (fun _ => "") (captures captureFiles) w₂ _ :=
      (Relation.ReflTransGen.head ⟨(), _, .kill rfl⟩ (hrun₃ σ)).tail
        ⟨(), _, calling_step hw₃ (.slim (.marked hmark))⟩
    have huntouched' := marked_untouched σ₀ rfl captureFiles_noSharedTmp ((hrun₁ σ₀).trans hrun₂)
      hname hsettled hrun
    exact ⟨w₂, _, output, outcome, houtput, hw₂, processes_advance_self, huntouched'.1.trans hsrc⟩
  | _ => rw [ht] at hdone; cases hdone

end World

end PcapSlim.Cli
