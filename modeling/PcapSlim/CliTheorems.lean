/-
PcapSlim.CliTheorems — any number of processes in one directory.

A process gets at the paths of the files that it deals with and at tmp files
(`within_touched`): the captures of the directory, and what `--single` is given, which can
be any file. So nothing else is ever touched (`World.Confined.step`).

Where `--single` is given captures only, more is known of them. Whatever a process does,
it does to a capture `n` one of three things: a call for `n` takes a step, the cleanup
removes the tmp file of `n`, or nothing happens at the paths of `n` (`effect_cases`). Each
of them keeps the capture sound (`World.Keeps.step`), as long as no call empties a tmp file
that a call of another process relies on. With one process at a time there is no such step,
wherever it is killed and however often it is started again.
-/
import PcapSlim.Cli
import PcapSlim.DirectoryTheorems

namespace PcapSlim.Cli

open Lib.Octets Lib.Files PcapIo Coord Report

variable {σ : Setting} {osText : IoError → String} {files : Path → Option Bytes} {n m : Name}
  {source : Bytes} {d : Disk} {a : Action Path} {p p' : Process}

/-! ## Captures and processes -/

/-- A capture that is in the directory at the start. -/
structure IsCapture (files : Path → Option Bytes) (n : Name) : Prop where
  name : isPendingName n = true
  isFile : files (srcPath n) ≠ none

/-- The captures in the directory at the start. -/
def captures (files : Path → Option Bytes) : Set Name := {n | IsCapture files n}

/-- Only `.pcap` and `.pcap.pcap` have a tmp file in common, and they are not both there. -/
def NoSharedTmp (files : Path → Option Bytes) : Prop :=
  ¬ (files (srcPath dotPcap) ≠ none ∧ files (srcPath (dotPcap ++ dotPcap)) ≠ none)

theorem NoSharedTmp.separate (h : NoSharedTmp files) (hn : IsCapture files n)
    (hm : IsCapture files m) (hne : n ≠ m) : ∀ p ∈ paths n, p ∉ paths m := by
  have hseparate : Separate (Subtype.val : {n // n ∈ captures files} → Name) :=
    separate_of_pending (fun n hn => hn.name) fun ⟨hshort, hlong⟩ => h ⟨hshort.isFile, hlong.isFile⟩
  exact hseparate ⟨n, hn⟩ ⟨m, hm⟩ fun heq => hne (congrArg Subtype.val heq)

theorem Pool.tasks_set_self (pool : Pool) (n : Name) (t : Task) : (pool.set n t).tasks n = some t :=
  Function.update_self ..

theorem Pool.tasks_set_of_ne (pool : Pool) (h : n ≠ m) (t : Task) :
    (pool.set m t).tasks n = pool.tasks n :=
  Function.update_of_ne h ..

namespace Process

/-- The calls that a process is in. -/
def tasks : Process → Name → Option Task
  | working _ pool => pool.tasks
  | _ => fun _ => none

/-- A process deals with captures only, and with each of them once. -/
def Sound (capture : Name → Prop) : Process → Prop
  | start args => ∀ n, args.single = some n → capture n
  | cleaning _ _ c => c.Sound
  | listing _ _ l => l.Sound capture
  | working _ pool => pool.files.Nodup ∧ (∀ n ∈ pool.files, capture n) ∧
      ∀ n t, pool.tasks n = some t → n ∈ pool.files
  | _ => True

theorem tasks_select (args : Args) (lets : Time → Name → Bool) (files : List Name) (n : Name) :
    (select args lets files).tasks n = none := by
  unfold select
  split
  · rfl
  · split <;> rfl

theorem sound_select {capture : Name → Prop} (args : Args) (lets : Time → Name → Bool)
    {files : List Name} (hnodup : files.Nodup) (hfiles : ∀ n ∈ files, capture n) :
    (select args lets files).Sound capture := by
  unfold select
  split
  · trivial
  · split
    · trivial
    · exact ⟨hnodup, hfiles, fun n t h => nomatch h⟩

theorem Sound.plan {capture : Name → Prop}
    (hcapture : ∀ n, d.isFile n = true → isPendingName n = true → capture n)
    (h : p.Sound capture) (hstep : PlanStep σ osText d p p') : p'.Sound capture := by
  cases hstep with
  | single lets hsingle =>
    exact sound_select _ _ (List.pairwise_singleton _ _) fun n hn => by
      rw [List.mem_singleton.mp hn]
      exact h _ hsingle
  | readDir hread => exact ⟨hread.nodup, nofun⟩
  | list hlist => exact Lister.Sound.step hcapture h hlist
  | listed => exact sound_select _ _ h.1 h.2
  | @take args pool m hmem =>
    refine ⟨h.1, h.2.1, fun n t ht => ?_⟩
    by_cases hn : n = m
    · rwa [hn]
    · rw [pool.tasks_set_of_ne hn] at ht
      exact h.2.2 n t ht
  | noTarget | cleanup | cleanupUnread | noCleanup | cleaned | dirUnread | listFailed | noPool
  | report | panic => trivial

end Process

theorem Process.Sound.step {capture : Name → Prop}
    (hcapture : ∀ n, d.isFile n = true → isPendingName n = true → capture n)
    (h : p.Sound capture) (hstep : ProcessStep σ osText d p a p') : p'.Sound capture := by
  cases hstep with
  | plan hplan => exact h.plan hcapture hplan
  | clean hclean => exact Cleaner.Sound.step hclean
  | @task args pool m t a t' htask =>
    refine ⟨h.1, h.2.1, fun n u hu => ?_⟩
    by_cases hn : n = m
    · rw [hn]
      exact h.2.2 m t htask
    · rw [pool.tasks_set_of_ne hn] at hu
      exact h.2.2 n u hu

/-- The calls that a step without an effect leaves: those that were there, and one that is
about to start. -/
theorem tasks_of_plan {v : Worker} (hstep : PlanStep σ osText d p p')
    (hv : p'.tasks n = some (.slim v)) : p.tasks n = some (.slim v) ∨ v = .check := by
  cases hstep with
  | single | listed =>
    rw [Process.tasks_select] at hv
    cases hv
  | @take args pool m hmem hqueued hfree =>
    by_cases hn : n = m
    · rw [hn] at hv
      change (pool.set m args.task).tasks m = _ at hv
      rw [pool.tasks_set_self, Args.task] at hv
      split at hv
      · cases hv
      · cases hv
        exact .inr rfl
    · change (pool.set m args.task).tasks n = _ at hv
      rw [pool.tasks_set_of_ne hn] at hv
      exact .inl hv
  | noTarget | cleanup | cleanupUnread | noCleanup | cleaned | readDir | dirUnread | list
  | listFailed | noPool | report | panic => cases hv

/-! ## What a process can get at -/

variable {κ : Type} {names singles : Set Name}

/-- The paths of some files, and all tmp files. -/
def touched (names : Set Name) : Set Path :=
  {q | (∃ n ∈ names, q ∈ paths n) ∨ ∃ m, dotPcapTmp.isSuffixOf m = true ∧ q = srcPath m}

theorem paths_subset_touched (hn : n ∈ names) : paths n ⊆ touched names := fun _ hq =>
  .inl ⟨n, hn, hq⟩

/-- A file with a pending name that can be got at is one that is dealt with. -/
theorem mem_of_touched (hname : isPendingName n = true) (h : srcPath n ∈ touched names) :
    n ∈ names := by
  rcases h with ⟨m, hm, hsrc | htmp | hmarker⟩ | ⟨m, hm, hsrc⟩
  · rwa [Path.file.inj hsrc]
  · rw [Path.file.inj htmp, not_pending_tmpName] at hname
    cases hname
  · cases hmarker
  · rw [Path.file.inj hsrc, isPendingName, hm, Bool.not_true, Bool.and_false] at hname
    cases hname

/-- The processes deal with `names` only, and what they can get at was created there. -/
structure World.Confined (names : Set Name) (w : World κ) : Prop where
  known : ∀ n, w.disk.isFile n = true → isPendingName n = true → n ∈ names
  processes : ∀ k, (w.processes k).Sound (· ∈ names)
  created : Closed (touched names) w.disk.files
  opened : ∀ k n v, (w.processes k).tasks n = some (.slim v) → ∀ j ∈ v.inodes,
    j.origin ∈ touched names

theorem World.Confined.mem {w : World κ} (h : w.Confined names) {k : κ} {t : Task}
    (ht : (w.processes k).tasks n = some t) : n ∈ names := by
  have hsound := h.processes k
  cases hp : w.processes k with
  | working args pool =>
    rw [hp] at ht hsound
    exact hsound.2.1 n (hsound.2.2 n t ht)
  | _ => rw [hp] at ht; cases ht

theorem World.Confined.localTo {w : World κ} (h : w.Confined names) {k : κ} {v : Worker}
    (hv : (w.processes k).tasks n = some (.slim v)) : Local (touched names) n w.disk.files v :=
  ⟨paths_subset_touched (h.mem hv), h.created, h.opened k n v hv⟩

/-- **What a process does, it does there.** -/
theorem within_touched {w : World κ} (h : w.Confined names) {k : κ}
    (hstep : ProcessStep σ osText w.disk (w.processes k) a p') : a.Within (touched names) := by
  have hprocess := h.processes k
  have hlocal : ∀ {m v}, (w.processes k).tasks m = some (.slim v) →
      Local (touched names) m w.disk.files v := h.localTo
  generalize w.processes k = p at hstep hprocess hlocal
  cases hstep with
  | plan => trivial
  | clean hclean =>
    rcases hprocess.action hclean with rfl | ⟨m, hm, rfl⟩
    · trivial
    · exact .inr ⟨m, hm, rfl⟩
  | task htask hlets hstep =>
    cases hstep with
    | slim hstep => exact within_of_step (hlocal htask) hstep
    | check => trivial

/-- The inodes that a call has open after a step were open before, or are its own. -/
theorem opened_of_step {w : World κ} (h : w.Confined names) {k : κ}
    (hstep : ProcessStep σ osText w.disk (w.processes k) a p') {v : Worker}
    (hv : p'.tasks n = some (.slim v)) : ∀ j ∈ v.inodes, j.origin ∈ touched names := by
  have hopened := h.opened k
  have hlocal : ∀ {m v}, (w.processes k).tasks m = some (.slim v) →
      Local (touched names) m w.disk.files v := h.localTo
  generalize w.processes k = p at hstep hopened hlocal
  cases hstep with
  | plan hplan =>
    rcases tasks_of_plan hplan hv with hv | rfl
    · exact hopened n v hv
    · nofun
  | clean => cases hv
  | @task args pool m t a t' htask hlets hstep =>
    change (pool.set m t').tasks n = _ at hv
    by_cases hnm : n = m
    · subst hnm
      rw [pool.tasks_set_self] at hv
      cases hv
      cases hstep with
      | slim hstep => exact (local_step (hlocal htask) hstep).inodes
    · rw [pool.tasks_set_of_ne hnm] at hv
      exact hopened n v hv

theorem confined_start {files : Path → Option Bytes} (hfiles : captures files ⊆ names)
    (mtime : Ino Path → Time) (now : Time) :
    (World.start files mtime now : World κ).Confined names where
  known n hfile hname := by
    refine hfiles ⟨hname, fun hnone => ?_⟩
    change ((FileSystem.ofFiles files).dir (srcPath n)).isSome = true at hfile
    rw [FileSystem.dir_ofFiles_none hnone] at hfile
    cases hfile
  processes _ := trivial
  created p hp j hj := by rwa [FileSystem.origin_of_dir_ofFiles hj]
  opened _ _ _ hv := nomatch hv

/-! ## What a step does to a capture -/

/-- The processes deal with captures, and what belongs to a capture was created as a file
of that capture. -/
structure World.Sound (files : Path → Option Bytes) (w : World κ) : Prop
    extends w.Confined (captures files) where
  closed : ∀ n, IsCapture files n → Closed (paths n) w.disk.files
  inodes : ∀ k n v, (w.processes k).tasks n = some (.slim v) → ∀ j ∈ v.inodes, j.origin ∈ paths n

theorem World.Sound.isCapture {w : World κ} (h : w.Sound files) {k : κ} {t : Task}
    (ht : (w.processes k).tasks n = some t) : IsCapture files n := h.toConfined.mem ht

theorem World.Sound.localTo {w : World κ} (h : w.Sound files) {k : κ} {v : Worker}
    (hv : (w.processes k).tasks n = some (.slim v)) : Local (paths n) n w.disk.files v :=
  ⟨subset_rfl, h.closed n (h.isCapture hv), h.inodes k n v hv⟩

/-- The call of `p` for `n` takes a step. -/
structure ActsOn (σ : Setting) (n : Name) (fs : FileSystem Path) (p : Process) (a : Action Path)
    (p' : Process) (v v' : Worker) : Prop where
  before : p.tasks n = some (.slim v)
  step : WorkerStep σ n fs v a v'
  after : p'.tasks n = some (.slim v')

/-- The step is none of a call for `n`: at most it removes the tmp file. -/
structure LooksOn (n : Name) (fs : FileSystem Path) (p : Process) (a : Action Path)
    (p' : Process) : Prop where
  effect : a = .remove (tmpPath n) ∨ AgreeOn (paths n) (fs.apply a) fs
  tasks : ∀ v, p'.tasks n = some (.slim v) → p.tasks n = some (.slim v) ∨ v = .check

/-- **What a process does to a capture.** -/
theorem effect_cases {w : World κ} (hshared : NoSharedTmp files) (hsound : w.Sound files)
    (hn : IsCapture files n) {k : κ} (hstep : ProcessStep σ osText w.disk (w.processes k) a p') :
    (∃ v v', ActsOn σ n w.disk.files (w.processes k) a p' v v') ∨
      LooksOn n w.disk.files (w.processes k) a p' := by
  have hprocess := hsound.processes k
  have hlocal : ∀ {m v}, (w.processes k).tasks m = some (.slim v) →
      Local (paths m) m w.disk.files v := hsound.localTo
  have hcapture : ∀ {m t}, (w.processes k).tasks m = some t → IsCapture files m :=
    hsound.isCapture
  generalize w.processes k = p at hstep hprocess hlocal hcapture
  cases hstep with
  | plan hplan => exact .inr ⟨.inr .rfl, fun v => tasks_of_plan hplan⟩
  | clean hclean => exact .inr ⟨clean_cases hn.name hprocess hclean _, fun v hv => nomatch hv⟩
  | @task args pool m t a t' htask hlets hstep =>
    cases hstep with
    | @slim v a v' hstep =>
      by_cases hnm : n = m
      · subst hnm
        exact .inl ⟨v, v', htask, hstep, pool.tasks_set_self n _⟩
      · have hwithin := within_of_step (hlocal htask) hstep
        refine .inr ⟨.inr (agreeOn_apply (hshared.separate hn (hcapture htask) hnm) _ hwithin),
          fun u hu => .inl ?_⟩
        change (pool.set m _).tasks n = _ at hu
        rwa [pool.tasks_set_of_ne hnm] at hu
    | check hstep =>
      refine .inr ⟨.inr .rfl, fun u hu => .inl ?_⟩
      change (pool.set m _).tasks n = _ at hu
      by_cases hnm : n = m
      · rw [hnm, pool.tasks_set_self] at hu
        cases hu
      · rwa [pool.tasks_set_of_ne hnm] at hu

theorem sound_start (files : Path → Option Bytes) (mtime : Ino Path → Time) (now : Time) :
    (World.start files mtime now : World κ).Sound files where
  toConfined := confined_start subset_rfl mtime now
  closed n _ p hp j hj := by rwa [FileSystem.origin_of_dir_ofFiles hj]
  inodes _ _ _ hv := nomatch hv

/-! ## What is known of the captures -/

/-- What is known of the capture `n`, which held `source` at the start. -/
structure World.Keeps (build : Build) (n : Name) (source : Bytes) (w : World κ) : Prop where
  file : FileInv build n source w.disk.files
  worker : ∀ k v, (w.processes k).tasks n = some (.slim v) →
    WorkerInv build n source w.disk.files v

/-- The original of the capture `n`, if it had no marker at the start. -/
structure Original (files : Path → Option Bytes) (n : Name) (source : Bytes) : Prop where
  name : isPendingName n = true
  content : files (srcPath n) = some source
  unmarked : files (markerPath n) = none

theorem Original.isCapture (h : Original files n source) : IsCapture files n :=
  ⟨h.name, by rw [h.content]; nofun⟩

/-- What is known of all captures. -/
structure World.Inv (build : Build) (files : Path → Option Bytes) (w : World κ) : Prop where
  sound : w.Sound files
  keeps : ∀ n source, Original files n source → w.Keeps build n source

theorem inv_start (build : Build) (files : Path → Option Bytes) (mtime : Ino Path → Time)
    (now : Time) : (World.start files mtime now : World κ).Inv build files := by
  refine ⟨sound_start files mtime now, fun n source h => ⟨?_, nofun⟩⟩
  exact (sysInv_start (ι := Unit) h.content h.unmarked).file

/-- The capture `n` has been slimmed: it has a marker, and if it had none at the start, it
holds the complete output for its original. -/
structure Slimmed (build : Build) (files : Path → Option Bytes) (d : Disk) (n : Name) : Prop where
  marked : d.isMarked n = true
  output : ∀ source, Original files n source → ∃ output,
    slimOutput build n source = some output ∧ d.files.read (srcPath n) = some output

/-- The capture `n` is safe on the disk `d`. -/
structure Safe (build : Build) (files : Path → Option Bytes) (n : Name) (source : Bytes)
    (d : Disk) : Prop where
  /-- It is the original or its complete output. -/
  src : d.files.read (srcPath n) = some source ∨
    ∃ output, slimOutput build n source = some output ∧ d.files.read (srcPath n) = some output
  /-- With a marker it is the output. -/
  marked : d.isMarked n = true → Slimmed build files d n
  /-- What does not slim stays as it is, without a marker. -/
  rejected : slimOutput build n source = none →
    d.files.read (srcPath n) = some source ∧ d.isMarked n = false

theorem isMarked_iff : d.isMarked n = true ↔ d.files.dir (markerPath n) ≠ none := by
  rw [Disk.isMarked, Option.isSome_iff_ne_none]

theorem isMarked_eq_isSome_read : d.isMarked n = (d.files.read (markerPath n)).isSome := by
  rw [Disk.isMarked, FileSystem.isSome_read]

theorem World.Keeps.slimmed {build : Build} {w : World κ} (h : w.Keeps build n source)
    (horiginal : Original files n source) (hmarked : w.disk.isMarked n = true) :
    Slimmed build files w.disk n := by
  refine ⟨hmarked, fun source' h' => ?_⟩
  obtain rfl : source' = source := Option.some.inj (h'.content.symm.trans horiginal.content)
  have hcomplete := h.file.complete_of_marker (isMarked_iff.mp hmarked)
  obtain ⟨⟨k, hpassed⟩, -⟩ := hcomplete
  exact ⟨_, hpassed.output, (h.file.complete_of_marker (isMarked_iff.mp hmarked)).read⟩

/-! ## Steps -/

variable [DecidableEq κ] {w w' : World κ} {k : κ}

theorem processes_advance_self : (w.advance k a p).processes k = p := Function.update_self ..

theorem processes_advance_of_ne {l : κ} (h : l ≠ k) :
    (w.advance k a p).processes l = w.processes l :=
  Function.update_of_ne h ..

/-- What holds of the process that acts and of the others holds of all processes. -/
theorem forall_processes (P : κ → Process → Prop) (hself : P k p)
    (hothers : ∀ l, l ≠ k → P l (w.processes l)) (l : κ) : P l ((w.advance k a p).processes l) := by
  by_cases hl : l = k
  · subst hl
    rwa [processes_advance_self]
  · rw [processes_advance_of_ne hl]
    exact hothers l hl

theorem World.Confined.act (h : w.Confined names)
    (hstep : ProcessStep σ osText w.disk (w.processes k) a p) :
    (w.advance k a p).Confined names := by
  have hwithin := within_touched h hstep
  refine ⟨fun n hfile hname => ?_, ?_, h.created.apply hwithin, ?_⟩
  · by_contra hn
    have helsewhere : ∀ q ∈ ({srcPath n} : Set Path), q ∉ touched names := by
      rintro q rfl hq
      exact hn (mem_of_touched hname hq)
    have hagree := agreeOn_apply helsewhere w.disk.files hwithin
    change ((w.disk.files.apply a).dir (srcPath n)).isSome = true at hfile
    rw [hagree.dir _ rfl] at hfile
    exact hn (h.known n hfile hname)
  · exact forall_processes (fun _ p => p.Sound _) ((h.processes k).step h.known hstep)
      fun l _ => h.processes l
  · exact forall_processes (fun _ p => ∀ n v, p.tasks n = some (.slim v) →
      ∀ j ∈ v.inodes, j.origin ∈ touched names) (fun n v => opened_of_step h hstep)
      fun l _ => h.opened l

/-- **Processes deal with the captures of the directory and what `--single` is given.** -/
theorem World.Confined.step (hsingles : singles ⊆ names) (h : w.Confined names)
    (hstep : WorldStep σ osText singles k w a w') : w'.Confined names := by
  have hopened : ∀ {p : Process}, (∀ n, p.tasks n = none) → ∀ l n v,
      ((w.advance k .idle p).processes l).tasks n = some (.slim v) →
        ∀ j ∈ v.inodes, j.origin ∈ touched names := fun hp =>
    forall_processes (fun _ p => ∀ n v, p.tasks n = some (.slim v) →
      ∀ j ∈ v.inodes, j.origin ∈ touched names)
      (fun n v hv => by rw [hp n] at hv; cases hv) fun l _ => h.opened l
  cases hstep with
  | session hstep =>
    cases hstep with
    | act hstep => exact h.act hstep
    | tick now => exact ⟨h.known, h.processes, h.created, h.opened⟩
  | launch hover hsingle =>
    exact ⟨h.known, forall_processes (fun _ p => p.Sound _) (fun n hn => hsingles (hsingle n hn))
      fun l _ => h.processes l, h.created, hopened fun _ => rfl⟩
  | kill hcrashes =>
    exact ⟨h.known, forall_processes (fun _ p => p.Sound _) trivial fun l _ => h.processes l,
      h.created, hopened fun _ => rfl⟩

theorem World.Sound.act (hshared : NoSharedTmp files) (h : w.Sound files)
    (hstep : ProcessStep σ osText w.disk (w.processes k) a p) : (w.advance k a p).Sound files := by
  have hconfined := h.toConfined.act hstep
  refine ⟨hconfined, fun n hn => ?_, ?_⟩
  · rcases effect_cases hshared h hn hstep with ⟨v, v', hacts⟩ | ⟨heffect, -⟩
    · exact (h.closed n hn).apply (within_of_step (h.localTo hacts.before) hacts.step)
    · rcases heffect with rfl | hagree
      · exact (h.closed n hn).apply (a := .remove _) (tmpPath_mem n)
      · exact (h.closed n hn).of_agree hagree
  · refine forall_processes (fun _ p => ∀ n v, p.tasks n = some (.slim v) →
      ∀ j ∈ v.inodes, j.origin ∈ paths n) (fun n v hv => ?_) fun l _ => h.inodes l
    have hn : IsCapture files n := by
      have hmem := hconfined.mem (n := n) (k := k) (t := .slim v)
      rw [processes_advance_self] at hmem
      exact hmem hv
    rcases effect_cases hshared h hn hstep with ⟨u, u', hacts⟩ | hlooks
    · cases hacts.after.symm.trans hv
      exact (local_step (h.localTo hacts.before) hacts.step).inodes
    · rcases hlooks.tasks v hv with hv | rfl
      · exact h.inodes k n v hv
      · nofun

theorem World.Sound.step (hshared : NoSharedTmp files) (h : w.Sound files)
    (hstep : WorldStep σ osText (captures files) k w a w') : w'.Sound files := by
  have hinodes : ∀ {p : Process}, (∀ n, p.tasks n = none) → ∀ l n v,
      ((w.advance k .idle p).processes l).tasks n = some (.slim v) →
        ∀ j ∈ v.inodes, j.origin ∈ paths n := fun hp =>
    forall_processes (fun _ p => ∀ n v, p.tasks n = some (.slim v) →
      ∀ j ∈ v.inodes, j.origin ∈ paths n)
      (fun n v hv => by rw [hp n] at hv; cases hv) fun l _ => h.inodes l
  have hconfined := h.toConfined.step subset_rfl hstep
  cases hstep with
  | session hstep =>
    cases hstep with
    | act hstep => exact h.act hshared hstep
    | tick now => exact ⟨hconfined, h.closed, h.inodes⟩
  | launch | kill => exact ⟨hconfined, h.closed, hinodes fun _ => rfl⟩

/-- When the step empties a tmp file, no call of another process relies on it. -/
def Undisturbed (k : κ) (w : World κ) (a : Action Path) : Prop :=
  ∀ n, Empties n a → ∀ l, l ≠ k → ∀ v, (w.processes l).tasks n = some (.slim v) → ¬ v.relies

theorem World.Keeps.act (hshared : NoSharedTmp files) (hsound : w.Sound files)
    (hn : IsCapture files n) (h : w.Keeps σ.build n source)
    (hstep : ProcessStep σ osText w.disk (w.processes k) a p) (hquiet : Undisturbed k w a) :
    (w.advance k a p).Keeps σ.build n source := by
  rcases effect_cases hshared hsound hn hstep with ⟨v, v', hbefore, hstep, hafter⟩ | hlooks
  · have hworker := h.worker k v hbefore
    have ha := allowed_of_step hworker hstep
    refine ⟨h.file.apply ha, forall_processes (fun _ p => ∀ u, p.tasks n = some (.slim u) →
      WorkerInv σ.build n source _ u) (fun u hu => ?_) fun l hl u hu => ?_⟩
    · cases hafter.symm.trans hu
      exact workerInv_step h.file hworker hstep
    · exact (h.worker l u hu).apply h.file ha fun hempties => hquiet n hempties l hl u hu
  · have hothers : ∀ l u, (w.processes l).tasks n = some (.slim u) →
        WorkerInv σ.build n source (w.disk.files.apply a) u := by
      intro l u hu
      rcases hlooks.effect with rfl | hagree
      · exact (h.worker l u hu).apply h.file .remove fun ⟨j, hj⟩ => nomatch hj
      · exact (h.worker l u hu).of_agree hagree
    refine ⟨?_, forall_processes (fun _ p => ∀ u, p.tasks n = some (.slim u) →
      WorkerInv σ.build n source _ u) (fun u hu => ?_) fun l _ => hothers l⟩
    · rcases hlooks.effect with rfl | hagree
      · exact h.file.apply .remove
      · exact h.file.of_agree hagree
    · rcases hlooks.tasks u hu with hu | rfl
      · exact hothers k u hu
      · trivial

theorem World.Keeps.step (hshared : NoSharedTmp files) (hsound : w.Sound files)
    (hn : IsCapture files n) (h : w.Keeps σ.build n source)
    (hstep : WorldStep σ osText singles k w a w') (hquiet : Undisturbed k w a) :
    w'.Keeps σ.build n source := by
  cases hstep with
  | session hstep =>
    cases hstep with
    | act hstep => exact h.act hshared hsound hn hstep hquiet
    | tick now => exact ⟨h.file, h.worker⟩
  | launch | kill =>
    exact ⟨h.file, forall_processes (fun _ p => ∀ u, p.tasks n = some (.slim u) →
      WorkerInv σ.build n source _ u) (fun u hu => nomatch hu) fun l _ => h.worker l⟩

/-! ## Whole runs -/

/-- Any number of processes run, one after the other or at the same time, and are killed.
`--single` is given files of `singles`. -/
def WorldRun (σ : Setting) (osText : IoError → String) (singles : Set Name) :
    World κ → World κ → Prop :=
  Relation.ReflTransGen fun w w' => ∃ k a, WorldStep σ osText singles k w a w'

/-- A run of any number of processes in which no call empties a tmp file that a call of
another process relies on. -/
def UndisturbedRun (σ : Setting) (osText : IoError → String) (singles : Set Name) :
    World κ → World κ → Prop :=
  Relation.ReflTransGen fun w w' => ∃ k a, WorldStep σ osText singles k w a w' ∧ Undisturbed k w a

/-- Without `--single` a process can be started at any time. -/
theorem launch_over {args : Args} (hidle : (w.processes k).isOver = true)
    (hsingle : args.single = none) :
    WorldStep σ osText singles k w .idle (w.advance k .idle (.start args)) :=
  .launch hidle fun n hn => by
    rw [hsingle] at hn
    cases hn

/-- With one process at a time there is nobody to disturb. -/
theorem undisturbed_unit (w : World Unit) (a : Action Path) : Undisturbed () w a :=
  fun _ _ l hl => absurd (Subsingleton.elim l ()) hl

theorem undisturbedRun_of_worldRun {w w' : World Unit} (hrun : WorldRun σ osText singles w w') :
    UndisturbedRun σ osText singles w w' :=
  Relation.ReflTransGen.mono (fun w _ ⟨_, a, hstep⟩ => ⟨(), a, hstep, undisturbed_unit w a⟩) _ _ hrun

theorem World.Inv.step (hshared : NoSharedTmp files) (h : w.Inv σ.build files)
    (hstep : WorldStep σ osText (captures files) k w a w') (hquiet : Undisturbed k w a) :
    w'.Inv σ.build files :=
  ⟨h.sound.step hshared hstep, fun n source horiginal =>
    (h.keeps n source horiginal).step hshared h.sound horiginal.isCapture hstep hquiet⟩

theorem inv_of_run {mtime : Ino Path → Time} {now : Time} (hshared : NoSharedTmp files)
    (hrun : UndisturbedRun σ osText (captures files) (World.start files mtime now) w) :
    w.Inv σ.build files :=
  Lib.Run.invariant_of_run _ (fun _ _ h ⟨_, _, hstep, hquiet⟩ => h.step hshared hstep hquiet) hrun
    (inv_start _ _ _ _)

/-- **Captures are safe whatever any number of processes do**: they clean up, list, check
and slim at the same time, fail, are killed and are started again. No call may empty a tmp
file that a call of another process relies on, `--single` names captures, and `.pcap` and
`.pcap.pcap` are not both there. -/
theorem captures_safe {mtime : Ino Path → Time} {now : Time} (hshared : NoSharedTmp files)
    (hrun : UndisturbedRun σ osText (captures files) (World.start files mtime now) w)
    (horiginal : Original files n source) : Safe σ.build files n source w.disk := by
  have h := (inv_of_run hshared hrun).keeps n source horiginal
  refine ⟨?_, h.slimmed horiginal, fun hnone => ?_⟩
  · rcases h.file.read with hread | hcomplete
    · exact .inl hread
    · obtain ⟨k, hpassed⟩ := hcomplete.1
      exact .inr ⟨_, hpassed.output, hcomplete.read⟩
  · have hincomplete : ¬ Complete σ.build n source w.disk.files := fun hcomplete =>
      slimOutput_eq_none hnone _ hcomplete.1.choose_spec
    refine ⟨h.file.read.resolve_right hincomplete, ?_⟩
    by_contra hmarked
    rw [Bool.not_eq_false, isMarked_iff] at hmarked
    exact hincomplete (h.file.complete_of_marker hmarked)

/-! ## A directory with one capture -/

def captureArgs : Args where
  dir := true
  single := none
  workers := 2
  dryRun := false
  checkOnly := false
  json := true
  limits := {}
  ageMinutes := none

/-- The directory before the program is started. -/
def captureWorld : World Unit := .start captureFiles (fun _ => 0) 0

theorem eq_captureName (h : captureFiles (srcPath n) ≠ none) : n = captureName := by
  by_contra hne
  exact h (if_neg fun heq => hne (Path.file.inj heq))

theorem captureFiles_noSharedTmp : NoSharedTmp captureFiles := fun ⟨hshort, _⟩ =>
  absurd (eq_captureName hshort) (by decide)

/-- `--single` for the file `n`. -/
def singleArgs (n : Name) : Args := { captureArgs with dir := false, single := some n }

/-- The process that goes through the one file `n` and has its call at `t`. -/
def calling (args : Args) (n : Name) (t : Task) : Process :=
  .working args
    { files := [n], workerCount := 1, tasks := Function.update (fun _ => none) n (some t),
      lets := fun _ _ => true }

theorem tasks_calling {args : Args} {t u : Task} :
    (calling args n t).tasks m = some u ↔ m = n ∧ t = u := by
  change Function.update (fun _ => none) n (some t) m = some u ↔ _
  by_cases hm : m = n
  · subst hm
    rw [Function.update_self, Option.some.injEq]
    exact (and_iff_right rfl).symm
  · rw [Function.update_of_ne hm]
    exact ⟨nofun, fun h => absurd h.1 hm⟩

theorem processStep_calling {args : Args} {t t' : Task} (hstep : TaskStep σ n d.files t a t') :
    ProcessStep σ osText d (calling args n t) a (calling args n t') := by
  have htask : (calling args n t).tasks n = some t := tasks_calling.mpr ⟨rfl, rfl⟩
  have hset : calling args n t' = .working args (Pool.set
      { files := [n], workerCount := 1, lets := fun _ _ => true,
        tasks := Function.update (fun _ => none) n (some t) } n t') := by
    rw [calling, Pool.set, Function.update_idem]
  rw [hset]
  exact .task htask (fun _ => rfl) hstep

theorem calling_step {args : Args} {t t' : Task} (hp : w.processes k = calling args n t)
    (hstep : TaskStep σ n w.disk.files t a t') :
    WorldStep σ osText singles k w a (w.advance k a (calling args n t')) := by
  refine .session (.act ?_)
  rw [hp]
  exact processStep_calling hstep

/-- What a call does alone it does in a process that has taken it up. -/
theorem lift_call (osText : IoError → String) (singles : Set Name) {args : Args}
    {t t' : System Unit} {w : World Unit} (hcrashes : σ.crashes = false)
    (hrun : Run σ (onFile n) t t') (hfiles : w.disk.files = t.fs)
    (hp : w.processes () = calling args n (.slim (t.workers ()))) :
    ∃ w', WorldRun σ osText singles w w' ∧ w'.disk.files = t'.fs ∧
      w'.processes () = calling args n (.slim (t'.workers ())) := by
  refine Lib.Run.simulation_of_run
    (fun t (w : World Unit) => w.disk.files = t.fs ∧
      w.processes () = calling args n (.slim (t.workers ())))
    (fun t t' w ⟨hfiles, hp⟩ hstep => ?_) hrun ⟨hfiles, hp⟩
  obtain ⟨a, hworker, hfs⟩ := step_alone hcrashes hstep
  rw [← hfiles] at hworker
  refine ⟨_, .single ⟨(), a, calling_step hp (.slim hworker)⟩, ?_, processes_advance_self⟩
  rw [hfs, ← hfiles]
  rfl

/-- A process that is given the file `n` takes it up. -/
theorem exists_taken (osText : IoError → String) (args : Args) {w : World Unit}
    (hidle : (w.processes ()).isOver = true) (hn : n ∈ singles) (hsingle : args.single = some n)
    (hdry : args.dryRun = false) :
    ∃ w' : World Unit, (∀ σ, WorldRun σ osText singles w w') ∧ w'.disk = w.disk ∧
      w'.processes () = calling args n args.task := by
  let w₁ := w.advance () .idle (.start args)
  let w₂ := w₁.advance () .idle (.select args (fun _ _ => true) [n])
  refine ⟨w₂.advance () .idle (calling args n args.task), fun σ => ?_, rfl, processes_advance_self⟩
  have hlaunch : WorldStep σ osText singles () w .idle w₁ :=
    .launch hidle fun m hm => by rwa [← Option.some.inj (hsingle.symm.trans hm)]
  have hselect : WorldStep σ osText singles () w₁ .idle w₂ := by
    refine .session (.act ?_)
    rw [processes_advance_self]
    exact .plan (.single _ hsingle)
  have htake : WorldStep σ osText singles () w₂ .idle
      (w₂.advance () .idle (calling args n args.task)) := by
    have hpool : Process.select args (fun _ _ => true) [n] = .working args
        { files := [n], workerCount := 1, tasks := fun _ => none, lets := fun _ _ => true } := by
      rw [Process.select, List.isEmpty_cons, if_neg Bool.false_ne_true, hdry,
        if_neg Bool.false_ne_true, List.length_singleton, Nat.min_eq_right (Nat.le_max_right ..)]
    refine .session (.act ?_)
    rw [processes_advance_self, hpool]
    exact .plan (.take (List.mem_singleton_self n) rfl Nat.one_pos)
  exact ((Relation.ReflTransGen.single ⟨(), _, hlaunch⟩).tail ⟨(), _, hselect⟩).tail
    ⟨(), _, htake⟩

/-- A process that is given the capture `n` creates the tmp file. -/
theorem exists_created (osText : IoError → String) {w : World Unit}
    (hidle : (w.processes ()).isOver = true) (hn : n ∈ singles)
    (hunmarked : w.disk.files.dir (markerPath n) = none) (hisFile : ¬ TmpIsDir n) :
    ∃ (w' : World Unit) (j : Ino Path), (∀ σ, WorldRun σ osText singles w w') ∧
      w'.processes () = calling (singleArgs n) n (.slim (.stat j)) ∧
      w'.disk.files.dir (tmpPath n) = some j ∧ w'.disk.files.dir (markerPath n) = none := by
  obtain ⟨w₁, hrun, hdisk, hw₁⟩ := exists_taken osText (singleArgs n) hidle hn rfl rfl
  obtain ⟨j, hj⟩ := w₁.disk.files.exists_canCreate (tmpPath n)
  rw [← hdisk] at hunmarked
  let w₂ := w₁.advance () .idle (calling (singleArgs n) n (.slim .create))
  refine ⟨w₂.advance () (.create (tmpPath n) j) (calling (singleArgs n) n (.slim (.stat j))), j,
    fun σ => ?_, processes_advance_self, FileSystem.dir_create_self,
    (FileSystem.dir_create_of_ne (markerPath_ne_tmpPath n n)).trans hunmarked⟩
  have hcheck : WorldStep σ osText singles () w₁ .idle w₂ :=
    calling_step hw₁ (.slim (.unmarked hunmarked))
  have hcreate : WorldStep σ osText singles () w₂ (.create (tmpPath n) j)
      (w₂.advance () (.create (tmpPath n) j) (calling (singleArgs n) n (.slim (.stat j)))) :=
    calling_step processes_advance_self (.slim (.create hisFile hj))
  exact ((hrun σ).tail ⟨(), _, hcheck⟩).tail ⟨(), _, hcreate⟩

/-- While the calls of the others rely on nothing, a process can do what it does alone. -/
theorem lift_worldRun {u u' : World Unit} (hrun : WorldRun σ osText singles u u')
    (hdisk : w.disk = u.disk) (hprocess : w.processes k = u.processes ())
    (hwait : ∀ l, l ≠ k → ∀ n v, (w.processes l).tasks n = some (.slim v) → ¬ v.relies) :
    ∃ w', UndisturbedRun σ osText singles w w' ∧ w'.disk = u'.disk ∧
      w'.processes k = u'.processes () ∧ ∀ l, l ≠ k → w'.processes l = w.processes l := by
  refine Lib.Run.simulation_of_run
    (fun u (r : World κ) => r.disk = u.disk ∧ r.processes k = u.processes () ∧
      ∀ l, l ≠ k → r.processes l = w.processes l)
    (fun u u' r hrel hstep => ?_) hrun ⟨hdisk, hprocess, fun _ _ => rfl⟩
  obtain ⟨hdisk, hprocess, hothers⟩ := hrel
  obtain ⟨⟨⟩, a, hstep⟩ := hstep
  have hquiet : ∀ b, Undisturbed k r b := fun b n _ l hl v hv => by
    rw [hothers l hl] at hv
    exact hwait l hl n v hv
  have hadvance : ∀ {b : Action Path} {p : Process},
      WorldStep σ osText singles k r b (r.advance k b p) →
      ∃ r', UndisturbedRun σ osText singles r r' ∧ r'.disk = (u.advance () b p).disk ∧
        r'.processes k = (u.advance () b p).processes () ∧
        ∀ l, l ≠ k → r'.processes l = w.processes l := by
    intro b p hstep
    refine ⟨_, .single ⟨k, b, hstep, hquiet b⟩, ?_, ?_, fun l hl => ?_⟩
    · change r.disk.apply b = u.disk.apply b
      rw [hdisk]
    · rw [processes_advance_self, processes_advance_self]
    · rw [processes_advance_of_ne hl, hothers l hl]
  cases hstep with
  | session hstep =>
    cases hstep with
    | act hstep =>
      rw [← hdisk, ← hprocess] at hstep
      exact hadvance (.session (.act hstep))
    | tick now =>
      exact ⟨_, .single ⟨k, _, .session (.tick now), hquiet _⟩, by rw [hdisk], hprocess, hothers⟩
  | launch hover hsingle =>
    rw [← hprocess] at hover
    exact hadvance (.launch hover hsingle)
  | kill hcrashes => exact hadvance (.kill hcrashes)

/-- Beside a process that has just created the tmp file, another one can do what it does alone
on the disk that this leaves. -/
theorem lift_besides {mtime : Ino Path → Time} {now : Time} {args : Args} {i : Ino Path}
    {u v u' : World Unit} (hcreated : WorldRun σ osText singles (.start files mtime now) u)
    (hu : u.processes () = calling args n (.slim (.stat i))) (hdisk : v.disk = u.disk)
    (habsent : v.processes () = .absent) (hrun : WorldRun σ osText singles v u') :
    ∃ w : World Bool, UndisturbedRun σ osText singles (.start files mtime now) w ∧
      w.disk = u'.disk ∧ w.processes false = calling args n (.slim (.stat i)) ∧
      w.processes true = u'.processes () := by
  obtain ⟨w₁, hrun₁, hdisk₁, hfalse, hothers⟩ := lift_worldRun (k := false)
    (w := .start files mtime now) hcreated rfl rfl fun _ _ _ _ hv => nomatch hv
  have htrue : w₁.processes true = .absent := hothers true (by decide)
  obtain ⟨w₂, hrun₂, hdisk₂, htrue₂, hothers₂⟩ := lift_worldRun (k := true) hrun
    (hdisk₁.trans hdisk.symm) (htrue.trans habsent.symm) fun l hl m v hv => by
      rw [Bool.eq_false_iff.mpr hl, hfalse, hu] at hv
      cases (tasks_calling.mp hv).2
      exact not_false
  refine ⟨w₂, hrun₁.trans hrun₂, hdisk₂, ?_, htrue₂⟩
  rw [hothers₂ false (by decide), hfalse, hu]

/-- Two processes are about to slim one capture: the second has created the tmp file anew. -/
theorem captures_safe_twoProcesses : ∃ (w : World Bool) (i j : Ino Path),
    w.processes false = calling (singleArgs captureName) captureName (.slim (.stat i)) ∧
      w.processes true = calling (singleArgs captureName) captureName (.slim (.stat j)) ∧
      Safe .release captureFiles captureName oneRecordFile w.disk := by
  let σ : Setting := .quiet .release
  have hname : captureName ∈ captures captureFiles := ⟨by decide, by rw [captureFiles_src]; nofun⟩
  have hfile : ¬ TmpIsDir captureName := by decide
  obtain ⟨u, i, hrun, hu, -, hunmarked⟩ := exists_created (fun _ => "") (w := captureWorld)
    rfl hname (FileSystem.dir_ofFiles_none captureFiles_marker) hfile
  let v : World Unit := { u with processes := fun _ => .absent }
  obtain ⟨u', j, hrun', hu', -, -⟩ := exists_created (fun _ => "") (w := v) rfl hname hunmarked hfile
  obtain ⟨w, hundisturbed, -, hfalse, htrue⟩ := lift_besides (v := v) (hrun σ) hu rfl rfl (hrun' σ)
  exact ⟨w, i, j, hfalse, htrue.trans hu', captures_safe (σ := σ) captureFiles_noSharedTmp
    hundisturbed ⟨by decide, captureFiles_src, captureFiles_marker⟩⟩

end PcapSlim.Cli
