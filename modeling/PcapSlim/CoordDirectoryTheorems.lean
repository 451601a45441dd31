/-
PcapSlim.CoordDirectoryTheorems — the calls for the files of a directory.

A call for the file `n` sees and changes only the three paths of `n` and the inodes
created there (`within_of_step`, `step_congr`; `Local` says so of any larger set of paths,
too). If the calls for several files have no path in common, each runs as if it were
alone: `project_run` takes a run of all the calls to a run of one of them that ends in
the same place, and since a call alone is determined by its source, that is the only
place where it can end.

The names decide whether the paths are different. `with_extension` replaces the
extension, and every name that ends in `.pcap` gets its own tmp name with one
exception (`tmpName_eq_iff`): `.pcap` is all stem, so that it shares the tmp file of
`.pcap.pcap`. `actsAlone_iff` says that this pair is all that can go wrong. The one name
without a tmp file is `..pcap` (`tmpIsDir_iff`).
-/
import PcapSlim.CoordSharedTheorems

namespace PcapSlim.Coord

open Lib.Octets Lib.Files Packet PcapIo Capture

variable {σ : Setting} {n : Name} {fs fs' : FileSystem Path} {a : Action Path} {w w' : Worker}

/-! ## What a call touches -/

/-- The paths that belong to the file `n`. -/
def paths (n : Name) : Set Path := {srcPath n, tmpPath n, markerPath n}

theorem srcPath_mem (n : Name) : srcPath n ∈ paths n := .inl rfl
theorem tmpPath_mem (n : Name) : tmpPath n ∈ paths n := .inr (.inl rfl)
theorem markerPath_mem (n : Name) : markerPath n ∈ paths n := .inr (.inr rfl)

/-- The inodes that a call has opened. -/
def Worker.inodes : Worker → List (Ino Path)
  | .stat out | .openSrc out _ => [out]
  | .copy out inp _ _ _ => [out, inp]
  | .count inp _ _ => [inp]
  | _ => []

/-- Among the paths `T` are those of `n`, and the files there, and what a call for `n` has
opened, were created as files of `T`. -/
structure Local (T : Set Path) (n : Name) (fs : FileSystem Path) (w : Worker) : Prop where
  paths : paths n ⊆ T
  closed : Closed T fs
  inodes : ∀ j ∈ w.inodes, j.origin ∈ T

variable {T : Set Path}

theorem Local.origin_of_create (h : Local T n fs w) {p : Path} {j : Ino Path} (hp : p ∈ T)
    (hcreate : fs.CanCreate p j) : j.origin ∈ T := by
  rcases hcreate with hdir | ⟨-, horigin, -⟩
  · exact h.closed p hp j hdir
  · rwa [horigin]

theorem needs_mem {p : Path} (h : w.needs n = some p) : p ∈ paths n := by
  cases w with
  | stat _ | openSrc _ _ => cases h; exact srcPath_mem n
  | statTmp _ | openTmp _ | rename _ => cases h; exact tmpPath_mem n
  | check | create | copy _ _ _ _ _ | count _ _ _ | makeMarkerDir _ | writeMarker _
  | chmodMarker _ | cleanup _ | done _ => cases h

theorem inodes_failed (w : Worker) (e : IoError) : (w.failed e).inodes = [] := by
  cases w <;> rfl

/-- A call for `n` acts within these paths. -/
theorem within_of_step (h : Local T n fs w) (hstep : WorkerStep σ n fs w a w') : a.Within T := by
  have hsrc := h.paths (srcPath_mem n)
  have htmp := h.paths (tmpPath_mem n)
  have hmarker := h.paths (markerPath_mem n)
  cases hstep with
  | create hfile hcreate => exact ⟨htmp, h.origin_of_create htmp hcreate⟩
  | writeMarker hcreate => exact ⟨hmarker, h.origin_of_create hmarker hcreate⟩
  | writeTmp => exact h.inodes _ (List.mem_cons_self ..)
  | rename => exact ⟨htmp, hsrc⟩
  | cleanup => exact htmp
  | marked | unmarked | createDir | stat | openSrc | readSrc | copyPanic | copyError | copyDone
  | statTmp | openTmp | readTmp | countError | countMismatch | countMatch | makeMarkerDir
  | chmodMarker | cleanupDir | missing | fail => trivial

theorem local_step (h : Local T n fs w) (hstep : WorkerStep σ n fs w a w') :
    Local T n (fs.apply a) w' := by
  refine ⟨h.paths, h.closed.apply (within_of_step h hstep), fun j hj => ?_⟩
  cases hstep with
  | create hfile hcreate =>
    cases List.mem_singleton.mp hj
    exact h.origin_of_create (h.paths (tmpPath_mem n)) hcreate
  | stat | readSrc | writeTmp | readTmp => exact h.inodes j hj
  | openSrc hdir =>
    rcases List.mem_cons.mp hj with rfl | hj
    · exact h.inodes _ (List.mem_cons_self ..)
    · cases List.mem_singleton.mp hj
      exact h.closed _ (h.paths (srcPath_mem n)) _ hdir
  | openTmp hdir =>
    cases List.mem_singleton.mp hj
    exact h.closed _ (h.paths (tmpPath_mem n)) _ hdir
  | missing | fail =>
    rw [inodes_failed] at hj
    cases hj
  | marked | unmarked | createDir | copyPanic | copyError | copyDone | statTmp | countError
  | countMismatch | countMatch | rename | makeMarkerDir | writeMarker | chmodMarker | cleanup
  | cleanupDir => cases hj

/-- A call for `n` does not see what else is in the directory. -/
theorem step_congr (hlocal : Local T n fs w) (hagree : AgreeOn T fs fs')
    (hstep : WorkerStep σ n fs w a w') : WorkerStep σ n fs' w a w' := by
  have hmem := hlocal.paths
  have hsrc := hagree.dir _ (hmem (srcPath_mem n))
  have htmp := hagree.dir _ (hmem (tmpPath_mem n))
  have hmarker := hagree.dir _ (hmem (markerPath_mem n))
  have hopened : ∀ j ∈ w.inodes, fs.data j = fs'.data j := fun j hj =>
    hagree.data j (hlocal.inodes j hj)
  have hlinked : ∀ {p j}, p ∈ paths n → fs.dir p = some j → fs.data j = fs'.data j :=
    fun hp hdir => hagree.data _ (hlocal.closed _ (hmem hp) _ hdir)
  have hcreate : ∀ {p j}, p ∈ paths n → fs.CanCreate p j → fs'.CanCreate p j := by
    intro p j hp hcan
    rw [FileSystem.CanCreate, ← hagree.dir p (hmem hp),
      ← hagree.data j (hlocal.origin_of_create (hmem hp) hcan)]
    exact hcan
  cases hstep with
  | marked h => exact .marked (hmarker ▸ h)
  | unmarked h => exact .unmarked (hmarker ▸ h)
  | create hfile h => exact .create hfile (hcreate (tmpPath_mem n) h)
  | createDir hdir => exact .createDir hdir
  | stat hdir hdata =>
    rw [hlinked (srcPath_mem n) hdir] at hdata
    exact .stat (hsrc ▸ hdir) hdata
  | openSrc hdir => exact .openSrc (hsrc ▸ hdir)
  | readSrc k hdata hmore hk =>
    rw [hopened _ (by simp [Worker.inodes])] at hdata
    exact .readSrc k hdata hmore hk
  | writeTmp hbytes hne => exact .writeTmp hbytes hne
  | copyPanic h => exact .copyPanic h
  | copyError hdata hdetects h =>
    rw [hopened _ (by simp [Worker.inodes])] at hdata
    exact .copyError hdata hdetects h
  | copyDone hdata hend h hwritten =>
    rw [hopened _ (by simp [Worker.inodes])] at hdata
    exact .copyDone hdata hend h hwritten
  | statTmp hdir hdata =>
    rw [hlinked (tmpPath_mem n) hdir] at hdata
    exact .statTmp (htmp ▸ hdir) hdata
  | openTmp hdir => exact .openTmp (htmp ▸ hdir)
  | readTmp k hdata hmore hk =>
    rw [hopened _ (by simp [Worker.inodes])] at hdata
    exact .readTmp k hdata hmore hk
  | countError hdata hdetects h =>
    rw [hopened _ (by simp [Worker.inodes])] at hdata
    exact .countError hdata hdetects h
  | countMismatch hdata hend h =>
    rw [hopened _ (by simp [Worker.inodes])] at hdata
    exact .countMismatch hdata hend h
  | countMatch hdata hend h =>
    rw [hopened _ (by simp [Worker.inodes])] at hdata
    exact .countMatch hdata hend h
  | rename h => exact .rename (htmp ▸ h)
  | makeMarkerDir => exact .makeMarkerDir
  | writeMarker h => exact .writeMarker (hcreate (markerPath_mem n) h)
  | chmodMarker => exact .chmodMarker
  | cleanup hfile => exact .cleanup hfile
  | cleanupDir hdir => exact .cleanupDir hdir
  | missing hneeds hgone =>
    rw [hagree.dir _ (hmem (needs_mem hneeds))] at hgone
    exact .missing hneeds hgone
  | fail e hfaults hrunning => exact .fail e hfaults hrunning

/-! ## From all calls to one of them -/

variable {ι : Type} {name : ι → Name}

/-- The calls are for files without a path in common. -/
def Separate (name : ι → Name) : Prop :=
  ∀ i k, i ≠ k → ∀ p ∈ paths (name i), p ∉ paths (name k)

/-- The one call of `t` is where call `i` of `s` is, and its files are the same. -/
structure Projects (name : ι → Name) (i : ι) (s : System ι) (t : System Unit) : Prop where
  worker : t.workers () = s.workers i
  files : AgreeOn (paths (name i)) t.fs s.fs
  others : ∀ k, Local (paths (name k)) (name k) s.fs (s.workers k)

theorem projects_start (files : Path → Option Bytes) (i : ι) :
    Projects name i (.start files) (.start files) := by
  refine ⟨rfl, .rfl, fun k => ⟨subset_rfl, fun p hp j hj => ?_, nofun⟩⟩
  rwa [FileSystem.origin_of_dir_ofFiles hj]

theorem Projects.read {s : System ι} {t : System Unit} {i : ι} (h : Projects name i s t) {p : Path}
    (hp : p ∈ paths (name i)) : t.fs.read p = s.fs.read p :=
  h.files.read ((h.others i).closed.of_agree h.files) hp

variable [DecidableEq ι]

theorem project_step (hseparate : Separate name) {s s' : System ι} {t : System Unit} {i k : ι}
    (h : Projects name i s t) (hstep : SysStep σ name k s s') :
    ∃ t', Run σ (onFile (name i)) t t' ∧ Projects name i s' t' := by
  cases hstep with
  | @act a w hstep =>
    have hwithin := within_of_step (h.others k) hstep
    have hothers : ∀ l, Local (paths (name l)) (name l) (s.fs.apply a)
        ((s.advance k a w).workers l) :=
      forall_advance (fun l => Local (paths (name l)) (name l) _) (local_step (h.others k) hstep)
        fun l hl => by
          have hagree := agreeOn_apply (hseparate l k hl) s.fs hwithin
          exact ⟨subset_rfl, (h.others l).closed.of_agree hagree, (h.others l).inodes⟩
    by_cases hk : i = k
    · subst hk
      have hstep' : WorkerStep σ (name i) t.fs (t.workers ()) a w := by
        have hlocal : Local (paths (name i)) (name i) s.fs (s.workers i) := h.others i
        rw [h.worker]
        exact step_congr hlocal h.files.symm hstep
      refine ⟨_, .single ⟨(), .act hstep'⟩, ?_, h.files.apply hwithin, hothers⟩
      rw [advance_self, advance_self]
    · refine ⟨t, .refl, ?_, ?_, hothers⟩
      · rw [advance_of_ne hk, h.worker]
      · have hagree := agreeOn_apply (hseparate i k hk) s.fs hwithin
        exact h.files.trans hagree.symm
  | restart hcrashes =>
    have hothers : ∀ l, Local (paths (name l)) (name l) s.fs
        ((s.advance k .idle .check).workers l) :=
      forall_advance (fun l => Local (paths (name l)) (name l) _)
        ⟨subset_rfl, (h.others k).closed, nofun⟩ fun l _ => h.others l
    by_cases hk : i = k
    · subst hk
      refine ⟨_, .single ⟨(), .restart hcrashes⟩, ?_, h.files, hothers⟩
      rw [advance_self, advance_self]
    · refine ⟨t, .refl, ?_, h.files, hothers⟩
      rw [advance_of_ne hk, h.worker]

/-- **What a call does among others it can do alone.** -/
theorem project_run (hseparate : Separate name) {files : Path → Option Bytes} {s : System ι}
    (hrun : Run σ name (.start files) s) (i : ι) :
    ∃ t, Run σ (onFile (name i)) (.start files) t ∧ Projects name i s t :=
  Lib.Run.simulation_of_run (Projects name i)
    (fun _ _ _ h ⟨_, hstep⟩ => project_step hseparate h hstep) hrun (projects_start files i)

/-- A call alone can end in one way only, if nothing fails. -/
theorem alone_unique {build : Build} {files : Path → Option Bytes} {content : Bytes}
    (hsrc : files (srcPath n) = some content) {t t' : System Unit}
    (hrun : Run (.quiet build) (onFile n) (.start files) t) (hdone : (t.workers ()).isDone = true)
    (hrun' : Run (.quiet build) (onFile n) (.start files) t')
    (hdone' : (t'.workers ()).isDone = true) :
    t.workers () = t'.workers () ∧ t.fs.read (srcPath n) = t'.fs.read (srcPath n) ∧
      t.fs.read (markerPath n) = t'.fs.read (markerPath n) := by
  cases hmarker : files (markerPath n) with
  | some c =>
    have hdir : (System.start files : System Unit).fs.dir (markerPath n) ≠ none := by
      change (FileSystem.ofFiles files).dir _ ≠ _
      rw [FileSystem.dir_ofFiles hmarker]
      nofun
    obtain ⟨hfs, hw⟩ := call_marked rfl rfl hrun rfl hdir
    obtain ⟨hfs', hw'⟩ := call_marked rfl rfl hrun' rfl hdir
    have hskipped : ∀ {w : Worker}, w = .check ∨ w = .done .skipped → w.isDone = true →
        w = .done .skipped := by
      rintro w (rfl | rfl) h
      · cases h
      · rfl
    rw [hfs, hfs', hskipped hw hdone, hskipped hw' hdone']
    exact ⟨rfl, rfl, rfl⟩
  | none =>
    have huntouched := untouched_start hsrc hmarker
    have hfinished : ∀ {t : System Unit}, Run (.quiet build) (onFile n) (.start files) t →
        (t.workers ()).isDone = true → ∃ outcome, t.workers () = .done outcome ∧
          Finished build n content t.fs outcome := by
      intro t hrun hdone
      cases hw : t.workers () with
      | done outcome => exact ⟨outcome, rfl, call_alone rfl rfl hrun rfl huntouched hw⟩
      | _ => rw [hw] at hdone; cases hdone
    obtain ⟨outcome, hw, hend⟩ := hfinished hrun hdone
    obtain ⟨outcome', hw', hend'⟩ := hfinished hrun' hdone'
    rw [hw, hw', hend.outcome, hend'.outcome, hend.src, hend'.src, hend.marker, hend'.marker]
    exact ⟨rfl, rfl, rfl⟩

/-! ## Names -/

theorem exists_of_pending (h : isPendingName n = true) : ∃ front, n = front ++ dotPcap := by
  have hsuffix : dotPcap.isSuffixOf n = true := (Bool.and_eq_true_iff.mp h).1
  obtain ⟨front, hfront⟩ := List.isSuffixOf_iff_suffix.mp hsuffix
  exact ⟨front, hfront.symm⟩

/-- A tmp file has the stem of the file that it is for. -/
theorem tmpName_eq (h : ¬ TmpIsDir n) : tmpName n = fileStem n ++ dotPcapTmp := by
  unfold TmpIsDir tmpName withExtension at h
  rw [tmpName, withExtension]
  split
  · next hstem => exact absurd (if_pos hstem) h
  · rfl

/-- No tmp file is pending. -/
theorem not_pending_tmpName (n : Name) : isPendingName (tmpName n) = false := by
  by_cases hdir : TmpIsDir n
  · rw [show tmpName n = dotDot from hdir]
    rfl
  · have hsuffix : dotPcapTmp.isSuffixOf (tmpName n) = true :=
      List.isSuffixOf_iff_suffix.mpr ⟨fileStem n, (tmpName_eq hdir).symm⟩
    rw [isPendingName, hsuffix]
    exact Bool.and_false _

/-- A name that ends in `.pcap` loses that, unless it is nothing else. -/
theorem fileStem_append (front : Name) :
    fileStem (front ++ dotPcap) = if front = [] then dotPcap else front := by
  have hdots : front ++ dotPcap ≠ dotDot := by
    intro h
    have := congrArg List.length h
    simp [dotPcap, dotDot] at this
  have hdrop : (front ++ dotPcap).reverse.dropWhile (fun x => decide (x ≠ '.')) =
      '.' :: front.reverse := by
    rw [List.reverse_append]
    rfl
  rw [fileStem, if_neg hdots, hdrop]
  dsimp only
  by_cases hfront : front = []
  · rw [if_pos (by rw [hfront]; rfl), if_pos hfront, hfront]
    rfl
  · rw [if_neg (by simpa using hfront), if_neg hfront, List.reverse_reverse]

/-- Of the pending files only `..pcap` has no tmp file. -/
theorem tmpIsDir_iff (hn : isPendingName n = true) : TmpIsDir n ↔ n = '.' :: dotPcap := by
  constructor
  · intro hdir
    obtain ⟨front, rfl⟩ := exists_of_pending hn
    by_contra hne
    have hstem : fileStem (front ++ dotPcap) ≠ ['.'] := by
      rw [fileStem_append]
      split
      · decide
      · rintro rfl
        exact hne rfl
    have hlong : tmpName (front ++ dotPcap) =
        fileStem (front ++ dotPcap) ++ dotPcapTmp := if_neg hstem
    have hlen := congrArg List.length (hlong.symm.trans hdir)
    rw [List.length_append] at hlen
    simp [dotPcapTmp, dotPcap, dotDot] at hlen
  · rintro rfl
    decide

/-- Of two pending files only `.pcap` and `.pcap.pcap` share a tmp file. -/
theorem tmpName_eq_iff {m : Name} (hn : isPendingName n = true) (hm : isPendingName m = true) :
    tmpName n = tmpName m ↔ n = m ∨ (n = dotPcap ∧ m = dotPcap ++ dotPcap) ∨
      (n = dotPcap ++ dotPcap ∧ m = dotPcap) := by
  have hcollide : tmpName dotPcap = tmpName (dotPcap ++ dotPcap) := by decide
  constructor
  · intro h
    by_cases hdir : TmpIsDir n
    · have hdir' : TmpIsDir m := h.symm.trans hdir
      exact .inl (((tmpIsDir_iff hn).mp hdir).trans ((tmpIsDir_iff hm).mp hdir').symm)
    have hdir' : ¬ TmpIsDir m := fun hm => hdir (h.trans hm)
    rw [tmpName_eq hdir, tmpName_eq hdir'] at h
    have hstem := List.append_cancel_right h
    obtain ⟨x, rfl⟩ := exists_of_pending hn
    obtain ⟨y, rfl⟩ := exists_of_pending hm
    rw [fileStem_append, fileStem_append] at hstem
    by_cases hx : x = [] <;> by_cases hy : y = []
    · exact .inl (by rw [hx, hy])
    · rw [if_pos hx, if_neg hy] at hstem
      exact .inr (.inl ⟨by rw [hx]; rfl, by rw [hstem]⟩)
    · rw [if_neg hx, if_pos hy] at hstem
      exact .inr (.inr ⟨by rw [hstem], by rw [hy]; rfl⟩)
    · rw [if_neg hx, if_neg hy] at hstem
      exact .inl (by rw [hstem])
  · rintro (h | ⟨h, h'⟩ | ⟨h, h'⟩)
    · rw [h]
    · rw [h, h', hcollide]
    · rw [h, h', hcollide]

/-! ## The files of a directory -/

/-- The calls for `names`, all at once, act on each file as if it were processed alone. -/
structure ActsAlone (names : Set Name) : Prop where
  tmp_injective : ∀ n ∈ names, ∀ m ∈ names, tmpPath n = tmpPath m → n = m
  tmp_not_source : ∀ n ∈ names, ∀ m ∈ names, tmpPath n ≠ srcPath m
  marker_injective : ∀ n ∈ names, ∀ m ∈ names, markerPath n = markerPath m → n = m
  /-- Wherever a call is, whatever fails, it could have come there alone. -/
  projects : ∀ (σ : Setting) (files : Path → Option Bytes) (s : System {n // n ∈ names}),
    Run σ Subtype.val (.start files) s → ∀ n : {n // n ∈ names},
    ∃ t : System Unit, Run σ (onFile n.val) (.start files) t ∧ t.workers () = s.workers n ∧
      t.fs.read (srcPath n) = s.fs.read (srcPath n) ∧
      t.fs.read (markerPath n) = s.fs.read (markerPath n)
  /-- When nothing fails, it ends as it does alone. -/
  ends : ∀ (build : Build) (files : Path → Option Bytes) (s : System {n // n ∈ names}),
    (∀ n ∈ names, files (srcPath n) ≠ none) →
    Run (.quiet build) Subtype.val (.start files) s →
    ∀ n : {n // n ∈ names}, (s.workers n).isDone = true →
    ∀ t : System Unit, Run (.quiet build) (onFile n.val) (.start files) t →
    (t.workers ()).isDone = true →
      s.workers n = t.workers () ∧ s.fs.read (srcPath n) = t.fs.read (srcPath n) ∧
      s.fs.read (markerPath n) = t.fs.read (markerPath n)

theorem separate_of_pending {names : Set Name} (hpending : ∀ n ∈ names, isPendingName n = true)
    (hcollide : ¬ (dotPcap ∈ names ∧ dotPcap ++ dotPcap ∈ names)) :
    Separate (Subtype.val : {n // n ∈ names} → Name) := by
  rintro ⟨n, hn⟩ ⟨m, hm⟩ hne
  have hname : n ≠ m := fun h => hne (Subtype.ext h)
  have htmp : tmpName n ≠ tmpName m := by
    intro h
    rcases (tmpName_eq_iff (hpending n hn) (hpending m hm)).mp h with h | ⟨rfl, rfl⟩ | ⟨rfl, rfl⟩
    · exact hname h
    · exact hcollide ⟨hn, hm⟩
    · exact hcollide ⟨hm, hn⟩
  have hsrc : ∀ {l k : Name}, l ∈ names → l ≠ tmpName k := by
    rintro l k hl rfl
    have := hpending _ hl
    rw [not_pending_tmpName] at this
    cases this
  rintro p (rfl | rfl | rfl) (h | h | h)
  · exact hname (Path.file.inj h)
  · exact hsrc hn (Path.file.inj h)
  · cases h
  · exact hsrc hm (Path.file.inj h).symm
  · exact htmp (Path.file.inj h)
  · cases h
  · cases h
  · cases h
  · exact hname (Path.marker.inj h)

/-- **The calls act on each file as if it were alone exactly when `.pcap` and
`.pcap.pcap` are not both there.** -/
theorem actsAlone_iff (names : Set Name) (hpending : ∀ n ∈ names, isPendingName n = true) :
    ActsAlone names ↔ ¬ (dotPcap ∈ names ∧ dotPcap ++ dotPcap ∈ names) := by
  constructor
  · rintro h ⟨hshort, hlong⟩
    have := h.tmp_injective _ hshort _ hlong (by decide)
    exact absurd this (by decide)
  · intro hcollide
    have hseparate := separate_of_pending hpending hcollide
    have hproject := fun σ files s (hrun : Run σ Subtype.val (.start files) s) =>
      project_run hseparate hrun
    refine ⟨fun n hn m hm h => ?_, fun n _ m hm h => ?_, fun n _ m _ h => Path.marker.inj h,
      fun σ files s hrun n => ?_, fun build files s hsrc hrun n hdone t hrun' hdone' => ?_⟩
    · rcases (tmpName_eq_iff (hpending n hn) (hpending m hm)).mp (Path.file.inj h) with
        h | ⟨rfl, rfl⟩ | ⟨rfl, rfl⟩
      · exact h
      · exact absurd ⟨hn, hm⟩ hcollide
      · exact absurd ⟨hm, hn⟩ hcollide
    · have := hpending m hm
      rw [← Path.file.inj h, not_pending_tmpName] at this
      cases this
    · obtain ⟨t, hrun', ht⟩ := hproject σ files s hrun n
      exact ⟨t, hrun', ht.worker, ht.read (srcPath_mem _), ht.read (markerPath_mem _)⟩
    · obtain ⟨t', hrun'', ht⟩ := hproject _ files s hrun n
      obtain ⟨content, hcontent⟩ := Option.ne_none_iff_exists'.mp (hsrc n n.property)
      rw [← ht.worker, ← ht.read (srcPath_mem _), ← ht.read (markerPath_mem _)]
      exact alone_unique hcontent hrun'' (by rwa [ht.worker]) hrun' hdone'

theorem actsAlone_twoCaptures : ActsAlone {captureName, 'b' :: dotPcap} := by
  refine (actsAlone_iff _ ?_).mpr ?_
  · rintro n (rfl | rfl) <;> decide
  · rintro ⟨h, -⟩
    have hne : dotPcap ≠ captureName ∧ dotPcap ≠ 'b' :: dotPcap := by decide
    exact h.elim hne.1 hne.2

/-- The two names that share a tmp file, for files with the capture of `oneRecordFile`. -/
def pendingPair : Set Name := {dotPcap, dotPcap ++ dotPcap}

def pairFiles (p : Path) : Option Bytes :=
  if p = srcPath dotPcap ∨ p = srcPath (dotPcap ++ dotPcap) then some oneRecordFile else none

/-- The call for `.pcap.pcap` empties what the call for `.pcap` has counted. -/
theorem pendingPair_not_alone : (∀ n ∈ pendingPair, isPendingName n = true) ∧
    ¬ ActsAlone pendingPair ∧ ∃ s : System {n // n ∈ pendingPair},
      Run (.quiet .release) Subtype.val (.start pairFiles) s ∧
        s.fs.read (srcPath dotPcap) = some [] := by
  refine ⟨?_, fun h => ?_, ?_⟩
  · rintro n (rfl | rfl) <;> decide
  · have := h.tmp_injective _ (.inl rfl) _ (.inr rfl) (by decide)
    exact absurd this (by decide)
  · have hslims : (slimOutput .release dotPcap oneRecordFile).isSome = true := by decide +kernel
    obtain ⟨output, houtput⟩ := Option.isSome_iff_exists.mp hslims
    let first : {n // n ∈ pendingPair} := ⟨dotPcap, .inl rfl⟩
    let second : {n // n ∈ pendingPair} := ⟨dotPcap ++ dotPcap, .inr rfl⟩
    have hne : second ≠ first := fun h => absurd (congrArg Subtype.val h) (by decide)
    exact renames_emptied_tmp Subtype.val (i := first) (k := second) hne (by decide) houtput
      (if_pos (.inl rfl)) fun _ => if_neg (by rintro (h | h) <;> cases h)

end PcapSlim.Coord
