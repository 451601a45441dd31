/-
PcapSlim.RepeatTheorems — two runs over one directory.

What a run does to the captures is a function of the disk and of the time of its list
(`session_exact`), so that two runs can be compared, one after the other and alone, with
nothing failing, over a whole directory without both `.pcap` and `.pcap.pcap`. A second run
only meets what has failed in the first (`again_only_failed`), and `--check-only` reports
what a real run would report (`check_predicts`), unless there is a `..pcap`: a real run
cannot create its tmp file, a check does without.
-/
import PcapSlim.OutcomeTheorems

namespace PcapSlim.Cli

open Lib.Octets Lib.Files PcapIo Coord Report

variable {σ : Setting} {build : Build} {osText : IoError → String} {files : Path → Option Bytes}
  {n : Name} {d₀ d : Disk} {fs : FileSystem Path} {a : Action Path} {p p' : Process} {args : Args}
  {listedAt : Time} {names : List Name}

/-! ## A second run -/

section Again

variable {printed : Printed} {result : Except RunError Unit}

/-- What is left to be slimmed after a run is what has not slimmed, as it was. -/
theorem SessionEnd.pending_iff (hfull : args.Full) (hready : Ready files d)
    (h : SessionEnd build osText files args d₀ d.files listedAt names printed result) :
    d.Pending none n ↔ n ∈ names ∧ slimOutput build n (contentOf d₀ n) = none := by
  have hslimmed := fun hn => h.slimmed hfull.dryRun hfull.checkOnly n hn
  constructor
  · rintro ⟨hfile, hname, -, hunmarked⟩
    by_cases hn : n ∈ names
    · rw [isMarked_eq_isSome_read, (hslimmed hn).2, Option.isSome_map] at hunmarked
      exact ⟨hn, Option.not_isSome_iff_eq_none.mp (Bool.eq_false_iff.mp hunmarked)⟩
    · have hkept := h.others n (hready.known n hfile hname) hn
      rw [hkept.isFile] at hfile
      rw [hkept.isMarked] at hunmarked
      exact absurd ((hfull.mem_iff h.listed).mpr (d₀.pending_none hfile hname hunmarked)) hn
  · rintro ⟨hn, hnone⟩
    obtain ⟨hsrc, hmarker⟩ := hslimmed hn
    rw [hnone] at hsrc hmarker
    refine d.pending_none ?_ (h.listed.mem_iff.mp hn).name ?_
    · rw [isFile_eq_isSome_read, hsrc]
      rfl
    · rw [isMarked_eq_isSome_read, hmarker]
      rfl

theorem SessionEnd.contentOf_eq (hfull : args.Full) (hn : n ∈ names)
    (h : SessionEnd build osText files args d₀ d.files listedAt names printed result)
    (hnone : slimOutput build n (contentOf d₀ n) = none) : contentOf d n = contentOf d₀ n := by
  have hsrc := (h.slimmed hfull.dryRun hfull.checkOnly n hn).1
  rw [hnone] at hsrc
  rw [contentOf, hsrc]
  rfl

/-- The second run does not panic either. -/
theorem SessionEnd.calm (hfull : args.Full) (hready : Ready files d)
    (hcalm : Calm build args.checkOnly d₀)
    (h : SessionEnd build osText files args d₀ d.files listedAt names printed result) :
    Calm build args.checkOnly d := by
  intro cutoff n hpending
  obtain ⟨hn, hnone⟩ := (h.pending_iff hfull hready).mp hpending.any_age
  rw [h.contentOf_eq hfull hn hnone]
  exact hcalm _ n (h.listed.mem_iff.mp hn)

/-- A run that slims the whole directory succeeds exactly if every file of its list slims. -/
theorem SessionEnd.ok_iff (hfull : args.Full)
    (h : SessionEnd build osText files args d₀ fs listedAt names printed result) :
    result = .ok () ↔ ∀ n ∈ names, slimOutput build n (contentOf d₀ n) ≠ none := by
  rw [h.result, hfull.dryRun, hfull.checkOnly, or_iff_right Bool.false_ne_true]
  exact forall₂_congr fun n _ => slimOutput_ne_none_iff.symm

/-- An entry that was expected is that of the result that the call returned. -/
theorem returned_of_expected {checkOnly : Bool} {content : Bytes} {file : FileReport}
    (h : some (timeless file) = expectedReport build osText checkOnly n content) :
    ∃ result, .ofPass (passOf build checkOnly n content) = Outcome.returned result ∧
      timeless file = timeless (FileReport.ofResult osText (display n) 0 result) := by
  cases houtcome : Outcome.ofPass (passOf build checkOnly n content) with
  | panicked =>
    rw [expectedReport, houtcome] at h
    cases h
  | returned result =>
    rw [expectedReport_of_returned 0 houtcome, Option.some.injEq] at h
    exact ⟨result, rfl, h⟩

/-- An entry says that its file has failed exactly if the file does not slim. -/
theorem failed_iff {content : Bytes} {file : FileReport}
    (h : some (timeless file) = expectedReport build osText false n content) :
    file.status = .fail ↔ slimOutput build n content = none := by
  obtain ⟨result, houtcome, hfile⟩ := returned_of_expected h
  have hstatus : (timeless file).status =
      (timeless (FileReport.ofResult osText (display n) 0 result)).status :=
    congrArg FileReport.status hfile
  change file.status = (FileReport.ofResult osText (display n) 0 result).status at hstatus
  rw [← not_iff_not, hstatus]
  exact (status_of_returned 0 houtcome).trans slimOutput_ne_none_iff.symm

/-- The failed entries are those of the files that do not slim. -/
theorem filter_failed {content : Name → Bytes} {reports : List FileReport}
    (h : reports.map (fun file => some (timeless file)) =
      names.map fun n => expectedReport build osText false n (content n)) :
    ((reports.filter (·.status = .fail)).map fun file => some (timeless file)) =
      (names.filter fun n => (slimOutput build n (content n)).isNone).map fun n =>
        expectedReport build osText false n (content n) := by
  let failed : Option FileReport → Bool := fun entry => entry.any (·.status = .fail)
  have hnames : ∀ n ∈ names, failed (expectedReport build osText false n (content n)) =
      (slimOutput build n (content n)).isNone := by
    intro n hn
    have hmem : expectedReport build osText false n (content n) ∈
        names.map fun n => expectedReport build osText false n (content n) :=
      List.mem_map.mpr ⟨n, hn, rfl⟩
    rw [← h] at hmem
    obtain ⟨file, -, hfile⟩ := List.mem_map.mp hmem
    rw [← hfile, Bool.eq_iff_iff, Option.isNone_iff_eq_none, ← failed_iff hfile]
    exact decide_eq_true_iff
  calc (reports.filter (·.status = .fail)).map (fun file => some (timeless file))
      = (reports.map fun file => some (timeless file)).filter failed := by rw [List.filter_map]; rfl
    _ = (names.map fun n => expectedReport build osText false n (content n)).filter failed := by
      rw [h]
    _ = (names.filter fun n => (slimOutput build n (content n)).isNone).map fun n =>
          expectedReport build osText false n (content n) := by
      rw [List.filter_map]
      exact congrArg _ (List.filter_congr hnames)

/-- What the report of a run says, also when there was nothing to do. -/
theorem SessionEnd.entries {r : RunReport} (hdry : args.dryRun = false)
    (h : SessionEnd build osText files args d₀ fs listedAt names (.report r) result) :
    r.files.map (fun file => some (timeless file)) =
      names.map fun n => expectedReport build osText args.checkOnly n (contentOf d₀ n) := by
  by_cases hne : names = []
  · have hprinted := h.nothing hne
    split at hprinted
    · cases hprinted
      rw [hne]
      rfl
    · cases hprinted
  · obtain ⟨reports, totalMs, hprinted, hreports⟩ := h.printed hne hdry
    cases hprinted
    exact hreports

theorem perm_of_map_some {l l' : List FileReport} (h : (l.map some).Perm (l'.map some)) :
    l.Perm l' := by
  have := h.filterMap id
  rwa [List.filterMap_map, List.filterMap_map, Function.id_comp, List.filterMap_some,
    List.filterMap_some] at this

variable {mtime : Ino Path → Time} {now : Time} {w₀ w₁ w₂ : World Unit} {args₁ args₂ : Args}
  {printed₁ printed₂ : Printed} {result₁ result₂ : Except RunError Unit}

/-- **A second run only meets what failed in the first**: it reports these files as failed
again, ends as the first has ended, and changes no capture. Both slim the whole directory,
one after the other and alone, and nothing fails in them. `--single` has named captures
only, and `.pcap` and `.pcap.pcap` are not both there. -/
theorem again_only_failed (hshared : NoSharedTmp files)
    (hhistory : WorldRun σ osText (captures files) (World.start files mtime now) w₀)
    (hidle : (w₀.processes ()).isOver = true) (hfull : args.Full)
    (hrun₁ : SessionRun (.quiet σ.build) osText (w₀.advance () .idle (.start args)) w₁)
    (hover₁ : w₁.processes () = .ended args₁ printed₁ result₁)
    (hrun₂ : SessionRun (.quiet σ.build) osText (w₁.advance () .idle (.start args)) w₂)
    (hover₂ : w₂.processes () = .ended args₂ printed₂ result₂) :
    (∀ r₁ r₂, printed₁ = .report r₁ → printed₂ = .report r₂ →
      (r₂.files.map timeless).Perm ((r₁.files.filter (·.status = .fail)).map timeless)) ∧
    (result₂ = .ok () ↔ result₁ = .ok ()) ∧
    ∀ n, IsCapture files n → w₂.disk.files.read (srcPath n) = w₁.disk.files.read (srcPath n) ∧
      w₂.disk.files.read (markerPath n) = w₁.disk.files.read (markerPath n) := by
  have hknown₀ := known_of_run hshared (undisturbedRun_of_worldRun hhistory)
  obtain ⟨hknown₁, hidle₁, _, names₁, -, hend₁⟩ :=
    sessionEnd_of_run hshared hknown₀ hidle hfull.dir hfull.single hrun₁ hover₁
  obtain ⟨-, -, _, names₂, -, hend₂⟩ :=
    sessionEnd_of_run hshared hknown₁ hidle₁ hfull.dir hfull.single hrun₂ hover₂
  have hready₁ := ready_of_known hknown₁
  have hmem : ∀ n, n ∈ names₂ ↔
      n ∈ names₁ ∧ slimOutput σ.build n (contentOf w₀.disk n) = none := fun n =>
    (hfull.mem_iff hend₂.listed).trans (hend₁.pending_iff hfull hready₁)
  have hcontent : ∀ n ∈ names₂, contentOf w₁.disk n = contentOf w₀.disk n := fun n hn =>
    hend₁.contentOf_eq hfull ((hmem n).mp hn).1 ((hmem n).mp hn).2
  have hnone : ∀ n ∈ names₂, slimOutput σ.build n (contentOf w₁.disk n) = none := fun n hn => by
    rw [hcontent n hn]
    exact ((hmem n).mp hn).2
  refine ⟨?_, ?_, fun n hn => ?_⟩
  · rintro r₁ r₂ rfl rfl
    have hreports₁ := hend₁.entries hfull.dryRun
    have hreports₂ := hend₂.entries hfull.dryRun
    rw [hfull.checkOnly] at hreports₁ hreports₂
    have hperm : names₂.Perm (names₁.filter fun n =>
        (slimOutput σ.build n (contentOf w₀.disk n)).isNone) := by
      refine (List.perm_ext_iff_of_nodup hend₂.listed.nodup
        (hend₁.listed.nodup.filter _)).mpr fun n => ?_
      rw [hmem n, List.mem_filter, Option.isNone_iff_eq_none]
    refine perm_of_map_some ?_
    rw [List.map_map, List.map_map]
    change (r₂.files.map fun file => some (timeless file)).Perm
      ((r₁.files.filter (·.status = .fail)).map fun file => some (timeless file))
    rw [filter_failed hreports₁, hreports₂]
    have hsame : (names₂.map fun n => expectedReport σ.build osText false n (contentOf w₁.disk n)) =
        names₂.map fun n => expectedReport σ.build osText false n (contentOf w₀.disk n) :=
      List.map_congr_left fun n hn => by rw [hcontent n hn]
    rw [hsame]
    exact hperm.map _
  · rw [hend₁.ok_iff hfull, hend₂.ok_iff hfull]
    constructor
    · exact fun h n hn hfail => h n ((hmem n).mpr ⟨hn, hfail⟩) (hnone n ((hmem n).mpr ⟨hn, hfail⟩))
    · exact fun h n hn => absurd ((hmem n).mp hn).2 (h n ((hmem n).mp hn).1)
  · by_cases hin : n ∈ names₂
    · have hslimmed := hend₂.slimmed hfull.dryRun hfull.checkOnly n hin
      rw [hnone n hin] at hslimmed
      have hpending := (hend₁.pending_iff hfull hready₁).mpr ((hmem n).mp hin)
      refine ⟨?_, ?_⟩
      · obtain ⟨c, hc⟩ := Option.isSome_iff_exists.mp
          (isFile_eq_isSome_read.symm.trans hpending.isFile)
        rw [hslimmed.1, contentOf, hc]
        rfl
      · have hmarked := isMarked_eq_isSome_read.symm.trans hpending.unmarked
        rw [hslimmed.2]
        exact (Option.not_isSome_iff_eq_none.mp (Bool.eq_false_iff.mp hmarked)).symm
    · have hkept := hend₂.others n hn hin
      exact ⟨hkept.read (hready₁.closed n hn) (.inl rfl),
        hkept.read (hready₁.closed n hn) (.inr rfl)⟩

/-! ### A directory in which one of two captures does not slim -/

/-- A capture and an empty file with a pending name. -/
def partlyFiles (p : Path) : Option Bytes :=
  if p = srcPath ('b' :: dotPcap) then some [] else captureFiles p

/-- The directory before the program is started. -/
def partlyWorld : World Unit := .start partlyFiles (fun _ => 0) 0

theorem partly_cases (h : partlyFiles (srcPath n) ≠ none) :
    n = 'b' :: dotPcap ∨ n = captureName := by
  by_cases hb : n = 'b' :: dotPcap
  · exact .inl hb
  · have hne : srcPath n ≠ srcPath ('b' :: dotPcap) := fun heq => hb (Path.file.inj heq)
    rw [partlyFiles, if_neg hne] at h
    exact .inr (eq_captureName h)

theorem partlyFiles_noSharedTmp : NoSharedTmp partlyFiles := by
  rintro ⟨hshort, -⟩
  rcases partly_cases hshort with h | h <;> exact absurd h (by decide)

theorem partlyFiles_finite : {n | partlyFiles (srcPath n) ≠ none}.Finite :=
  (Set.toFinite {'b' :: dotPcap, captureName}).subset fun _ hn => partly_cases hn

theorem partlyFiles_empty : partlyFiles (srcPath ('b' :: dotPcap)) = some [] := if_pos rfl

theorem partlyFiles_src : partlyFiles (srcPath captureName) = some oneRecordFile := by
  rw [partlyFiles, if_neg (by decide), captureFiles_src]

theorem contentOf_start {κ : Type} {mtime : Ino Path → Time} {now : Time} {content : Bytes}
    (h : files (srcPath n) = some content) :
    contentOf (World.start files mtime now : World κ).disk n = content := by
  change ((FileSystem.ofFiles files).read (srcPath n)).getD [] = content
  rw [FileSystem.read_of_dir (FileSystem.dir_ofFiles h)]
  change (files (srcPath n)).getD [] = content
  rw [h, Option.getD_some]

theorem partly_calm (checkOnly : Bool) : Calm .release checkOnly partlyWorld.disk := by
  intro cutoff n hpending hpanic
  have hn := (sound_start (κ := Unit) partlyFiles (fun _ => 0) 0).known n hpending.isFile
    hpending.name
  rcases partly_cases hn.isFile with rfl | rfl
  · rw [partlyWorld, contentOf_start partlyFiles_empty] at hpanic
    cases checkOnly <;> cases hpanic
  · obtain ⟨output, houtput, -⟩ := oneRecordFile_output
    have hslims := Option.ne_none_iff_exists'.mpr ⟨output, houtput⟩
    obtain ⟨⟨b, stats⟩, hpass⟩ := pass_of_slims checkOnly hslims
    rw [partlyWorld, contentOf_start partlyFiles_src, hpass] at hpanic
    cases hpanic

/-- A run over the directory fails, also one that only checks. -/
theorem partly_fails (hdry : args.dryRun = false) (hage : args.ageMinutes = none)
    (h : SessionEnd .release osText files args partlyWorld.disk fs listedAt names printed result) :
    result ≠ .ok () := by
  rw [Ne, h.result, hdry, or_iff_right Bool.false_ne_true]
  intro hall
  have hcutoff : args.cutoff listedAt = none := by rw [Args.cutoff, hage, Option.map_none]
  have hpending : partlyWorld.disk.Pending (args.cutoff listedAt) ('b' :: dotPcap) := by
    rw [hcutoff]
    exact partlyWorld.disk.pending_none rfl (by decide) rfl
  obtain ⟨r, hpass⟩ := hall _ (h.listed.mem_iff.mpr hpending)
  rw [partlyWorld, contentOf_start partlyFiles_empty] at hpass
  cases hcheck : args.checkOnly with
  | true | false =>
    rw [hcheck] at hpass
    cases hpass

/-- Both runs fail, for the same file. -/
theorem again_only_failed_partly : ∃ (w₁ w₂ : World Unit) (r₁ r₂ : RunReport)
    (result₁ result₂ : Except RunError Unit),
    w₁.processes () = .ended captureArgs (.report r₁) result₁ ∧ result₁ ≠ .ok () ∧
      w₂.processes () = .ended captureArgs (.report r₂) result₂ ∧ result₂ ≠ .ok () ∧
      (r₂.files.map timeless).Perm ((r₁.files.filter (·.status = .fail)).map timeless) := by
  have hfull : captureArgs.Full := ⟨rfl, rfl, rfl, rfl, rfl⟩
  obtain ⟨w₁, printed₁, result₁, hrun₁, hover₁⟩ := exists_session (σ := .quiet .release)
    captureArgs partlyFiles_noSharedTmp partlyFiles_finite
    (.refl : WorldRun _ (fun _ => "") _ partlyWorld partlyWorld) rfl rfl rfl rfl (partly_calm false)
  obtain ⟨hknown₁, hidle₁, _, names₁, -, hend₁⟩ := sessionEnd_of_run (σ := .quiet .release)
    partlyFiles_noSharedTmp (known_start _ _ _ _) rfl rfl rfl hrun₁ hover₁
  obtain ⟨w₂, printed₂, result₂, hrun₂, hover₂⟩ := exists_session (σ := .quiet .release)
    captureArgs partlyFiles_noSharedTmp partlyFiles_finite (worldRun_of_sessionRun .refl rfl rfl hrun₁)
    hidle₁ rfl rfl rfl (hend₁.calm hfull (ready_of_known hknown₁) (partly_calm false))
  obtain ⟨-, -, _, names₂, -, hend₂⟩ := sessionEnd_of_run (σ := .quiet .release)
    partlyFiles_noSharedTmp hknown₁ hidle₁ rfl rfl hrun₂ hover₂
  obtain ⟨r₁, rfl⟩ := hend₁.reported rfl rfl
  obtain ⟨r₂, rfl⟩ := hend₂.reported rfl rfl
  have h := again_only_failed (σ := .quiet .release) partlyFiles_noSharedTmp .refl rfl hfull hrun₁
    hover₁ hrun₂ hover₂
  have hfails := partly_fails rfl rfl hend₁
  exact ⟨w₁, w₂, r₁, r₂, result₁, result₂, hover₁, hfails, hover₂, fun hok => hfails (h.2.1.mp hok),
    h.1 r₁ r₂ rfl rfl⟩

end Again

/-! ## `--check-only` first -/

/-- A run that only checks leaves all files as they are. -/
theorem files_of_check {w₀ w : World Unit} (hcheck : args.checkOnly = true)
    (hrun : SessionRun σ osText (w₀.advance () .idle (.start args)) w) :
    w.disk.files = w₀.disk.files ∧ w.disk.mtime = w₀.disk.mtime := by
  refine (Lib.Run.invariant_of_run (fun w : World Unit =>
      (w.disk.files = w₀.disk.files ∧ w.disk.mtime = w₀.disk.mtime) ∧ (w.processes ()).Looks ∧
        (w.processes ()).args? = some args)
    (fun w w' ⟨hsame, hlooks, hargs⟩ ⟨a, hstep⟩ => ?_) hrun ⟨⟨rfl, rfl⟩, trivial, rfl⟩).1
  cases hstep with
  | tick => exact ⟨hsame, hlooks, hargs⟩
  | act hstep =>
    obtain ⟨rfl, hargs'⟩ := hlooks.idle hargs hcheck hstep
    rw [processes_advance_self]
    exact ⟨hsame, hlooks.step hstep, hargs'⟩

/-- The pending captures depend on the files only, without an age limit. -/
theorem pending_of_files (h : d.files = d₀.files) (hpending : d₀.Pending none n) :
    d.Pending none n := by
  refine d.pending_none ?_ hpending.name ?_
  · rw [Disk.isFile, h]
    exact hpending.isFile
  · rw [Disk.isMarked, h]
    exact hpending.unmarked

/-- Where a call can create a tmp file, a check makes the same pass. -/
theorem passOf_eq (hfile : ¬ TmpIsDir n) (checkOnly : Bool) (content : Bytes) :
    passOf build checkOnly n content = slimPcapToWriter build (display n) content := by
  cases checkOnly with
  | true => rfl
  | false => exact callPass_of_file hfile

/-- The entries are for files in the order of their times on `d`. -/
def InOrder (d : Disk) (r : RunReport) : Prop :=
  ∃ names : List Name, r.files.map FileReport.file = names.map display ∧
    names.Pairwise fun n m => timeLe (d.modified n) (d.modified m) = true

/-- An entry names its file. -/
theorem file_of_expected {checkOnly : Bool} {content : Bytes} {file : FileReport}
    (h : some (timeless file) = expectedReport build osText checkOnly n content) :
    file.file = display n := by
  obtain ⟨result, -, hfile⟩ := returned_of_expected h
  have hname : (timeless file).file =
      (timeless (FileReport.ofResult osText (display n) 0 result)).file :=
    congrArg FileReport.file hfile
  exact hname.trans (ofResult_file _ _ _ _)

theorem SessionEnd.inOrder {r : RunReport} {result : Except RunError Unit}
    (hdry : args.dryRun = false)
    (h : SessionEnd build osText files args d₀ fs listedAt names (.report r) result) :
    InOrder d₀ r := by
  have hentries := h.entries hdry
  rw [← List.forall₂_eq_eq_eq, List.forall₂_map_left_iff, List.forall₂_map_right_iff] at hentries
  refine ⟨names, ?_, h.listed.sorted⟩
  rw [← List.forall₂_eq_eq_eq, List.forall₂_map_left_iff, List.forall₂_map_right_iff]
  exact hentries.imp fun _ _ hfile => file_of_expected hfile

section Predict

variable {mtime : Ino Path → Time} {now : Time} {w₀ w₁ w₂ : World Unit} {args₁ args₂ : Args}
  {printed₁ printed₂ : Printed} {result₁ result₂ : Except RunError Unit}

/-- **`--check-only` predicts the run**: it reports for each file what a run that slims the
whole directory then reports, but for the times, both in the order of the times of the files,
and it fails exactly if that run does. The two follow each other, alone, and nothing fails
in them. `--single` has named captures only, there is no `..pcap`, and `.pcap` and
`.pcap.pcap` are not both there. -/
theorem check_predicts (hshared : NoSharedTmp files)
    (hdots : files (srcPath ('.' :: dotPcap)) = none)
    (hhistory : WorldRun σ osText (captures files) (World.start files mtime now) w₀)
    (hidle : (w₀.processes ()).isOver = true) (hfull : args.Full)
    (hrun₁ : SessionRun (.quiet σ.build) osText
      (w₀.advance () .idle (.start { args with checkOnly := true })) w₁)
    (hover₁ : w₁.processes () = .ended args₁ printed₁ result₁)
    (hrun₂ : SessionRun (.quiet σ.build) osText (w₁.advance () .idle (.start args)) w₂)
    (hover₂ : w₂.processes () = .ended args₂ printed₂ result₂) :
    (∀ r₁ r₂, printed₁ = .report r₁ → printed₂ = .report r₂ →
      (r₁.files.map timeless).Perm (r₂.files.map timeless) ∧
        InOrder w₀.disk r₁ ∧ InOrder w₀.disk r₂) ∧
    (result₁ = .ok () ↔ result₂ = .ok ()) := by
  have hknown₀ := known_of_run hshared (undisturbedRun_of_worldRun hhistory)
  obtain ⟨hfiles, hmtime⟩ := files_of_check rfl hrun₁
  have hdir : ({ args with checkOnly := true } : Args).dir = true := hfull.dir
  have hdry : ({ args with checkOnly := true } : Args).dryRun = false := hfull.dryRun
  obtain ⟨hknown₁, hidle₁, listedAt₁, names₁, -, hend₁⟩ :=
    sessionEnd_of_run hshared hknown₀ hidle hdir hfull.single hrun₁ hover₁
  obtain ⟨-, -, _, names₂, -, hend₂⟩ :=
    sessionEnd_of_run hshared hknown₁ hidle₁ hfull.dir hfull.single hrun₂ hover₂
  have hcontent : ∀ n, contentOf w₁.disk n = contentOf w₀.disk n := fun n => by
    rw [contentOf, hfiles, contentOf]
  have hmodified : w₁.disk.modified = w₀.disk.modified := funext fun n => by
    rw [Disk.modified, hfiles, hmtime, Disk.modified]
  have hmem : ∀ n, n ∈ names₁ ↔ n ∈ names₂ := by
    intro n
    have hcutoff : Args.cutoff { args with checkOnly := true } listedAt₁ = none := by
      rw [Args.cutoff, hfull.ageMinutes, Option.map_none]
    rw [hend₁.listed.mem_iff, hcutoff, hfull.mem_iff hend₂.listed]
    exact ⟨pending_of_files hfiles, pending_of_files hfiles.symm⟩
  have hpass : ∀ n ∈ names₂, ∀ checkOnly, passOf σ.build checkOnly n (contentOf w₀.disk n) =
      slimPcapToWriter σ.build (display n) (contentOf w₀.disk n) := by
    intro n hn checkOnly
    have hpending := hend₂.listed.mem_iff.mp hn
    refine passOf_eq (fun htmp => ?_) checkOnly _
    obtain rfl := (tmpIsDir_iff hpending.name).mp htmp
    exact (hknown₁.inv.sound.known _ hpending.isFile hpending.name).isFile hdots
  refine ⟨?_, ?_⟩
  · rintro r₁ r₂ rfl rfl
    have hordered := hend₂.inOrder hfull.dryRun
    rw [InOrder, hmodified] at hordered
    refine ⟨perm_of_map_some ?_, hend₁.inOrder hdry, hordered⟩
    have hperm : names₁.Perm names₂ :=
      (List.perm_ext_iff_of_nodup hend₁.listed.nodup hend₂.listed.nodup).mpr hmem
    have hsame : (names₂.map fun n => expectedReport σ.build osText true n (contentOf w₀.disk n)) =
        names₂.map fun n => expectedReport σ.build osText args.checkOnly n (contentOf w₀.disk n) :=
      List.map_congr_left fun n hn => by
        rw [expectedReport, expectedReport, hpass n hn, hpass n hn]
    rw [List.map_map, List.map_map]
    change (r₁.files.map fun file => some (timeless file)).Perm
      (r₂.files.map fun file => some (timeless file))
    rw [hend₁.entries hdry, hend₂.entries hfull.dryRun]
    simp only [hcontent]
    rw [← hsame]
    exact hperm.map _
  · rw [hend₁.result, hend₂.result]
    simp only [hcontent, hmem]
    exact or_congr_right (forall₂_congr fun n hn => by rw [hpass n hn, hpass n hn])

/-- Both runs fail, for the same file. -/
theorem check_predicts_partly : ∃ (w₁ w₂ : World Unit) (r₁ r₂ : RunReport)
    (result₁ result₂ : Except RunError Unit),
    w₁.processes () = .ended { captureArgs with checkOnly := true } (.report r₁) result₁ ∧
      result₁ ≠ .ok () ∧ w₂.processes () = .ended captureArgs (.report r₂) result₂ ∧
      result₂ ≠ .ok () ∧ (r₁.files.map timeless).Perm (r₂.files.map timeless) := by
  have hfull : captureArgs.Full := ⟨rfl, rfl, rfl, rfl, rfl⟩
  obtain ⟨w₁, printed₁, result₁, hrun₁, hover₁⟩ := exists_session (σ := .quiet .release)
    { captureArgs with checkOnly := true } partlyFiles_noSharedTmp partlyFiles_finite
    (.refl : WorldRun _ (fun _ => "") _ partlyWorld partlyWorld) rfl rfl rfl rfl (partly_calm true)
  obtain ⟨hknown₁, hidle₁, _, names₁, -, hend₁⟩ := sessionEnd_of_run (σ := .quiet .release)
    partlyFiles_noSharedTmp (known_start _ _ _ _) rfl rfl rfl hrun₁ hover₁
  have hcalm : Calm .release false w₁.disk := by
    intro cutoff n hpending
    have hfiles := (files_of_check rfl hrun₁).1
    rw [contentOf, hfiles]
    exact partly_calm false none n (pending_of_files hfiles.symm hpending.any_age)
  obtain ⟨w₂, printed₂, result₂, hrun₂, hover₂⟩ := exists_session (σ := .quiet .release)
    captureArgs partlyFiles_noSharedTmp partlyFiles_finite (worldRun_of_sessionRun .refl rfl rfl hrun₁)
    hidle₁ rfl rfl rfl hcalm
  obtain ⟨-, -, _, names₂, -, hend₂⟩ := sessionEnd_of_run (σ := .quiet .release)
    partlyFiles_noSharedTmp hknown₁ hidle₁ rfl rfl hrun₂ hover₂
  obtain ⟨r₁, rfl⟩ := hend₁.reported rfl rfl
  obtain ⟨r₂, rfl⟩ := hend₂.reported rfl rfl
  have h := check_predicts (σ := .quiet .release) partlyFiles_noSharedTmp rfl .refl rfl hfull hrun₁
    hover₁ hrun₂ hover₂
  have hfails := partly_fails rfl rfl hend₁
  exact ⟨w₁, w₂, r₁, r₂, result₁, result₂, hover₁, hfails, hover₂, fun hok => hfails (h.2.mpr hok),
    (h.1 r₁ r₂ rfl rfl).1⟩

end Predict

end PcapSlim.Cli
