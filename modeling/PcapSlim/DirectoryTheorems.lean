/-
PcapSlim.DirectoryTheorems — a directory in which captures are slimmed, cleaned up
after, listed and checked.

What is known of one capture depends on its own paths and on the inodes created
there, so that it survives whatever others do elsewhere (`FileInv.of_agree`,
`WorkerInv.of_agree`, `CallInv.of_agree`). `cleanup_stale_tmp` removes tmp files and
nothing else (`clean_cases`), so that a capture stays sound at any moment of it. The loop
of `list_pending_pcaps` finds what `Pending` says (`Lister.Exact.step`), and a call of
`check_file` ends as the pass over its file does (`checkInv_step`), so as the call of
`slim_file_in_place` would but for `..pcap`.
-/
import PcapSlim.AnalyzeTheorems
import PcapSlim.CoordDirectoryTheorems
import PcapSlim.Directory

namespace PcapSlim.Coord

open Lib.Octets Lib.Files PcapIo Capture

variable {σ : Setting} {build : Build} {n m : Name} {source : Bytes} {fs fs' : FileSystem Path}

/-! ## One capture, whatever happens elsewhere -/

section Agree

variable (hagree : AgreeOn (paths n) fs' fs)
include hagree

theorem Complete.of_agree (h : Complete build n source fs) : Complete build n source fs' := by
  obtain ⟨hpassed, i, hdir, horigin, hdata⟩ := h
  refine ⟨hpassed, i, ?_, horigin, ?_⟩
  · rw [hagree.dir _ (srcPath_mem n), hdir]
  · rw [hagree.data i (horigin ▸ tmpPath_mem n), hdata]

theorem FileInv.of_agree (h : FileInv build n source fs) : FileInv build n source fs' := by
  have hsrc := hagree.dir _ (srcPath_mem n)
  refine ⟨fun j hj c hc => ?_, ?_, fun j hj => ?_, fun j hj => ?_⟩
  · rw [hagree.data j (hj ▸ srcPath_mem n)] at hc
    exact h.kept j hj c hc
  · rw [hsrc]
    exact h.src.imp id (Complete.of_agree hagree)
  · rw [hagree.dir _ (tmpPath_mem n)] at hj
    rw [hsrc]
    exact h.tmp j hj
  · rw [hagree.dir _ (markerPath_mem n)] at hj
    obtain ⟨horigin, hdata, hcomplete⟩ := h.marker j hj
    exact ⟨horigin, by rw [hagree.data j (horigin ▸ markerPath_mem n), hdata],
      hcomplete.of_agree hagree⟩

theorem HoldsPart.of_agree {j : Ino Path} {part : Bytes} (h : HoldsPart build n source fs j part) :
    HoldsPart build n source fs' j part :=
  ⟨h.origin, by rw [hagree.data j (h.origin ▸ tmpPath_mem n), h.data], h.part⟩

theorem TmpPart.of_agree (h : TmpPart build n source fs) : TmpPart build n source fs' := by
  refine ⟨h.isFile, fun j hj => ?_⟩
  rw [hagree.dir _ (tmpPath_mem n)] at hj
  obtain ⟨part, hpart⟩ := h.part j hj
  exact ⟨part, hpart.of_agree hagree⟩

theorem Reads.of_agree {inp : Ino Path} {input : Bytes} (h : Reads build n source fs inp input) :
    Reads build n source fs' inp input := by
  rcases h with hsource | ⟨htmp, hpassed, hpart, hstart⟩
  · exact .inl hsource
  · refine .inr ⟨?_, hpassed, hpart.of_agree hagree, hstart⟩
    rwa [hagree.dir _ (tmpPath_mem n)]

/-- What a call relies on is at the paths of its file. -/
theorem WorkerInv.of_agree {w : Worker} (h : WorkerInv build n source fs w) :
    WorkerInv build n source fs' w := by
  have htmp := hagree.dir _ (tmpPath_mem n)
  have hmarker := hagree.dir _ (markerPath_mem n)
  cases w with
  | check | create | cleanup _ => trivial
  | stat out | openSrc out _ =>
    obtain ⟨hpart, part, hout⟩ := h
    exact ⟨hpart.of_agree hagree, part, hout.of_agree hagree⟩
  | copy out inp inBytes input written =>
    obtain ⟨hpart, hreads, part, hout, hwritten⟩ := h
    exact ⟨hpart.of_agree hagree, hreads.of_agree hagree, part, hout.of_agree hagree, hwritten⟩
  | statTmp stats | openTmp stats =>
    obtain ⟨hpart, hpassed⟩ := h
    exact ⟨hpart.of_agree hagree, hpassed⟩
  | count inp input stats =>
    obtain ⟨hpassed, ⟨part, hpart, hstart⟩, hinp⟩ := h
    refine ⟨hpassed, ⟨part, hpart.of_agree hagree, hstart⟩, fun j hj => hinp j ?_⟩
    rwa [← htmp]
  | rename stats =>
    obtain ⟨hpassed, hall⟩ := h
    refine ⟨hpassed, fun j hj => (hall j ?_).of_agree hagree⟩
    rwa [← htmp]
  | makeMarkerDir stats | writeMarker stats => exact Complete.of_agree hagree h
  | chmodMarker stats =>
    obtain ⟨hcomplete, hmark⟩ := h
    exact ⟨hcomplete.of_agree hagree, by rwa [hmarker]⟩
  | done outcome =>
    intro r hr
    obtain ⟨hcomplete, hmark⟩ := h r hr
    exact ⟨hcomplete.of_agree hagree, by rwa [hmarker]⟩

end Agree

section AgreeClosed

variable (hclosed : Closed (paths n) fs) (hagree : AgreeOn (paths n) fs' fs)
  {i : Ino Path} {content : Bytes}
include hclosed hagree

theorem Untouched.of_agree (h : Untouched n i content fs) : Untouched n i content fs' := by
  have horigin := hclosed _ (srcPath_mem n) i h.src
  refine ⟨?_, ?_, ?_, ?_⟩
  · rw [hagree.dir _ (srcPath_mem n), h.src]
  · rw [hagree.data i horigin, h.data]
  · rw [hagree.dir _ (tmpPath_mem n)]
    exact h.tmp
  · rw [hagree.dir _ (markerPath_mem n), h.marker]

theorem HasTmp.of_agree {out : Ino Path} {written : Bytes} (h : HasTmp n out written fs) :
    HasTmp n out written fs' :=
  ⟨h.isFile, by rw [hagree.dir _ (tmpPath_mem n), h.dir],
    by rw [hagree.data out (hclosed _ (tmpPath_mem n) out h.dir), h.data]⟩

theorem Replaced.of_agree {output : Bytes} (h : Replaced n output fs) : Replaced n output fs' := by
  obtain ⟨j, hdir, hdata⟩ := h.src
  exact ⟨j, by rw [hagree.dir _ (srcPath_mem n), hdir],
    by rw [hagree.data j (hclosed _ (srcPath_mem n) j hdir), hdata]⟩

theorem Finished.of_agree {outcome : Outcome} (h : Finished build n content fs outcome) :
    Finished build n content fs' outcome := by
  have hclosed' := hclosed.of_agree hagree
  refine ⟨h.outcome, ?_, ?_⟩
  · rw [hagree.read hclosed' (srcPath_mem n), h.src]
  · rw [hagree.read hclosed' (markerPath_mem n), h.marker]

/-- A call that has the files of its capture to itself has them while others act elsewhere. -/
theorem CallInv.of_agree {w : Worker} (h : CallInv build n i content fs w) :
    CallInv build n i content fs' w := by
  cases w with
  | check | create => exact Untouched.of_agree hclosed hagree h
  | stat out =>
    obtain ⟨hsrc, htmp⟩ := h
    exact ⟨hsrc.of_agree hclosed hagree, htmp.of_agree hclosed hagree⟩
  | openSrc out inBytes =>
    obtain ⟨hsrc, htmp, hin⟩ := h
    exact ⟨hsrc.of_agree hclosed hagree, htmp.of_agree hclosed hagree, hin⟩
  | copy out inp inBytes input written =>
    obtain ⟨hsrc, hinp, hin, hstart, hwritten, htmp⟩ := h
    exact ⟨hsrc.of_agree hclosed hagree, hinp, hin, hstart, hwritten, htmp.of_agree hclosed hagree⟩
  | statTmp stats =>
    obtain ⟨hsrc, b, out, hslim, htmp⟩ := h
    exact ⟨hsrc.of_agree hclosed hagree, b, out, hslim, htmp.of_agree hclosed hagree⟩
  | openTmp stats | rename stats =>
    obtain ⟨hsrc, b, stats', out, hslim, hstats, htmp⟩ := h
    exact ⟨hsrc.of_agree hclosed hagree, b, stats', out, hslim, hstats,
      htmp.of_agree hclosed hagree⟩
  | count inp input stats =>
    obtain ⟨hsrc, b, stats', hslim, hstats, htmp, hstart⟩ := h
    exact ⟨hsrc.of_agree hclosed hagree, b, stats', hslim, hstats, htmp.of_agree hclosed hagree,
      hstart⟩
  | makeMarkerDir stats | writeMarker stats =>
    obtain ⟨hmarker, b, stats', hslim, hstats, hreplaced⟩ := h
    exact ⟨by rw [hagree.dir _ (markerPath_mem n), hmarker], b, stats', hslim, hstats,
      hreplaced.of_agree hclosed hagree⟩
  | chmodMarker stats =>
    obtain ⟨hmarker, b, stats', hslim, hstats, hreplaced⟩ := h
    refine ⟨?_, b, stats', hslim, hstats, hreplaced.of_agree hclosed hagree⟩
    rw [hagree.read (hclosed.of_agree hagree) (markerPath_mem n), hmarker]
  | cleanup error =>
    obtain ⟨hsrc, herr⟩ := h
    exact ⟨hsrc.of_agree hclosed hagree, herr⟩
  | done outcome => exact Finished.of_agree hclosed hagree h

end AgreeClosed

/-! ## `cleanup_stale_tmp` -/

variable {cutoff : Time} {d : Disk} {a : Action Path}

/-- What is about to be removed is a tmp file. -/
def Cleaner.Sound : Cleaner → Prop
  | .remove name _ _ => dotPcapTmp.isSuffixOf name = true
  | _ => True

theorem Cleaner.Sound.step {c c' : Cleaner} (hstep : CleanerStep σ cutoff d c a c') : c'.Sound := by
  cases hstep with
  | stale hname => exact hname
  | other | gone | young | removed | vanished | done | unread | kept => trivial

/-- It removes tmp files and does nothing else. -/
theorem Cleaner.Sound.action {c c' : Cleaner} (h : c.Sound) (hstep : CleanerStep σ cutoff d c a c') :
    a = .idle ∨ ∃ m, dotPcapTmp.isSuffixOf m = true ∧ a = .remove (srcPath m) := by
  cases hstep with
  | removed => exact .inr ⟨_, h, rfl⟩
  | other | gone | young | stale | vanished | done | unread | kept => exact .inl rfl

/-- A tmp file is the one of the capture `n`, or no file of `n` at all. -/
theorem tmp_or_elsewhere (hn : isPendingName n = true) (hm : dotPcapTmp.isSuffixOf m = true) :
    srcPath m = tmpPath n ∨ ∀ p ∈ paths n, p ∉ ({srcPath m} : Set Path) := by
  by_cases htmp : srcPath m = tmpPath n
  · exact .inl htmp
  refine .inr fun p hp hpm => ?_
  cases hpm
  rcases hp with hsrc | hsame | hmarker
  · cases Path.file.inj hsrc
    rw [isPendingName, hm, Bool.not_true, Bool.and_false] at hn
    cases hn
  · exact htmp hsame
  · cases hmarker

/-- What the cleaner does to the files of the capture `n`: nothing, or it removes the tmp
file. -/
theorem clean_cases (hn : isPendingName n = true) {c c' : Cleaner} (hc : c.Sound)
    (hstep : CleanerStep σ cutoff d c a c') (fs : FileSystem Path) :
    a = .remove (tmpPath n) ∨ AgreeOn (paths n) (fs.apply a) fs := by
  rcases hc.action hstep with rfl | ⟨m, hm, rfl⟩
  · exact .inr .rfl
  · rcases tmp_or_elsewhere hn hm with htmp | helsewhere
    · exact .inl (by rw [htmp])
    · exact .inr (agreeOn_apply helsewhere fs rfl)

/-! ## `list_pending_pcaps` -/

/-- The captures that are to be slimmed: the files with a pending name that are old enough
and have no marker. -/
structure Disk.Pending (d : Disk) (cutoff : Option Time) (n : Name) : Prop where
  isFile : d.isFile n = true
  name : isPendingName n = true
  old : ∀ c, cutoff = some c → ∃ t, d.modified n = some t ∧ t ≤ c
  unmarked : d.isMarked n = false

/-- Without an age limit any time is old enough. -/
theorem Disk.pending_none (hfile : d.isFile n = true) (hname : isPendingName n = true)
    (hunmarked : d.isMarked n = false) : d.Pending none n :=
  ⟨hfile, hname, nofun, hunmarked⟩

theorem Disk.Pending.any_age {cutoff : Option Time} (h : d.Pending cutoff n) : d.Pending none n :=
  d.pending_none h.isFile h.name h.unmarked

/-- What the loop body pushes. -/
theorem listEntry_eq_ok {cutoff : Option Time} {isFile isMarked pushed : Bool}
    {modified : Option Time} (h : listEntry cutoff n isFile modified isMarked = .ok pushed) :
    pushed = true ↔ isFile = true ∧ isPendingName n = true ∧
      (∀ c, cutoff = some c → ∃ t, modified = some t ∧ t ≤ c) ∧ isMarked = false := by
  unfold listEntry at h
  cases isFile with
  | false =>
    cases h
    simp
  | true =>
    cases hname : isPendingName n with
    | false =>
      rw [hname] at h
      cases h
      simp
    | true =>
      rw [hname] at h
      cases cutoff with
      | none =>
        cases h
        simp
      | some c =>
        cases modified with
        | none => cases h
        | some t =>
          by_cases hyoung : c < t
          · simp only [Bool.not_true, Bool.false_eq_true, if_false, hyoung, if_true] at h
            cases h
            simp [Int.not_le.mpr hyoung]
          · simp only [Bool.not_true, Bool.false_eq_true, if_false, hyoung] at h
            cases h
            simp [Int.not_lt.mp hyoung]

/-- Every file can be looked at. -/
theorem listEntry_ne_error {cutoff : Option Time} {isMarked : Bool} {e : IoError} :
    listEntry cutoff n (d.isFile n) (d.modified n) isMarked ≠ .error e := by
  unfold listEntry Disk.isFile Disk.modified
  cases d.files.dir (srcPath n) with
  | none => simp
  | some j =>
    cases cutoff with
    | none => cases isPendingName n <;> simp
    | some c =>
      cases isPendingName n with
      | false => simp
      | true =>
        simp only [Option.isSome_some, Bool.not_true, Bool.false_eq_true, if_false, Option.map_some]
        split <;> simp

theorem Disk.pending_iff {cutoff : Option Time} : d.Pending cutoff n ↔
    listEntry cutoff n (d.isFile n) (d.modified n) (d.isMarked n) = .ok true := by
  cases h : listEntry cutoff n (d.isFile n) (d.modified n) (d.isMarked n) with
  | error e => exact absurd h listEntry_ne_error
  | ok pushed =>
    have hiff := listEntry_eq_ok h
    rw [Except.ok.injEq, hiff]
    exact ⟨fun h => ⟨h.isFile, h.name, h.old, h.unmarked⟩, fun ⟨hf, hn, ho, hu⟩ => ⟨hf, hn, ho, hu⟩⟩

instance (cutoff : Option Time) : DecidablePred (d.Pending cutoff) := fun _ =>
  decidable_of_iff' _ Disk.pending_iff

/-- What is found is a list of captures without duplicates, for any notion of a capture. -/
def Lister.Sound (capture : Name → Prop) : Lister → Prop
  | .entries todo found => (found ++ todo).Nodup ∧ ∀ n ∈ found, capture n
  | .done (.ok files) => files.Nodup ∧ ∀ n ∈ files, capture n
  | .done (.error _) => True

/-- Where nothing fails, `is_file` and `exists` say what is. -/
theorem Answers.eq {answer actual : Bool} (h : Answers σ answer actual) (hfaults : σ.faults = false) :
    answer = actual := by
  rcases h with heq | ⟨hfault, -⟩
  · exact heq
  · rw [hfaults] at hfault
    cases hfault

theorem perm_sortByKey (key : Name → Option Time) (files : List Name) :
    (sortByKey key files).Perm files :=
  List.mergeSort_perm _ _

theorem Lister.Sound.step {capture : Name → Prop} {cutoff : Option Time} {l l' : Lister}
    (hcapture : ∀ n, d.isFile n = true → isPendingName n = true → capture n)
    (h : l.Sound capture) (hstep : ListerStep σ cutoff d l l') : l'.Sound capture := by
  cases hstep with
  | @entry n todo found isFile isMarked pushed hfile hmarked hpushed =>
    obtain ⟨hnodup, hfound⟩ := h
    cases pushed with
    | false => exact ⟨hnodup.sublist ((List.sublist_cons_self _ _).append_left found), hfound⟩
    | true =>
      obtain ⟨hthere, hname, -⟩ := (listEntry_eq_ok hpushed).mp rfl
      have hactual : d.isFile n = true := by
        rcases hfile with heq | ⟨-, hno⟩
        · rw [← heq, hthere]
        · rw [hno] at hthere
          cases hthere
      rw [List.append_cons] at hnodup
      refine ⟨hnodup, fun m hm => ?_⟩
      rcases List.mem_append.mp hm with hm | hm
      · exact hfound m hm
      · rw [List.mem_singleton.mp hm]
        exact hcapture n hactual hname
  | sort key =>
    obtain ⟨hnodup, hfound⟩ := h
    rw [List.append_nil] at hnodup
    have hperm := perm_sortByKey key
    exact ⟨(hperm _).nodup_iff.mpr hnodup, fun n hn => hfound n ((hperm _).mem_iff.mp hn)⟩
  | entryError | fail => trivial

/-- The loop over `entries` on a disk that nobody changes: it has found the pending captures
among the entries that it has looked at. -/
def Lister.Exact (d : Disk) (cutoff : Option Time) (entries : List Name) : Lister → Prop
  | .entries todo found => ∃ seen, entries = seen ++ todo ∧
      found = seen.filter fun n => decide (d.Pending cutoff n)
  | .done (.ok files) =>
      files = sortByKey d.modified (entries.filter fun n => decide (d.Pending cutoff n))
  | .done (.error _) => False

theorem Lister.Exact.step (hfaults : σ.faults = false) {cutoff : Option Time} {entries : List Name}
    {l l' : Lister} (h : l.Exact d cutoff entries) (hstep : ListerStep σ cutoff d l l') :
    l'.Exact d cutoff entries := by
  cases hstep with
  | @entry n todo found isFile isMarked pushed hfile hmarked hpushed =>
    obtain ⟨seen, hentries, hfound⟩ := h
    refine ⟨seen ++ [n], by rw [hentries, List.append_assoc, List.singleton_append], ?_⟩
    rw [hfile.eq hfaults, hmarked.eq hfaults] at hpushed
    have hdecide : decide (d.Pending cutoff n) = pushed := by
      rw [Bool.eq_iff_iff, decide_eq_true_iff, Disk.pending_iff, hpushed, Except.ok.injEq]
    rw [List.filter_append, ← hfound, List.filter_singleton, hdecide]
    cases pushed <;> simp
  | entryError hfile hpushed =>
    rw [hfile.eq hfaults] at hpushed
    exact absurd hpushed listEntry_ne_error
  | sort key hkey =>
    obtain ⟨seen, hentries, hfound⟩ := h
    have hsame : key = d.modified := funext fun n => (hkey n).resolve_right fun ⟨hfault, _⟩ => by
      rw [hfaults] at hfault
      cases hfault
    rw [List.append_nil] at hentries
    rw [Lister.Exact, hsame, hfound, hentries]
  | fail e hfault =>
    rw [hfaults] at hfault
    cases hfault

/-! ## `check_file` -/

/-- The dry run of a source that is rejected or stops the program. -/
theorem analyzePcap_eq_error {path : String} {input : Bytes} {failure : Failure} :
    analyzePcap build path input = .error failure ↔
      slimPcapToWriter build path input = .error failure := by
  rw [analyzePcap_eq, slimPcap]
  cases slimPcapToWriter build path input with
  | error e =>
    constructor
    · intro h
      cases h
      rfl
    · intro h
      cases h
      rfl
  | ok r =>
    constructor
    · intro h
      cases h
    · intro h
      cases h

/-- How a call of `check_file` for a file without a marker ends when nothing goes wrong. -/
def checkOutcome (build : Build) (n : Name) (content : Bytes) : Outcome :=
  .ofPass (slimPcapToWriter build (display n) content)

/-- The dry run finds the sizes that the pass has. -/
theorem checkOutcome_of_analyze {content : Bytes} {stats : SlimStats}
    (h : analyzePcap build (display n) content = .ok stats) :
    checkOutcome build n content = .slimmed { stats with inBytes := content.length } := by
  rw [analyzePcap_eq, slimPcap] at h
  unfold checkOutcome
  cases hslim : slimPcapToWriter build (display n) content with
  | error e =>
    rw [hslim] at h
    cases h
  | ok r =>
    obtain ⟨b, stats'⟩ := r
    rw [hslim] at h
    cases h
    rw [Outcome.ofPass, ← inBytes_slimmed hslim]

/-- What holds at each place of a call that found no marker, with the files at rest. -/
def CheckInv (build : Build) (n : Name) (i : Ino Path) (content : Bytes) : Checker → Prop
  | .check | .stat => True
  | .openSrc inBytes => inBytes = content.length
  | .analyze inp inBytes input => inp = i ∧ inBytes = content.length ∧ input <+: content
  | .done outcome => outcome = checkOutcome build n content

/-- The file that a call has to find is there. -/
theorem Checker.ne_none_of_needs {i : Ino Path} {content : Bytes} {c : Checker} {p : Path}
    (hsrc : Untouched n i content fs) (hneeds : c.needs n = some p) : fs.dir p ≠ none := by
  have hp : p = srcPath n := by
    cases c with
    | stat | openSrc => exact (Option.some.inj hneeds).symm
    | check | analyze | done => cases hneeds
  rw [hp, hsrc.src]
  exact Option.some_ne_none i

/-- **A call of `check_file` ends as the pass over its file does.** -/
theorem checkInv_step (hfaults : σ.faults = false) {i : Ino Path} {content : Bytes} {c c' : Checker}
    (hsrc : Untouched n i content fs) (hinv : CheckInv σ.build n i content c)
    (hstep : CheckerStep σ n fs c c') : CheckInv σ.build n i content c' := by
  cases hstep with
  | marked h => exact absurd hsrc.marker h
  | unmarked => trivial
  | stat hdir hdata =>
    cases hsrc.src.symm.trans hdir
    cases hsrc.data.symm.trans hdata
    rfl
  | openSrc hdir =>
    cases hsrc.src.symm.trans hdir
    exact ⟨rfl, hinv, List.nil_prefix⟩
  | readSrc k hdata hmore hk =>
    obtain ⟨rfl, hin, hstart⟩ := hinv
    cases hsrc.data.symm.trans hdata
    exact ⟨rfl, hin, read_prefix hstart k⟩
  | analyzePanic h =>
    obtain ⟨-, -, hstart⟩ := hinv
    obtain ⟨fault, hfault⟩ := slimPcapToWriter_panic_mono hstart (analyzePcap_eq_error.mp h)
    rw [CheckInv, checkOutcome, hfault, Outcome.ofPass]
  | analyzeError hdata hdetects h =>
    obtain ⟨rfl, -, hstart⟩ := hinv
    cases hsrc.data.symm.trans hdata
    rw [CheckInv, checkOutcome, slim_of_detects hstart hdetects (analyzePcap_eq_error.mp h),
      Outcome.ofPass]
  | analyzeDone hdata hend h =>
    obtain ⟨rfl, rfl, hstart⟩ := hinv
    cases hsrc.data.symm.trans hdata
    cases hstart.eq_of_length_le hend
    rw [CheckInv, checkOutcome_of_analyze h]
  | missing hneeds hgone => exact absurd hgone (Checker.ne_none_of_needs hsrc hneeds)
  | fail e h => rw [hfaults] at h; cases h

end PcapSlim.Coord
