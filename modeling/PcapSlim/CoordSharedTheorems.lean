/-
PcapSlim.CoordSharedTheorems — calls of `slim_file_in_place` for one file, one after
the other or at the same time.

All calls create the same tmp file and write the same bytes into it, the output
for the source that was there at the start. `FileInv` says what the files hold at
any time and `WorkerInv` what each call may rely on. `Allowed` lists what a call
that keeps to `WorkerInv` can do to the files (`allowed_of_step`), and everything
else is proved once for each of these actions: `FileInv.apply`, and
`WorkerInv.apply` for the calls that look on.

One action does not fit. `create` empties the tmp file, also while another call
has written a part of it, has counted it, or is about to rename it (`relies`).
In runs without such a step no call ever harms the source (`intact_of_run`); with
it the source can end up empty (`renames_emptied_tmp`). One call at a time is
always safe, wherever it is cut off and however often it is made again
(`crash_safe`).
-/
import PcapSlim.CoordTheorems

namespace PcapSlim.Coord

open Lib.Octets Lib.Files Packet PcapIo Capture

variable {σ : Setting} {n : Name} {fs : FileSystem Path} {source : Bytes}

/-! ## Sources that slim -/

/-- A call for `content` gets through its pass and finds `inPkts` packets. -/
def Passed (build : Build) (n : Name) (content : Bytes) (inPkts : Nat) : Prop :=
  ∃ b stats, callPass build n content = .ok (b, stats) ∧ stats.inPkts = inPkts

section Passed

variable {build : Build} {content : Bytes} {k : Nat} (h : Passed build n content k)
include h

theorem Passed.output : slimOutput build n content = some (emittedFor build content) := by
  obtain ⟨b, stats, h, -⟩ := h
  rw [slimOutput, h, emittedFor_of_slims (callPass_eq_ok h).2]

theorem Passed.unique {k' : Nat} (h' : Passed build n content k') : k = k' := by
  obtain ⟨b, stats, h, rfl⟩ := h
  obtain ⟨b', stats', h', rfl⟩ := h'
  rw [h] at h'
  cases h'
  rfl

/-- The output slims to itself, with as many packets. -/
theorem Passed.again : emittedFor build (emittedFor build content) = emittedFor build content ∧
    Passed build n (emittedFor build content) k := by
  obtain ⟨b, stats, h, rfl⟩ := h
  obtain ⟨hfile, hslims⟩ := callPass_eq_ok h
  obtain ⟨c, rfl, hreturns, -, -, rfl⟩ := slimPcapToWriter_eq_ok hslims
  obtain ⟨hslim, -, hreturns'⟩ := PcapFile.slim_slim hreturns
  obtain ⟨b', hb', -⟩ := slimPcapToWriter_file (display n) (c.slim build) hreturns'
  rw [emittedFor_file hreturns]
  refine ⟨by rw [emittedFor_file hreturns', hslim], b', _, (callPass_of_file hfile).trans hb', ?_⟩
  rw [statsOf, statsOf, PcapFile.slim, List.length_map]

/-- A part of the output with all the packets is the output. -/
theorem Passed.complete {path : String} {part : Bytes} (hstart : part <+: emittedFor build content)
    (hcount : countPackets path part = .ok k) : part = emittedFor build content := by
  obtain ⟨b, stats, h, rfl⟩ := h
  have hslims := (callPass_eq_ok h).2
  rw [emittedFor_of_slims hslims] at hstart ⊢
  exact eq_of_prefix_of_count hslims hstart hcount

end Passed

theorem slimOutput_eq_some {build : Build} {content output : Bytes}
    (h : slimOutput build n content = some output) :
    output = emittedFor build content ∧ ∃ k, Passed build n content k := by
  unfold slimOutput at h
  split at h
  · rename_i b stats hpass
    cases h
    exact ⟨(emittedFor_of_slims (callPass_eq_ok hpass).2).symm, _, b, stats, hpass, rfl⟩
  · cases h

theorem slimOutput_eq_none {build : Build} {content : Bytes}
    (h : slimOutput build n content = none) (k : Nat) : ¬ Passed build n content k := by
  intro hpassed
  rw [hpassed.output] at h
  cases h

/-! ## The files -/

section Invariant

variable (build : Build) (n : Name) (source : Bytes) (fs : FileSystem Path)

/-- The source has been replaced by its complete output. -/
def Complete : Prop :=
  (∃ k, Passed build n source k) ∧ ∃ i, fs.dir (srcPath n) = some i ∧ i.origin = tmpPath n ∧
    fs.data i = some (emittedFor build source)

/-- What the files hold at any time. -/
structure FileInv : Prop where
  /-- Nobody writes into the inode that was the source at the start. -/
  kept : ∀ j, j.origin = srcPath n → ∀ c, fs.data j = some c → c = source
  src : (∃ i, fs.dir (srcPath n) = some i ∧ i.origin = srcPath n) ∨ Complete build n source fs
  tmp : ∀ j, fs.dir (tmpPath n) = some j → j.origin = tmpPath n ∧ fs.dir (srcPath n) ≠ some j
  marker : ∀ j, fs.dir (markerPath n) = some j →
    j.origin = markerPath n ∧ fs.data j = some [] ∧ Complete build n source fs

/-- The inode `j` was created as the tmp file and holds `part`, a part of the output. -/
structure HoldsPart (j : Ino Path) (part : Bytes) : Prop where
  origin : j.origin = tmpPath n
  data : fs.data j = some part
  part : part <+: emittedFor build source

/-- There can be a tmp file, and if there is one, it holds a part of the output. -/
structure TmpPart : Prop where
  isFile : ¬ TmpIsDir n
  part : ∀ j, fs.dir (tmpPath n) = some j → ∃ part, HoldsPart build n source fs j part

/-- Reading from the inode `inp` and having read `input`: it is the source, or an
output that has taken its place. -/
def Reads (inp : Ino Path) (input : Bytes) : Prop :=
  (inp.origin = srcPath n ∧ input <+: source) ∨
    (fs.dir (tmpPath n) ≠ some inp ∧ (∃ k, Passed build n source k) ∧
      HoldsPart build n source fs inp (emittedFor build source) ∧ input <+: emittedFor build source)

/-- What a call can rely on. -/
def WorkerInv : Worker → Prop
  | .check | .create | .cleanup _ => True
  | .stat out | .openSrc out _ =>
      TmpPart build n source fs ∧ ∃ part, HoldsPart build n source fs out part
  | .copy out inp _ input written =>
      TmpPart build n source fs ∧ Reads build n source fs inp input ∧
        ∃ part, HoldsPart build n source fs out part ∧ written ≤ part.length
  | .statTmp stats | .openTmp stats =>
      TmpPart build n source fs ∧ Passed build n source stats.inPkts
  | .count inp input stats =>
      Passed build n source stats.inPkts ∧
        (∃ part, HoldsPart build n source fs inp part ∧ input <+: part) ∧
        ∀ j, fs.dir (tmpPath n) = some j → j = inp
  | .rename stats =>
      Passed build n source stats.inPkts ∧ ∀ j, fs.dir (tmpPath n) = some j →
        HoldsPart build n source fs j (emittedFor build source)
  | .makeMarkerDir _ | .writeMarker _ => Complete build n source fs
  | .chmodMarker _ => Complete build n source fs ∧ fs.dir (markerPath n) ≠ none
  | .done outcome =>
      ∀ r, outcome = .returned (.ok r) → Complete build n source fs ∧ fs.dir (markerPath n) ≠ none

/-- What a call can do to the files. -/
inductive Allowed : Action Path → Prop
  | idle : Allowed .idle
  | create {j} (h : fs.CanCreate (tmpPath n) j) : Allowed (.create (tmpPath n) j)
  | mark {j} (h : fs.CanCreate (markerPath n) j) (hcomplete : Complete build n source fs) :
      Allowed (.create (markerPath n) j)
  | write {out off bytes part} (hpart : HoldsPart build n source fs out part)
      (hoff : off ≤ part.length) (hbytes : bytes <+: (emittedFor build source).drop off) :
      Allowed (.write out off bytes)
  | rename {j k} (h : fs.dir (tmpPath n) = some j) (hpassed : Passed build n source k)
      (hpart : HoldsPart build n source fs j (emittedFor build source)) :
      Allowed (.rename (tmpPath n) (srcPath n))
  | remove : Allowed (.remove (tmpPath n))

end Invariant

/-! ## What an allowed action changes -/

section Apply

variable {build : Build} {a : Action Path}

/-- The action opens the tmp file and empties it. -/
def Empties (n : Name) (a : Action Path) : Prop := ∃ j, a = .create (tmpPath n) j

theorem FileInv.origin_of_create (hfile : FileInv build n source fs) {j : Ino Path}
    (h : fs.CanCreate (tmpPath n) j) : j.origin = tmpPath n := by
  rcases h with h | ⟨-, h, -⟩
  · exact (hfile.tmp j h).1
  · exact h

theorem FileInv.origin_of_mark (hfile : FileInv build n source fs) {j : Ino Path}
    (h : fs.CanCreate (markerPath n) j) : j.origin = markerPath n := by
  rcases h with h | ⟨-, h, -⟩
  · exact (hfile.marker j h).1
  · exact h

/-- The inode of the source at the start stays as it is. -/
theorem Allowed.data_source (hfile : FileInv build n source fs) (ha : Allowed build n source fs a)
    {j : Ino Path} (hj : j.origin = srcPath n) : (fs.apply a).data j = fs.data j := by
  have hne : ∀ {i : Ino Path} {p : Path}, i.origin = p → p ≠ srcPath n → j ≠ i := by
    rintro i p hi hp rfl
    exact hp (hi.symm.trans hj)
  cases ha with
  | idle | rename | remove => rfl
  | create h =>
    exact FileSystem.data_create_of_ne (hne (hfile.origin_of_create h) (tmpPath_ne_srcPath n))
  | mark h =>
    exact FileSystem.data_create_of_ne (hne (hfile.origin_of_mark h) (markerPath_ne_srcPath n n))
  | write hpart => exact FileSystem.data_write_of_ne (hne hpart.origin (tmpPath_ne_srcPath n))

/-- A part of the output grows, unless it is in the tmp file and that is emptied. -/
theorem Allowed.holdsPart (hfile : FileInv build n source fs) (ha : Allowed build n source fs a)
    {j : Ino Path} {part : Bytes} (h : HoldsPart build n source fs j part) :
    ∃ part', HoldsPart build n source (fs.apply a) j part' ∧
      (part <+: part' ∨ Empties n a ∧ fs.dir (tmpPath n) = some j) := by
  cases ha with
  | idle | rename | remove => exact ⟨part, ⟨h.origin, h.data, h.part⟩, .inl List.prefix_rfl⟩
  | @create i hcreate =>
    by_cases hj : j = i
    · subst hj
      refine ⟨[], ⟨h.origin, FileSystem.data_create_self, List.nil_prefix⟩, .inr ⟨⟨j, rfl⟩, ?_⟩⟩
      rcases hcreate with hdir | ⟨-, -, hdata⟩
      · exact hdir
      · rw [h.data] at hdata
        cases hdata
    · exact ⟨part, ⟨h.origin, (FileSystem.data_create_of_ne hj).trans h.data, h.part⟩,
        .inl List.prefix_rfl⟩
  | @mark i hmark =>
    have hj : j ≠ i := by
      rintro rfl
      exact markerPath_ne_tmpPath n n ((hfile.origin_of_mark hmark).symm.trans h.origin)
    exact ⟨part, ⟨h.origin, (FileSystem.data_create_of_ne hj).trans h.data, h.part⟩,
      .inl List.prefix_rfl⟩
  | @write out off bytes part' hpart hoff hbytes =>
    by_cases hj : j = out
    · subst hj
      cases h.data.symm.trans hpart.data
      obtain ⟨hgrows, hstart, -⟩ := overwrite_prefix h.part hoff hbytes
      exact ⟨_, ⟨h.origin, FileSystem.data_write_self h.data, hstart⟩, .inl hgrows⟩
    · exact ⟨part, ⟨h.origin, (FileSystem.data_write_of_ne hj).trans h.data, h.part⟩,
        .inl List.prefix_rfl⟩

/-- The complete output stays, unless it is in the tmp file and that is emptied. -/
theorem Allowed.holdsAll (hfile : FileInv build n source fs) (ha : Allowed build n source fs a)
    {j : Ino Path} (h : HoldsPart build n source fs j (emittedFor build source))
    (hquiet : Empties n a → fs.dir (tmpPath n) ≠ some j) :
    HoldsPart build n source (fs.apply a) j (emittedFor build source) := by
  obtain ⟨part', hpart', hgrows | ⟨hempties, hdir⟩⟩ := ha.holdsPart hfile h
  · rwa [hgrows.eq_of_length_le hpart'.part.length_le]
  · exact absurd hdir (hquiet hempties)

/-- The source is only ever replaced by its complete output, which was the tmp file. -/
theorem Allowed.dir_src (ha : Allowed build n source fs a) :
    (fs.apply a).dir (srcPath n) = fs.dir (srcPath n) ∨
      (fs.apply a).dir (tmpPath n) = none ∧ Complete build n source (fs.apply a) := by
  cases ha with
  | idle | write => exact .inl rfl
  | create => exact .inl (FileSystem.dir_create_of_ne (tmpPath_ne_srcPath n).symm)
  | mark => exact .inl (FileSystem.dir_create_of_ne (markerPath_ne_srcPath n n).symm)
  | remove => exact .inl (FileSystem.dir_remove_of_ne (tmpPath_ne_srcPath n).symm)
  | @rename j k h hpassed hpart =>
    refine .inr ⟨?_, ⟨k, hpassed⟩, j, ?_, hpart.origin, hpart.data⟩
    · rw [FileSystem.dir_rename h, if_neg (tmpPath_ne_srcPath n), if_pos rfl]
    · rw [FileSystem.dir_rename h, if_pos rfl]

theorem Complete.apply (hfile : FileInv build n source fs) (ha : Allowed build n source fs a)
    (h : Complete build n source fs) : Complete build n source (fs.apply a) := by
  rcases ha.dir_src with hdir | ⟨-, hcomplete⟩
  · obtain ⟨hpassed, i, hsrc, horigin, hdata⟩ := h
    have hpart := ha.holdsAll hfile (j := i) ⟨horigin, hdata, List.prefix_rfl⟩
      fun _ htmp => (hfile.tmp i htmp).2 hsrc
    exact ⟨hpassed, i, hdir.trans hsrc, horigin, hpart.data⟩
  · exact hcomplete

/-- The tmp file is the one it was, or a new empty one. -/
theorem Allowed.dir_tmp (hfile : FileInv build n source fs) (ha : Allowed build n source fs a)
    {j : Ino Path} (hj : (fs.apply a).dir (tmpPath n) = some j) :
    (fs.dir (tmpPath n) = some j ∧ ¬ Empties n a) ∨
      Empties n a ∧ fs.CanCreate (tmpPath n) j ∧ HoldsPart build n source (fs.apply a) j [] := by
  have hother : ∀ {b : Action Path}, (∀ i, b ≠ .create (tmpPath n) i) → ¬ Empties n b := by
    rintro b hb ⟨i, hi⟩
    exact hb i hi
  cases ha with
  | idle => exact .inl ⟨hj, hother nofun⟩
  | write => exact .inl ⟨hj, hother nofun⟩
  | @create i h =>
    rw [FileSystem.dir_create_self] at hj
    cases hj
    exact .inr ⟨⟨_, rfl⟩, h, hfile.origin_of_create h, FileSystem.data_create_self, List.nil_prefix⟩
  | mark h =>
    rw [FileSystem.dir_create_of_ne (markerPath_ne_tmpPath n n).symm] at hj
    exact .inl ⟨hj, hother fun i hi => markerPath_ne_tmpPath n n (Action.create.inj hi).1⟩
  | remove =>
    rw [FileSystem.dir_remove_self] at hj
    cases hj
  | rename h =>
    rw [FileSystem.dir_rename h, if_neg (tmpPath_ne_srcPath n), if_pos rfl] at hj
    cases hj

theorem TmpPart.apply (hfile : FileInv build n source fs) (ha : Allowed build n source fs a)
    (h : TmpPart build n source fs) : TmpPart build n source (fs.apply a) := by
  refine ⟨h.isFile, fun j hj => ?_⟩
  rcases ha.dir_tmp hfile hj with ⟨hold, -⟩ | ⟨-, -, hempty⟩
  · obtain ⟨part, hpart⟩ := h.part j hold
    obtain ⟨part', hpart', -⟩ := ha.holdsPart hfile hpart
    exact ⟨part', hpart'⟩
  · exact ⟨[], hempty⟩

/-- The marker is the one it was, or one that has just been made behind the output. -/
theorem Allowed.dir_marker (hfile : FileInv build n source fs) (ha : Allowed build n source fs a) :
    ((fs.apply a).dir (markerPath n) = fs.dir (markerPath n) ∧
      ∀ j, j.origin = markerPath n → (fs.apply a).data j = fs.data j) ∨
    ∃ j, (fs.apply a).dir (markerPath n) = some j ∧ j.origin = markerPath n ∧
      (fs.apply a).data j = some [] ∧ Complete build n source fs := by
  have hne : ∀ {i j : Ino Path}, i.origin = tmpPath n → j.origin = markerPath n → j ≠ i := by
    rintro i j hi hj rfl
    exact markerPath_ne_tmpPath n n (hj.symm.trans hi)
  cases ha with
  | idle => exact .inl ⟨rfl, fun _ _ => rfl⟩
  | write hpart =>
    exact .inl ⟨rfl, fun j hj => FileSystem.data_write_of_ne (hne hpart.origin hj)⟩
  | create h =>
    exact .inl ⟨FileSystem.dir_create_of_ne (markerPath_ne_tmpPath n n),
      fun j hj => FileSystem.data_create_of_ne (hne (hfile.origin_of_create h) hj)⟩
  | @mark j h hcomplete =>
    exact .inr ⟨j, FileSystem.dir_create_self, hfile.origin_of_mark h,
      FileSystem.data_create_self, hcomplete⟩
  | remove =>
    exact .inl ⟨FileSystem.dir_remove_of_ne (markerPath_ne_tmpPath n n), fun _ _ => rfl⟩
  | rename hdir =>
    refine .inl ⟨?_, fun _ _ => rfl⟩
    rw [FileSystem.dir_rename hdir, if_neg (markerPath_ne_srcPath n n),
      if_neg (markerPath_ne_tmpPath n n)]

theorem Allowed.marker_stays (hfile : FileInv build n source fs) (ha : Allowed build n source fs a)
    (h : fs.dir (markerPath n) ≠ none) : (fs.apply a).dir (markerPath n) ≠ none := by
  rcases ha.dir_marker hfile with ⟨hdir, -⟩ | ⟨j, hdir, -⟩
  · rwa [hdir]
  · rw [hdir]
    nofun

/-- **What is true of the files stays true.** -/
theorem FileInv.apply (hfile : FileInv build n source fs) (ha : Allowed build n source fs a) :
    FileInv build n source (fs.apply a) := by
  have hcomplete : Complete build n source fs → Complete build n source (fs.apply a) :=
    fun h => h.apply hfile ha
  refine ⟨fun j hj c hc => ?_, ?_, fun j hj => ?_, fun j hj => ?_⟩
  · rw [ha.data_source hfile hj] at hc
    exact hfile.kept j hj c hc
  · rcases hfile.src with ⟨i, hi, horigin⟩ | h
    · exact ha.dir_src.imp (fun hdir => ⟨i, hdir.trans hi, horigin⟩) And.right
    · exact .inr (hcomplete h)
  · have hsrc : (fs.apply a).dir (srcPath n) = fs.dir (srcPath n) := by
      rcases ha.dir_src with hdir | ⟨hnone, -⟩
      · exact hdir
      · rw [hnone] at hj
        cases hj
    rw [hsrc]
    rcases ha.dir_tmp hfile hj with ⟨hold, -⟩ | ⟨-, hcreate, -⟩
    · exact hfile.tmp j hold
    · refine ⟨hfile.origin_of_create hcreate, fun hdir => ?_⟩
      rcases hcreate with hold | ⟨-, -, hnone⟩
      · exact (hfile.tmp j hold).2 hdir
      · have := fs.linked _ _ hdir
        rw [hnone] at this
        cases this
  · rcases ha.dir_marker hfile with ⟨hdir, hdata⟩ | ⟨j', hdir, horigin, hdata, hall⟩
    · obtain ⟨horigin, hempty, hall⟩ := hfile.marker j (hdir.symm.trans hj)
      exact ⟨horigin, (hdata j horigin).trans hempty, hcomplete hall⟩
    · cases hdir.symm.trans hj
      exact ⟨horigin, hdata, hcomplete hall⟩

/-! ## The calls that look on -/

theorem Reads.apply (hfile : FileInv build n source fs) (ha : Allowed build n source fs a)
    {inp : Ino Path} {input : Bytes} (h : Reads build n source fs inp input) :
    Reads build n source (fs.apply a) inp input := by
  rcases h with h | ⟨htmp, hpassed, hpart, hstart⟩
  · exact .inl h
  · refine .inr ⟨fun hdir => ?_, hpassed, ha.holdsAll hfile hpart fun _ => htmp, hstart⟩
    rcases ha.dir_tmp hfile hdir with ⟨hold, -⟩ | ⟨-, hcreate, -⟩
    · exact htmp hold
    · exact hcreate.ne (by rw [hpart.data]; nofun) htmp rfl

/-- What the call has written, counted or is about to rename must not be emptied. -/
def Worker.relies : Worker → Prop
  | .copy _ _ _ _ written => 0 < written
  | .count _ _ _ | .rename _ => True
  | _ => False

/-- **What a call relies on, it can rely on while others act.** -/
theorem WorkerInv.apply (hfile : FileInv build n source fs) (ha : Allowed build n source fs a)
    {w : Worker} (hquiet : Empties n a → ¬ w.relies) (h : WorkerInv build n source fs w) :
    WorkerInv build n source (fs.apply a) w := by
  cases w with
  | check | create | cleanup error => trivial
  | stat out | openSrc out inBytes =>
    obtain ⟨htmp, part, hpart⟩ := h
    obtain ⟨part', hpart', -⟩ := ha.holdsPart hfile hpart
    exact ⟨htmp.apply hfile ha, part', hpart'⟩
  | copy out inp inBytes input written =>
    obtain ⟨htmp, hreads, part, hpart, hwritten⟩ := h
    obtain ⟨part', hpart', hgrows | ⟨hempties, -⟩⟩ := ha.holdsPart hfile hpart
    · exact ⟨htmp.apply hfile ha, hreads.apply hfile ha, part', hpart',
        hwritten.trans hgrows.length_le⟩
    · have hzero : ¬ 0 < written := hquiet hempties
      exact ⟨htmp.apply hfile ha, hreads.apply hfile ha, part', hpart', by omega⟩
  | statTmp stats | openTmp stats => exact ⟨h.1.apply hfile ha, h.2⟩
  | count inp input stats =>
    have hquiet' : ¬ Empties n a := fun he => hquiet he trivial
    obtain ⟨hpassed, ⟨part, hpart, hstart⟩, htmp⟩ := h
    obtain ⟨part', hpart', hgrows | ⟨hempties, -⟩⟩ := ha.holdsPart hfile hpart
    · refine ⟨hpassed, ⟨part', hpart', hstart.trans hgrows⟩, fun j hj => ?_⟩
      rcases ha.dir_tmp hfile hj with ⟨hold, -⟩ | ⟨hempties, -⟩
      · exact htmp j hold
      · exact absurd hempties hquiet'
    · exact absurd hempties hquiet'
  | rename stats =>
    have hquiet' : ¬ Empties n a := fun he => hquiet he trivial
    refine ⟨h.1, fun j hj => ?_⟩
    rcases ha.dir_tmp hfile hj with ⟨hold, -⟩ | ⟨hempties, -⟩
    · exact ha.holdsAll hfile (h.2 j hold) fun he => absurd he hquiet'
    · exact absurd hempties hquiet'
  | makeMarkerDir stats | writeMarker stats => exact Complete.apply hfile ha h
  | chmodMarker stats => exact ⟨h.1.apply hfile ha, ha.marker_stays hfile h.2⟩
  | done outcome =>
    exact fun r hr => ⟨(h r hr).1.apply hfile ha, ha.marker_stays hfile (h r hr).2⟩

/-! ## The call that acts -/

variable {inp : Ino Path} {input content : Bytes}

/-- What the reader reads is the source or its output. -/
theorem Reads.prefix_content (hfile : FileInv build n source fs) (h : Reads build n source fs inp input)
    (hdata : fs.data inp = some content) : input <+: content ∧
      (content = source ∨ content = emittedFor build source ∧ ∃ k, Passed build n source k) := by
  rcases h with ⟨horigin, hstart⟩ | ⟨-, hpassed, hpart, hstart⟩
  · obtain rfl := hfile.kept inp horigin content hdata
    exact ⟨hstart, .inl rfl⟩
  · cases hpart.data.symm.trans hdata
    exact ⟨hstart, .inr ⟨rfl, hpassed⟩⟩

/-- The reader can go on. -/
theorem Reads.more (hfile : FileInv build n source fs) (h : Reads build n source fs inp input)
    (hdata : fs.data inp = some content) (k : Nat) :
    Reads build n source fs inp (input ++ (content.drop input.length).take k) := by
  rcases h with ⟨horigin, hstart⟩ | ⟨htmp, hpassed, hpart, hstart⟩
  · obtain rfl := hfile.kept inp horigin content hdata
    exact .inl ⟨horigin, read_prefix hstart k⟩
  · cases hpart.data.symm.trans hdata
    exact .inr ⟨htmp, hpassed, hpart, read_prefix hstart k⟩

/-- Either way it leads to the same output. -/
theorem Reads.emitted (h : Reads build n source fs inp input) :
    emittedFor build input <+: emittedFor build source := by
  rcases h with ⟨-, hstart⟩ | ⟨-, ⟨k, hpassed⟩, -, hstart⟩
  · exact emittedFor_mono build hstart
  · have := emittedFor_mono build hstart
    rwa [hpassed.again.1] at this

/-- Having read everything, the pass succeeds for the source if it does here. -/
theorem Reads.passed (hfile : FileInv build n source fs) (h : Reads build n source fs inp input)
    (hdata : fs.data inp = some content) (hend : content.length ≤ input.length) {k : Nat}
    (hpassed : Passed build n input k) : Passed build n source k := by
  obtain ⟨hstart, rfl | ⟨rfl, k', hsource⟩⟩ := h.prefix_content hfile hdata
  · rwa [hstart.eq_of_length_le hend] at hpassed
  · rw [hstart.eq_of_length_le hend] at hpassed
    rwa [hpassed.unique hsource.again.2]

variable {w w' : Worker}

theorem allowed_of_step {σ : Setting} (hworker : WorkerInv σ.build n source fs w)
    (hstep : WorkerStep σ n fs w a w') : Allowed σ.build n source fs a := by
  cases hstep with
  | create hfile h => exact .create h
  | writeTmp hbytes hne =>
    obtain ⟨-, hreads, part, hpart, hwritten⟩ := hworker
    exact .write hpart hwritten (hbytes.trans (hreads.emitted.drop _))
  | rename h => exact .rename h hworker.1 (hworker.2 _ h)
  | writeMarker h => exact .mark h hworker
  | cleanup => exact .remove
  | marked | unmarked | createDir | stat | openSrc | readSrc | copyPanic | copyError | copyDone
  | statTmp | openTmp | readTmp | countError | countMismatch | countMatch | makeMarkerDir
  | chmodMarker | cleanupDir | missing | fail => exact .idle

theorem workerInv_failed (e : IoError) (h : WorkerInv build n source fs w) :
    WorkerInv build n source fs (w.failed e) := by
  cases w with
  | done outcome => exact h
  | check | create | stat _ | openSrc _ _ | copy _ _ _ _ _ | statTmp _ | openTmp _ | count _ _ _ =>
    trivial
  | rename _ | makeMarkerDir _ | writeMarker _ | chmodMarker _ | cleanup _ =>
    exact fun r hr => nomatch hr

/-- **A call that acts keeps to what it can rely on.** -/
theorem workerInv_step {σ : Setting} (hfile : FileInv σ.build n source fs)
    (hworker : WorkerInv σ.build n source fs w) (hstep : WorkerStep σ n fs w a w') :
    WorkerInv σ.build n source (fs.apply a) w' := by
  have ha := allowed_of_step hworker hstep
  cases hstep with
  | marked h =>
    obtain ⟨j, hj⟩ := Option.ne_none_iff_exists'.mp h
    exact fun _ _ => ⟨(hfile.marker j hj).2.2, h⟩
  | unmarked h => trivial
  | create hisFile h =>
    have hempty : HoldsPart σ.build n source (fs.apply (.create (tmpPath n) _)) _ [] :=
      ⟨hfile.origin_of_create h, FileSystem.data_create_self, List.nil_prefix⟩
    refine ⟨⟨hisFile, fun j hj => ?_⟩, [], hempty⟩
    rw [FileSystem.dir_create_self] at hj
    cases hj
    exact ⟨[], hempty⟩
  | stat hdir hdata => exact hworker
  | openSrc hdir =>
    obtain ⟨htmp, part, hpart⟩ := hworker
    refine ⟨htmp, ?_, part, hpart, Nat.zero_le _⟩
    rcases hfile.src with ⟨i, hi, horigin⟩ | ⟨hpassed, i, hi, horigin, hdata⟩
    · cases hi.symm.trans hdir
      exact .inl ⟨horigin, List.nil_prefix⟩
    · cases hi.symm.trans hdir
      exact .inr ⟨fun hdir' => (hfile.tmp _ hdir').2 hi, hpassed,
        ⟨horigin, hdata, List.prefix_rfl⟩, List.nil_prefix⟩
  | readSrc k hdata hmore hk =>
    obtain ⟨htmp, hreads, hout⟩ := hworker
    exact ⟨htmp, hreads.more hfile hdata k, hout⟩
  | @writeTmp out inp inBytes input written bytes hbytes hne =>
    obtain ⟨htmp, hreads, part, hpart, hwritten⟩ := hworker
    obtain ⟨-, hstart, hlen⟩ := overwrite_prefix hpart.part hwritten
      (hbytes.trans (hreads.emitted.drop written))
    exact ⟨htmp.apply hfile ha, hreads.apply hfile ha, _,
      ⟨hpart.origin, FileSystem.data_write_self hpart.data, hstart⟩, hlen⟩
  | copyPanic h => exact fun r hr => nomatch hr
  | createDir | copyError => trivial
  | copyDone hdata hend h hwritten =>
    obtain ⟨htmp, hreads, -⟩ := hworker
    have hpass := (callPass_of_file htmp.isFile).trans h
    exact ⟨htmp, hreads.passed hfile hdata hend ⟨_, _, hpass, rfl⟩⟩
  | statTmp hdir hdata => exact hworker
  | openTmp hdir =>
    obtain ⟨htmp, hpassed⟩ := hworker
    obtain ⟨part, hpart⟩ := htmp.part _ hdir
    exact ⟨hpassed, ⟨part, hpart, List.nil_prefix⟩,
      fun j hj => Option.some.inj (hj.symm.trans hdir)⟩
  | readTmp k hdata hmore hk =>
    obtain ⟨hpassed, ⟨part, hpart, hstart⟩, htmp⟩ := hworker
    cases hpart.data.symm.trans hdata
    exact ⟨hpassed, ⟨_, hpart, read_prefix hstart k⟩, htmp⟩
  | countError | countMismatch => trivial
  | countMatch hdata hend h =>
    obtain ⟨hpassed, ⟨part, hpart, hstart⟩, htmp⟩ := hworker
    cases hpart.data.symm.trans hdata
    rw [hstart.eq_of_length_le hend] at h
    rw [hpassed.complete hpart.part (verifyTmpPacketCount_eq_ok.mp h)] at hpart
    exact ⟨hpassed, fun j hj => htmp j hj ▸ hpart⟩
  | @rename stats j h =>
    have hpart := hworker.2 j h
    refine ⟨⟨_, hworker.1⟩, j, ?_, hpart.origin, hpart.data⟩
    rw [FileSystem.dir_rename h, if_pos rfl]
  | makeMarkerDir => exact hworker
  | writeMarker h =>
    refine ⟨Complete.apply hfile ha hworker, ?_⟩
    rw [FileSystem.dir_create_self]
    nofun
  | chmodMarker => exact fun _ _ => hworker
  | cleanup | cleanupDir => exact fun r hr => nomatch hr
  | missing hneeds hgone => exact workerInv_failed _ hworker
  | fail e => exact workerInv_failed e hworker

end Apply

/-! ## Whole runs -/

variable {ι : Type}

/-- The files and all calls are as they should be. -/
structure SysInv (build : Build) (n : Name) (source : Bytes) (s : System ι) : Prop where
  file : FileInv build n source s.fs
  worker : ∀ k, WorkerInv build n source s.fs (s.workers k)

theorem sysInv_start {build : Build} {files : Path → Option Bytes}
    (hsrc : files (srcPath n) = some source) (hmarker : files (markerPath n) = none) :
    SysInv build n source (System.start files : System ι) := by
  have hdir := FileSystem.dir_ofFiles hsrc
  refine ⟨⟨fun j hj c hc => ?_, .inl ⟨_, hdir, rfl⟩, fun j hj => ?_, fun j hj => ?_⟩, fun _ => trivial⟩
  · have := FileSystem.data_ofFiles hc
    rw [hj, hsrc] at this
    exact (Option.some.inj this).symm
  · have horigin := FileSystem.origin_of_dir_ofFiles hj
    refine ⟨horigin, fun h => tmpPath_ne_srcPath n (horigin.symm.trans ?_)⟩
    exact FileSystem.origin_of_dir_ofFiles h
  · cases (FileSystem.dir_ofFiles_none hmarker).symm.trans hj

/-- When call `i` is about to create the tmp file, no other call relies on it: none has
written a part of its output, is counting it, or is about to rename it. -/
def Undisturbed (i : ι) (s : System ι) : Prop :=
  s.workers i = .create → ∀ k, k ≠ i → ¬ (s.workers k).relies

theorem worker_of_empties {w w' : Worker} {a : Action Path} (hstep : WorkerStep σ n fs w a w')
    (h : Empties n a) : w = .create := by
  obtain ⟨j, rfl⟩ := h
  generalize hp : tmpPath n = p at hstep
  cases hstep with
  | create => rfl
  | writeMarker => exact absurd hp.symm (markerPath_ne_tmpPath n n)

variable [DecidableEq ι]

/-- The runs in which no call empties the tmp file while another relies on it. -/
def UndisturbedRun (σ : Setting) (name : ι → Name) : System ι → System ι → Prop :=
  Relation.ReflTransGen fun s s' => ∃ i, SysStep σ name i s s' ∧ Undisturbed i s

theorem sysInv_step {s s' : System ι} {i : ι} (hinv : SysInv σ.build n source s)
    (hstep : SysStep σ (onFile n) i s s') (hquiet : Undisturbed i s) :
    SysInv σ.build n source s' := by
  cases hstep with
  | @act a w h =>
    have ha := allowed_of_step (hinv.worker i) h
    exact ⟨hinv.file.apply ha, forall_advance (fun _ => WorkerInv σ.build n source _)
      (workerInv_step hinv.file (hinv.worker i) h)
      fun k hk => (hinv.worker k).apply hinv.file ha fun he => hquiet (worker_of_empties h he) k hk⟩
  | restart h =>
    exact ⟨hinv.file, forall_advance (fun _ => WorkerInv σ.build n source _) trivial
      fun k _ => hinv.worker k⟩

theorem sysInv_run {s s' : System ι} (hinv : SysInv σ.build n source s)
    (hrun : UndisturbedRun σ (onFile n) s s') : SysInv σ.build n source s' :=
  Lib.Run.invariant_of_run _ (fun _ _ h ⟨_, hstep, hquiet⟩ => sysInv_step h hstep hquiet) hrun hinv

/-! ## Two calls at the same time -/

/-- The source holds its original bytes or the complete output, and the output if
there is a marker. -/
structure Intact (n : Name) (source output : Bytes) (fs : FileSystem Path) : Prop where
  src : fs.read (srcPath n) = some source ∨ fs.read (srcPath n) = some output
  marker : fs.dir (markerPath n) ≠ none → fs.read (srcPath n) = some output

theorem Complete.read {build : Build} (h : Complete build n source fs) :
    fs.read (srcPath n) = some (emittedFor build source) := by
  obtain ⟨-, i, hdir, -, hdata⟩ := h
  rw [FileSystem.read_of_dir hdir, hdata]

theorem FileInv.read {build : Build} (h : FileInv build n source fs) :
    fs.read (srcPath n) = some source ∨ Complete build n source fs := by
  rcases h.src with ⟨i, hdir, horigin⟩ | hcomplete
  · obtain ⟨c, hc⟩ := FileSystem.exists_data hdir
    rw [FileSystem.read_of_dir hdir, hc, h.kept i horigin c hc]
    exact .inl rfl
  · exact .inr hcomplete

theorem FileInv.complete_of_marker {build : Build} (h : FileInv build n source fs)
    (hmarker : fs.dir (markerPath n) ≠ none) : Complete build n source fs := by
  obtain ⟨j, hj⟩ := Option.ne_none_iff_exists'.mp hmarker
  exact (h.marker j hj).2.2

/-- **Any number of calls at the same time leave the source intact**, as long as none
empties the tmp file while another relies on it. -/
theorem intact_of_run {files : Path → Option Bytes} {output : Bytes} {s : System ι}
    (hslims : slimOutput σ.build n source = some output) (hsrc : files (srcPath n) = some source)
    (hmarker : files (markerPath n) = none) (hrun : UndisturbedRun σ (onFile n) (.start files) s) :
    Intact n source output s.fs := by
  obtain ⟨rfl, -⟩ := slimOutput_eq_some hslims
  have hinv := (sysInv_run (sysInv_start hsrc hmarker) hrun).file
  exact ⟨hinv.read.imp id Complete.read, fun h => (hinv.complete_of_marker h).read⟩

/-- While the other calls wait, a call can do what it does alone. -/
theorem lift_run (name : ι → Name) {t t' : System Unit} {s : System ι} {i : ι}
    (hrun : Run σ (onFile (name i)) t t') (hfs : s.fs = t.fs)
    (hworker : s.workers i = t.workers ()) (hwait : ∀ k, k ≠ i → ¬ (s.workers k).relies) :
    ∃ s', UndisturbedRun σ name s s' ∧ s'.fs = t'.fs ∧ s'.workers i = t'.workers () ∧
      ∀ k, k ≠ i → s'.workers k = s.workers k := by
  refine Lib.Run.simulation_of_run
    (fun t (r : System ι) => r.fs = t.fs ∧ r.workers i = t.workers () ∧
      ∀ k, k ≠ i → r.workers k = s.workers k)
    (fun t t' r hrel hstep => ?_) hrun ⟨hfs, hworker, fun _ _ => rfl⟩
  obtain ⟨hfs, hworker, hothers⟩ := hrel
  obtain ⟨j, hstep⟩ := hstep
  have hquiet : Undisturbed i r := fun _ k hk => by
    rw [hothers k hk]
    exact hwait k hk
  cases hstep with
  | @act a w h =>
    rw [← hfs, ← hworker] at h
    refine ⟨_, .single ⟨i, .act h, hquiet⟩, ?_, ?_, fun k hk => ?_⟩
    · change r.fs.apply a = t.fs.apply a
      rw [hfs]
    · rw [advance_self, advance_self]
    · rw [advance_of_ne hk, hothers k hk]
  | restart h =>
    refine ⟨_, .single ⟨i, .restart h, hquiet⟩, hfs, ?_, fun k hk => ?_⟩
    · rw [advance_self, advance_self]
    · rw [advance_of_ne hk, hothers k hk]

theorem run_of_undisturbed {name : ι → Name} {s s' : System ι} (h : UndisturbedRun σ name s s') :
    Run σ name s s' :=
  Relation.ReflTransGen.mono (fun _ _ ⟨i, hstep, _⟩ => ⟨i, hstep⟩) _ _ h

/-- **Two calls with one tmp file can leave an empty source**, whatever it was: the
first comes to its rename, the second creates the tmp file anew, the first renames it. -/
theorem renames_emptied_tmp {build : Build} (name : ι → Name) {i k : ι} (hne : k ≠ i)
    (htmp : tmpPath (name k) = tmpPath (name i)) {files : Path → Option Bytes} {output : Bytes}
    (hslims : slimOutput build (name i) source = some output)
    (hsrc : files (srcPath (name i)) = some source)
    (hmarker : ∀ i, files (markerPath (name i)) = none) :
    ∃ s, Run (.quiet build) name (.start files) s ∧ s.fs.read (srcPath (name i)) = some [] := by
  have hcheck : WorkerStep (.quiet build) (name k) (System.start files : System ι).fs .check .idle
      .create := .unmarked (FileSystem.dir_ofFiles_none (hmarker k))
  let s₁ : System ι := (System.start files).advance k .idle .create
  obtain ⟨t, stats, hrun, hrename, -, b, stats', out, -, -, hout⟩ :=
    exists_rename (σ := .quiet build) (s := .start files) rfl hslims
      (untouched_start hsrc (hmarker i)) trivial
  have hwait : ∀ l, ¬ (s₁.workers l).relies :=
    forall_advance (fun _ w => ¬ w.relies) not_false fun _ _ => not_false
  obtain ⟨s₂, hrun₂, hfs₂, hfirst, hothers⟩ := lift_run name (s := s₁) (i := i) hrun rfl
    (advance_of_ne hne.symm) fun l _ => hwait l
  -- the second call empties the file that the first has counted
  have hcreate : WorkerStep (.quiet build) (name k) s₂.fs (s₂.workers k)
      (.create (tmpPath (name k)) out) (.stat out) := by
    have hisFile : ¬ TmpIsDir (name k) := by
      rw [TmpIsDir, Path.file.inj htmp]
      exact hout.isFile
    rw [hothers k hne, advance_self, hfs₂]
    exact .create hisFile (.inl (htmp ▸ hout.dir))
  let s₃ := s₂.advance k (.create (tmpPath (name k)) out) (.stat out)
  have hdir : s₃.fs.dir (tmpPath (name i)) = some out := htmp ▸ FileSystem.dir_create_self
  have hrename' : WorkerStep (.quiet build) (name i) s₃.fs (s₃.workers i)
      (.rename (tmpPath (name i)) (srcPath (name i))) (.makeMarkerDir stats) := by
    rw [advance_of_ne hne.symm, hfirst, hrename]
    exact .rename hdir
  have hrun₃ : Run (.quiet build) name (.start files) s₃ :=
    ((Relation.ReflTransGen.single ⟨k, .act hcheck⟩).trans (run_of_undisturbed hrun₂)).tail
      ⟨k, .act hcreate⟩
  refine ⟨_, hrun₃.tail ⟨i, .act hrename'⟩, ?_⟩
  have hsrc₄ : (s₃.fs.apply (.rename (tmpPath (name i)) (srcPath (name i)))).dir
      (srcPath (name i)) = some out := by
    rw [FileSystem.dir_rename hdir, if_pos rfl]
  exact (FileSystem.read_of_dir hsrc₄).trans (FileSystem.data_create_self (p := tmpPath (name k)))

def captureName : Name := ['a'] ++ dotPcap

/-- A directory with one capture. -/
def captureFiles (p : Path) : Option Bytes :=
  if p = srcPath captureName then some oneRecordFile else none

theorem captureFiles_src : captureFiles (srcPath captureName) = some oneRecordFile := if_pos rfl

theorem captureFiles_marker : captureFiles (markerPath captureName) = none := if_neg nofun

theorem oneRecordFile_output :
    ∃ output, slimOutput .release captureName oneRecordFile = some output ∧ output ≠ [] := by
  have h : (slimOutput .release captureName oneRecordFile).map List.isEmpty = some false := by
    decide +kernel
  obtain ⟨output, houtput, hempty⟩ := Option.map_eq_some_iff.mp h
  refine ⟨output, houtput, ?_⟩
  rintro rfl
  cases hempty

theorem twoCalls_not_intact : ¬ ∀ (output : Bytes) (s : System Bool),
    slimOutput .release captureName oneRecordFile = some output →
    Run (.quiet .release) (onFile captureName) (.start captureFiles) s →
    Intact captureName oneRecordFile output s.fs := by
  intro h
  obtain ⟨output, houtput, hne⟩ := oneRecordFile_output
  obtain ⟨s, hrun, hempty⟩ := renames_emptied_tmp (onFile captureName) (i := true) (k := false)
    (by decide) rfl houtput captureFiles_src fun _ => captureFiles_marker
  rcases (h output s houtput hrun).src with hsrc | hsrc
  · cases hempty.symm.trans hsrc
  · exact hne (Option.some.inj (hempty.symm.trans hsrc)).symm

/-- The first call creates the tmp file, the second creates it anew and goes on to its end. -/
theorem intact_of_run_oneRecordFile : ∃ (output : Bytes) (j : Ino Path) (s : System Bool),
    UndisturbedRun (.quiet .release) (onFile captureName) (.start captureFiles) s ∧
      s.workers false = .stat j ∧ (s.workers true).isDone = true ∧
      Intact captureName oneRecordFile output s.fs := by
  obtain ⟨output, houtput, -⟩ := oneRecordFile_output
  have huntouched := untouched_start captureFiles_src captureFiles_marker
  obtain ⟨j, hj⟩ := (FileSystem.ofFiles captureFiles).exists_canCreate (tmpPath captureName)
  let s₁ : System Bool := (System.start captureFiles).advance false .idle .create
  let s₂ := s₁.advance false (.create (tmpPath captureName) j) (.stat j)
  have hrun₁ : UndisturbedRun (.quiet .release) (onFile captureName) (.start captureFiles) s₁ :=
    .single ⟨false, .act (.unmarked huntouched.marker), fun h => nomatch h⟩
  have hcreate : WorkerStep (.quiet .release) captureName s₁.fs (s₁.workers false)
      (.create (tmpPath captureName) j) (.stat j) := by
    rw [advance_self]
    exact .create (by decide) hj
  have hrun₂ := hrun₁.tail ⟨false, .act hcreate, fun _ =>
    forall_advance (fun k w => k ≠ false → ¬ w.relies) (fun h => absurd rfl h) fun _ _ _ => not_false⟩
  obtain ⟨t, hcall, hdone⟩ := exists_done (σ := .quiet .release) (n := captureName)
    (s := { fs := s₂.fs, workers := fun _ => .check }) rfl (huntouched.create hj)
  obtain ⟨s, hrun, -, hworker, hothers⟩ := lift_run (onFile captureName) (s := s₂) (i := true) hcall
    rfl (by rw [advance_of_ne (by decide), advance_of_ne (by decide)]; rfl) fun k hk => by
      rw [Bool.eq_false_iff.mpr hk, advance_self]
      exact not_false
  refine ⟨output, j, s, hrun₂.trans hrun, ?_, hworker ▸ hdone, intact_of_run (σ := .quiet .release)
    houtput captureFiles_src captureFiles_marker (hrun₂.trans hrun)⟩
  rw [hothers false (by decide), advance_self]

/-! ## One call at a time, cut off and made again -/

/-- The call is made again. -/
def System.again (s : System Unit) : System Unit := s.advance () .idle .check

/-- What slimming in place guarantees for the file `n`, which held `source` at the
start, in the state `s`. -/
structure CrashSafe (σ : Setting) (n : Name) (source : Bytes) (s : System Unit) : Prop where
  /-- The source is the original or its complete output. -/
  src : s.fs.read (srcPath n) = some source ∨
    ∃ output, slimOutput σ.build n source = some output ∧ s.fs.read (srcPath n) = some output
  /-- With a marker it is the output. -/
  marker : s.fs.dir (markerPath n) ≠ none →
    ∃ output, slimOutput σ.build n source = some output ∧ s.fs.read (srcPath n) = some output
  /-- A call that has returned `Ok` leaves both in place. -/
  returned : ∀ r, s.workers () = .done (.returned (.ok r)) → s.fs.dir (markerPath n) ≠ none ∧
    ∃ output, slimOutput σ.build n source = some output ∧ s.fs.read (srcPath n) = some output
  /-- A source that does not slim stays. -/
  rejected : slimOutput σ.build n source = none →
    s.fs.read (srcPath n) = some source ∧ s.fs.dir (markerPath n) = none
  /-- With a marker nothing that comes later makes a difference. -/
  settled : s.fs.dir (markerPath n) ≠ none → ∀ s', Run σ (onFile n) s s' →
    s'.fs.read (srcPath n) = s.fs.read (srcPath n) ∧
      s'.fs.read (markerPath n) = s.fs.read (markerPath n)
  /-- With a marker another call does nothing, if nothing fails. -/
  skips : s.fs.dir (markerPath n) ≠ none → ∀ s', Run (.quiet σ.build) (onFile n) s.again s' →
    s'.fs = s.fs
  /-- Another call ends with the output and the marker, if nothing fails. -/
  converges : ∀ output, slimOutput σ.build n source = some output →
    ∀ s', Run (.quiet σ.build) (onFile n) s.again s' → (s'.workers ()).isDone = true →
      s'.fs.read (srcPath n) = some output ∧ s'.fs.read (markerPath n) = some []
  /-- And it can always be finished. -/
  finishes : ∃ s', Run (.quiet σ.build) (onFile n) s.again s' ∧ (s'.workers ()).isDone = true

section Single

variable {build : Build} {s s' : System Unit}

theorem undisturbedRun_of_run (hrun : Run σ (onFile n) s s') :
    UndisturbedRun σ (onFile n) s s' := by
  refine Relation.ReflTransGen.mono (fun t t' hstep => ?_) _ _ hrun
  obtain ⟨i, hstep⟩ := hstep
  exact ⟨i, hstep, fun _ k hk => absurd (Subsingleton.elim k i) hk⟩

theorem FileInv.read_marker (h : FileInv build n source fs) (hmarker : fs.dir (markerPath n) ≠ none) :
    fs.read (markerPath n) = some [] := by
  obtain ⟨j, hj⟩ := Option.ne_none_iff_exists'.mp hmarker
  rw [FileSystem.read_of_dir hj, (h.marker j hj).2.1]

/-- Without a marker a call starts on the source or on its output. -/
theorem FileInv.untouched (h : FileInv build n source fs) (hmarker : fs.dir (markerPath n) = none) :
    ∃ i content, Untouched n i content fs ∧
      ∀ output, slimOutput build n source = some output → slimOutput build n content = some output := by
  rcases h.src with ⟨i, hdir, horigin⟩ | ⟨⟨k, hpassed⟩, i, hdir, horigin, hdata⟩
  · obtain ⟨c, hc⟩ := FileSystem.exists_data hdir
    obtain rfl := h.kept i horigin c hc
    exact ⟨i, c, ⟨hdir, hc, fun htmp => (h.tmp i htmp).2 hdir, hmarker⟩, fun _ h => h⟩
  · refine ⟨i, _, ⟨hdir, hdata, fun htmp => (h.tmp i htmp).2 hdir, hmarker⟩, fun output hout => ?_⟩
    rw [hpassed.again.2.output, hpassed.again.1, ← hpassed.output, hout]

/-- A step leaves a marker in place. -/
theorem marker_of_run (hinv : SysInv σ.build n source s) (hmarker : s.fs.dir (markerPath n) ≠ none)
    (hrun : Run σ (onFile n) s s') :
    SysInv σ.build n source s' ∧ s'.fs.dir (markerPath n) ≠ none := by
  refine Lib.Run.invariant_of_run
    (fun t => SysInv σ.build n source t ∧ t.fs.dir (markerPath n) ≠ none)
    (fun t t' ⟨ht, hm⟩ ⟨i, hstep⟩ => ?_) hrun ⟨hinv, hmarker⟩
  refine ⟨sysInv_step ht hstep fun _ k hk => absurd (Subsingleton.elim k i) hk, ?_⟩
  cases hstep with
  | act h => exact (allowed_of_step (ht.worker i) h).marker_stays ht.file hm
  | restart => exact hm

theorem again_quiet (hinv : FileInv build n source s.fs) {output : Bytes}
    (hslims : slimOutput build n source = some output)
    (hrun : Run (.quiet build) (onFile n) s.again s') (hdone : (s'.workers ()).isDone = true) :
    s'.fs.read (srcPath n) = some output ∧ s'.fs.read (markerPath n) = some [] := by
  have hcheck : s.again.workers () = .check := advance_self
  by_cases hmarker : s.fs.dir (markerPath n) = none
  · obtain ⟨i, content, huntouched, hsame⟩ := hinv.untouched hmarker
    cases hw : s'.workers () with
    | done outcome =>
      obtain ⟨-, hsrc, hmark⟩ := call_alone rfl rfl hrun hcheck huntouched hw
      have hout : slimOutput (Setting.quiet build).build n content = some output :=
        hsame output hslims
      rw [hout] at hsrc hmark
      exact ⟨hsrc, hmark⟩
    | _ => rw [hw] at hdone; cases hdone
  · obtain ⟨hsame, -⟩ := call_marked rfl rfl hrun hcheck hmarker
    obtain ⟨rfl, -⟩ := slimOutput_eq_some hslims
    rw [hsame]
    exact ⟨(hinv.complete_of_marker hmarker).read, hinv.read_marker hmarker⟩

/-- **Slimming in place is safe wherever it is cut off**, whatever fails, however often
it is made again, and whatever was in the tmp file at the start. -/
theorem crash_safe {files : Path → Option Bytes} (hsrc : files (srcPath n) = some source)
    (hmarker : files (markerPath n) = none) (hrun : Run σ (onFile n) (.start files) s) :
    CrashSafe σ n source s := by
  have hinv := sysInv_run (sysInv_start hsrc hmarker) (undisturbedRun_of_run hrun)
  have houtput : Complete σ.build n source s.fs →
      ∃ output, slimOutput σ.build n source = some output ∧ s.fs.read (srcPath n) = some output :=
    fun h => ⟨_, h.1.choose_spec.output, h.read⟩
  have hincomplete : slimOutput σ.build n source = none → ¬ Complete σ.build n source s.fs :=
    fun hnone h => slimOutput_eq_none hnone _ h.1.choose_spec
  refine ⟨hinv.file.read.imp id houtput, fun h => houtput (hinv.file.complete_of_marker h), ?_, ?_,
    fun hmark s' hrun' => ?_, fun hmark s' hrun' => ?_, fun output hslims s' hrun' hdone => ?_, ?_⟩
  · intro r hr
    have hworker := hinv.worker ()
    rw [hr] at hworker
    obtain ⟨hcomplete, hmark⟩ := hworker r rfl
    exact ⟨hmark, houtput hcomplete⟩
  · intro hnone
    refine ⟨hinv.file.read.resolve_right (hincomplete hnone), ?_⟩
    by_contra hmark
    exact hincomplete hnone (hinv.file.complete_of_marker hmark)
  · obtain ⟨hinv', hmark'⟩ := marker_of_run hinv hmark hrun'
    rw [(hinv.file.complete_of_marker hmark).read, (hinv'.file.complete_of_marker hmark').read,
      hinv.file.read_marker hmark, hinv'.file.read_marker hmark']
    exact ⟨rfl, rfl⟩
  · exact (call_marked rfl rfl hrun' advance_self hmark).1
  · exact again_quiet hinv.file hslims hrun' hdone
  · by_cases hmark : s.fs.dir (markerPath n) = none
    · obtain ⟨i, content, huntouched, -⟩ := hinv.file.untouched hmark
      have hinv' : CallInv σ.build n i content s.again.fs (s.again.workers ()) := by
        rw [System.again, advance_self]
        exact huntouched
      exact exists_done (σ := .quiet σ.build) rfl hinv'
    · have hcheck : s.again.workers () = .check := advance_self
      have hstep : WorkerStep (.quiet σ.build) n s.again.fs (s.again.workers ()) .idle
          (.done .skipped) := by
        rw [hcheck]
        exact .marked hmark
      exact ⟨_, .single ⟨(), .act hstep⟩, by rw [advance_self]; rfl⟩

/-- A run that is cut off behind the creation of the tmp file. -/
theorem crash_safe_oneRecordFile : ∃ s : System Unit,
    Run ⟨.release, true, true⟩ (onFile captureName) (.start captureFiles) s ∧
      s.fs.read (tmpPath captureName) = some [] ∧ s.workers () = .check ∧
      CrashSafe ⟨.release, true, true⟩ captureName oneRecordFile s := by
  let s₀ : System Unit := .start captureFiles
  obtain ⟨j, hj⟩ := s₀.fs.exists_canCreate (tmpPath captureName)
  let s₁ := s₀.advance () .idle .create
  let s₂ := s₁.advance () (.create (tmpPath captureName) j) (.stat j)
  have hcheck : WorkerStep ⟨.release, true, true⟩ captureName s₀.fs (s₀.workers ()) .idle .create :=
    .unmarked (FileSystem.dir_ofFiles_none captureFiles_marker)
  have hcreate : WorkerStep ⟨.release, true, true⟩ captureName s₁.fs (s₁.workers ())
      (.create (tmpPath captureName) j) (.stat j) := by
    rw [advance_self]
    exact .create (by decide) hj
  have hrun : Run ⟨.release, true, true⟩ (onFile captureName) s₀ (s₂.advance () .idle .check) :=
    ((Relation.ReflTransGen.single ⟨(), .act hcheck⟩).tail ⟨(), .act hcreate⟩).tail
      ⟨(), .restart rfl⟩
  have hdir : s₂.fs.dir (tmpPath captureName) = some j := FileSystem.dir_create_self
  refine ⟨_, hrun, ?_, advance_self, crash_safe captureFiles_src captureFiles_marker hrun⟩
  exact (FileSystem.read_of_dir hdir).trans
    (FileSystem.data_create_self (p := tmpPath captureName))

end Single

end PcapSlim.Coord
