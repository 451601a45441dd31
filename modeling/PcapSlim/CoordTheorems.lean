/-
PcapSlim.CoordTheorems — one call of `slim_file_in_place` with the files to itself.

When nothing fails and nobody else acts, a call is determined by the contents of
its source: `CallInv` says for each place in the call what the files hold there,
`callInv_step` that every step keeps it, and `call_alone` what is there at the
end, whatever the sizes of the reads and writes were. `remaining` goes down with
every step and there is always a next one (`exists_step`), so that a call can
always be finished (`exists_done`).
-/
import Mathlib.Data.List.Infix
import PcapSlim.Coord
import PcapSlim.PcapIoTheorems
import PcapSlim.Lib.Run

namespace PcapSlim.Coord

open Lib.Octets Lib.Files Packet PcapIo Capture

variable {σ : Setting} {n : Name} {fs fs' : FileSystem Path}

/-! ## Paths -/

/-- A name is its stem, or its stem and an extension without a dot. -/
theorem fileStem_spec (name : Name) :
    fileStem name = name ∨ ∃ extension, '.' ∉ extension ∧ name = fileStem name ++ '.' :: extension := by
  unfold fileStem
  by_cases hdots : name = dotDot
  · rw [if_pos hdots]
    exact .inl rfl
  rw [if_neg hdots]
  have hsplit := List.takeWhile_append_dropWhile (p := fun x => decide (x ≠ '.')) (l := name.reverse)
  cases hdrop : name.reverse.dropWhile (fun x => decide (x ≠ '.')) with
  | nil => exact .inl rfl
  | cons dot before =>
    dsimp only
    by_cases hbefore : before = []
    · rw [if_pos hbefore]
      exact .inl rfl
    rw [if_neg hbefore]
    have hdot : dot = '.' := by
      have := List.head?_dropWhile_not (fun x => decide (x ≠ '.')) name.reverse
      rw [hdrop] at this
      simpa using this
    refine .inr ⟨(name.reverse.takeWhile fun x => decide (x ≠ '.')).reverse, ?_, ?_⟩
    · intro hmem
      have := List.mem_takeWhile_imp (List.mem_reverse.mp hmem)
      simp at this
    · rw [hdrop, hdot] at hsplit
      have hname := congrArg List.reverse hsplit
      rw [List.reverse_reverse, List.reverse_append, List.reverse_cons, List.append_assoc] at hname
      exact hname.symm

/-- A tmp file is not the file that it is for. -/
theorem tmpName_ne (name : Name) : tmpName name ≠ name := by
  intro h
  unfold tmpName withExtension at h
  split at h
  · next hstem =>
    rw [← h, fileStem, if_pos rfl] at hstem
    exact absurd hstem (by decide)
  rcases fileStem_spec name with hstem | ⟨extension, hdot, hname⟩
  · rw [hstem] at h
    have := congrArg List.length h
    simp at this
  · have h' := h.trans hname
    rw [List.append_cancel_left_eq, List.cons.injEq] at h'
    rw [← h'.2] at hdot
    exact hdot (by decide)

theorem tmpPath_ne_srcPath (n : Name) : tmpPath n ≠ srcPath n :=
  fun h => tmpName_ne n (Path.file.inj h)

theorem markerPath_ne_srcPath (n m : Name) : markerPath n ≠ srcPath m := nofun

theorem markerPath_ne_tmpPath (n m : Name) : markerPath n ≠ tmpPath m := nofun

/-! ## What the pass and the counter make of a part of a file -/

/-- What a call for `n` makes of the contents of a file: the result of the pass, unless it
cannot create the tmp file. -/
def callPass (build : Build) (n : Name) (content : Bytes) :
    Except Failure (WriteBatch × SlimStats) :=
  if TmpIsDir n then .error (.error (.io .isADirectory))
  else slimPcapToWriter build (display n) content

/-- The complete slim output of a file, if a call for it can succeed. -/
def slimOutput (build : Build) (n : Name) (content : Bytes) : Option Bytes :=
  match callPass build n content with
  | .ok (b, _) => some b.writer
  | .error _ => none

/-- How a call ends after a pass with the given result. -/
def Outcome.ofPass : Except Failure (WriteBatch × SlimStats) → Outcome
  | .ok (b, stats) => .slimmed { stats with outBytes := b.writer.length }
  | .error (.error err) => .failed (.pcap err)
  | .error (.panic _) => .panicked

/-- How a call for a file without a marker ends when nothing goes wrong. -/
def callOutcome (build : Build) (n : Name) (content : Bytes) : Outcome :=
  .ofPass (callPass build n content)

theorem callPass_of_dir {build : Build} {content : Bytes} (h : TmpIsDir n) :
    callPass build n content = .error (.error (.io .isADirectory)) := if_pos h

theorem callPass_of_file {build : Build} {content : Bytes} (h : ¬ TmpIsDir n) :
    callPass build n content = slimPcapToWriter build (display n) content := if_neg h

/-- A call that gets through its pass has a tmp file. -/
theorem callPass_eq_ok {build : Build} {content : Bytes} {r : WriteBatch × SlimStats}
    (h : callPass build n content = .ok r) :
    ¬ TmpIsDir n ∧ slimPcapToWriter build (display n) content = .ok r := by
  unfold callPass at h
  split at h
  · cases h
  · next hfile => exact ⟨hfile, h⟩

/-- A file slims if a call gets through its pass. -/
theorem slimOutput_ne_none_iff {build : Build} {content : Bytes} :
    slimOutput build n content ≠ none ↔ ∃ r, callPass build n content = .ok r := by
  unfold slimOutput
  cases callPass build n content with
  | ok r => exact ⟨fun _ => ⟨r, rfl⟩, fun _ => nofun⟩
  | error e => exact ⟨fun h => absurd rfl h, nofun⟩

variable {path : String} {build : Build} {content input : Bytes}

theorem slim_of_detects {err : PcapError} (hstart : input <+: content)
    (hdetects : Detects path content input err)
    (h : slimPcapToWriter build path input = .error (.error err)) :
    slimPcapToWriter build path content = .error (.error err) := by
  rcases hdetects with hend | ⟨hlen, hheader⟩
  · rwa [← hstart.eq_of_length_le hend]
  · obtain ⟨more, rfl⟩ := hstart
    rw [slimPcapToWriter, readGlobalHeader_error_append hlen hheader]

theorem count_of_detects {err : PcapError} (hstart : input <+: content)
    (hdetects : Detects path content input err) (h : countPackets path input = .error err) :
    countPackets path content = .error err := by
  rcases hdetects with hend | ⟨hlen, hheader⟩
  · rwa [← hstart.eq_of_length_le hend]
  · obtain ⟨more, rfl⟩ := hstart
    rw [countPackets, readGlobalHeader_error_append hlen hheader]
    rfl

/-- The counter finds as many packets in the output as the pass has reported. -/
theorem count_slimmed {path' : String} {b : WriteBatch} {stats : SlimStats}
    (h : slimPcapToWriter build path content = .ok (b, stats)) :
    countPackets path' b.writer = .ok stats.inPkts := by
  obtain ⟨c, -, -, hwriter, -, rfl⟩ := slimPcapToWriter_eq_ok h
  rw [hwriter, countPackets_file, PcapFile.slim, List.length_map]
  rfl

/-- The packet-count check passes where the counter finds the expected number. -/
theorem verifyTmpPacketCount_eq_ok {expected : Nat} {tmp : Bytes} :
    verifyTmpPacketCount expected path tmp = .ok () ↔ countPackets path tmp = .ok expected := by
  unfold verifyTmpPacketCount
  cases hcount : countPackets path tmp with
  | error err => simp
  | ok outCount =>
    dsimp only
    split
    · rename_i hne
      simpa using hne
    · rename_i heq
      simpa using heq

/-- A file that the counter rejects is rejected by the check. -/
theorem verifyTmpPacketCount_eq_pcap {expected : Nat} {tmp : Bytes} {err : PcapError} :
    verifyTmpPacketCount expected path tmp = .error (.pcap err) ↔
      countPackets path tmp = .error err := by
  unfold verifyTmpPacketCount
  cases hcount : countPackets path tmp with
  | error err' => simp
  | ok outCount =>
    dsimp only
    split <;> simp

/-- **The packet-count check catches every short write**: of all the parts of the
output that a tmp file may be left with, it lets only the whole output through. -/
theorem verify_catches_short_write {tmp : String} {b : WriteBatch} {stats : SlimStats}
    (h : slimPcapToWriter build path content = .ok (b, stats)) :
    verifyTmpPacketCount stats.inPkts tmp b.writer = .ok () ∧
      ∀ part, part <+: b.writer → part ≠ b.writer →
        ∃ err, verifyTmpPacketCount stats.inPkts tmp part = .error err := by
  refine ⟨verifyTmpPacketCount_eq_ok.mpr (count_slimmed h), fun part hstart hne => ?_⟩
  cases hverify : verifyTmpPacketCount stats.inPkts tmp part with
  | error err => exact ⟨err, rfl⟩
  | ok =>
    exact absurd (eq_of_prefix_of_count h hstart (verifyTmpPacketCount_eq_ok.mp hverify)) hne

/-- The output for a file with one record, cut behind its global header: the
counter sees the end of a file, and the wrong number. -/
theorem verify_catches_short_write_oneRecordFile :
    ∃ b stats, slimPcapToWriter .release "a.pcap" oneRecordFile = .ok (b, stats) ∧
      verifyTmpPacketCount stats.inPkts "a.pcap.tmp" b.writer = .ok () ∧
      ∃ err, verifyTmpPacketCount stats.inPkts "a.pcap.tmp" (b.writer.take 24) = .error err := by
  have hlength : (slimPcapToWriter .release "a.pcap" oneRecordFile).map (·.1.writer.length) =
      .ok 146 := by decide +kernel
  cases hr : slimPcapToWriter .release "a.pcap" oneRecordFile with
  | error e => rw [hr] at hlength; cases hlength
  | ok r =>
    rw [hr] at hlength
    have hlen : r.1.writer.length = 146 := Except.ok.inj hlength
    have hverify := @verify_catches_short_write _ _ _ "a.pcap.tmp" r.1 r.2 hr
    refine ⟨r.1, r.2, rfl, hverify.1, hverify.2 _ (List.take_prefix _ _) fun heq => ?_⟩
    have := congrArg List.length heq
    rw [List.length_take] at this
    omega

theorem inBytes_slimmed {b : WriteBatch} {stats : SlimStats}
    (h : slimPcapToWriter build path content = .ok (b, stats)) :
    { stats with inBytes := content.length } = stats := by
  obtain ⟨c, -, -, -, -, rfl⟩ := slimPcapToWriter_eq_ok h
  rfl

/-! ## The files during a call -/

/-- The source is the inode `i` with `content`, and it is not the tmp file; there is
no marker. -/
structure Untouched (n : Name) (i : Ino Path) (content : Bytes) (fs : FileSystem Path) : Prop where
  src : fs.dir (srcPath n) = some i
  data : fs.data i = some content
  tmp : fs.dir (tmpPath n) ≠ some i
  marker : fs.dir (markerPath n) = none

/-- There is a tmp file: it is the inode `out` and holds `written`. -/
structure HasTmp (n : Name) (out : Ino Path) (written : Bytes) (fs : FileSystem Path) : Prop where
  isFile : ¬ TmpIsDir n
  dir : fs.dir (tmpPath n) = some out
  data : fs.data out = some written

/-- The source has been replaced by `output`. -/
structure Replaced (n : Name) (output : Bytes) (fs : FileSystem Path) : Prop where
  src : ∃ j, fs.dir (srcPath n) = some j ∧ fs.data j = some output

/-- A call that found no marker is over. -/
structure Finished (build : Build) (n : Name) (content : Bytes) (fs : FileSystem Path)
    (outcome : Outcome) : Prop where
  outcome : outcome = callOutcome build n content
  src : fs.read (srcPath n) = some ((slimOutput build n content).getD content)
  marker : fs.read (markerPath n) = (slimOutput build n content).map fun _ => []

/-- What holds at each place of a call that found no marker: `content` is in the
source, which is the inode `i`. -/
def CallInv (build : Build) (n : Name) (i : Ino Path) (content : Bytes) (fs : FileSystem Path) :
    Worker → Prop
  | .check | .create => Untouched n i content fs
  | .stat out => Untouched n i content fs ∧ HasTmp n out [] fs
  | .openSrc out inBytes =>
      Untouched n i content fs ∧ HasTmp n out [] fs ∧ inBytes = content.length
  | .copy out inp inBytes input written =>
      Untouched n i content fs ∧ inp = i ∧ inBytes = content.length ∧ input <+: content ∧
        written ≤ (emittedFor build input).length ∧
        HasTmp n out ((emittedFor build content).take written) fs
  | .statTmp stats =>
      Untouched n i content fs ∧ ∃ b out,
        callPass build n content = .ok (b, stats) ∧ HasTmp n out b.writer fs
  | .openTmp stats | .rename stats =>
      Untouched n i content fs ∧ ∃ b stats' out,
        callPass build n content = .ok (b, stats') ∧
        stats = { stats' with outBytes := b.writer.length } ∧ HasTmp n out b.writer fs
  | .count inp input stats =>
      Untouched n i content fs ∧ ∃ b stats',
        callPass build n content = .ok (b, stats') ∧
        stats = { stats' with outBytes := b.writer.length } ∧ HasTmp n inp b.writer fs ∧
        input <+: b.writer
  | .makeMarkerDir stats | .writeMarker stats =>
      fs.dir (markerPath n) = none ∧ ∃ b stats',
        callPass build n content = .ok (b, stats') ∧
        stats = { stats' with outBytes := b.writer.length } ∧ Replaced n b.writer fs
  | .chmodMarker stats =>
      fs.read (markerPath n) = some [] ∧ ∃ b stats',
        callPass build n content = .ok (b, stats') ∧
        stats = { stats' with outBytes := b.writer.length } ∧ Replaced n b.writer fs
  | .cleanup error =>
      Untouched n i content fs ∧ ∃ err, error = .pcap err ∧
        callPass build n content = .error (.error err)
  | .done outcome => Finished build n content fs outcome

namespace Untouched

variable {i : Ino Path} (h : Untouched n i content fs)
include h

theorem read_src : fs.read (srcPath n) = some content := by
  rw [FileSystem.read_of_dir h.src, h.data]

theorem create {j : Ino Path} (hcreate : fs.CanCreate (tmpPath n) j) :
    Untouched n i content (fs.apply (.create (tmpPath n) j)) := by
  have hne : i ≠ j := hcreate.ne (by rw [h.data]; nofun) h.tmp
  refine ⟨?_, ?_, ?_, ?_⟩
  · rw [FileSystem.dir_create_of_ne (tmpPath_ne_srcPath n).symm, h.src]
  · rw [FileSystem.data_create_of_ne hne, h.data]
  · rw [FileSystem.dir_create_self]
    exact fun heq => hne (Option.some.inj heq).symm
  · rw [FileSystem.dir_create_of_ne (markerPath_ne_tmpPath n n), h.marker]

theorem write {out : Ino Path} {written bytes : Bytes} {off : Nat}
    (htmp : HasTmp n out written fs) : Untouched n i content (fs.apply (.write out off bytes)) := by
  have hne : i ≠ out := by
    rintro rfl
    exact h.tmp htmp.dir
  exact ⟨h.src, by rw [FileSystem.data_write_of_ne hne, h.data], h.tmp, h.marker⟩

theorem remove : Untouched n i content (fs.apply (.remove (tmpPath n))) := by
  refine ⟨?_, h.data, ?_, ?_⟩
  · rw [FileSystem.dir_remove_of_ne (tmpPath_ne_srcPath n).symm, h.src]
  · rw [FileSystem.dir_remove_self]
    nofun
  · rw [FileSystem.dir_remove_of_ne (markerPath_ne_tmpPath n n), h.marker]

/-- A call that gives up has changed neither the source nor the marker. -/
theorem finished {failure : Failure} {outcome : Outcome}
    (hfail : callPass build n content = .error failure)
    (houtcome : outcome = callOutcome build n content) : Finished build n content fs outcome := by
  refine ⟨houtcome, ?_, ?_⟩
  · rw [slimOutput, hfail]
    exact h.read_src
  · rw [slimOutput, hfail]
    exact FileSystem.read_of_dir_none h.marker

end Untouched

theorem untouched_start {files : Path → Option Bytes} (hsrc : files (srcPath n) = some content)
    (hmarker : files (markerPath n) = none) :
    Untouched n ⟨srcPath n, 0⟩ content (FileSystem.ofFiles files) := by
  refine ⟨FileSystem.dir_ofFiles hsrc, hsrc, fun h => ?_, FileSystem.dir_ofFiles_none hmarker⟩
  exact tmpPath_ne_srcPath n (FileSystem.origin_of_dir_ofFiles h).symm

/-! ## One step -/

theorem read_prefix (h : input <+: content) (k : Nat) :
    input ++ (content.drop input.length).take k <+: content := by
  obtain ⟨more, rfl⟩ := h
  rw [List.drop_left, List.prefix_append_right_inj]
  exact List.take_prefix _ _

section Call

variable {i : Ino Path} {a : Action Path} {w w' : Worker}

/-- A call with the files to itself finds every path that it needs. -/
theorem CallInv.dir_ne_none {p : Path} (hinv : CallInv build n i content fs w)
    (hneeds : w.needs n = some p) : fs.dir p ≠ none := by
  cases w with
  | stat out | openSrc out inBytes =>
    cases hneeds
    rw [hinv.1.src]
    nofun
  | statTmp stats =>
    cases hneeds
    obtain ⟨-, b, out, -, htmp⟩ := hinv
    rw [htmp.dir]
    nofun
  | openTmp stats | rename stats =>
    cases hneeds
    obtain ⟨-, b, stats', out, -, -, htmp⟩ := hinv
    rw [htmp.dir]
    nofun
  | check | create | copy _ _ _ _ _ | count _ _ _ | makeMarkerDir _ | writeMarker _
  | chmodMarker _ | cleanup _ | done _ => cases hneeds

/-- The tmp file holds the part of the output that has been written. -/
theorem HasTmp.write {out : Ino Path} {written : Nat} {bytes whole : Bytes}
    (htmp : HasTmp n out (whole.take written) fs) (hwritten : written ≤ whole.length)
    (hbytes : bytes <+: whole.drop written) :
    HasTmp n out (whole.take (written + bytes.length)) (fs.apply (.write out written bytes)) := by
  have hlen : (whole.take written).length = written := by
    rw [List.length_take]
    omega
  refine ⟨htmp.isFile, htmp.dir, ?_⟩
  rw [FileSystem.data_write_self htmp.data,
    overwrite_eq_take (List.take_prefix _ _) (Nat.le_of_eq hlen.symm) hbytes, hlen,
    Nat.max_eq_right (Nat.le_add_right _ _)]

/-- **A step of a call with the files to itself keeps the invariant.** -/
theorem callInv_step (hfaults : σ.faults = false) (hinv : CallInv σ.build n i content fs w)
    (hstep : WorkerStep σ n fs w a w') : CallInv σ.build n i content (fs.apply a) w' := by
  cases hstep with
  | marked h => exact absurd hinv.marker h
  | unmarked h => exact hinv
  | create hfile h =>
    exact ⟨hinv.create h, hfile, FileSystem.dir_create_self, FileSystem.data_create_self⟩
  | createDir hdir => exact ⟨hinv, _, rfl, callPass_of_dir hdir⟩
  | stat hdir hdata =>
    obtain ⟨hsrc, htmp⟩ := hinv
    cases hsrc.src.symm.trans hdir
    cases hsrc.data.symm.trans hdata
    exact ⟨hsrc, htmp, rfl⟩
  | openSrc hdir =>
    obtain ⟨hsrc, htmp, hin⟩ := hinv
    cases hsrc.src.symm.trans hdir
    exact ⟨hsrc, rfl, hin, List.nil_prefix, Nat.zero_le _, htmp⟩
  | readSrc k hdata hmore hk =>
    obtain ⟨hsrc, rfl, hin, hstart, hwritten, htmp⟩ := hinv
    cases hsrc.data.symm.trans hdata
    exact ⟨hsrc, rfl, hin, read_prefix hstart k,
      hwritten.trans (emittedFor_mono σ.build (List.prefix_append _ _)).length_le, htmp⟩
  | @writeTmp out inp inBytes input written bytes hbytes hne =>
    obtain ⟨hsrc, rfl, hin, hstart, hwritten, htmp⟩ := hinv
    have hmono := emittedFor_mono σ.build hstart
    have hlen := hbytes.length_le
    rw [List.length_drop] at hlen
    refine ⟨hsrc.write htmp, rfl, hin, hstart, by omega, ?_⟩
    exact htmp.write (hwritten.trans hmono.length_le) (hbytes.trans (hmono.drop written))
  | copyPanic h =>
    obtain ⟨hsrc, -, -, hstart, -, htmp⟩ := hinv
    obtain ⟨fault, hfault⟩ := slimPcapToWriter_panic_mono hstart h
    rw [← callPass_of_file htmp.isFile] at hfault
    exact hsrc.finished hfault (by rw [callOutcome, hfault]; rfl)
  | copyError hdata hdetects h =>
    obtain ⟨hsrc, rfl, -, hstart, -, htmp⟩ := hinv
    cases hsrc.data.symm.trans hdata
    refine ⟨hsrc, _, rfl, ?_⟩
    rw [callPass_of_file htmp.isFile, slim_of_detects hstart hdetects h]
  | @copyDone out inp inBytes input written content' b stats hdata hend h hwritten =>
    obtain ⟨hsrc, rfl, rfl, hstart, -, htmp⟩ := hinv
    cases hsrc.data.symm.trans hdata
    cases hstart.eq_of_length_le hend
    rw [inBytes_slimmed h]
    rw [emittedFor_of_slims h, hwritten, List.take_length] at htmp
    exact ⟨hsrc, b, out, (callPass_of_file htmp.isFile).trans h, htmp⟩
  | statTmp hdir hdata =>
    obtain ⟨hsrc, b, out, h, htmp⟩ := hinv
    cases htmp.dir.symm.trans hdir
    cases htmp.data.symm.trans hdata
    exact ⟨hsrc, b, _, _, h, rfl, htmp⟩
  | openTmp hdir =>
    obtain ⟨hsrc, b, stats', out, h, hstats, htmp⟩ := hinv
    cases htmp.dir.symm.trans hdir
    exact ⟨hsrc, b, stats', h, hstats, htmp, List.nil_prefix⟩
  | readTmp k hdata hmore hk =>
    obtain ⟨hsrc, b, stats', h, hstats, htmp, hstart⟩ := hinv
    cases htmp.data.symm.trans hdata
    exact ⟨hsrc, b, stats', h, hstats, htmp, read_prefix hstart k⟩
  | countError hdata hdetects herr =>
    obtain ⟨-, b, stats', h, -, htmp, hstart⟩ := hinv
    cases htmp.data.symm.trans hdata
    cases (count_of_detects hstart hdetects (verifyTmpPacketCount_eq_pcap.mp herr)).symm.trans
      (count_slimmed (callPass_eq_ok h).2)
  | countMismatch hdata hend hcount =>
    obtain ⟨-, b, stats', h, rfl, htmp, hstart⟩ := hinv
    cases htmp.data.symm.trans hdata
    cases hstart.eq_of_length_le hend
    have hok : verifyTmpPacketCount stats'.inPkts (display (tmpName n)) b.writer = .ok () :=
      verifyTmpPacketCount_eq_ok.mpr (count_slimmed (callPass_eq_ok h).2)
    cases hcount.symm.trans hok
  | countMatch hdata hend hcount =>
    obtain ⟨hsrc, b, stats', h, hstats, htmp, -⟩ := hinv
    exact ⟨hsrc, b, stats', _, h, hstats, htmp⟩
  | rename hdir =>
    obtain ⟨hsrc, b, stats', out, h, hstats, htmp⟩ := hinv
    refine ⟨?_, b, stats', h, hstats, out, ?_, htmp.data⟩
    · rw [FileSystem.dir_rename htmp.dir, if_neg (markerPath_ne_srcPath n n),
        if_neg (markerPath_ne_tmpPath n n), hsrc.marker]
    · rw [FileSystem.dir_rename htmp.dir, if_pos rfl]
  | makeMarkerDir => exact hinv
  | @writeMarker stats j hcreate =>
    obtain ⟨hmarker, b, stats', h, hstats, j', hsrc, hdata⟩ := hinv
    have hne : j' ≠ j := hcreate.ne (by rw [hdata]; nofun) (by rw [hmarker]; nofun)
    refine ⟨?_, b, stats', h, hstats, j', ?_, ?_⟩
    · rw [FileSystem.read_of_dir FileSystem.dir_create_self, FileSystem.data_create_self]
    · rw [FileSystem.dir_create_of_ne (markerPath_ne_srcPath n n).symm, hsrc]
    · rw [FileSystem.data_create_of_ne hne, hdata]
  | chmodMarker =>
    obtain ⟨hmarker, b, stats', h, rfl, j, hsrc, hdata⟩ := hinv
    refine ⟨?_, ?_, ?_⟩
    · rw [callOutcome, h]
      rfl
    · rw [slimOutput, h]
      exact (FileSystem.read_of_dir hsrc).trans hdata
    · rw [slimOutput, h]
      exact hmarker
  | cleanup hfile =>
    obtain ⟨hsrc, err, rfl, h⟩ := hinv
    exact hsrc.remove.finished h (by rw [callOutcome, h]; rfl)
  | cleanupDir hdir =>
    obtain ⟨hsrc, err, rfl, h⟩ := hinv
    exact hsrc.finished h (by rw [callOutcome, h]; rfl)
  | missing hneeds hgone => exact absurd hgone (hinv.dir_ne_none hneeds)
  | fail e h => rw [hfaults] at h; cases h

/-- How many steps are left at most, for a source of `size` bytes with `total`
bytes of output. -/
def remaining (size total : Nat) : Worker → Nat
  | .check => size + 2 * total + 12
  | .create => size + 2 * total + 11
  | .stat _ => size + 2 * total + 10
  | .openSrc _ _ => size + 2 * total + 9
  | .copy _ _ _ input written => (size - input.length) + (total - written) + total + 8
  | .statTmp _ => total + 7
  | .openTmp _ => total + 6
  | .count _ input _ => (total - input.length) + 5
  | .rename _ => 4
  | .makeMarkerDir _ => 3
  | .writeMarker _ => 2
  | .chmodMarker _ | .cleanup _ => 1
  | .done _ => 0

/-- Every step brings the call nearer to its end. -/
theorem remaining_lt (hfaults : σ.faults = false) (hinv : CallInv σ.build n i content fs w)
    (hstep : WorkerStep σ n fs w a w') :
    remaining content.length (emittedFor σ.build content).length w' <
      remaining content.length (emittedFor σ.build content).length w := by
  cases hstep with
  | readSrc k hdata hmore hk =>
    obtain ⟨hsrc, rfl, -⟩ := hinv
    cases hsrc.data.symm.trans hdata
    simp only [remaining, List.length_append, List.length_take, List.length_drop]
    omega
  | @writeTmp out inp inBytes input written bytes hbytes hne =>
    obtain ⟨-, -, -, hstart, -⟩ := hinv
    have hpos := List.length_pos_iff.mpr hne
    have hlen := hbytes.length_le
    have hmono := (emittedFor_mono σ.build hstart).length_le
    rw [List.length_drop] at hlen
    simp only [remaining]
    omega
  | readTmp k hdata hmore hk =>
    obtain ⟨-, b, stats', h, -, htmp, -⟩ := hinv
    cases htmp.data.symm.trans hdata
    rw [emittedFor_of_slims (callPass_eq_ok h).2]
    simp only [remaining, List.length_append, List.length_take, List.length_drop]
    omega
  | missing hneeds hgone => exact absurd hgone (hinv.dir_ne_none hneeds)
  | fail e h => rw [hfaults] at h; cases h
  | openSrc hdir | openTmp hdir =>
    simp only [remaining, List.length_nil]
    omega
  | marked | unmarked | create | createDir | stat | copyPanic | copyError | copyDone | statTmp
  | countError | countMismatch | countMatch | rename | makeMarkerDir | writeMarker | chmodMarker
  | cleanup | cleanupDir =>
    simp only [remaining]
    omega

/-- A call that is not over has a next step. -/
theorem exists_step (hinv : CallInv σ.build n i content fs w) (hrunning : w.isDone = false) :
    ∃ a w', WorkerStep σ n fs w a w' := by
  cases w with
  | check => exact ⟨_, _, .unmarked hinv.marker⟩
  | create =>
    by_cases htmp : TmpIsDir n
    · exact ⟨_, _, .createDir htmp⟩
    · obtain ⟨j, hj⟩ := fs.exists_canCreate (tmpPath n)
      exact ⟨_, _, .create htmp hj⟩
  | stat out => exact ⟨_, _, .stat hinv.1.src hinv.1.data⟩
  | openSrc out inBytes => exact ⟨_, _, .openSrc hinv.1.src⟩
  | copy out inp inBytes input written =>
    obtain ⟨hsrc, rfl, -, hstart, hwritten, -⟩ := hinv
    by_cases hmore : input.length < content.length
    · exact ⟨_, _, .readSrc content.length hsrc.data hmore (by omega)⟩
    have hend : content.length ≤ input.length := by omega
    cases h : slimPcapToWriter σ.build (display n) input with
    | error failure =>
      cases failure with
      | panic fault => exact ⟨_, _, .copyPanic h⟩
      | error err => exact ⟨_, _, .copyError hsrc.data (.inl hend) h⟩
    | ok result =>
      obtain ⟨b, stats⟩ := result
      rw [emittedFor_of_slims h] at hwritten
      by_cases hall : written = b.writer.length
      · exact ⟨_, _, .copyDone hsrc.data hend h hall⟩
      · refine ⟨_, _, .writeTmp List.prefix_rfl fun hnil => ?_⟩
        rw [emittedFor_of_slims h, List.drop_eq_nil_iff] at hnil
        omega
  | statTmp stats =>
    obtain ⟨-, b, out, -, htmp⟩ := hinv
    exact ⟨_, _, .statTmp htmp.dir htmp.data⟩
  | openTmp stats =>
    obtain ⟨-, b, stats', out, -, -, htmp⟩ := hinv
    exact ⟨_, _, .openTmp htmp.dir⟩
  | count inp input stats =>
    obtain ⟨-, b, stats', h, rfl, htmp, hstart⟩ := hinv
    have hcount : verifyTmpPacketCount stats'.inPkts (display (tmpName n)) b.writer = .ok () :=
      verifyTmpPacketCount_eq_ok.mpr (count_slimmed (callPass_eq_ok h).2)
    by_cases hmore : input.length < b.writer.length
    · exact ⟨_, _, .readTmp b.writer.length htmp.data hmore (by omega)⟩
    · obtain rfl := hstart.eq_of_length_le (by omega)
      exact ⟨_, _, .countMatch htmp.data (Nat.le_refl _) hcount⟩
  | rename stats =>
    obtain ⟨-, b, stats', out, -, -, htmp⟩ := hinv
    exact ⟨_, _, .rename htmp.dir⟩
  | makeMarkerDir stats => exact ⟨_, _, .makeMarkerDir⟩
  | writeMarker stats =>
    obtain ⟨j, hj⟩ := fs.exists_canCreate (markerPath n)
    exact ⟨_, _, .writeMarker hj⟩
  | chmodMarker stats => exact ⟨_, _, .chmodMarker⟩
  | cleanup error =>
    by_cases htmp : TmpIsDir n
    · exact ⟨_, _, .cleanupDir htmp⟩
    · exact ⟨_, _, .cleanup htmp⟩
  | done outcome => cases hrunning

/-- The call has not come to its rename. -/
def Worker.beforeRename : Worker → Prop
  | .check | .create | .stat _ | .openSrc _ _ | .copy _ _ _ _ _ | .statTmp _ | .openTmp _
  | .count _ _ _ => True
  | _ => False

/-- A call for a source that slims comes to its rename. -/
theorem beforeRename_step (hfaults : σ.faults = false) {output : Bytes}
    (hslims : slimOutput σ.build n content = some output)
    (hinv : CallInv σ.build n i content fs w) (hbefore : w.beforeRename)
    (hstep : WorkerStep σ n fs w a w') : w'.beforeRename ∨ ∃ stats, w' = .rename stats := by
  have hno : ∀ {failure}, callPass σ.build n content ≠ .error failure := by
    intro failure h
    rw [slimOutput, h] at hslims
    cases hslims
  have hinv' := callInv_step hfaults hinv hstep
  cases hstep with
  | marked h => exact absurd hinv.marker h
  | copyPanic h =>
    obtain ⟨-, -, -, hstart, -, htmp⟩ := hinv
    obtain ⟨fault, hfault⟩ := slimPcapToWriter_panic_mono hstart h
    exact absurd ((callPass_of_file htmp.isFile).trans hfault) hno
  | createDir | copyError | countError | countMismatch =>
    obtain ⟨-, err, -, herr⟩ := hinv'
    exact absurd herr hno
  | countMatch => exact .inr ⟨_, rfl⟩
  | missing hneeds hgone => exact absurd hgone (hinv.dir_ne_none hneeds)
  | fail e h => rw [hfaults] at h; cases h
  | unmarked | create | stat | openSrc | readSrc | writeTmp | copyDone | statTmp | openTmp | readTmp =>
    exact .inl trivial
  | rename | makeMarkerDir | writeMarker | chmodMarker | cleanup | cleanupDir =>
    exact hbefore.elim

end Call

/-! ## A whole call -/

theorem advance_self {ι : Type} [DecidableEq ι] {s : System ι} {i : ι} {a : Action Path}
    {w : Worker} : (s.advance i a w).workers i = w := Function.update_self ..

theorem advance_of_ne {ι : Type} [DecidableEq ι] {s : System ι} {i k : ι} {a : Action Path}
    {w : Worker} (h : k ≠ i) : (s.advance i a w).workers k = s.workers k :=
  Function.update_of_ne h ..

/-- What holds of the call that acts and of the others holds of all calls. -/
theorem forall_advance {ι : Type} [DecidableEq ι] (P : ι → Worker → Prop) {s : System ι} {i : ι}
    {a : Action Path} {w : Worker} (hself : P i w) (hothers : ∀ k, k ≠ i → P k (s.workers k))
    (k : ι) : P k ((s.advance i a w).workers k) := by
  by_cases hk : k = i
  · subst hk
    rwa [advance_self]
  · rw [advance_of_ne hk]
    exact hothers k hk

section Alone

variable {i : Ino Path} {s s' : System Unit}

theorem step_alone (hcrashes : σ.crashes = false) (hstep : Step σ (onFile n) s s') :
    ∃ a, WorkerStep σ n s.fs (s.workers ()) a (s'.workers ()) ∧ s'.fs = s.fs.apply a := by
  obtain ⟨⟨⟩, h⟩ := hstep
  cases h with
  | act h => exact ⟨_, by rw [advance_self]; exact h, rfl⟩
  | restart h => rw [hcrashes] at h; cases h

theorem callInv_run (hfaults : σ.faults = false) (hcrashes : σ.crashes = false)
    (hrun : Run σ (onFile n) s s') (hinv : CallInv σ.build n i content s.fs (s.workers ())) :
    CallInv σ.build n i content s'.fs (s'.workers ()) := by
  refine Lib.Run.invariant_of_run
    (fun s => CallInv σ.build n i content s.fs (s.workers ())) (fun t t' ht hstep => ?_)
    hrun hinv
  obtain ⟨a, hworker, hfs⟩ := step_alone hcrashes hstep
  rw [hfs]
  exact callInv_step hfaults ht hworker

/-- **What a call does that has the files to itself and finds no marker.** -/
theorem call_alone (hfaults : σ.faults = false) (hcrashes : σ.crashes = false)
    (hrun : Run σ (onFile n) s s') (hcheck : s.workers () = .check)
    (hsrc : Untouched n i content s.fs) {outcome : Outcome}
    (hdone : s'.workers () = .done outcome) :
    Finished σ.build n content s'.fs outcome := by
  have hinv : CallInv σ.build n i content s.fs (s.workers ()) := by
    rw [hcheck]
    exact hsrc
  have hinv' := callInv_run hfaults hcrashes hrun hinv
  rw [hdone] at hinv'
  exact hinv'

/-- A call that finds a marker changes nothing. -/
theorem call_marked (hfaults : σ.faults = false) (hcrashes : σ.crashes = false)
    (hrun : Run σ (onFile n) s s') (hcheck : s.workers () = .check)
    (hmarker : s.fs.dir (markerPath n) ≠ none) :
    s'.fs = s.fs ∧ (s'.workers () = .check ∨ s'.workers () = .done .skipped) := by
  refine Lib.Run.invariant_of_run
    (fun t : System Unit =>
      t.fs = s.fs ∧ (t.workers () = .check ∨ t.workers () = .done .skipped))
    (fun t t' ht hstep => ?_) hrun ⟨rfl, .inl hcheck⟩
  obtain ⟨a, hworker, hfs⟩ := step_alone hcrashes hstep
  obtain ⟨hsame, hw⟩ := ht
  rw [hsame] at hworker hfs
  rcases hw with hw | hw
  · rw [hw] at hworker
    generalize t'.workers () = w' at hworker
    cases hworker with
    | marked h => exact ⟨hfs, .inr rfl⟩
    | unmarked h => exact absurd h hmarker
    | missing hneeds => cases hneeds
    | fail e h => rw [hfaults] at h; cases h
  · rw [hw] at hworker
    generalize t'.workers () = w' at hworker
    cases hworker with
    | missing hneeds => cases hneeds
    | fail e h => rw [hfaults] at h; cases h

/-- A call that has the files to itself can be finished from everywhere. -/
theorem exists_done (hfaults : σ.faults = false)
    (hinv : CallInv σ.build n i content s.fs (s.workers ())) :
    ∃ s', Run σ (onFile n) s s' ∧ (s'.workers ()).isDone = true := by
  generalize hk : remaining content.length (emittedFor σ.build content).length (s.workers ()) = k
  induction k using Nat.strong_induction_on generalizing s with
  | _ k ih =>
    by_cases hdone : (s.workers ()).isDone = true
    · exact ⟨s, .refl, hdone⟩
    · obtain ⟨a, w', hstep⟩ := exists_step hinv (Bool.eq_false_iff.mpr hdone)
      obtain ⟨s', hrun, hdone'⟩ := ih _ (hk ▸ remaining_lt hfaults hinv hstep)
        (s := s.advance () a w') (by rw [advance_self]; exact callInv_step hfaults hinv hstep)
        (by rw [advance_self])
      exact ⟨s', .head ⟨(), .act hstep⟩ hrun, hdone'⟩

/-- It can be brought there. -/
theorem exists_rename (hfaults : σ.faults = false) {output : Bytes}
    (hslims : slimOutput σ.build n content = some output)
    (hinv : CallInv σ.build n i content s.fs (s.workers ()))
    (hbefore : (s.workers ()).beforeRename) :
    ∃ s' stats, Run σ (onFile n) s s' ∧ s'.workers () = .rename stats ∧
      CallInv σ.build n i content s'.fs (.rename stats) := by
  generalize hk : remaining content.length (emittedFor σ.build content).length (s.workers ()) = k
  induction k using Nat.strong_induction_on generalizing s with
  | _ k ih =>
    have hrunning : (s.workers ()).isDone = false := by
      cases hw : s.workers () with
      | done outcome => rw [hw] at hbefore; exact hbefore.elim
      | _ => rfl
    obtain ⟨a, w', hstep⟩ := exists_step hinv hrunning
    have hinv' := callInv_step hfaults hinv hstep
    rcases beforeRename_step hfaults hslims hinv hbefore hstep with hbefore' | ⟨stats, rfl⟩
    · obtain ⟨s', stats, hrun, hs'⟩ := ih _ (hk ▸ remaining_lt hfaults hinv hstep)
        (s := s.advance () a w') (by rwa [advance_self]) (by rwa [advance_self])
        (by rw [advance_self])
      exact ⟨s', stats, .head ⟨(), .act hstep⟩ hrun, hs'⟩
    · exact ⟨_, stats, .single ⟨(), .act hstep⟩, advance_self, hinv'⟩

end Alone

end PcapSlim.Coord
