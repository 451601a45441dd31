/-
PcapSlim.Coord — `coord.rs`: slimming a file in place, step by step.

`slim_file_in_place` is a `Worker`: the constructors are the places where it is
about to make a system call, with the variables that are live there, and
`WorkerStep` has one constructor for each call that it makes. Between two calls
other workers can act, so that `create` of the tmp file, the reads and writes of
the pass and of the packet counter, the rename and the marker are steps of their
own. Reads and writes have any size: the buffers of `BufReader` and `BufWriter`
are not modelled, only that what has been written is a part of the output for
what has been read (`emittedFor`). The errors of the pass are those of
`slimPcapToWriter` and `countPackets` on the bytes read.

Where a setting has `faults`, every call may fail; where it has `crashes`, a call
may be cut off anywhere and made again. Paths are relative to the directory of
the file. For the one name `..pcap` the tmp path is `..`: a directory can be neither
created nor removed as a file, so that this capture is never slimmed. Left out: the
directory `.slim_markers` itself, the owner and mode of files and the memory-mapped
reader. `cleanup_stale_tmp` and `list_pending_pcaps` work on files with times and are
in `Directory`.
-/
import PcapSlim.Capture
import PcapSlim.Lib.Files
import Mathlib.Logic.Relation

namespace PcapSlim.Coord

open Lib.Octets Lib.Files Packet PcapIo Capture

/-! ## Names and paths -/

/-- The name of a file in the directory, neither `.` nor `..`. -/
abbrev Name : Type := List Char

def dotPcap : Name := ['.', 'p', 'c', 'a', 'p']
def dotPcapTmp : Name := dotPcap ++ ['.', 't', 'm', 'p']

/-- A file of the directory, or of its subdirectory `.slim_markers`. -/
inductive Path where
  | file (name : Name)
  | marker (name : Name)
  deriving DecidableEq

/-- The directory above, which is no file name. -/
def dotDot : Name := ['.', '.']

/-- `Path::file_stem`: the part before the last dot. A name without a dot, with
only a leading one, or made of two dots is its own stem. -/
def fileStem (name : Name) : Name :=
  if name = dotDot then name
  else
    match name.reverse.dropWhile (· ≠ '.') with
    | [] => name
    | _ :: before => if before = [] then name else before.reverse

/-- `Path::with_extension`: the stem and its dot stay, and the new extension is set on
that. Where the stem is a dot this leaves `..`, which has no name to set it on. -/
def withExtension (name extension : Name) : Name :=
  if fileStem name = ['.'] then dotDot else fileStem name ++ '.' :: extension

/-- The names that `list_pending_pcaps` lets through. -/
def isPendingName (name : Name) : Bool :=
  dotPcap.isSuffixOf name && !dotPcapTmp.isSuffixOf name

def tmpName (name : Name) : Name := withExtension name ['p', 'c', 'a', 'p', '.', 't', 'm', 'p']

/-- The tmp path is the directory above: `..pcap` is the capture where it is. -/
def TmpIsDir (name : Name) : Prop := tmpName name = dotDot

instance (name : Name) : Decidable (TmpIsDir name) := inferInstanceAs (Decidable (_ = _))

def srcPath (name : Name) : Path := .file name
def tmpPath (name : Name) : Path := .file (tmpName name)

/-- `marker_path`. -/
def markerPath (name : Name) : Path := .marker name

/-- How a path is spelled in an error. -/
def display (name : Name) : String := String.ofList name

/-! ## Results -/

/-- `CoordError`. -/
inductive CoordError where
  | io (error : IoError)
  | pcap (error : PcapError)
  | packetCountMismatch (expected outCount : Nat)
  deriving DecidableEq, Repr

/-- `verify_tmp_packet_count` for a tmp file with the given contents. -/
def verifyTmpPacketCount (expected : Nat) (path : String) (tmp : Bytes) : Except CoordError Unit :=
  match countPackets path tmp with
  | .error err => .error (.pcap err)
  | .ok outCount =>
      if outCount ≠ expected then .error (.packetCountMismatch expected outCount) else .ok ()

/-- `FileResult`. -/
inductive FileResult where
  | skippedMarker
  | ok
  deriving DecidableEq, Repr

/-- How a call ends: it returns, or a panic of the pass goes through it. -/
inductive Outcome where
  | returned (result : Except CoordError (FileResult × Option SlimStats))
  | panicked

/-- `Ok((FileResult::SkippedMarker, None))`. -/
def Outcome.skipped : Outcome := .returned (.ok (.skippedMarker, none))

/-- `Ok((FileResult::Ok, Some(stats)))`. -/
def Outcome.slimmed (stats : SlimStats) : Outcome := .returned (.ok (.ok, some stats))

/-- `Err(error)`. -/
def Outcome.failed (error : CoordError) : Outcome := .returned (.error error)

/-! ## One call -/

/-- How the program was built, and what may go wrong in a run. -/
structure Setting where
  build : Build
  faults : Bool
  crashes : Bool

/-- Nothing fails and nothing is cut off. -/
def Setting.quiet (build : Build) : Setting := { build, faults := false, crashes := false }

/-- Where a call of `slim_file_in_place` is. `out` is the inode of the tmp file
that it created, `inp` the one that it reads, `input` what it has read of it and
`written` how much it has written. -/
inductive Worker where
  | check
  | create
  | stat (out : Ino Path)
  | openSrc (out : Ino Path) (inBytes : Nat)
  | copy (out inp : Ino Path) (inBytes : Nat) (input : Bytes) (written : Nat)
  | statTmp (stats : SlimStats)
  | openTmp (stats : SlimStats)
  | count (inp : Ino Path) (input : Bytes) (stats : SlimStats)
  | rename (stats : SlimStats)
  | makeMarkerDir (stats : SlimStats)
  | writeMarker (stats : SlimStats)
  | chmodMarker (stats : SlimStats)
  | cleanup (error : CoordError)
  | done (outcome : Outcome)

namespace Worker

/-- Where a call goes on when the call it is about to make fails with `e`. -/
def failed (e : IoError) : Worker → Worker
  | check => create  -- `exists` is then false
  | create | stat _ | openSrc _ _ | copy _ _ _ _ _ | statTmp _ => cleanup (.pcap (.io e))
  | openTmp _ | count _ _ _ => cleanup (.pcap (.io e))
  | rename _ | makeMarkerDir _ | writeMarker _ | chmodMarker _ => done (.failed (.io e))
  | cleanup error => done (.failed error)
  | done outcome => done outcome

/-- The path that has to be there for the next call. -/
def needs (n : Name) : Worker → Option Path
  | stat _ | openSrc _ _ => some (srcPath n)
  | statTmp _ | openTmp _ | rename _ => some (tmpPath n)
  | _ => none

def isDone : Worker → Bool
  | done _ => true
  | _ => false

end Worker

/-- Having read `input` from the front of `content`, the reader can report `err`:
it is at the end, or it has a global header that it rejects. -/
def Detects (path : String) (content input : Bytes) (err : PcapError) : Prop :=
  content.length ≤ input.length ∨
    (pcapHdrLen ≤ input.length ∧ readGlobalHeader input path = .error err)

/-- One step of `slim_file_in_place` for the file `n`, and what it does to the files. -/
inductive WorkerStep (σ : Setting) (n : Name) (fs : FileSystem Path) :
    Worker → Action Path → Worker → Prop
  -- `is_marked`
  | marked (h : fs.dir (markerPath n) ≠ none) :
      WorkerStep σ n fs .check .idle (.done .skipped)
  | unmarked (h : fs.dir (markerPath n) = none) :
      WorkerStep σ n fs .check .idle .create
  -- `slim_pcap_with_options`
  | create {j} (hfile : ¬ TmpIsDir n) (h : fs.CanCreate (tmpPath n) j) :
      WorkerStep σ n fs .create (.create (tmpPath n) j) (.stat j)
  | createDir (hdir : TmpIsDir n) :
      WorkerStep σ n fs .create .idle (.cleanup (.pcap (.io .isADirectory)))
  | stat {out i content} (hdir : fs.dir (srcPath n) = some i) (hdata : fs.data i = some content) :
      WorkerStep σ n fs (.stat out) .idle (.openSrc out content.length)
  | openSrc {out inBytes i} (hdir : fs.dir (srcPath n) = some i) :
      WorkerStep σ n fs (.openSrc out inBytes) .idle (.copy out i inBytes [] 0)
  | readSrc {out inp inBytes input written content} (k : Nat) (hdata : fs.data inp = some content)
      (hmore : input.length < content.length) (hk : 0 < k) :
      WorkerStep σ n fs (.copy out inp inBytes input written) .idle
        (.copy out inp inBytes (input ++ (content.drop input.length).take k) written)
  | writeTmp {out inp inBytes input written bytes}
      (hbytes : bytes <+: (emittedFor σ.build input).drop written) (hne : bytes ≠ []) :
      WorkerStep σ n fs (.copy out inp inBytes input written) (.write out written bytes)
        (.copy out inp inBytes input (written + bytes.length))
  | copyPanic {out inp inBytes input written fault}
      (h : slimPcapToWriter σ.build (display n) input = .error (.panic fault)) :
      WorkerStep σ n fs (.copy out inp inBytes input written) .idle (.done .panicked)
  | copyError {out inp inBytes input written content err} (hdata : fs.data inp = some content)
      (hdetects : Detects (display n) content input err)
      (h : slimPcapToWriter σ.build (display n) input = .error (.error err)) :
      WorkerStep σ n fs (.copy out inp inBytes input written) .idle (.cleanup (.pcap err))
  | copyDone {out inp inBytes input written content b stats} (hdata : fs.data inp = some content)
      (hend : content.length ≤ input.length)
      (h : slimPcapToWriter σ.build (display n) input = .ok (b, stats))
      (hwritten : written = b.writer.length) :
      WorkerStep σ n fs (.copy out inp inBytes input written) .idle (.statTmp { stats with inBytes })
  | statTmp {stats i content} (hdir : fs.dir (tmpPath n) = some i)
      (hdata : fs.data i = some content) :
      WorkerStep σ n fs (.statTmp stats) .idle (.openTmp { stats with outBytes := content.length })
  -- `verify_tmp_packet_count`
  | openTmp {stats i} (hdir : fs.dir (tmpPath n) = some i) :
      WorkerStep σ n fs (.openTmp stats) .idle (.count i [] stats)
  | readTmp {inp input stats content} (k : Nat) (hdata : fs.data inp = some content)
      (hmore : input.length < content.length) (hk : 0 < k) :
      WorkerStep σ n fs (.count inp input stats) .idle
        (.count inp (input ++ (content.drop input.length).take k) stats)
  | countError {inp input stats content err} (hdata : fs.data inp = some content)
      (hdetects : Detects (display (tmpName n)) content input err)
      (h : verifyTmpPacketCount stats.inPkts (display (tmpName n)) input = .error (.pcap err)) :
      WorkerStep σ n fs (.count inp input stats) .idle (.cleanup (.pcap err))
  | countMismatch {inp input stats content outCount} (hdata : fs.data inp = some content)
      (hend : content.length ≤ input.length)
      (h : verifyTmpPacketCount stats.inPkts (display (tmpName n)) input =
        .error (.packetCountMismatch stats.inPkts outCount)) :
      WorkerStep σ n fs (.count inp input stats) .idle
        (.cleanup (.packetCountMismatch stats.inPkts outCount))
  | countMatch {inp input stats content} (hdata : fs.data inp = some content)
      (hend : content.length ≤ input.length)
      (h : verifyTmpPacketCount stats.inPkts (display (tmpName n)) input = .ok ()) :
      WorkerStep σ n fs (.count inp input stats) .idle (.rename stats)
  -- `fs::rename` and `create_marker`
  | rename {stats j} (h : fs.dir (tmpPath n) = some j) :
      WorkerStep σ n fs (.rename stats) (.rename (tmpPath n) (srcPath n)) (.makeMarkerDir stats)
  | makeMarkerDir {stats} :
      WorkerStep σ n fs (.makeMarkerDir stats) .idle (.writeMarker stats)
  | writeMarker {stats j} (h : fs.CanCreate (markerPath n) j) :
      WorkerStep σ n fs (.writeMarker stats) (.create (markerPath n) j) (.chmodMarker stats)
  | chmodMarker {stats} :
      WorkerStep σ n fs (.chmodMarker stats) .idle (.done (.slimmed stats))
  -- `let _ = fs::remove_file(&tmp)`
  | cleanup {error} (hfile : ¬ TmpIsDir n) :
      WorkerStep σ n fs (.cleanup error) (.remove (tmpPath n)) (.done (.failed error))
  | cleanupDir {error} (hdir : TmpIsDir n) :
      WorkerStep σ n fs (.cleanup error) .idle (.done (.failed error))
  -- a path is gone, or any other failure
  | missing {w p} (hneeds : w.needs n = some p) (hgone : fs.dir p = none) :
      WorkerStep σ n fs w .idle (w.failed .notFound)
  | fail {w} (e : IoError) (hfaults : σ.faults = true) (hrunning : w.isDone = false) :
      WorkerStep σ n fs w .idle (w.failed e)

/-! ## Several calls -/

/-- Calls on one set of files; call `i` is for the file `name i`. -/
structure System (ι : Type) where
  fs : FileSystem Path
  workers : ι → Worker

variable {ι : Type}

/-- All calls are for the file `n`. -/
def onFile (n : Name) : ι → Name := fun _ => n

/-- All calls are about to start. -/
def System.start (files : Path → Option Bytes) : System ι :=
  { fs := .ofFiles files, workers := fun _ => .check }

variable [DecidableEq ι]

/-- Call `i` goes on to `w` and does `a` to the files. -/
def System.advance (s : System ι) (i : ι) (a : Action Path) (w : Worker) : System ι :=
  { fs := s.fs.apply a, workers := Function.update s.workers i w }

/-- A step of the system in which call `i` acts, or is cut off and made again. -/
inductive SysStep (σ : Setting) (name : ι → Name) (i : ι) (s : System ι) : System ι → Prop
  | act {a w} (h : WorkerStep σ (name i) s.fs (s.workers i) a w) :
      SysStep σ name i s (s.advance i a w)
  | restart (h : σ.crashes = true) :
      SysStep σ name i s (s.advance i .idle .check)

/-- Some call makes a step. -/
def Step (σ : Setting) (name : ι → Name) (s s' : System ι) : Prop := ∃ i, SysStep σ name i s s'

/-- The steps of the calls in any order. -/
def Run (σ : Setting) (name : ι → Name) : System ι → System ι → Prop :=
  Relation.ReflTransGen (Step σ name)

end PcapSlim.Coord
