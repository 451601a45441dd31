/-
PcapSlim.Report — `output.rs`: what a run reports about its files, and the texts
of the errors.

The text of an operating system error is not the program's own: it is the
parameter `osText`. Times are in milliseconds and come from outside. Of printing
there is only what is printed, not how numbers and braces are laid out.
-/
import PcapSlim.Coord

namespace PcapSlim.Report

open PcapIo Coord

/-! ## The texts of the errors -/

section Display

variable (osText : IoError → String)

/-- `impl Display for PcapError`. -/
def displayPcapError : PcapError → String
  | .io error => "IO error: " ++ osText error
  | .invalid message => "invalid or unsupported pcap: " ++ message
  | .pcapng path =>
      "'" ++ path ++ "' is pcapng format (not supported). Convert with: editcap -F pcap '" ++ path ++
        "' '<path>.pcap'"

/-- `impl Display for CoordError`. -/
def displayCoordError : CoordError → String
  | .io error => "IO error: " ++ osText error
  | .pcap error => "pcap error: " ++ displayPcapError osText error
  | .packetCountMismatch expected outCount =>
      "packet count mismatch: expected=" ++ toString expected ++ " out=" ++ toString outCount

end Display

/-! ## Reports -/

/-- `FileStatus`. -/
inductive FileStatus where
  | ok
  | skippedMarker
  | fail
  deriving DecidableEq, Repr

/-- `FileReport`. -/
structure FileReport where
  file : String
  status : FileStatus
  inPkts : Option Nat
  truncated : Option Nat
  kept : Option Nat
  inBytes : Option Nat
  outBytes : Option Nat
  elapsedMs : Option Nat
  error : Option String
  deriving DecidableEq, Repr

namespace FileReport

/-- `FileReport::skipped_marker`. -/
def skippedMarker (path : String) : FileReport where
  file := path
  status := .skippedMarker
  inPkts := none
  truncated := none
  kept := none
  inBytes := none
  outBytes := none
  elapsedMs := none
  error := none

/-- `FileReport::fail`. -/
def fail (path err : String) : FileReport where
  file := path
  status := .fail
  inPkts := none
  truncated := none
  kept := none
  inBytes := none
  outBytes := none
  elapsedMs := none
  error := some err

/-- `FileReport::ok`. -/
def ok (path : String) (stats : SlimStats) (elapsedMs : Nat) : FileReport where
  file := path
  status := .ok
  inPkts := some stats.inPkts
  truncated := some stats.truncated
  kept := some stats.kept
  inBytes := some stats.inBytes
  outBytes := some stats.outBytes
  elapsedMs := some elapsedMs
  error := none

/-- The `match result` of `run`: the report of a call that has returned. -/
def ofResult (osText : IoError → String) (path : String) (elapsedMs : Nat) :
    Except CoordError (FileResult × Option SlimStats) → FileReport
  | .ok (.ok, some stats) => ok path stats elapsedMs
  | .ok (.skippedMarker, _) => skippedMarker path
  | .ok (.ok, none) => fail path "unexpected empty result"
  | .error e => fail path (displayCoordError osText e)

end FileReport

/-- `RunSummary`. -/
structure RunSummary where
  ok : Nat
  skip : Nat
  fail : Nat
  elapsedMs : Nat
  checkOnly : Bool
  deriving DecidableEq, Repr

/-- The body of `for r in &file_reports`. -/
def RunSummary.count (summary : RunSummary) (r : FileReport) : RunSummary :=
  match r.status with
  | .ok => { summary with ok := summary.ok + 1 }
  | .skippedMarker => { summary with skip := summary.skip + 1 }
  | .fail => { summary with fail := summary.fail + 1 }

/-- `RunReport`. -/
structure RunReport where
  summary : RunSummary
  files : List FileReport
  deriving DecidableEq, Repr

/-- The end of `run`: the summary of the reports of all files. -/
def RunReport.ofFiles (files : List FileReport) (elapsedMs : Nat) (checkOnly : Bool) : RunReport where
  summary := files.foldl RunSummary.count { ok := 0, skip := 0, fail := 0, elapsedMs, checkOnly }
  files := files

/-- The report when there is nothing to do. -/
def RunReport.empty (checkOnly : Bool) : RunReport where
  summary := { ok := 0, skip := 0, fail := 0, elapsedMs := 0, checkOnly }
  files := []

end PcapSlim.Report
