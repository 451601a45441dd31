/-
PcapSlim.Workload — `pcap_io.rs` and `coord.rs`: what a pass asks of the limits.

The three passes over a file are modelled in `PcapIo` by what they compute. Here they
are written once more as what they do meanwhile that counts against a limit, one
`Event` after the other: bytes that a read or a write moves, each followed by the
`account_io` for it, `flush_limits`, and a `cpu_tick` for every 64th packet. The event
lists follow the source line by line and end where the pass ends early.

A byte is moved when the pass gets it from its `BufReader` or hands it to its `BufWriter`.
What these do ahead and behind is left out: a reader takes up to `READ_BUF_CAP`, 4 MiB, from
the file before it hands out the first byte, a writer keeps as much back.

Bytes of a read that fails, or of a header that is refused, are moved and never
accounted for (`Event.unaccounted`).
-/
import PcapSlim.PcapIo
import PcapSlim.Limit

namespace PcapSlim.PcapIo

open Lib.Buffer Lib.Octets Packet Limit

/-- `CPU_TICK_INTERVAL`. -/
def cpuTickInterval : Nat := 64

/-- What a pass does that counts against a limit. -/
inductive Event where
  | moved (bytes : Nat)
  | unaccounted (bytes : Nat)
  | call (call : Call)
  | cpuTick
  deriving DecidableEq, Repr

/-- A read or a write, and `account_io` for it. -/
def accountIo (bytes : Nat) : List Event := [.moved bytes, .call (.acquireIo bytes)]

/-- `flush_limits`. -/
def flushLimits : List Event := [.call .flushIo]

/-- `maybe_cpu_tick`. -/
def maybeCpuTick (pktIndex : Nat) : List Event :=
  if 0 < pktIndex ∧ pktIndex % cpuTickInterval = 0 then [.cpuTick] else []

/-- A `read_exact` for `n` bytes, which are accounted for if they are there. It moves what it
hands out, whatever the buffer reads ahead. -/
def readEvents (input : Bytes) (n : Nat) : List Event :=
  if n ≤ input.length then accountIo n else [.unaccounted input.length]

/-- The reads of one round, the same in the three loops: the header of a record and, behind
it, the body that it announces. -/
def recordReads (endian : Endian) (input : Bytes) : List Event :=
  readEvents input pcapRecHdrLen ++
    match readExact input pcapRecHdrLen with
    | .error _ => []
    | .ok (recHdr, input) => readEvents input (endian.readU32 ((recHdr.take 12).drop 8)).toNat

/-- `read_global_header`. -/
def globalHeaderEvents (path : String) (input : Bytes) : List Event :=
  match readGlobalHeader input path with
  | .error _ => [.unaccounted (min pcapHdrLen input.length)]
  | .ok _ => accountIo pcapHdrLen

/-! ## The slim pass -/

/-- `WriteBatch::flush`. -/
def WriteBatch.flushEvents (b : WriteBatch) : List Event :=
  if b.buf.isEmpty then [] else accountIo b.buf.length

/-- `WriteBatch::write_record`. -/
def WriteBatch.writeRecordEvents (b : WriteBatch) (frame : Bytes) : List Event :=
  let need := pcapRecHdrLen + frame.length
  if !b.buf.isEmpty && b.buf.length + need > writeBatchCap then b.flushEvents else []

/-- The loop body once `frame_buf` holds the frame of a record. -/
def slimRecordEvents (build : Build) (s : SlimState) : List Event :=
  match processPacket build s.frameBuf.bytes with
  | .error _ => []
  | .ok (outcome, _) =>
      s.batch.writeRecordEvents (frameOut outcome s.frameBuf.bytes) ++
        maybeCpuTick (s.stats.inPkts + 1)

/-- One round of the loop of `slim_pcap_to_writer_with_options`. -/
def slimRoundEvents (build : Build) (endian : Endian) (s : SlimState) : List Event :=
  recordReads endian s.input ++
    match readExact s.input pcapRecHdrLen with
    | .error _ => []
    | .ok (recHdr, input) =>
        let inclLen := (endian.readU32 ((recHdr.take 12).drop 8)).toNat
        match readFrameInto input s.frameBuf inclLen with
        | .error _ => []
        | .ok (frameBuf, input) => slimRecordEvents build { s with input, frameBuf }

/-- The record loop, for at most `fuel` rounds. -/
def slimLoopEvents (build : Build) (endian : Endian) : (fuel : Nat) → SlimState → List Event
  | 0, _ => []
  | fuel + 1, s =>
      slimRoundEvents build endian s ++
        match slimRound build endian s with
        | .ok (some s) => slimLoopEvents build endian fuel s
        | _ => []

/-- `slim_pcap_with_options` on a file with the given contents. -/
def slimPcapEvents (build : Build) (path : String) (input : Bytes) : List Event :=
  globalHeaderEvents path input ++
    match readGlobalHeader input path with
    | .error _ => []
    | .ok (endian, ghdr, rest) =>
        let start := slimStart ghdr rest input.length
        accountIo pcapHdrLen ++ slimLoopEvents build endian (input.length + 1) start ++
          match slimLoop build endian (input.length + 1) start with
          | .error _ => []
          | .ok s => s.batch.flushEvents ++ flushLimits ++ flushLimits

/-! ## The packet counter -/

/-- The loop of `count_packets_with_options`, for at most `fuel` rounds. -/
def countLoopEvents (endian : Endian) : (fuel : Nat) → (input : Bytes) → (count : Nat) →
    List Event
  | 0, _, _ => []
  | fuel + 1, input, count =>
      recordReads endian input ++
        match readExact input pcapRecHdrLen with
        | .error _ => flushLimits
        | .ok (recHdr, input) =>
            let inclLen := (endian.readU32 ((recHdr.take 12).drop 8)).toNat
            match skipPacketBody inclLen input inclLen with
            | .error _ => []
            | .ok input => maybeCpuTick (count + 1) ++ countLoopEvents endian fuel input (count + 1)

/-- `count_packets_with_options`. -/
def countEvents (path : String) (input : Bytes) : List Event :=
  globalHeaderEvents path input ++
    match readGlobalHeader input path with
    | .error _ => []
    | .ok (endian, _, rest) => countLoopEvents endian (input.length + 1) rest 0

/-! ## The dry run -/

/-- The loop of `analyze_pcap_with_options`, for at most `fuel` rounds. -/
def analyzeLoopEvents (build : Build) (endian : Endian) : (fuel : Nat) → AnalyzeState →
    List Event
  | 0, _ => []
  | fuel + 1, s =>
      recordReads endian s.input ++
        match analyzeRound build endian s with
        | .error _ => []
        | .ok none => flushLimits
        | .ok (some s) => maybeCpuTick s.stats.inPkts ++ analyzeLoopEvents build endian fuel s

/-- `analyze_pcap_with_options` on a file with the given contents. -/
def analyzeEvents (build : Build) (path : String) (input : Bytes) : List Event :=
  globalHeaderEvents path input ++
    match readGlobalHeader input path with
    | .error _ => []
    | .ok (endian, _, rest) =>
        analyzeLoopEvents build endian (input.length + 1) (analyzeStart rest input.length)

/-! ## Files -/

/-- A file to be processed: its contents, and whether it is only checked. -/
structure Job where
  build : Build
  path : String
  input : Bytes
  checkOnly : Bool

/-- `check_file` or `slim_file_in_place` on a file without a marker. The output of the slim
pass is counted. -/
def Job.events (job : Job) : List Event :=
  if job.checkOnly then analyzeEvents job.build job.path job.input
  else
    slimPcapEvents job.build job.path job.input ++
      match slimPcap job.build job.path job.input with
      | .error _ => []
      | .ok (out, _) => countEvents job.path out

/-- A worker takes its files one after the other. -/
def jobEvents (jobs : List Job) : List Event := jobs.flatMap Job.events

end PcapSlim.PcapIo
