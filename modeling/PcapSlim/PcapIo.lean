/-
PcapSlim.PcapIo — `pcap_io.rs`: the streaming slim pass, the packet counter and
the dry run.

Reads and writes that fail are modelled where they matter, in `Coord`; here a
reader is the list of the bytes that it has not yet delivered and a writer the
list of the bytes that it has received, so that the one I/O error left is the
end of the input. A panic of `process_packet` is a `Failure.panic`.

The pass keeps its buffers from one record to the next as the source does.
`FrameBuf` is a `Vec` with its spare capacity: `set_len` moves the length over
bytes of earlier frames, and the field `fits` is the safety condition of that
`unsafe` call. The record header is decoded and encoded in place. `WriteBatch`
holds records back until a batch is full. The `limits` argument is a log of the
byte counts that `account_io` is called with; the other calls of the limits are in
`Workload`.
-/
import PcapSlim.Packet

namespace PcapSlim

open Lib.Buffer Lib.Octets

namespace PcapIo

open Packet

def pcapHdrLen : Nat := 24
def pcapRecHdrLen : Nat := 16
def writeBatchCap : Nat := 512 * 1024
def skipBufCap : Nat := 65536

def magicLe : UInt32 := 0xa1b2c3d4
def magicBe : UInt32 := 0xd4c3b2a1

def pcapngMagic : Bytes := [0x0a, 0x0d, 0x0d, 0x0a]

/-- The kinds of `io::Error` that are told apart. -/
inductive IoError where
  | unexpectedEof
  | notFound
  | isADirectory
  | other
  deriving DecidableEq, Repr

/-- `PcapError`. -/
inductive PcapError where
  | io (error : IoError)
  | invalid (message : String)
  | pcapng (path : String)
  deriving DecidableEq, Repr

/-- How a pass over a file ends early: it panics, or it returns an error. -/
inductive Failure where
  | panic (fault : Fault)
  | error (error : PcapError)
  deriving DecidableEq, Repr

/-- `Endian`. -/
structure Endian where
  le : Bool
  deriving DecidableEq, Repr

/-- `Endian::read_u32`. -/
def Endian.readU32 (e : Endian) (buf : Bytes) : UInt32 :=
  if e.le then fromLe32 buf else fromBe32 buf

/-- The bytes that `Endian::write_u32` stores. -/
def Endian.bytes (e : Endian) (v : UInt32) : Bytes :=
  if e.le then toLe32 v else toBe32 v

/-- `endian.write_u32(&mut buf[off..off + 4], v)`. -/
def Endian.writeU32 (e : Endian) (buf : Bytes) (off : Nat) (v : UInt32) : Bytes :=
  buf.take off ++ e.bytes v ++ buf.drop (off + 4)

/-- `SlimStats`. -/
structure SlimStats where
  inPkts : Nat
  truncated : Nat
  kept : Nat
  inBytes : Nat
  outBytes : Nat
  deriving DecidableEq, Repr

/-! ## Reading -/

/-- `read_exact` for `n` bytes: what it fills in, and what is left to read. -/
def readExact (input : Bytes) (n : Nat) : Except IoError (Bytes × Bytes) :=
  if n ≤ input.length then .ok (input.take n, input.drop n) else .error .unexpectedEof

/-- `check_magic_bytes`. -/
def checkMagicBytes (magic : Bytes) (path : String) : Except PcapError Unit :=
  if magic = pcapngMagic then .error (.pcapng path) else .ok ()

/-- `detect_endian`. -/
def detectEndian (ghdr : Bytes) : Except PcapError Endian :=
  let magic := fromLe32 (ghdr.take 4)
  if magic = magicLe then .ok ⟨true⟩
  else if magic = magicBe then .ok ⟨false⟩
  else
    let magicOther := fromBe32 (ghdr.take 4)
    if magicOther = magicLe then .ok ⟨true⟩
    else if magicOther = magicBe then .ok ⟨false⟩
    else .error (.invalid "unknown pcap magic")

/-- `read_global_header`: the byte order, the header, and what is left to read. -/
def readGlobalHeader (input : Bytes) (path : String) :
    Except PcapError (Endian × Bytes × Bytes) := do
  match readExact input pcapHdrLen with
  | .error .unexpectedEof => .error (.invalid "file too short for pcap header")
  | .error e => .error (.io e)
  | .ok (ghdr, rest) =>
      checkMagicBytes (ghdr.take 4) path
      let endian ← detectEndian ghdr
      return (endian, ghdr, rest)

/-- A `Vec<u8>`: the memory it owns and how much of it is in use. -/
structure FrameBuf where
  mem : Bytes
  len : Nat
  fits : len ≤ mem.length
  deriving DecidableEq, Repr

namespace FrameBuf

/-- `Vec::with_capacity`. -/
def withCapacity (n : Nat) : FrameBuf := ⟨List.replicate n 0, 0, Nat.zero_le _⟩

/-- The bytes in use. -/
def bytes (buf : FrameBuf) : Bytes := buf.mem.take buf.len

/-- `Vec::reserve`: memory for `extra` more bytes, uninitialised. -/
def reserve (buf : FrameBuf) (extra : Nat) : FrameBuf :=
  ⟨buf.mem ++ List.replicate (buf.len + extra - buf.mem.length) 0, buf.len, by
    have := buf.fits
    rw [List.length_append]
    omega⟩

theorem length_reserve (buf : FrameBuf) (extra : Nat) :
    buf.len + extra ≤ (buf.reserve extra).mem.length := by
  simp only [reserve, List.length_append, List.length_replicate]
  omega

/-- `Vec::set_len`, with its safety condition. -/
def setLen (buf : FrameBuf) (n : Nat) (h : n ≤ buf.mem.length) : FrameBuf := ⟨buf.mem, n, h⟩

/-- The first `n` bytes in use, whatever they hold. -/
def resize (buf : FrameBuf) (n : Nat) : FrameBuf :=
  if h : buf.len < n then
    (buf.reserve (n - buf.len)).setLen n <| by
      have := buf.length_reserve (n - buf.len)
      omega
  else buf.setLen n (Nat.le_trans (Nat.not_lt.mp h) buf.fits)

/-- Overwrite the front of the memory. -/
def fill (buf : FrameBuf) (src : Bytes) : FrameBuf :=
  ⟨src ++ buf.mem.drop src.length, buf.len, by
    have := buf.fits
    rw [List.length_append, List.length_drop]
    omega⟩

end FrameBuf

/-- `read_frame_into`. -/
def readFrameInto (input : Bytes) (frameBuf : FrameBuf) (inclLen : Nat) :
    Except IoError (FrameBuf × Bytes) := do
  let frameBuf := frameBuf.resize inclLen
  if 0 < inclLen then
    let (src, rest) ← readExact input inclLen
    return (frameBuf.fill src, rest)
  return (frameBuf, input)

/-! ## Writing -/

/-- `WriteBatch`, with what its writer has received and what was accounted. -/
structure WriteBatch where
  buf : Bytes
  writer : Bytes
  accounted : List Nat
  deriving DecidableEq, Repr

namespace WriteBatch

/-- `account_io`. -/
def account (b : WriteBatch) (n : Nat) : WriteBatch :=
  { b with accounted := b.accounted ++ [n] }

/-- `WriteBatch::flush`. -/
def flush (b : WriteBatch) : WriteBatch :=
  if b.buf.isEmpty then b
  else
    { buf := [], writer := b.writer ++ b.buf, accounted := b.accounted ++ [b.buf.length] }

/-- `WriteBatch::write_record`. -/
def writeRecord (b : WriteBatch) (recHdr frame : Bytes) : WriteBatch :=
  let need := pcapRecHdrLen + frame.length
  let b := if !b.buf.isEmpty && b.buf.length + need > writeBatchCap then b.flush else b
  { b with buf := b.buf ++ recHdr ++ frame }

end WriteBatch

/-! ## The slim pass -/

/-- The variables of the record loop. -/
structure SlimState where
  input : Bytes
  frameBuf : FrameBuf
  batch : WriteBatch
  stats : SlimStats

/-- `frame_out`: the bytes that replace `frame`. -/
def frameOut (outcome : PacketOutcome) (frame : Bytes) : Bytes :=
  match outcome with
  | .keep => frame
  | .truncated buf => buf

/-- The loop body once `frame_buf` holds the frame of the record with header
`recHdr`: process it, count it, and batch the record with its header rewritten. -/
def slimRecord (build : Build) (endian : Endian) (recHdr : Bytes) (s : SlimState) :
    Except Failure SlimState :=
  let tsSec := endian.readU32 (recHdr.take 4)
  let tsUsec := endian.readU32 ((recHdr.take 8).drop 4)
  let origLen := endian.readU32 ((recHdr.take 16).drop 12)
  match processPacket build s.frameBuf.bytes with
  | .error fault => .error (.panic fault)
  | .ok (outcome, wasTruncated) =>
      let frameOut := frameOut outcome s.frameBuf.bytes
      let stats := { s.stats with inPkts := s.stats.inPkts + 1 }
      let stats :=
        if wasTruncated then { stats with truncated := stats.truncated + 1 }
        else { stats with kept := stats.kept + 1 }
      let newIncl := UInt32.ofNat frameOut.length  -- `as u32`
      let recHdr := endian.writeU32 recHdr 0 tsSec
      let recHdr := endian.writeU32 recHdr 4 tsUsec
      let recHdr := endian.writeU32 recHdr 8 newIncl
      let recHdr := endian.writeU32 recHdr 12 origLen
      .ok { s with batch := s.batch.writeRecord recHdr frameOut, stats }

/-- One round of the loop of `slim_pcap_to_writer_with_options`; `none` is its
`break`. -/
def slimRound (build : Build) (endian : Endian) (s : SlimState) :
    Except Failure (Option SlimState) :=
  match readExact s.input pcapRecHdrLen with
  | .error .unexpectedEof => .ok none
  | .error e => .error (.error (.io e))
  | .ok (recHdr, input) =>
      let batch := s.batch.account pcapRecHdrLen
      let inclLen := (endian.readU32 ((recHdr.take 12).drop 8)).toNat
      match readFrameInto input s.frameBuf inclLen with
      | .error e => .error (.error (.io e))
      | .ok (frameBuf, input) =>
          let batch := batch.account inclLen
          match slimRecord build endian recHdr { s with input, frameBuf, batch } with
          | .error failure => .error failure
          | .ok s => .ok (some s)

/-- The record loop, for at most `fuel` rounds. -/
def slimLoop (build : Build) (endian : Endian) : (fuel : Nat) → SlimState →
    Except Failure SlimState
  | 0, s => .ok s
  | fuel + 1, s => do
      match ← slimRound build endian s with
      | none => return s
      | some s => slimLoop build endian fuel s

/-- The variables before the first round: the global header has been copied. -/
def slimStart (ghdr rest : Bytes) (inBytes : Nat) : SlimState :=
  { input := rest
    frameBuf := .withCapacity 2048
    batch := { buf := [], writer := ghdr, accounted := [pcapHdrLen, pcapHdrLen] }
    stats := { inPkts := 0, truncated := 0, kept := 0, inBytes, outBytes := 0 } }

/-- `slim_pcap_to_writer_with_options` on a file with the given contents. -/
def slimPcapToWriter (build : Build) (path : String) (input : Bytes) :
    Except Failure (WriteBatch × SlimStats) :=
  match readGlobalHeader input path with
  | .error e => .error (.error e)
  | .ok (endian, ghdr, rest) => do
      let s ← slimLoop build endian (input.length + 1) (slimStart ghdr rest input.length)
      return (s.batch.flush, s.stats)

/-- `slim_pcap_with_options` on a file with the given contents: the output file and
the numbers. -/
def slimPcap (build : Build) (path : String) (input : Bytes) :
    Except Failure (Bytes × SlimStats) := do
  let (b, stats) ← slimPcapToWriter build path input
  return (b.writer, { stats with outBytes := b.writer.length })

/-! ## The packet counter -/

/-- `skip_packet_body`, for at most `fuel` chunks. -/
def skipPacketBody : (fuel : Nat) → (input : Bytes) → (remaining : Nat) → Except IoError Bytes
  | 0, input, _ => .ok input
  | fuel + 1, input, remaining =>
      if 0 < remaining then do
        let chunk := min remaining skipBufCap
        let (_, rest) ← readExact input chunk
        skipPacketBody fuel rest (remaining - chunk)
      else .ok input

/-- The loop of `count_packets_with_options`, for at most `fuel` rounds. -/
def countLoop (endian : Endian) : (fuel : Nat) → (input : Bytes) → (count : Nat) →
    Except PcapError Nat
  | 0, _, count => .ok count
  | fuel + 1, input, count =>
      match readExact input pcapRecHdrLen with
      | .error .unexpectedEof => .ok count
      | .error e => .error (.io e)
      | .ok (recHdr, input) =>
          let inclLen := (endian.readU32 ((recHdr.take 12).drop 8)).toNat
          match skipPacketBody inclLen input inclLen with
          | .error e => .error (.io e)
          | .ok input => countLoop endian fuel input (count + 1)

/-- `count_packets_with_options`. -/
def countPackets (path : String) (input : Bytes) : Except PcapError Nat := do
  let (endian, _, rest) ← readGlobalHeader input path
  countLoop endian (input.length + 1) rest 0

/-! ## The dry run -/

/-- `projected_file_size`. -/
def projectedFileSize (globalHdrLen perPacketOut : Nat) : Nat := globalHdrLen + perPacketOut

/-- The variables of the record loop of `analyze_pcap_with_options`. -/
structure AnalyzeState where
  input : Bytes
  frameBuf : FrameBuf
  bodyBytes : Nat
  stats : SlimStats

/-- The loop body once `frame_buf` holds the frame of a record: process it, count
it, and add the length of the record that the slim pass would write. -/
def analyzeRecord (build : Build) (s : AnalyzeState) : Except Failure AnalyzeState :=
  match processPacket build s.frameBuf.bytes with
  | .error fault => .error (.panic fault)
  | .ok (outcome, wasTruncated) =>
      let stats := { s.stats with inPkts := s.stats.inPkts + 1 }
      let outLen :=
        match outcome with
        | .keep => s.frameBuf.bytes.length
        | .truncated buf => buf.length
      let stats :=
        if wasTruncated then { stats with truncated := stats.truncated + 1 }
        else { stats with kept := stats.kept + 1 }
      .ok { s with bodyBytes := s.bodyBytes + (pcapRecHdrLen + outLen), stats }

/-- One round of the loop; `none` is its `break`. -/
def analyzeRound (build : Build) (endian : Endian) (s : AnalyzeState) :
    Except Failure (Option AnalyzeState) :=
  match readExact s.input pcapRecHdrLen with
  | .error .unexpectedEof => .ok none
  | .error e => .error (.error (.io e))
  | .ok (recHdr, input) =>
      let inclLen := (endian.readU32 ((recHdr.take 12).drop 8)).toNat
      match readFrameInto input s.frameBuf inclLen with
      | .error e => .error (.error (.io e))
      | .ok (frameBuf, input) =>
          match analyzeRecord build { s with input, frameBuf } with
          | .error failure => .error failure
          | .ok s => .ok (some s)

/-- The loop, for at most `fuel` rounds. -/
def analyzeLoop (build : Build) (endian : Endian) : (fuel : Nat) → AnalyzeState →
    Except Failure AnalyzeState
  | 0, s => .ok s
  | fuel + 1, s => do
      match ← analyzeRound build endian s with
      | none => return s
      | some s => analyzeLoop build endian fuel s

/-- The variables before the first round. -/
def analyzeStart (rest : Bytes) (inBytes : Nat) : AnalyzeState :=
  { input := rest
    frameBuf := .withCapacity 2048
    bodyBytes := 0
    stats := { inPkts := 0, truncated := 0, kept := 0, inBytes, outBytes := 0 } }

/-- `analyze_pcap_with_options` on a file with the given contents. -/
def analyzePcap (build : Build) (path : String) (input : Bytes) : Except Failure SlimStats :=
  match readGlobalHeader input path with
  | .error e => .error (.error e)
  | .ok (endian, _, rest) => do
      let s ← analyzeLoop build endian (input.length + 1) (analyzeStart rest input.length)
      return { s.stats with outBytes := projectedFileSize pcapHdrLen s.bodyBytes }

end PcapIo

end PcapSlim
