/-
PcapSlim.Capture — the libpcap file format, and slimming as a map over records.

A `PcapFile` is a global header with one of the two magic numbers, a list of
records and fewer than 16 bytes behind them; `PcapFile.bytes` is the file.
`PcapFile.slim` is what the tool is for: the same file with each frame replaced
by what `process_packet` makes of it. Neither mentions buffers, batches or
loops.

`splitRecords` reads any byte string back into its complete records and what is
left over. The lemmas say that it inverts the encoding, and that a longer input
has the records of a shorter one first.
-/
import PcapSlim.PacketTheorems
import PcapSlim.PcapIo

namespace PcapSlim.Capture

open Lib.Buffer Lib.Octets PcapIo Packet

/-! ## Records -/

/-- A record whose frame length fits its 32-bit field. -/
@[ext]
structure Record where
  tsSec : UInt32
  tsUsec : UInt32
  origLen : UInt32
  frame : Bytes
  fits : frame.length < 4294967296

namespace Record

/-- The four fields of the record header, then the frame. -/
def encode (e : Endian) (r : Record) : Bytes :=
  e.bytes r.tsSec ++ e.bytes r.tsUsec ++ e.bytes (UInt32.ofNat r.frame.length) ++
    e.bytes r.origLen ++ r.frame

end Record

/-- Records back to back. -/
def encodeRecords (e : Endian) (records : List Record) : Bytes := records.flatMap (Record.encode e)

@[simp] theorem length_bytes (e : Endian) (v : UInt32) : (e.bytes v).length = 4 := by
  unfold Endian.bytes
  split <;> rfl

theorem readU32_bytes (e : Endian) (v : UInt32) : e.readU32 (e.bytes v) = v := by
  unfold Endian.readU32 Endian.bytes
  cases e.le with
  | true => exact fromLe32_toLe32 v
  | false => exact fromBe32_toBe32 v

theorem bytes_readU32 (e : Endian) {bs : Bytes} (h : bs.length = 4) :
    e.bytes (e.readU32 bs) = bs := by
  unfold Endian.readU32 Endian.bytes
  cases e.le with
  | true => exact toLe32_fromLe32 h
  | false => exact toBe32_fromBe32 h

@[simp] theorem length_encode (e : Endian) (r : Record) :
    (r.encode e).length = 16 + r.frame.length := by
  simp only [Record.encode, List.length_append, length_bytes]

/-! ## Reading records back -/

/-- The length that the record header at the front of `input` gives its frame. -/
def inclLenOf (e : Endian) (input : Bytes) : Nat := (e.readU32 ((input.take 12).drop 8)).toNat

theorem inclLenOf_lt (e : Endian) (input : Bytes) : inclLenOf e input < 4294967296 :=
  (e.readU32 ((input.take 12).drop 8)).toNat_lt

/-- The record at the front of `input`, if it is complete, and what is behind it. -/
def nextRecord (e : Endian) (input : Bytes) : Option (Record × Bytes) :=
  if 16 + inclLenOf e input ≤ input.length then
    some ({ tsSec := e.readU32 (input.take 4)
            tsUsec := e.readU32 ((input.take 8).drop 4)
            origLen := e.readU32 ((input.take 16).drop 12)
            frame := (input.drop 16).take (inclLenOf e input)
            fits := Nat.lt_of_le_of_lt (List.length_take_le _ _) (inclLenOf_lt e input) },
      input.drop (16 + inclLenOf e input))
  else none

/-- Two cuts of the first bytes of `input` are the bytes between. -/
theorem take_append_window (input : Bytes) {m n : Nat} (h : m ≤ n) :
    input.take m ++ (input.take n).drop m = input.take n := by
  have hm : input.take m = (input.take n).take m := by rw [List.take_take, Nat.min_eq_left h]
  rw [hm, List.take_append_drop]

theorem nextRecord_eq_some {e : Endian} {input rest : Bytes} {r : Record}
    (h : nextRecord e input = some (r, rest)) : input = r.encode e ++ rest := by
  unfold nextRecord at h
  split_ifs at h with hlen
  have hinj := Prod.mk.inj (Option.some.inj h)
  obtain ⟨rfl, rfl⟩ := hinj
  have hwindow : ∀ lo, lo + 4 ≤ 16 → ((input.take (lo + 4)).drop lo).length = 4 := by
    intro lo hlo
    rw [length_window lo (by omega), Nat.add_sub_cancel_left]
  have hframe : ((input.drop 16).take (inclLenOf e input)).length = inclLenOf e input := by
    rw [List.length_take, List.length_drop]
    omega
  have hincl : UInt32.ofNat (inclLenOf e input) = e.readU32 ((input.take 12).drop 8) :=
    UInt32.ofNat_toNat
  simp only [Record.encode, hframe, hincl]
  rw [bytes_readU32 e (by rw [List.length_take]; omega), bytes_readU32 e (hwindow 4 (by omega)),
    bytes_readU32 e (hwindow 8 (by omega)), bytes_readU32 e (hwindow 12 (by omega)),
    take_append_window input (show 4 ≤ 8 by omega), take_append_window input (show 8 ≤ 12 by omega),
    take_append_window input (show 12 ≤ 16 by omega), List.append_assoc, ← List.drop_drop,
    List.take_append_drop, List.take_append_drop]

/-- Reading a window behind a prefix. -/
theorem window_append (pre body : Bytes) {lo hi : Nat} (h : pre.length = lo) :
    ((pre ++ body).take hi).drop lo = body.take (hi - lo) := by
  rw [← h, List.drop_take, List.drop_left]

theorem nextRecord_encode (e : Endian) (r : Record) (rest : Bytes) :
    nextRecord e (r.encode e ++ rest) = some (r, rest) := by
  have hsec : e.readU32 ((r.encode e ++ rest).take 4) = r.tsSec := by
    have : (r.encode e ++ rest).take 4 = e.bytes r.tsSec := by
      simp only [Record.encode, List.append_assoc]
      rw [List.take_append_of_le_length (by simp), List.take_of_length_le (by simp)]
    rw [this, readU32_bytes]
  have hfield : ∀ (pre body : Bytes) (v : UInt32), r.encode e ++ rest = pre ++ (e.bytes v ++ body) →
      e.readU32 (((r.encode e ++ rest).take (pre.length + 4)).drop pre.length) = v := by
    intro pre body v h
    rw [h, window_append _ _ rfl, Nat.add_sub_cancel_left,
      List.take_append_of_le_length (by simp), List.take_of_length_le (by simp), readU32_bytes]
  have husec : e.readU32 (((r.encode e ++ rest).take 8).drop 4) = r.tsUsec := by
    have h := hfield (e.bytes r.tsSec) _ r.tsUsec (by
      simp only [Record.encode, List.append_assoc]; rfl)
    simpa using h
  have hincl : inclLenOf e (r.encode e ++ rest) = r.frame.length := by
    have h := hfield (e.bytes r.tsSec ++ e.bytes r.tsUsec) _ (UInt32.ofNat r.frame.length) (by
      simp only [Record.encode, List.append_assoc]; rfl)
    have hfits := r.fits
    simp only [List.length_append, length_bytes] at h
    rw [inclLenOf, h, UInt32.toNat_ofNat', Nat.mod_eq_of_lt (by omega)]
  have horig : e.readU32 (((r.encode e ++ rest).take 16).drop 12) = r.origLen := by
    have h := hfield (e.bytes r.tsSec ++ e.bytes r.tsUsec ++
      e.bytes (UInt32.ofNat r.frame.length)) _ r.origLen (by
      simp only [Record.encode, List.append_assoc]; rfl)
    simpa using h
  have hframe : (r.encode e ++ rest).drop 16 = r.frame ++ rest := by
    have hpre : (e.bytes r.tsSec ++ e.bytes r.tsUsec ++ e.bytes (UInt32.ofNat r.frame.length) ++
        e.bytes r.origLen).length = 16 := by simp
    rw [Record.encode, List.append_assoc, ← hpre, List.drop_left]
  unfold nextRecord
  rw [if_pos (by rw [hincl, List.length_append, length_encode]; omega)]
  refine congrArg some (Prod.ext (Record.ext hsec husec horig ?_) ?_)
  · change ((r.encode e ++ rest).drop 16).take (inclLenOf e (r.encode e ++ rest)) = r.frame
    rw [hincl, hframe, List.take_left]
  · change (r.encode e ++ rest).drop (16 + inclLenOf e (r.encode e ++ rest)) = rest
    rw [hincl, ← List.drop_drop, hframe, List.drop_left]

theorem nextRecord_of_short {e : Endian} {input : Bytes} (h : input.length < 16) :
    nextRecord e input = none := by
  rw [nextRecord, if_neg (by omega)]

theorem nextRecord_length {e : Endian} {input rest : Bytes} {r : Record}
    (h : nextRecord e input = some (r, rest)) : rest.length < input.length := by
  rw [nextRecord_eq_some h, List.length_append, length_encode]
  omega

/-- The first of a list of records that was written is read back. -/
theorem nextRecord_encodeRecords (e : Endian) (r : Record) (records : List Record) (rest : Bytes) :
    nextRecord e (encodeRecords e (r :: records) ++ rest) =
      some (r, encodeRecords e records ++ rest) := by
  rw [encodeRecords, List.flatMap_cons, List.append_assoc, nextRecord_encode]
  rfl

/-- Without a complete record at the front, the body that is announced is cut. -/
theorem lt_of_nextRecord_none {e : Endian} {input : Bytes} (h : nextRecord e input = none) :
    input.length < 16 + inclLenOf e input := by
  by_contra hle
  rw [nextRecord, if_pos (by omega)] at h
  cases h

/-- The complete records of `input`, and what is behind them. -/
def splitRecords (e : Endian) (input : Bytes) : List Record × Bytes :=
  match _h : nextRecord e input with
  | none => ([], input)
  | some (r, rest) => (r :: (splitRecords e rest).1, (splitRecords e rest).2)
termination_by input.length
decreasing_by all_goals exact nextRecord_length _h

theorem splitRecords_of_none {e : Endian} {input : Bytes} (h : nextRecord e input = none) :
    splitRecords e input = ([], input) := by
  rw [splitRecords]
  split
  · rfl
  · rename_i h'
    rw [h] at h'
    cases h'

theorem splitRecords_cons (e : Endian) (r : Record) (rest : Bytes) :
    splitRecords e (r.encode e ++ rest) =
      (r :: (splitRecords e rest).1, (splitRecords e rest).2) := by
  rw [splitRecords]
  split
  · rename_i h
    rw [nextRecord_encode] at h
    cases h
  · rename_i h
    rw [nextRecord_encode] at h
    cases h
    rfl

/-- Splitting finds the records that were written first. -/
theorem splitRecords_append (e : Endian) (rest : Bytes) (records : List Record) :
    splitRecords e (encodeRecords e records ++ rest) =
      (records ++ (splitRecords e rest).1, (splitRecords e rest).2) := by
  induction records with
  | nil => rfl
  | cons r records ih =>
    rw [encodeRecords, List.flatMap_cons, List.append_assoc, splitRecords_cons, ← encodeRecords, ih]
    rfl

/-- Every input is its complete records and a rest without a complete record. -/
theorem splitRecords_spec (e : Endian) (input : Bytes) :
    input = encodeRecords e (splitRecords e input).1 ++ (splitRecords e input).2 ∧
      nextRecord e (splitRecords e input).2 = none := by
  induction input using splitRecords.induct e with
  | case1 input h =>
    rw [splitRecords_of_none h]
    exact ⟨rfl, h⟩
  | case2 input r rest h ih =>
    obtain ⟨hsplit, hnone⟩ := ih
    rw [nextRecord_eq_some h, splitRecords_cons]
    refine ⟨?_, hnone⟩
    rw [encodeRecords, List.flatMap_cons, List.append_assoc, ← encodeRecords, ← hsplit]

/-- A longer input starts with the records of a shorter one. -/
theorem splitRecords_mono (e : Endian) (input more : Bytes) :
    (splitRecords e input).1 <+: (splitRecords e (input ++ more)).1 := by
  conv_rhs => rw [(splitRecords_spec e input).1, List.append_assoc, splitRecords_append]
  exact List.prefix_append _ _

/-! ## Files -/

/-- A global header of 24 bytes whose magic number, in the byte order `e`, is the
one of libpcap. -/
def HasMagic (ghdr : Bytes) (e : Endian) : Prop :=
  ghdr.length = 24 ∧ ghdr.take 4 = e.bytes magicLe

/-- A libpcap file: at its end there may be part of a record header. -/
structure PcapFile where
  endian : Endian
  ghdr : Bytes
  magic : HasMagic ghdr endian
  records : List Record
  tail : Bytes
  tail_lt : tail.length < 16

def PcapFile.bytes (c : PcapFile) : Bytes := c.ghdr ++ encodeRecords c.endian c.records ++ c.tail

/-- `process_packet` returns for this frame. -/
def Returns (build : Build) (frame : Bytes) : Prop := ∃ r, processPacket build frame = .ok r

/-- What slimming makes of a frame, and whether it was cut. -/
def slimFrame (build : Build) (frame : Bytes) : Bytes × Bool :=
  match processPacket build frame with
  | .ok (.truncated g, cut) => (g, cut)
  | .ok (.keep, cut) => (frame, cut)
  | .error _ => (frame, false)

/-- Slimming never makes a frame longer. -/
theorem length_slimFrame_le (build : Build) (frame : Bytes) :
    (slimFrame build frame).1.length ≤ frame.length := by
  unfold slimFrame
  split
  · rename_i g cut h
    obtain ⟨p, l4, sum, hlayout, hcuts, -, rfl, -⟩ := processPacket_truncated h
    have hlong := hcuts.long hlayout
    rw [Truncate.length_rewritten, hlong.length_shortened]
    exact Nat.le_of_lt hlong.cut_lt
  · exact Nat.le_refl _
  · exact Nat.le_refl _

/-- A record with its frame slimmed and nothing else changed. -/
def Record.slim (build : Build) (r : Record) : Record :=
  { r with
    frame := (slimFrame build r.frame).1
    fits := Nat.lt_of_le_of_lt (length_slimFrame_le build r.frame) r.fits }

theorem encode_slim (build : Build) (e : Endian) (r : Record) :
    (r.slim build).encode e =
      e.bytes r.tsSec ++ e.bytes r.tsUsec ++
        e.bytes (UInt32.ofNat (slimFrame build r.frame).1.length) ++ e.bytes r.origLen ++
        (slimFrame build r.frame).1 := rfl

/-- The slimmed file: the same header, the slimmed records, nothing behind them. -/
def PcapFile.slim (build : Build) (c : PcapFile) : PcapFile :=
  { c with records := c.records.map (Record.slim build), tail := [], tail_lt := by decide }

/-- The output for the part of a file that has been read: the global header and
the slimmed records that are complete, up to the first that stops the program.
The pass never writes anything else. -/
def emittedFor (build : Build) (input : Bytes) : Bytes :=
  match readGlobalHeader input "" with
  | .error _ => []
  | .ok (e, ghdr, rest) =>
      let records := (splitRecords e rest).1.takeWhile fun r => (processPacket build r.frame).isOk
      ghdr ++ encodeRecords e (records.map (Record.slim build))

/-- How many of the records are cut. -/
def cutCount (build : Build) (records : List Record) : Nat :=
  records.countP fun r => (slimFrame build r.frame).2

/-- A slimmed frame is slimmed to itself, and not cut again. -/
theorem slimFrame_slimFrame {build : Build} {frame : Bytes} (h : Returns build frame) :
    processPacket build (slimFrame build frame).1 = .ok (.keep, false) := by
  obtain ⟨r, hr⟩ := h
  unfold slimFrame
  rw [hr]
  rcases processPacket_cases hr with rfl | ⟨p, l4, sum, hlayout, hcuts, -, rfl⟩
  · exact hr
  · exact processPacket_rewritten (hcuts.long hlayout)

theorem slimFrame_of_keep {build : Build} {frame : Bytes}
    (h : processPacket build frame = .ok (.keep, false)) : slimFrame build frame = (frame, false) := by
  rw [slimFrame, h]

theorem Record.slim_slim {build : Build} {r : Record} (h : Returns build r.frame) :
    (r.slim build).slim build = r.slim build := by
  have hkeep := slimFrame_of_keep (slimFrame_slimFrame h)
  refine Record.ext rfl rfl rfl ?_
  change (slimFrame build (slimFrame build r.frame).1).1 = (slimFrame build r.frame).1
  rw [hkeep]

/-- Slimming a slimmed file changes nothing and cuts nothing. -/
theorem PcapFile.slim_slim {build : Build} {c : PcapFile}
    (h : ∀ r ∈ c.records, Returns build r.frame) :
    (c.slim build).slim build = c.slim build ∧
      cutCount build (c.slim build).records = 0 ∧
      ∀ r ∈ (c.slim build).records, Returns build r.frame := by
  have hrecords : ∀ r ∈ (c.slim build).records, ∃ r' ∈ c.records, r = r'.slim build := by
    intro r hr
    obtain ⟨r', hr', rfl⟩ := List.mem_map.mp hr
    exact ⟨r', hr', rfl⟩
  refine ⟨?_, ?_, fun r hr => ?_⟩
  · have hmap : (c.records.map (Record.slim build)).map (Record.slim build) =
        c.records.map (Record.slim build) := by
      rw [List.map_map]
      exact List.map_congr_left fun r hr => Record.slim_slim (h r hr)
    simp only [PcapFile.slim, hmap]
  · rw [cutCount, List.countP_eq_zero]
    intro r hr
    obtain ⟨r', hr', rfl⟩ := hrecords r hr
    rw [Record.slim, slimFrame_of_keep (slimFrame_slimFrame (h r' hr'))]
    exact Bool.false_ne_true
  · obtain ⟨r', hr', rfl⟩ := hrecords r hr
    exact ⟨_, slimFrame_slimFrame (h r' hr')⟩

end PcapSlim.Capture
