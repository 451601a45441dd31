/-
PcapSlim.PcapIoTheorems — the streaming pass computes the map over records.

The invariant of the record loop is about `WriteBatch.emitted`, what the writer
has received and what the batch holds back: a round appends the slimmed record
to it (`slimRound_record`), wherever the batch is flushed, and whatever earlier
frames left behind in the reused buffers. Induction over the records of the input
gives the loop (`slimLoop_ok`, `slimLoop_cut`, `slimLoop_panic`, one for each
way it can end) and with the global header the whole pass. The packet counter is
read the same way.
-/
import Mathlib.Data.List.TakeWhile
import PcapSlim.Capture

namespace PcapSlim.PcapIo

open Lib.Buffer Lib.Octets Packet Capture

/-! ## Reading -/

theorem readExact_ok {input : Bytes} {n : Nat} (h : n ≤ input.length) :
    readExact input n = .ok (input.take n, input.drop n) := by
  rw [readExact, if_pos h]

theorem readExact_eof {input : Bytes} {n : Nat} (h : input.length < n) :
    readExact input n = .error .unexpectedEof := by
  rw [readExact, if_neg (by omega)]

theorem FrameBuf.resize_len (buf : FrameBuf) (n : Nat) : (buf.resize n).len = n := by
  unfold FrameBuf.resize
  split <;> rfl

/-- What is read overwrites all of the bytes in use: nothing of an earlier frame
is left. -/
theorem FrameBuf.bytes_fill {buf : FrameBuf} {src : Bytes} (h : buf.len = src.length) :
    (buf.fill src).bytes = src := by
  change (src ++ buf.mem.drop src.length).take buf.len = src
  rw [h, List.take_left]

/-- `read_frame_into` delivers the next `inclLen` bytes. -/
theorem readFrameInto_ok {input : Bytes} (buf : FrameBuf) {inclLen : Nat}
    (h : inclLen ≤ input.length) :
    ∃ buf', readFrameInto input buf inclLen = .ok (buf', input.drop inclLen) ∧
      buf'.bytes = input.take inclLen := by
  unfold readFrameInto
  by_cases hpos : 0 < inclLen
  · simp only [if_pos hpos, readExact_ok h]
    refine ⟨_, rfl, FrameBuf.bytes_fill ?_⟩
    rw [FrameBuf.resize_len, List.length_take, Nat.min_eq_left h]
  · obtain rfl : inclLen = 0 := by omega
    exact ⟨_, rfl, by rw [FrameBuf.bytes, FrameBuf.resize_len]; rfl⟩

theorem readFrameInto_eof {input : Bytes} {buf : FrameBuf} {inclLen : Nat}
    (h : input.length < inclLen) :
    readFrameInto input buf inclLen = .error .unexpectedEof := by
  unfold readFrameInto
  simp only [if_pos (show 0 < inclLen by omega), readExact_eof h]
  rfl

/-! ## Writing -/

/-- Everything handed to the batch so far: received by the writer or held back. -/
def WriteBatch.emitted (b : WriteBatch) : Bytes := b.writer ++ b.buf

/-- A flush hands the batch over and loses nothing. -/
theorem WriteBatch.flush_writer (b : WriteBatch) :
    b.flush.writer = b.emitted ∧ b.flush.buf = [] := by
  unfold WriteBatch.flush WriteBatch.emitted
  by_cases h : b.buf.isEmpty
  · rw [if_pos h, List.isEmpty_iff.mp h, List.append_nil]
    exact ⟨rfl, rfl⟩
  · rw [if_neg h]
    exact ⟨rfl, rfl⟩

theorem WriteBatch.emitted_flush (b : WriteBatch) : b.flush.emitted = b.emitted := by
  rw [WriteBatch.emitted, b.flush_writer.1, b.flush_writer.2, List.append_nil]

/-- Wherever the flush falls, a record is appended. -/
theorem WriteBatch.emitted_writeRecord (b : WriteBatch) (recHdr frame : Bytes) :
    (b.writeRecord recHdr frame).emitted = b.emitted ++ recHdr ++ frame := by
  have happend : ∀ b' : WriteBatch, b'.emitted = b.emitted →
      WriteBatch.emitted { b' with buf := b'.buf ++ recHdr ++ frame } =
        b.emitted ++ recHdr ++ frame := by
    intro b' h
    rw [← h]
    simp only [WriteBatch.emitted, List.append_assoc]
  unfold WriteBatch.writeRecord
  dsimp only
  split
  · exact happend _ b.emitted_flush
  · exact happend _ rfl

/-- A field stored behind `pre`. -/
theorem writeU32_append (e : Endian) (pre : Bytes) {off : Nat} (h : pre.length = off)
    (rest : Bytes) (v : UInt32) :
    e.writeU32 (pre ++ rest) off v = (pre ++ e.bytes v) ++ rest.drop 4 := by
  rw [Endian.writeU32, ← h, List.take_left, ← List.drop_drop, List.drop_left]

/-- Storing the four fields of a record header in place replaces all of it. -/
theorem writeU32_fields (e : Endian) {hdr : Bytes} (h : hdr.length = 16) (a b c d : UInt32) :
    e.writeU32 (e.writeU32 (e.writeU32 (e.writeU32 hdr 0 a) 4 b) 8 c) 12 d =
      e.bytes a ++ e.bytes b ++ e.bytes c ++ e.bytes d := by
  have hnil : e.writeU32 hdr 0 a = e.bytes a ++ hdr.drop 4 :=
    writeU32_append e [] rfl hdr a
  rw [hnil, writeU32_append e _ (length_bytes e a), writeU32_append e _ (by simp),
    writeU32_append e _ (by simp), List.drop_drop, List.drop_drop, List.drop_drop,
    List.drop_eq_nil_of_le (by omega), List.append_nil]

/-! ## The record loop -/

/-- The length field of a record header that has been read. -/
theorem readU32_inclLen (e : Endian) (input : Bytes) :
    (e.readU32 (((input.take 16).take 12).drop 8)).toNat = inclLenOf e input := by
  rw [inclLenOf, List.take_take, Nat.min_eq_left (by omega)]

/-- A round without a record header left is the last one. -/
theorem slimRound_end {build : Build} {e : Endian} {s : SlimState} (h : s.input.length < 16) :
    slimRound build e s = .ok none := by
  rw [slimRound, readExact_eof (show s.input.length < pcapRecHdrLen from h)]

/-- A round with a record header and a cut body ends in an error. -/
theorem slimRound_cut {build : Build} {e : Endian} {s : SlimState} (hlen : 16 ≤ s.input.length)
    (hnone : nextRecord e s.input = none) :
    slimRound build e s = .error (.error (.io .unexpectedEof)) := by
  have hcut := lt_of_nextRecord_none hnone
  unfold slimRound
  rw [readExact_ok (show pcapRecHdrLen ≤ s.input.length from hlen)]
  dsimp only [pcapRecHdrLen]
  rw [readU32_inclLen, readFrameInto_eof (by rw [List.length_drop]; omega)]

/-- One more packet, cut or kept. -/
def SlimStats.count (stats : SlimStats) (cut : Bool) : SlimStats :=
  { stats with
    inPkts := stats.inPkts + 1
    truncated := stats.truncated + if cut then 1 else 0
    kept := stats.kept + if cut then 0 else 1 }

/-- The fields of the record at the front of the input. -/
theorem nextRecord_fields {e : Endian} {input rest : Bytes} {r : Record}
    (h : nextRecord e input = some (r, rest)) :
    16 + inclLenOf e input ≤ input.length ∧ r.tsSec = e.readU32 (input.take 4) ∧
      r.tsUsec = e.readU32 ((input.take 8).drop 4) ∧
      r.origLen = e.readU32 ((input.take 16).drop 12) ∧
      r.frame = (input.drop 16).take (inclLenOf e input) ∧
      rest = input.drop (16 + inclLenOf e input) := by
  unfold nextRecord at h
  split_ifs at h with hlen
  cases h
  exact ⟨hlen, rfl, rfl, rfl, rfl, rfl⟩

/-- The body of a round for a frame on which `process_packet` returns. -/
theorem slimRecord_ok {build : Build} {e : Endian} {recHdr : Bytes} {s : SlimState} {r : Record}
    (hhdr : recHdr.length = 16) (hsec : r.tsSec = e.readU32 (recHdr.take 4))
    (husec : r.tsUsec = e.readU32 ((recHdr.take 8).drop 4))
    (horig : r.origLen = e.readU32 ((recHdr.take 16).drop 12))
    (hframe : s.frameBuf.bytes = r.frame) (hreturns : Returns build r.frame) :
    ∃ s', slimRecord build e recHdr s = .ok s' ∧ s'.input = s.input ∧
      s'.batch.emitted = s.batch.emitted ++ (r.slim build).encode e ∧
      s'.stats = s.stats.count (slimFrame build r.frame).2 := by
  obtain ⟨⟨outcome, cut⟩, hr⟩ := hreturns
  have hslim : slimFrame build r.frame = (frameOut outcome r.frame, cut) := by
    rw [slimFrame, hr]
    cases outcome <;> rfl
  unfold slimRecord
  dsimp only
  rw [hframe, hr]
  refine ⟨_, rfl, rfl, ?_, ?_⟩
  · dsimp only
    rw [writeU32_fields e hhdr, WriteBatch.emitted_writeRecord, ← hsec, ← husec, ← horig,
      encode_slim, hslim]
    simp only [List.append_assoc]
  · rw [hslim]
    cases cut <;> rfl

/-- A round with a complete record: a panic of `process_packet`, or the slimmed
record appended to what was emitted and one packet counted. -/
theorem slimRound_record {build : Build} {e : Endian} {s : SlimState} {r : Record} {rest : Bytes}
    (h : nextRecord e s.input = some (r, rest)) :
    (∀ fault, processPacket build r.frame = .error fault →
      slimRound build e s = .error (.panic fault)) ∧
    (Returns build r.frame → ∃ s', slimRound build e s = .ok (some s') ∧ s'.input = rest ∧
      s'.batch.emitted = s.batch.emitted ++ (r.slim build).encode e ∧
      s'.stats = s.stats.count (slimFrame build r.frame).2) := by
  obtain ⟨hlen, hsec, husec, horig, hframe, hrest⟩ := nextRecord_fields h
  have hhdr : (s.input.take 16).length = 16 := by rw [List.length_take]; omega
  have htake : ∀ n ≤ 16, (s.input.take 16).take n = s.input.take n := fun n hn => by
    rw [List.take_take, Nat.min_eq_left hn]
  have hbody : inclLenOf e s.input ≤ (s.input.drop 16).length := by
    rw [List.length_drop]
    omega
  obtain ⟨buf, hbuf, hbytes⟩ := readFrameInto_ok s.frameBuf hbody
  rw [List.drop_drop, ← hrest] at hbuf
  rw [← hframe] at hbytes
  rw [← htake 4 (by omega)] at hsec
  rw [← htake 8 (by omega)] at husec
  rw [← htake 16 (by omega)] at horig
  unfold slimRound
  rw [readExact_ok (show pcapRecHdrLen ≤ s.input.length by change 16 ≤ _; omega)]
  dsimp only [pcapRecHdrLen]
  rw [readU32_inclLen, hbuf]
  dsimp only
  constructor
  · intro fault hfault
    rw [slimRecord]
    dsimp only
    rw [hbytes, hfault]
  · intro hreturns
    obtain ⟨s', hs', hinput, hemitted, hstats⟩ :=
      slimRecord_ok (s := { s with
        input := rest, frameBuf := buf,
        batch := (s.batch.account 16).account (inclLenOf e s.input) })
        hhdr hsec husec horig hbytes hreturns
    exact ⟨s', by rw [hs'], hinput, hemitted, hstats⟩

/-- `n` more packets, `cut` of them cut. -/
def SlimStats.add (stats : SlimStats) (n cut : Nat) : SlimStats :=
  { stats with
    inPkts := stats.inPkts + n
    truncated := stats.truncated + cut
    kept := stats.kept + (n - cut) }

theorem cutCount_le (build : Build) (records : List Record) :
    cutCount build records ≤ records.length := List.countP_le_length

theorem add_count (build : Build) (stats : SlimStats) (r : Record) (records : List Record) :
    (stats.count (slimFrame build r.frame).2).add records.length (cutCount build records) =
      stats.add (r :: records).length (cutCount build (r :: records)) := by
  have hle := cutCount_le build records
  have hcons : cutCount build (r :: records) =
      cutCount build records + if (slimFrame build r.frame).2 then 1 else 0 := by
    rw [cutCount, List.countP_cons]
    rfl
  rw [hcons]
  cases (slimFrame build r.frame).2 <;>
    simp only [SlimStats.count, SlimStats.add, List.length_cons, if_true, if_false,
      Bool.false_eq_true, SlimStats.mk.injEq, and_true] <;>
    omega

variable {build : Build} {e : Endian}

/-- The loop takes the complete records at the front one by one, if they can be
processed, and is then where they end. -/
theorem slimLoop_records (build : Build) (e : Endian) {rest : Bytes} (records : List Record)
    (fuel : Nat) :
    ∀ s : SlimState, s.input = encodeRecords e records ++ rest →
      (∀ r ∈ records, Returns build r.frame) →
      ∃ s', slimLoop build e (fuel + records.length) s = slimLoop build e fuel s' ∧
        s'.input = rest ∧
        s'.batch.emitted =
          s.batch.emitted ++ encodeRecords e (records.map (Record.slim build)) ∧
        s'.stats = s.stats.add records.length (cutCount build records) := by
  induction records with
  | nil =>
    intro s hinput _
    refine ⟨s, rfl, hinput, ?_, rfl⟩
    rw [List.map_nil, encodeRecords, List.flatMap_nil, List.append_nil]
  | cons r records ih =>
    intro s hinput hreturns
    have hnext : nextRecord e s.input = some (r, encodeRecords e records ++ rest) := by
      rw [hinput, nextRecord_encodeRecords]
    obtain ⟨s', hs', hrest, hemitted, hstats⟩ :=
      (slimRound_record hnext).2 (hreturns r (List.mem_cons_self ..))
    obtain ⟨s'', hs'', hrest', hemitted', hstats'⟩ :=
      ih s' hrest fun r' hr' => hreturns r' (List.mem_cons_of_mem _ hr')
    refine ⟨s'', ?_, hrest', ?_, ?_⟩
    · rw [List.length_cons, ← Nat.add_assoc, slimLoop, hs']
      exact hs''
    · rw [hemitted', hemitted, List.map_cons, encodeRecords, encodeRecords, List.flatMap_cons,
        List.append_assoc]
    · rw [hstats', hstats, add_count]

/-- Fuel for `n` rounds and one more. -/
theorem fuel_eq_of_lt {n fuel : Nat} (h : n < fuel) : ∃ more, fuel = more + 1 + n :=
  ⟨fuel - n - 1, by omega⟩

/-- The loop over complete records that can be processed, up to less than a
record header. -/
theorem slimLoop_ok (build : Build) (e : Endian) {tail : Bytes} (htail : tail.length < 16)
    (records : List Record) (fuel : Nat) (s : SlimState) (hfuel : records.length < fuel)
    (hinput : s.input = encodeRecords e records ++ tail)
    (hreturns : ∀ r ∈ records, Returns build r.frame) :
    ∃ s', slimLoop build e fuel s = .ok s' ∧ s'.input = tail ∧
      s'.batch.emitted =
        s.batch.emitted ++ encodeRecords e (records.map (Record.slim build)) ∧
      s'.stats = s.stats.add records.length (cutCount build records) := by
  obtain ⟨more, rfl⟩ := fuel_eq_of_lt hfuel
  obtain ⟨s', hloop, hrest, hemitted, hstats⟩ :=
    slimLoop_records build e records (more + 1) s hinput hreturns
  refine ⟨s', ?_, hrest, hemitted, hstats⟩
  rw [hloop, slimLoop, slimRound_end (by rw [hrest]; exact htail)]
  rfl

/-- The loop over the same records, when a cut body is behind them. -/
theorem slimLoop_cut {rest : Bytes} (hrest : 16 ≤ rest.length) (hnone : nextRecord e rest = none)
    (records : List Record) (fuel : Nat) (s : SlimState) (hfuel : records.length < fuel)
    (hinput : s.input = encodeRecords e records ++ rest)
    (hreturns : ∀ r ∈ records, Returns build r.frame) :
    slimLoop build e fuel s = .error (.error (.io .unexpectedEof)) := by
  obtain ⟨more, rfl⟩ := fuel_eq_of_lt hfuel
  obtain ⟨s', hloop, rfl, -⟩ := slimLoop_records build e records (more + 1) s hinput hreturns
  rw [hloop, slimLoop, slimRound_cut hrest hnone]
  rfl

/-- The loop when one of the complete records stops the program. -/
theorem slimLoop_panic {rest : Bytes} (records : List Record) :
    ∀ (fuel : Nat) (s : SlimState), records.length < fuel →
      s.input = encodeRecords e records ++ rest →
      (∃ r ∈ records, ¬ Returns build r.frame) →
      ∃ fault, slimLoop build e fuel s = .error (.panic fault) := by
  induction records with
  | nil =>
    rintro _ _ _ _ ⟨_, hr, _⟩
    cases hr
  | cons r records ih =>
    intro fuel s hfuel hinput hfault
    obtain ⟨fuel, rfl⟩ := Nat.exists_eq_succ_of_ne_zero (Nat.ne_zero_of_lt hfuel)
    have hnext : nextRecord e s.input = some (r, encodeRecords e records ++ rest) := by
      rw [hinput, nextRecord_encodeRecords]
    cases hr : processPacket build r.frame with
    | error fault =>
      refine ⟨fault, ?_⟩
      rw [slimLoop, (slimRound_record hnext).1 fault hr]
      rfl
    | ok outcome =>
      obtain ⟨s', hs', hinput', -⟩ := (slimRound_record hnext).2 ⟨outcome, hr⟩
      have hlater : ∃ r' ∈ records, ¬ Returns build r'.frame := by
        obtain ⟨r', hmem, hnot⟩ := hfault
        rcases List.mem_cons.mp hmem with rfl | hmem
        · exact absurd ⟨outcome, hr⟩ hnot
        · exact ⟨r', hmem, hnot⟩
      obtain ⟨fault, hloop⟩ := ih fuel s' (by simpa using hfuel) hinput' hlater
      refine ⟨fault, ?_⟩
      rw [slimLoop, hs']
      exact hloop

/-! ## The global header -/

theorem magic_bytes_ne (e : Endian) : e.bytes magicLe ≠ pcapngMagic := by
  cases e with
  | mk le => cases le <;> decide

/-- `detect_endian` recognises the magic number in either byte order. -/
theorem detectEndian_eq_ok {ghdr : Bytes} {e : Endian} (h : (ghdr.take 4).length = 4) :
    detectEndian ghdr = .ok e ↔ ghdr.take 4 = e.bytes magicLe := by
  have hle : fromLe32 (ghdr.take 4) = magicLe ↔ ghdr.take 4 = toLe32 magicLe :=
    ⟨fun heq => by rw [← heq, toLe32_fromLe32 h], fun heq => by rw [heq, fromLe32_toLe32]⟩
  have hbe : fromLe32 (ghdr.take 4) = magicBe ↔ ghdr.take 4 = toBe32 magicLe := by
    have hswap : toLe32 magicBe = toBe32 magicLe := by decide
    rw [← hswap]
    exact ⟨fun heq => by rw [← heq, toLe32_fromLe32 h], fun heq => by rw [heq, fromLe32_toLe32]⟩
  have hother : fromBe32 (ghdr.take 4) = magicLe ↔ ghdr.take 4 = toBe32 magicLe :=
    ⟨fun heq => by rw [← heq, toBe32_fromBe32 h], fun heq => by rw [heq, fromBe32_toBe32]⟩
  have hother' : fromBe32 (ghdr.take 4) = magicBe ↔ ghdr.take 4 = toLe32 magicLe := by
    have hswap : toBe32 magicBe = toLe32 magicLe := by decide
    rw [← hswap]
    exact ⟨fun heq => by rw [← heq, toBe32_fromBe32 h], fun heq => by rw [heq, fromBe32_toBe32]⟩
  have hne : toLe32 magicLe ≠ toBe32 magicLe := by decide
  unfold detectEndian
  dsimp only
  obtain ⟨le⟩ := e
  by_cases h1 : fromLe32 (ghdr.take 4) = magicLe
  · rw [if_pos h1]
    cases le with
    | true => simpa [Endian.bytes] using hle.mp h1
    | false => simp [Endian.bytes, hle.mp h1, hne]
  rw [if_neg h1]
  by_cases h2 : fromLe32 (ghdr.take 4) = magicBe
  · rw [if_pos h2]
    cases le with
    | true => simp [Endian.bytes, hbe.mp h2, hne.symm]
    | false => simpa [Endian.bytes] using hbe.mp h2
  -- the remaining branches of the source cannot be taken
  rw [if_neg h2, if_neg fun h3 => h2 (hbe.mpr (hother.mp h3)),
    if_neg fun h4 => h1 (hle.mpr (hother'.mp h4))]
  rw [hle] at h1
  rw [hbe] at h2
  cases le <;> simp [Endian.bytes, h1, h2]

/-- `read_global_header` accepts exactly the headers with a libpcap magic number. -/
theorem readGlobalHeader_eq_ok {input ghdr rest : Bytes} {path : String} {e : Endian} :
    readGlobalHeader input path = .ok (e, ghdr, rest) ↔
      input = ghdr ++ rest ∧ HasMagic ghdr e := by
  unfold readGlobalHeader HasMagic
  by_cases hlen : pcapHdrLen ≤ input.length
  · have h24 : pcapHdrLen = 24 := rfl
    have hghdr : (input.take pcapHdrLen).length = 24 := by rw [List.length_take]; omega
    have hfour : ((input.take pcapHdrLen).take 4).length = 4 := by
      rw [List.length_take, hghdr]
      rfl
    rw [readExact_ok hlen]
    dsimp only
    constructor
    · intro h
      obtain ⟨u, hmagic, h⟩ := bind_eq_ok.mp h
      obtain ⟨e', hendian, h⟩ := bind_eq_ok.mp h
      cases h
      exact ⟨(List.take_append_drop _ _).symm, hghdr, (detectEndian_eq_ok hfour).mp hendian⟩
    · rintro ⟨rfl, hlength, hbytes⟩
      have htake : (ghdr ++ rest).take pcapHdrLen = ghdr := by rw [h24, ← hlength, List.take_left]
      have hdrop : (ghdr ++ rest).drop pcapHdrLen = rest := by rw [h24, ← hlength, List.drop_left]
      rw [htake] at hfour
      rw [htake, hdrop, checkMagicBytes, hbytes, if_neg (magic_bytes_ne e),
        (detectEndian_eq_ok hfour).mpr hbytes]
      rfl
  · rw [readExact_eof (by omega)]
    constructor
    · intro h
      cases h
    · rintro ⟨rfl, hlength, -⟩
      have h24 : pcapHdrLen = 24 := rfl
      rw [List.length_append] at hlen
      omega

/-- The header of a file is read and its records are left. -/
theorem readGlobalHeader_file (c : PcapFile) (path : String) :
    readGlobalHeader c.bytes path =
      .ok (c.endian, c.ghdr, encodeRecords c.endian c.records ++ c.tail) :=
  readGlobalHeader_eq_ok.mpr ⟨by rw [PcapFile.bytes, List.append_assoc], c.magic⟩

/-- More bytes behind the header change nothing in it. -/
theorem readGlobalHeader_append {input ghdr rest : Bytes} {path : String} {e : Endian}
    (h : readGlobalHeader input path = .ok (e, ghdr, rest)) (more : Bytes) :
    readGlobalHeader (input ++ more) path = .ok (e, ghdr, rest ++ more) := by
  obtain ⟨rfl, hmagic⟩ := readGlobalHeader_eq_ok.mp h
  exact readGlobalHeader_eq_ok.mpr ⟨List.append_assoc .., hmagic⟩

/-! ## The slim pass -/

/-- The numbers that the pass reports for a file, before the output is measured. -/
def statsOf (build : Build) (inBytes : Nat) (records : List Record) : SlimStats :=
  { inPkts := records.length
    truncated := cutCount build records
    kept := records.length - cutCount build records
    inBytes
    outBytes := 0 }

theorem length_encodeRecords (e : Endian) (records : List Record) :
    records.length ≤ (encodeRecords e records).length := by
  induction records with
  | nil => exact Nat.zero_le _
  | cons r records ih =>
    rw [encodeRecords, List.flatMap_cons, List.length_append, length_encode, ← encodeRecords,
      List.length_cons]
    omega

/-- The length of the input is enough fuel for the records behind its header. -/
theorem records_lt_fuel {input ghdr rest tail : Bytes} {records : List Record}
    (hinput : input = ghdr ++ rest) (hrest : rest = encodeRecords e records ++ tail) :
    records.length < input.length + 1 := by
  have := length_encodeRecords e records
  rw [hinput, hrest, List.length_append, List.length_append]
  omega

/-- So is a file's length for its records. -/
theorem records_lt_fuel_file (c : PcapFile) : c.records.length < c.bytes.length + 1 :=
  records_lt_fuel (List.append_assoc ..) rfl

theorem slimPcapToWriter_of_header {input ghdr rest : Bytes} {path : String}
    (h : readGlobalHeader input path = .ok (e, ghdr, rest)) :
    slimPcapToWriter build path input =
      (slimLoop build e (input.length + 1) (slimStart ghdr rest input.length) >>= fun s =>
        .ok (s.batch.flush, s.stats)) := by
  rw [slimPcapToWriter, h]
  rfl

/-- The pass over a file behind whose records less than a record header is left. -/
theorem slimPcapToWriter_file (path : String) (c : PcapFile)
    (hreturns : ∀ r ∈ c.records, Returns build r.frame) :
    ∃ b, slimPcapToWriter build path c.bytes =
        .ok (b, statsOf build c.bytes.length c.records) ∧
      b.writer = (c.slim build).bytes ∧ b.buf = [] := by
  obtain ⟨s', hs', -, hemitted, hstats⟩ := slimLoop_ok build c.endian c.tail_lt
    c.records (c.bytes.length + 1)
    (slimStart c.ghdr (encodeRecords c.endian c.records ++ c.tail) c.bytes.length)
    (records_lt_fuel_file c) rfl hreturns
  rw [slimPcapToWriter_of_header (readGlobalHeader_file c path), hs', ok_bind, hstats]
  refine ⟨_, ?_, ?_, s'.batch.flush_writer.2⟩
  · simp only [slimStart, SlimStats.add, statsOf, Nat.zero_add]
  · rw [s'.batch.flush_writer.1, hemitted]
    simp only [slimStart, WriteBatch.emitted, PcapFile.bytes, PcapFile.slim, List.append_nil]

/-- The complete records of a file whose global header is accepted. -/
def completeRecords (input : Bytes) : List Record :=
  match readGlobalHeader input "" with
  | .error _ => []
  | .ok (e, _, rest) => (splitRecords e rest).1

theorem completeRecords_of_header {input ghdr rest : Bytes} {path : String}
    (h : readGlobalHeader input path = .ok (e, ghdr, rest)) :
    completeRecords input = (splitRecords e rest).1 := by
  have h' : readGlobalHeader input "" = .ok (e, ghdr, rest) :=
    readGlobalHeader_eq_ok.mpr (readGlobalHeader_eq_ok.mp h)
  rw [completeRecords, h']

/-- A file's complete records are its records. -/
theorem completeRecords_file (c : PcapFile) : completeRecords c.bytes = c.records := by
  rw [completeRecords_of_header (readGlobalHeader_file c ""), splitRecords_append,
    splitRecords_of_none (nextRecord_of_short c.tail_lt)]
  exact List.append_nil _

/-- Every byte string is a file, or is rejected, or stops the program. -/
theorem slimPcapToWriter_cases (build : Build) (path : String) (input : Bytes) :
    (∃ c : PcapFile, input = c.bytes ∧ ∀ r ∈ c.records, Returns build r.frame) ∨
    ((∀ r ∈ completeRecords input, Returns build r.frame) ∧
      ∃ err, slimPcapToWriter build path input = .error (.error err)) ∨
    ((∃ r ∈ completeRecords input, ¬ Returns build r.frame) ∧
      ∃ fault, slimPcapToWriter build path input = .error (.panic fault)) := by
  cases hheader : readGlobalHeader input path with
  | error err =>
    refine .inr (.inl ⟨?_, err, ?_⟩)
    · have hnone : completeRecords input = [] := by
        cases h' : readGlobalHeader input "" with
        | error _ => rw [completeRecords, h']
        | ok found =>
          obtain ⟨e', ghdr, rest⟩ := found
          rw [readGlobalHeader_eq_ok.mpr (readGlobalHeader_eq_ok.mp h')] at hheader
          cases hheader
      rw [hnone]
      simp
    · rw [slimPcapToWriter, hheader]
  | ok found =>
    obtain ⟨e, ghdr, rest⟩ := found
    obtain ⟨hinput, hmagic⟩ := readGlobalHeader_eq_ok.mp hheader
    obtain ⟨hsplit, hnone⟩ := splitRecords_spec e rest
    have hfuel := records_lt_fuel hinput hsplit
    rw [completeRecords_of_header hheader, slimPcapToWriter_of_header hheader]
    by_cases hreturns : ∀ r ∈ (splitRecords e rest).1, Returns build r.frame
    · by_cases hshort : (splitRecords e rest).2.length < 16
      · refine .inl ⟨⟨e, ghdr, hmagic, (splitRecords e rest).1, (splitRecords e rest).2, hshort⟩,
          ?_, hreturns⟩
        rw [PcapFile.bytes, List.append_assoc, ← hsplit, hinput]
      · refine .inr (.inl ⟨hreturns, .io .unexpectedEof, ?_⟩)
        rw [slimLoop_cut (by omega) hnone _ _ _ hfuel hsplit hreturns]
        rfl
    · push Not at hreturns
      refine .inr (.inr ⟨hreturns, ?_⟩)
      obtain ⟨fault, hfault⟩ := slimLoop_panic (e := e) _ _
        (slimStart ghdr rest input.length) hfuel hsplit hreturns
      exact ⟨fault, by rw [hfault]; rfl⟩

/-- Slimming the file `input` is the map over its records: a libpcap file whose
frames can all be processed gives the slimmed file and its numbers, and every
other byte string an error. -/
structure SlimsAsMapped (build : Build) (path : String) (input : Bytes) : Prop where
  mapped : ∀ c : PcapFile, input = c.bytes → (∀ r ∈ c.records, Returns build r.frame) →
    ∃ b, slimPcapToWriter build path input = .ok (b, statsOf build input.length c.records) ∧
      b.writer = (c.slim build).bytes ∧ b.buf = []
  rejected : (¬ ∃ c : PcapFile, input = c.bytes ∧ ∀ r ∈ c.records, Returns build r.frame) →
    ∃ err, slimPcapToWriter build path input = .error (.error err)

/-- **Slimming is the map over the records exactly when no complete record holds a
frame that stops `process_packet`.** -/
theorem slimsAsMapped_iff (build : Build) (path : String) (input : Bytes) :
    SlimsAsMapped build path input ↔ ∀ r ∈ completeRecords input, ¬ Stops build r.frame := by
  have hstops : (∀ r ∈ completeRecords input, ¬ Stops build r.frame) ↔
      ∀ r ∈ completeRecords input, Returns build r.frame :=
    forall₂_congr fun r _ => returns_iff_not_stops.symm
  rw [hstops]
  have hmapped : ∀ c : PcapFile, input = c.bytes → (∀ r ∈ c.records, Returns build r.frame) →
      ∃ b, slimPcapToWriter build path input = .ok (b, statsOf build input.length c.records) ∧
        b.writer = (c.slim build).bytes ∧ b.buf = [] := by
    rintro c rfl hreturns
    exact slimPcapToWriter_file path c hreturns
  rcases slimPcapToWriter_cases build path input with
    ⟨c, rfl, hreturns⟩ | ⟨hreturns, err, herr⟩ | ⟨hnot, fault, hfault⟩
  · rw [completeRecords_file]
    exact iff_of_true ⟨hmapped, fun hno => absurd ⟨c, rfl, hreturns⟩ hno⟩ hreturns
  · exact iff_of_true ⟨hmapped, fun _ => ⟨err, herr⟩⟩ hreturns
  · refine iff_of_false (fun h => ?_) (fun h => ?_)
    · by_cases hfile : ∃ c : PcapFile, input = c.bytes ∧ ∀ r ∈ c.records, Returns build r.frame
      · obtain ⟨c, hc, hreturns⟩ := hfile
        obtain ⟨b, hb, -⟩ := h.mapped c hc hreturns
        rw [hfault] at hb
        cases hb
      · obtain ⟨err, herr⟩ := h.rejected hfile
        rw [hfault] at herr
        cases herr
    · obtain ⟨r, hr, hnot⟩ := hnot
      exact hnot (h r hr)

/-- A little-endian file with the record of `bareIpv4` and then a record header
that announces 100 bytes, of which none follow. -/
def cutBehindBareIpv4 : Bytes :=
  toLe32 magicLe ++ List.replicate 20 0 ++
    (List.replicate 8 0 ++ toLe32 14 ++ toLe32 14 ++ bareIpv4) ++
    (List.replicate 8 0 ++ toLe32 100 ++ toLe32 100)

theorem cutBehindBareIpv4_not_mapped : ¬ ∀ path input, SlimsAsMapped .release path input := by
  intro h
  have hpanic : slimPcapToWriter .release "a.pcap" cutBehindBareIpv4 =
      .error (.panic .index) := by decide +kernel
  by_cases hfile : ∃ c : PcapFile, cutBehindBareIpv4 = c.bytes ∧
      ∀ r ∈ c.records, Returns .release r.frame
  · obtain ⟨c, hc, hreturns⟩ := hfile
    obtain ⟨b, hb, -⟩ := (h "a.pcap" _).mapped c hc hreturns
    rw [hpanic] at hb
    cases hb
  · obtain ⟨err, herr⟩ := (h "a.pcap" _).rejected hfile
    rw [hpanic] at herr
    cases herr

/-- What a successful pass read and wrote. -/
theorem slimPcapToWriter_eq_ok {path : String} {input : Bytes} {b : WriteBatch}
    {stats : SlimStats} (h : slimPcapToWriter build path input = .ok (b, stats)) :
    ∃ c : PcapFile, input = c.bytes ∧ (∀ r ∈ c.records, Returns build r.frame) ∧
      b.writer = (c.slim build).bytes ∧ b.buf = [] ∧ stats = statsOf build input.length c.records := by
  rcases slimPcapToWriter_cases build path input with
    ⟨c, rfl, hreturns⟩ | ⟨-, err, herr⟩ | ⟨-, fault, hfault⟩
  · obtain ⟨b', hb', hwriter, hbuf⟩ := slimPcapToWriter_file path c hreturns
    cases hb'.symm.trans h
    exact ⟨c, rfl, hreturns, hwriter, hbuf, rfl⟩
  · rw [herr] at h
    cases h
  · rw [hfault] at h
    cases h

/-- **Slimming is idempotent**, for frames and for files. -/
theorem slim_idempotent (build : Build) :
    (∀ frame g cut, processPacket build frame = .ok (.truncated g, cut) →
      processPacket build g = .ok (.keep, false)) ∧
    (∀ path path' input b stats, slimPcapToWriter build path input = .ok (b, stats) →
      ∃ b' stats', slimPcapToWriter build path' b.writer = .ok (b', stats') ∧
        b'.writer = b.writer ∧ b'.buf = [] ∧ stats'.truncated = 0) := by
  constructor
  · intro frame g cut h
    obtain ⟨p, l4, sum, hlayout, hcuts, -, rfl, -⟩ := processPacket_truncated h
    exact processPacket_rewritten (hcuts.long hlayout)
  · intro path path' input b stats h
    obtain ⟨c, -, hreturns, hwriter, -, -⟩ := slimPcapToWriter_eq_ok h
    obtain ⟨hslim, hnone, hreturns'⟩ := PcapFile.slim_slim hreturns
    obtain ⟨b', hb', hwriter', hbuf'⟩ := slimPcapToWriter_file path' (c.slim build) hreturns'
    rw [hwriter]
    refine ⟨b', _, hb', ?_, hbuf', ?_⟩
    · rw [hwriter', hslim]
    · simp only [statsOf, hnone]

/-- A file with the one record of `ipv6Fragment`, whose frame is cut. -/
def oneRecordFile : Bytes :=
  toLe32 magicLe ++ List.replicate 20 0 ++
    (List.replicate 8 0 ++ toLe32 122 ++ toLe32 122 ++ ipv6Fragment)

theorem slim_idempotent_oneRecordFile :
    (∃ g, processPacket .release ipv6Fragment = .ok (.truncated g, true) ∧
      processPacket .release g = .ok (.keep, false)) ∧
    ∃ b stats, slimPcapToWriter .release "a.pcap" oneRecordFile = .ok (b, stats) ∧
      stats.truncated = 1 ∧
      ∃ b' stats', slimPcapToWriter .release "a.pcap" b.writer = .ok (b', stats') ∧
        b'.writer = b.writer ∧ b'.buf = [] ∧ stats'.truncated = 0 := by
  constructor
  · obtain ⟨g, hg⟩ : ∃ g, processPacket .release ipv6Fragment = .ok (.truncated g, true) :=
      exists_truncated (by decide +kernel) (by decide +kernel)
    exact ⟨g, hg, (slim_idempotent .release).1 _ g true hg⟩
  · have hstats : (slimPcapToWriter .release "a.pcap" oneRecordFile).map (·.2.truncated) =
        .ok 1 := by decide +kernel
    cases hr : slimPcapToWriter .release "a.pcap" oneRecordFile with
    | error e => rw [hr] at hstats; cases hstats
    | ok r =>
      rw [hr] at hstats
      exact ⟨r.1, r.2, rfl, Except.ok.inj hstats, (slim_idempotent .release).2 _ _ _ r.1 r.2 hr⟩

/-! ## What has been written before the end -/

theorem takeWhile_prefix_of_prefix {α : Type} (p : α → Bool) {l l' : List α} (h : l <+: l') :
    l.takeWhile p <+: l'.takeWhile p := by
  obtain ⟨more, rfl⟩ := h
  rw [List.takeWhile_append]
  split
  · exact (List.takeWhile_prefix p).trans (List.prefix_append _ _)
  · exact List.prefix_rfl

/-- Reading more of a file only adds to its output. -/
theorem emittedFor_mono (build : Build) {input input' : Bytes} (h : input <+: input') :
    emittedFor build input <+: emittedFor build input' := by
  obtain ⟨more, rfl⟩ := h
  unfold emittedFor
  cases hheader : readGlobalHeader input "" with
  | error _ => exact List.nil_prefix
  | ok found =>
    obtain ⟨e, ghdr, rest⟩ := found
    rw [readGlobalHeader_append hheader]
    dsimp only
    obtain ⟨records, hrecords⟩ := takeWhile_prefix_of_prefix
      (fun r => (processPacket build r.frame).isOk) (splitRecords_mono e rest more)
    rw [List.prefix_append_right_inj, ← hrecords, List.map_append, encodeRecords, encodeRecords,
      List.flatMap_append]
    exact List.prefix_append _ _

/-- At the end of a file the output is that of the pass. -/
theorem emittedFor_file {c : PcapFile} (hreturns : ∀ r ∈ c.records, Returns build r.frame) :
    emittedFor build c.bytes = (c.slim build).bytes := by
  have hall : c.records.takeWhile (fun r => (processPacket build r.frame).isOk) = c.records := by
    refine List.takeWhile_eq_self_iff.mpr fun r hr => ?_
    obtain ⟨outcome, houtcome⟩ := hreturns r hr
    rw [houtcome]
    rfl
  rw [emittedFor, readGlobalHeader_file]
  dsimp only
  rw [splitRecords_append, splitRecords_of_none (nextRecord_of_short c.tail_lt)]
  simp only [List.append_nil, PcapFile.bytes, PcapFile.slim, hall]

/-- What a successful pass has written. -/
theorem emittedFor_of_slims {path : String} {input : Bytes} {b : WriteBatch} {stats : SlimStats}
    (h : slimPcapToWriter build path input = .ok (b, stats)) : emittedFor build input = b.writer := by
  obtain ⟨c, rfl, hreturns, hwriter, -⟩ := slimPcapToWriter_eq_ok h
  rw [emittedFor_file hreturns, hwriter]

/-! ## The packet counter -/

/-- Skipping a body in chunks is dropping it. -/
theorem skipPacketBody_ok (fuel : Nat) : ∀ (input : Bytes) (remaining : Nat),
    remaining ≤ fuel → remaining ≤ input.length →
    skipPacketBody fuel input remaining = .ok (input.drop remaining) := by
  induction fuel with
  | zero =>
    intro input remaining hfuel _
    obtain rfl : remaining = 0 := by omega
    rfl
  | succ fuel ih =>
    intro input remaining hfuel hlen
    have hcap : skipBufCap = 65536 := rfl
    rw [skipPacketBody]
    by_cases hpos : 0 < remaining
    · have hchunk : min remaining skipBufCap ≤ remaining := Nat.min_le_left _ _
      have hone : 1 ≤ min remaining skipBufCap := by omega
      rw [if_pos hpos]
      dsimp only
      rw [readExact_ok (by omega)]
      refine (ih _ _ (by omega) (by rw [List.length_drop]; omega)).trans ?_
      rw [List.drop_drop, Nat.add_sub_cancel' hchunk]
    · obtain rfl : remaining = 0 := by omega
      rw [if_neg hpos, List.drop_zero]

/-- A round of the counting loop with a complete record at the front. -/
theorem countLoop_record {input rest : Bytes} {r : Record} {fuel count : Nat}
    (h : nextRecord e input = some (r, rest)) :
    countLoop e (fuel + 1) input count = countLoop e fuel rest (count + 1) := by
  obtain ⟨hlen, -, -, -, -, hrest⟩ := nextRecord_fields h
  rw [countLoop, readExact_ok (by change 16 ≤ _; omega)]
  dsimp only [pcapRecHdrLen]
  rw [readU32_inclLen, skipPacketBody_ok _ _ _ (Nat.le_refl _) (by rw [List.length_drop]; omega),
    List.drop_drop, ← hrest]

/-- The counting loop counts the complete records at the front, and is then where
they end. -/
theorem countLoop_records {rest : Bytes} (records : List Record) (fuel : Nat) :
    ∀ count, countLoop e (fuel + records.length) (encodeRecords e records ++ rest) count =
      countLoop e fuel rest (count + records.length) := by
  induction records with
  | nil => intro count; rfl
  | cons r records ih =>
    intro count
    rw [List.length_cons, ← Nat.add_assoc, countLoop_record (nextRecord_encodeRecords ..), ih]
    congr 1
    omega

/-- The counting loop over complete records and less than a record header. -/
theorem countLoop_ok {tail : Bytes} (htail : tail.length < 16) (records : List Record)
    (fuel count : Nat) (hfuel : records.length < fuel) :
    countLoop e fuel (encodeRecords e records ++ tail) count = .ok (count + records.length) := by
  obtain ⟨more, rfl⟩ := fuel_eq_of_lt hfuel
  rw [countLoop_records, countLoop, readExact_eof (show tail.length < pcapRecHdrLen from htail)]

/-- A body that is cut ends the count in an error. -/
theorem skipPacketBody_eof (fuel : Nat) : ∀ (input : Bytes) (remaining : Nat),
    remaining ≤ fuel → input.length < remaining →
    skipPacketBody fuel input remaining = .error .unexpectedEof := by
  induction fuel with
  | zero =>
    intro input remaining hfuel hlen
    omega
  | succ fuel ih =>
    intro input remaining hfuel hlen
    have hcap : skipBufCap = 65536 := rfl
    rw [skipPacketBody, if_pos (by omega)]
    dsimp only
    by_cases hchunk : min remaining skipBufCap ≤ input.length
    · rw [readExact_ok hchunk]
      exact ih _ _ (by omega) (by rw [List.length_drop]; omega)
    · rw [readExact_eof (by omega)]
      rfl

/-- The counting loop over the same records, when a cut body is behind them. -/
theorem countLoop_cut {rest : Bytes} (hrest : 16 ≤ rest.length) (hnone : nextRecord e rest = none)
    (records : List Record) (fuel count : Nat) (hfuel : records.length < fuel) :
    countLoop e fuel (encodeRecords e records ++ rest) count = .error (.io .unexpectedEof) := by
  obtain ⟨more, rfl⟩ := fuel_eq_of_lt hfuel
  have hcut := lt_of_nextRecord_none hnone
  rw [countLoop_records, countLoop, readExact_ok (show pcapRecHdrLen ≤ rest.length from hrest)]
  dsimp only [pcapRecHdrLen]
  rw [readU32_inclLen, skipPacketBody_eof _ _ _ (Nat.le_refl _) (by rw [List.length_drop]; omega)]

/-- The counter counts the records of a file. -/
theorem countPackets_file {path : String} (c : PcapFile) :
    countPackets path c.bytes = .ok c.records.length := by
  unfold countPackets
  rw [readGlobalHeader_file, ok_bind]
  dsimp only
  rw [countLoop_ok c.tail_lt c.records _ 0 (records_lt_fuel_file c), Nat.zero_add]

/-- Only files are counted. -/
theorem countPackets_eq_ok {path : String} {input : Bytes} {n : Nat}
    (h : countPackets path input = .ok n) : ∃ c : PcapFile, input = c.bytes ∧ c.records.length = n := by
  obtain ⟨⟨e, ghdr, rest⟩, hheader, hloop⟩ := bind_eq_ok.mp h
  obtain ⟨rfl, hmagic⟩ := readGlobalHeader_eq_ok.mp hheader
  obtain ⟨hsplit, hnone⟩ := splitRecords_spec e rest
  have hfuel : (splitRecords e rest).1.length < (ghdr ++ rest).length + 1 :=
    records_lt_fuel rfl hsplit
  dsimp only at hloop
  by_cases hshort : (splitRecords e rest).2.length < 16
  · refine ⟨⟨e, ghdr, hmagic, (splitRecords e rest).1, (splitRecords e rest).2, hshort⟩, ?_, ?_⟩
    · rw [PcapFile.bytes, List.append_assoc, ← hsplit]
    · rw [hsplit, countLoop_ok hshort _ _ 0 (hsplit ▸ hfuel), Nat.zero_add] at hloop
      exact Except.ok.inj hloop
  · rw [hsplit, countLoop_cut (by omega) hnone _ _ 0 (hsplit ▸ hfuel)] at hloop
    cases hloop

/-! ## Parts of a file -/

/-- A rejected header stays rejected, whatever is behind it. -/
theorem readGlobalHeader_error_append {input more : Bytes} {path : String} {err : PcapError}
    (hlen : pcapHdrLen ≤ input.length) (h : readGlobalHeader input path = .error err) :
    readGlobalHeader (input ++ more) path = .error err := by
  have hlen' : pcapHdrLen ≤ (input ++ more).length := by
    rw [List.length_append]
    omega
  unfold readGlobalHeader at h ⊢
  rw [readExact_ok hlen] at h
  rw [readExact_ok hlen']
  dsimp only at h ⊢
  rw [List.take_append_of_le_length hlen]
  cases hmagic : checkMagicBytes ((input.take pcapHdrLen).take 4) path with
  | error err' =>
    rw [hmagic] at h
    exact h
  | ok u =>
    rw [hmagic, ok_bind] at h
    rw [ok_bind]
    cases hendian : detectEndian (input.take pcapHdrLen) with
    | error err' =>
      rw [hendian] at h
      exact h
    | ok endian =>
      rw [hendian] at h
      cases h

/-- A longer input has more complete records. -/
theorem completeRecords_mono {input input' : Bytes} (h : input <+: input') :
    completeRecords input <+: completeRecords input' := by
  obtain ⟨more, rfl⟩ := h
  unfold completeRecords
  cases hheader : readGlobalHeader input "" with
  | error _ => exact List.nil_prefix
  | ok found =>
    obtain ⟨e, ghdr, rest⟩ := found
    rw [readGlobalHeader_append hheader]
    exact splitRecords_mono e rest more

/-- What stops the pass over a part of a file stops the pass over the file. -/
theorem slimPcapToWriter_panic_mono {path : String} {input input' : Bytes} {fault : Fault}
    (hstart : input <+: input') (h : slimPcapToWriter build path input = .error (.panic fault)) :
    ∃ fault', slimPcapToWriter build path input' = .error (.panic fault') := by
  have hstops : ∃ r ∈ completeRecords input, ¬ Returns build r.frame := by
    rcases slimPcapToWriter_cases build path input with
      ⟨c, rfl, hreturns⟩ | ⟨-, err, herr⟩ | ⟨hnot, -⟩
    · obtain ⟨b, hb, -⟩ := slimPcapToWriter_file path c hreturns
      rw [hb] at h
      cases h
    · rw [herr] at h
      cases h
    · exact hnot
  obtain ⟨r, hr, hnot⟩ := hstops
  have hr' := (completeRecords_mono hstart).subset hr
  rcases slimPcapToWriter_cases build path input' with ⟨c, rfl, hreturns⟩ | ⟨hreturns, -⟩ | ⟨-, hfault⟩
  · rw [completeRecords_file] at hr'
    exact absurd (hreturns r hr') hnot
  · exact absurd (hreturns r hr') hnot
  · exact hfault

/-- A file with nothing behind its records is no longer than a part of it with as
many records. -/
theorem bytes_eq_of_prefix {c c' : PcapFile} (hstart : c.bytes <+: c'.bytes)
    (htail : c'.tail = []) (hcount : c.records.length = c'.records.length) : c.bytes = c'.bytes := by
  have hheader : readGlobalHeader c'.bytes "" =
      .ok (c.endian, c.ghdr, encodeRecords c.endian c.records ++ c.tail ++
        c'.bytes.drop c.bytes.length) := by
    have happend := readGlobalHeader_append (readGlobalHeader_file c "") (c'.bytes.drop c.bytes.length)
    rwa [List.prefix_iff_eq_append.mp hstart] at happend
  have hrecords := completeRecords_mono hstart
  rw [completeRecords_file, completeRecords_file] at hrecords
  have heq := hrecords.eq_of_length hcount
  rw [readGlobalHeader_file] at hheader
  obtain ⟨hendian, hghdr, hrest⟩ : c'.endian = c.endian ∧ c'.ghdr = c.ghdr ∧ _ = _ := by
    simpa using hheader
  refine hstart.eq_of_length ?_
  have hle := hstart.length_le
  simp only [PcapFile.bytes, htail, hendian, hghdr, heq, List.length_append, List.length_nil] at hle ⊢
  omega

/-- A part of the output in which the counter finds all the packets is the output. -/
theorem eq_of_prefix_of_count {path path' : String} {input part : Bytes} {b : WriteBatch}
    {stats : SlimStats} (h : slimPcapToWriter build path input = .ok (b, stats))
    (hstart : part <+: b.writer) (hcount : countPackets path' part = .ok stats.inPkts) :
    part = b.writer := by
  obtain ⟨c, rfl, -, hwriter, -, rfl⟩ := slimPcapToWriter_eq_ok h
  obtain ⟨c', rfl, hlength⟩ := countPackets_eq_ok hcount
  rw [hwriter] at hstart ⊢
  refine bytes_eq_of_prefix hstart rfl ?_
  rw [hlength, statsOf, PcapFile.slim, List.length_map]

end PcapSlim.PcapIo
