/-
PcapSlim.AccountTheorems — what the streaming pass reports through `account_io`.

A read is charged when it is made, a write when the batch is flushed. `Ledger`
explains a log of byte counts: every entry is one read or one flush that delivered
something, the reads make up what has been read and the deliveries what the
writer has received. The unflushed part of the batch is in neither. Every
operation of the batch keeps a ledger, so every round of the record loop does
(`balanced_step`) and every state that the loop reaches has one; nothing here
depends on where the batches end or how long a record is.
-/
import Mathlib.Algebra.GroupWithZero.Nat
import PcapSlim.Lib.Run
import PcapSlim.PcapIoTheorems

namespace PcapSlim.PcapIo

open Relation Lib.Buffer Lib.Octets Lib.Run Packet Capture

/-! ## Ledgers -/

/-- What `account_io` is called for: bytes that were read, or bytes that one
`write_all` delivered. -/
inductive Charge where
  | read (bytes : Bytes)
  | delivered (bytes : Bytes)
  deriving DecidableEq, Repr

namespace Charge

/-- The bytes that are charged for. -/
def amount : Charge → Nat
  | read bytes => bytes.length
  | delivered bytes => bytes.length

/-- The bytes that were read. -/
def readBytes : Charge → Bytes
  | read bytes => bytes
  | delivered _ => []

/-- The bytes that were delivered. -/
def deliveredBytes : Charge → Bytes
  | read _ => []
  | delivered bytes => bytes

theorem amount_eq (c : Charge) : c.amount = c.readBytes.length + c.deliveredBytes.length := by
  cases c <;> simp [amount, readBytes, deliveredBytes]

end Charge

/-- The log of the batch is the list of these charges: the reads are `bytesRead` and
the deliveries are what the writer has received. -/
structure Ledger (charges : List Charge) (bytesRead : Bytes) (b : WriteBatch) : Prop where
  log : b.accounted = charges.map Charge.amount
  reads : charges.flatMap Charge.readBytes = bytesRead
  deliveries : charges.flatMap Charge.deliveredBytes = b.writer

theorem sum_amount (charges : List Charge) :
    (charges.map Charge.amount).sum =
      (charges.flatMap Charge.readBytes).length +
        (charges.flatMap Charge.deliveredBytes).length := by
  induction charges with
  | nil => rfl
  | cons c charges ih =>
    rw [List.map_cons, List.sum_cons, ih, List.flatMap_cons, List.flatMap_cons,
      List.length_append, List.length_append, c.amount_eq]
    omega

/-- What is accounted is what was read and what was written. -/
theorem Ledger.sum {charges : List Charge} {bytesRead : Bytes} {b : WriteBatch}
    (h : Ledger charges bytesRead b) :
    b.accounted.sum = bytesRead.length + b.writer.length := by
  rw [h.log, sum_amount, h.reads, h.deliveries]

/-- A read that is accounted when it is made. -/
theorem Ledger.account {charges : List Charge} {bytesRead : Bytes} {b : WriteBatch}
    (h : Ledger charges bytesRead b) (bytes : Bytes) {n : Nat} (hn : bytes.length = n) :
    Ledger (charges ++ [.read bytes]) (bytesRead ++ bytes) (b.account n) where
  log := by
    rw [List.map_append, ← h.log, ← hn]
    rfl
  reads := by
    rw [List.flatMap_append, h.reads]
    simp [Charge.readBytes]
  deliveries := by
    rw [List.flatMap_append, h.deliveries]
    simp [Charge.deliveredBytes, WriteBatch.account]

/-- The charge of a flush: none for an empty batch, else one for all of it. -/
def flushCharges (b : WriteBatch) : List Charge :=
  if b.buf.isEmpty then [] else [.delivered b.buf]

/-- A flush delivers the batch and charges for it once. -/
theorem Ledger.flush {charges : List Charge} {bytesRead : Bytes} {b : WriteBatch}
    (h : Ledger charges bytesRead b) : Ledger (charges ++ flushCharges b) bytesRead b.flush := by
  unfold WriteBatch.flush flushCharges
  by_cases hempty : b.buf.isEmpty
  · rw [if_pos hempty, if_pos hempty, List.append_nil]
    exact h
  · rw [if_neg hempty, if_neg hempty]
    refine ⟨?_, ?_, ?_⟩
    · rw [List.map_append, ← h.log]
      rfl
    · rw [List.flatMap_append, h.reads]
      simp [Charge.readBytes]
    · rw [List.flatMap_append, h.deliveries]
      simp [Charge.deliveredBytes]

/-- A record that is batched is charged for later; the batch that has to make room
for it is charged for now. -/
theorem Ledger.writeRecord {charges : List Charge} {bytesRead : Bytes} {b : WriteBatch}
    (h : Ledger charges bytesRead b) (recHdr frame : Bytes) :
    ∃ charges', Ledger charges' bytesRead (b.writeRecord recHdr frame) := by
  unfold WriteBatch.writeRecord
  dsimp only
  split
  · exact ⟨_, h.flush.log, h.flush.reads, h.flush.deliveries⟩
  · exact ⟨_, h.log, h.reads, h.deliveries⟩

/-! ## A round keeps the balance -/

/-- A round of the record loop that does not end it. -/
def SlimStep (build : Build) (e : Endian) (s s' : SlimState) : Prop :=
  slimRound build e s = .ok (some s')

/-- What has been read of the file `whole`, and what is left of it, with a ledger for
the reads and the writes so far. -/
def Balanced (whole : Bytes) (s : SlimState) : Prop :=
  ∃ charges bytesRead, Ledger charges bytesRead s.batch ∧ bytesRead ++ s.input = whole

variable {build : Build} {e : Endian}

theorem readFrameInto_eq_ok {input rest : Bytes} {buf buf' : FrameBuf} {inclLen : Nat}
    (h : readFrameInto input buf inclLen = .ok (buf', rest)) :
    inclLen ≤ input.length ∧ rest = input.drop inclLen := by
  by_cases hlen : inclLen ≤ input.length
  · obtain ⟨buf'', hbuf, -⟩ := readFrameInto_ok buf hlen
    rw [hbuf] at h
    cases h
    exact ⟨hlen, rfl⟩
  · rw [readFrameInto_eof (by omega)] at h
    cases h

/-- The rest of a round only writes. -/
theorem slimRecord_eq_ok {recHdr : Bytes} {s s' : SlimState}
    (h : slimRecord build e recHdr s = .ok s') :
    s'.input = s.input ∧ ∃ hdr frame, s'.batch = s.batch.writeRecord hdr frame := by
  unfold slimRecord at h
  dsimp only at h
  split at h
  · cases h
  · cases h
    exact ⟨rfl, _, _, rfl⟩

/-- **A round keeps the balance**: it charges for the header and for the body that it
reads, and for the batch that it flushes, if it does. -/
theorem balanced_step {whole : Bytes} (s s' : SlimState) (h : Balanced whole s)
    (hstep : SlimStep build e s s') : Balanced whole s' := by
  obtain ⟨charges, bytesRead, hledger, hwhole⟩ := h
  unfold SlimStep slimRound at hstep
  by_cases hlen : pcapRecHdrLen ≤ s.input.length
  · rw [readExact_ok hlen] at hstep
    dsimp only at hstep
    split at hstep
    · cases hstep
    rename_i frameBuf rest hframe
    obtain ⟨hbody, rfl⟩ := readFrameInto_eq_ok hframe
    split at hstep
    · cases hstep
    rename_i s'' hrecord
    cases hstep
    obtain ⟨hinput, hdr, frame, hbatch⟩ := slimRecord_eq_ok hrecord
    have hread := (hledger.account (s.input.take pcapRecHdrLen)
      (by rw [List.length_take, Nat.min_eq_left hlen])).account _
      (by rw [List.length_take, Nat.min_eq_left hbody])
    obtain ⟨charges', hledger'⟩ := hread.writeRecord hdr frame
    refine ⟨charges', _, by rw [hbatch]; exact hledger', ?_⟩
    rw [hinput, List.append_assoc, List.take_append_drop, List.append_assoc,
      List.take_append_drop, hwhole]
  · rw [readExact_eof (by omega)] at hstep
    cases hstep

/-- The loop only takes steps. -/
theorem run_of_slimLoop (fuel : Nat) : ∀ {s s' : SlimState}, slimLoop build e fuel s = .ok s' →
    ReflTransGen (SlimStep build e) s s' := by
  induction fuel with
  | zero =>
    intro s s' h
    cases h
    exact .refl
  | succ fuel ih =>
    intro s s' h
    obtain ⟨next, hround, h⟩ := bind_eq_ok.mp h
    cases next with
    | none =>
      cases h
      exact .refl
    | some s'' => exact .head hround (ih h)

/-- The global header has been read and written before the first round. -/
theorem balanced_start {ghdr : Bytes} (hlen : ghdr.length = pcapHdrLen) (rest : Bytes)
    (inBytes : Nat) : Balanced (ghdr ++ rest) (slimStart ghdr rest inBytes) := by
  refine ⟨[.read ghdr, .delivered ghdr], ghdr, ⟨?_, ?_, ?_⟩, rfl⟩
  · simp [Charge.amount, slimStart, hlen]
  · simp [Charge.readBytes]
  · simp [Charge.deliveredBytes, slimStart]

/-! ## The whole pass -/

/-- The first state of the record loop on a file. -/
def fileStart (c : PcapFile) : SlimState :=
  slimStart c.ghdr (encodeRecords c.endian c.records ++ c.tail) c.bytes.length

theorem balanced_of_run {c : PcapFile} {s : SlimState}
    (hrun : ReflTransGen (SlimStep build c.endian) (fileStart c) s) : Balanced c.bytes s := by
  refine invariant_of_run (Balanced c.bytes) balanced_step hrun ?_
  rw [PcapFile.bytes, List.append_assoc]
  exact balanced_start c.magic.1 _ _

/-- The accounting of a pass over the file `c`. -/
structure AccountsExactly (build : Build) (path : String) (c : PcapFile) : Prop where
  on_the_way : ∀ s, ReflTransGen (SlimStep build c.endian) (fileStart c) s → Balanced c.bytes s
  at_a_flush : ∀ charges bytesRead b, Ledger charges bytesRead b →
    Ledger (charges ++ flushCharges b) bytesRead b.flush
  at_the_end : ∃ b stats charges, slimPcapToWriter build path c.bytes = .ok (b, stats) ∧
    b.buf = [] ∧ Ledger charges (c.ghdr ++ encodeRecords c.endian c.records) b ∧
    b.accounted.sum = 24 + (encodeRecords c.endian c.records).length + b.writer.length

/-- **The accounting is exact**: when the pass returns, it has reported the bytes of
the global header, of the complete records and of the output, each written byte at
the flush that delivered it. -/
theorem slimPcapToWriter_accounts (path : String) (c : PcapFile)
    (hreturns : ∀ r ∈ c.records, Returns build r.frame) : AccountsExactly build path c := by
  refine ⟨fun s => balanced_of_run, fun _ _ _ => Ledger.flush, ?_⟩
  obtain ⟨s, hs, htail, -, -⟩ := slimLoop_ok build c.endian c.tail_lt c.records
    (c.bytes.length + 1) (fileStart c) (records_lt_fuel_file c) rfl hreturns
  obtain ⟨charges, bytesRead, hledger, hwhole⟩ := balanced_of_run (run_of_slimLoop _ hs)
  have hread : bytesRead = c.ghdr ++ encodeRecords c.endian c.records := by
    rw [htail, PcapFile.bytes] at hwhole
    exact List.append_cancel_right hwhole
  have hflush := hledger.flush
  rw [hread] at hflush
  refine ⟨s.batch.flush, s.stats, _, ?_, s.batch.flush_writer.2, hflush, ?_⟩
  · rw [slimPcapToWriter_of_header (readGlobalHeader_file c path)]
    change slimLoop build c.endian (c.bytes.length + 1) (fileStart c) >>= _ = _
    rw [hs, ok_bind]
  · have hlen : c.ghdr.length = 24 := c.magic.1
    rw [hflush.sum, List.length_append, hlen]

/-- A file with one record, whose frame is cut, and part of another record header. -/
def cutOffCapture : PcapFile where
  endian := ⟨true⟩
  ghdr := toLe32 magicLe ++ List.replicate 20 0
  magic := ⟨by decide, by decide⟩
  records := [⟨0, 0, 122, ipv6Fragment, by decide⟩]
  tail := [1, 2, 3]
  tail_lt := by decide

theorem slimPcapToWriter_accounts_cutOffCapture :
    AccountsExactly .release "a.pcap" cutOffCapture := by
  refine slimPcapToWriter_accounts "a.pcap" cutOffCapture fun r hr => ?_
  obtain rfl := List.mem_singleton.mp hr
  obtain ⟨g, hg⟩ : ∃ g, processPacket .release ipv6Fragment = .ok (.truncated g, true) :=
    exists_truncated (by decide +kernel) (by decide +kernel)
  exact ⟨_, hg⟩

end PcapSlim.PcapIo
