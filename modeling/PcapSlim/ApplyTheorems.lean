/-
PcapSlim.ApplyTheorems — `apply_truncate` on every buffer.

`applyTruncate_cases` gives the outcome of `apply_truncate` in the release build:
the buffer as it was, or the rewritten frame of a layout with a long payload. No
byte string stops it. The second half follows the buffer on its way to the
checksum code: `handedSegment` is the segment that `transport_checksum_ipv4` and
`transport_checksum_ipv6` are called with, and its length decides whether their
assertion holds.
-/
import PcapSlim.LoopTheorems
import PcapSlim.PacketTheorems

namespace PcapSlim.Truncate

open Lib.Buffer Lib.Octets Checksum Parse Policy Packet

/-! ## The outcome of `apply_truncate` -/

theorem applyTruncate_of_none (build : Build) {buf : Bytes} {p : ParsedFrame}
    (hparse : parseFrame buf = .ok (.ok p)) (hnone : p.l4 = none) :
    applyTruncate build buf = .ok (buf, false) := by
  rw [applyTruncate, hparse, ok_bind]
  dsimp only
  rw [applyTruncateOnParsed, hnone]
  rfl

/-- A payload of at most 24 bytes is left alone. -/
theorem applyTruncate_of_short_payload (build : Build) {buf : Bytes} {p : ParsedFrame}
    {l4 : L4Info} (h : Layout buf p l4) (hshort : (payloadOf p l4).length ≤ truncatePayloadBytes) :
    applyTruncate build buf = .ok (buf, false) := by
  rw [applyTruncate, h.parseFrame_eq, ok_bind]
  dsimp only
  rw [applyTruncateOnParsed, h.l4_eq.1]
  dsimp only
  rw [h.payload_ok, ok_bind, applyTruncateFields, if_pos hshort]
  rfl

/-- The two outcomes of `apply_truncate`. -/
theorem applyTruncate_cases (buf : Bytes) :
    applyTruncate .release buf = .ok (buf, false) ∨
      ∃ p l4 sum, Long buf p l4 ∧ applyTruncate .release buf = .ok (rewritten p l4 sum, true) := by
  rcases frame_cases buf with hshort | ⟨p, l4, hlayout⟩ | ⟨-, p, hparse, hnone⟩
  · left
    rw [applyTruncate, parseFrame_short hshort]
    rfl
  · by_cases hlong : truncatePayloadBytes < (payloadOf p l4).length
    · right
      have h : Long buf p l4 := ⟨hlayout, hlong⟩
      obtain ⟨ph, sum, -, hsum, -⟩ := h.transportSum_ok
      refine ⟨p, l4, sum, h, ?_⟩
      rw [applyTruncate, hlayout.parseFrame_eq, ok_bind]
      dsimp only
      rw [applyTruncateOnParsed_eq h, hsum, ok_bind]
    · exact .inl (applyTruncate_of_short_payload _ hlayout (Nat.not_lt.mp hlong))
  · exact .inl (applyTruncate_of_none _ hparse hnone)

/-- `apply_truncate` returns, and either leaves the buffer as it was or cuts it
24 bytes into the payload that the parser found, which makes it shorter. -/
structure AllOrNothing (buf : Bytes) : Prop where
  returns : ∃ buf' shortened, applyTruncate .release buf = .ok (buf', shortened)
  unchanged : ∀ buf', applyTruncate .release buf = .ok (buf', false) → buf' = buf
  shortened : ∀ buf', applyTruncate .release buf = .ok (buf', true) →
    ∃ p l4, parseFrame buf = .ok (.ok p) ∧ p.l4 = some l4 ∧
      buf'.length = l4.payloadStart + 24 ∧ buf'.length < buf.length

/-- **All or nothing, on every byte string**; and the loops end on all of them, on
the captured frame and on the one that the checksum is computed over. -/
theorem applyTruncate_allOrNothing (buf : Bytes) :
    AllOrNothing buf ∧ ∀ buf' : Bytes, LoopsEnd buf' := by
  refine ⟨?_, loopsEnd⟩
  rcases applyTruncate_cases buf with hkeep | ⟨p, l4, sum, hlong, hcut⟩
  · refine ⟨⟨buf, false, hkeep⟩, fun buf' h => ?_, fun buf' h => ?_⟩
    · rw [hkeep] at h
      cases h
      rfl
    · rw [hkeep] at h
      cases h
  · refine ⟨⟨_, true, hcut⟩, fun buf' h => ?_, fun buf' h => ?_⟩
    · rw [hcut] at h
      cases h
    · rw [hcut] at h
      cases h
      have hlen : (rewritten p l4 sum).length = l4.payloadStart + 24 := by
        rw [length_rewritten, hlong.length_shortened]
        rfl
      refine ⟨p, l4, hlong.layout.parseFrame_eq, hlong.layout.l4_eq.1, hlen, ?_⟩
      rw [hlen]
      exact hlong.cut_lt

/-! ## The segment handed to the checksum code -/

/-- The segment that `update_tcp_checksum` or `update_udp_checksum` hands to the
checksum code: the buffer is cut, the length fields are stored and the checksum
field is zeroed before it is taken, up to the end of the buffer for TCP and for
the new UDP length otherwise. -/
def handedSegment (buf : Bytes) (ipStart ipHeaderLen : Nat) (isIpv6 : Bool) (l4 : L4Info) :
    Checked Bytes := do
  let buf := buf.take (l4.payloadStart + truncatePayloadBytes)
  let newIpTotal ← sub buf.length ipStart
  let buf ← updateIpFields buf ipStart ipHeaderLen isIpv6 newIpTotal
  match l4.proto with
  | .tcp => do
      let buf ← storeBe16 buf (l4.headerStart + 16) 0
      slice buf l4.headerStart buf.length
  | .udp => do
      let udpLen := l4.headerLen + truncatePayloadBytes
      let buf ← storeBe16 buf (l4.headerStart + 4) (udpLen % 65536)  -- `as u16`
      let buf ← storeBe16 buf (l4.headerStart + 6) 0
      slice buf l4.headerStart (l4.headerStart + udpLen)

/-- It is the segment that `applyTruncateOnParsed_eq` sums. -/
theorem handedSegment_eq {frame : Bytes} {p : ParsedFrame} {l4 : L4Info} (h : Long frame p l4) :
    handedSegment frame p.ipStart p.ipHeaderLen p.isIpv6 l4 = .ok (summedSegment p l4) := by
  have hlen := h.length_shortened
  have h24 : truncatePayloadBytes = 24 := rfl
  obtain ⟨hheader, hpayload, -, -, htcp, hudp⟩ := h.bounds
  have hcut : frame.take (l4.payloadStart + truncatePayloadBytes) = shortened p l4 := by
    rw [shortened, h.layout.l4_eq.2]
  unfold handedSegment
  dsimp only
  rw [hcut, hlen, sub_ok (by omega), ok_bind, updateIpFields_ok h, ok_bind]
  unfold summedSegment zeroed withLengths checksumField
  cases hproto : l4.proto with
  | tcp =>
    have := htcp hproto
    dsimp only
    rw [storeBe16_ok (by rw [length_withIpFields]; omega), ok_bind,
      slice_ok (by rw [length_putBe16, length_withIpFields]; omega) (Nat.le_refl _),
      List.take_length]
  | udp =>
    have := hudp hproto
    dsimp only
    rw [storeBe16_ok (by rw [length_withIpFields]; omega), ok_bind,
      storeBe16_ok (by rw [length_putBe16, length_withIpFields]; omega), ok_bind,
      slice_ok (by omega) (by rw [length_putBe16, length_putBe16, length_withIpFields]; omega),
      List.take_of_length_le (by rw [length_putBe16, length_putBe16, length_withIpFields]; omega)]

/-- The checksum code is handed a segment of at most `MAX_TRANSPORT_SEGMENT` bytes,
and in a debug build `process_packet` is not stopped by an assertion. -/
structure SegmentBounded (frame : Bytes) (p : ParsedFrame) (l4 : L4Info) : Prop where
  bounded : ∃ segment, handedSegment frame p.ipStart p.ipHeaderLen p.isIpv6 l4 = .ok segment ∧
    segment.length ≤ maxTransportSegment
  no_assertion : processPacket .debug frame ≠ .error .assertion

/-- **The segment is bounded exactly for transport headers of at most 40 bytes**,
among the frames that `process_packet` decides to truncate: UDP, and TCP with a
data offset of at most 10. -/
theorem segmentBounded_iff {frame : Bytes} {p : ParsedFrame}
    (hparse : parseFrame frame = .ok (.ok p)) (hdecide : decideAction p = .ok .truncate) :
    ∃ l4, p.l4 = some l4 ∧ (SegmentBounded frame p l4 ↔ l4.headerLen ≤ 40) := by
  obtain ⟨l4, hlayout, hcuts⟩ := cuts_of_truncate hparse hdecide
  have hlong := hcuts.long hlayout
  have hseg := hlong.length_summedSegment
  have h24 : truncatePayloadBytes = 24 := rfl
  have h64 : maxTransportSegment = 64 := rfl
  refine ⟨l4, hlayout.l4_eq.1, fun h => ?_, fun h => ⟨⟨_, handedSegment_eq hlong, ?_⟩, ?_⟩⟩
  · obtain ⟨segment, hhanded, hle⟩ := h.bounded
    rw [handedSegment_eq hlong] at hhanded
    cases hhanded
    omega
  · omega
  · obtain ⟨g, hg⟩ := (processPacket_cut_iff .debug hlayout).mpr ⟨hcuts, fun _ => by omega⟩
    rw [hg]
    intro herror
    cases herror

/-- Behind a TCP header of 44 bytes the segment has 68. -/
theorem longHeaderTcp_segment_unbounded :
    ¬ ∀ frame p l4, parseFrame frame = .ok (.ok p) → p.l4 = some l4 →
      decideAction p = .ok .truncate → SegmentBounded frame p l4 := by
  intro h
  have hdecide : decideAction longHeaderTcpParsed = .ok .truncate := by decide +kernel
  obtain ⟨segment, hhanded, hle⟩ := (h _ _ _ parseFrame_longHeaderTcp rfl hdecide).bounded
  have hlen : (handedSegment longHeaderTcp 14 20 false longHeaderTcpInfo).map List.length =
      .ok 68 := by decide +kernel
  have hsegment : handedSegment longHeaderTcp 14 20 false longHeaderTcpInfo = .ok segment := hhanded
  rw [hsegment] at hlen
  have h68 : segment.length = 68 := Except.ok.inj hlen
  have h64 : maxTransportSegment = 64 := rfl
  omega

theorem segmentBounded_iff_longHeaderTcp :
    ∃ l4, longHeaderTcpParsed.l4 = some l4 ∧
      (SegmentBounded longHeaderTcp longHeaderTcpParsed l4 ↔ l4.headerLen ≤ 40) :=
  segmentBounded_iff parseFrame_longHeaderTcp (by decide +kernel)

end PcapSlim.Truncate
