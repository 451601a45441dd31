/-
PcapSlim.TruncateTheorems — what `truncate.rs` writes.

For a layout whose payload is longer than 24 bytes the cut is a chain of stores
into the shortened frame: the IP length, the IPv4 header checksum, the UDP
length and last the transport checksum. `shortened`, `withIpFields`,
`withLengths`, `zeroed` and `rewritten` name the buffer after each of them, and
`applyTruncateOnParsed_eq` says that the code goes through exactly these
buffers, with one check left that can fail: the debug assertion inside
`transportSum`. The frame lemmas then say which bytes the chain leaves alone,
and the last section that both checksums validate.
-/
import PcapSlim.ChecksumTheorems
import PcapSlim.IpOptions
import PcapSlim.PolicyTheorems
import PcapSlim.Truncate

namespace PcapSlim.Truncate

open Lib.Buffer Lib.Octets Lib.OnesComplement Checksum Parse Policy

/-! ## The buffers of the cut -/

/-- The frame cut 24 bytes into its payload. -/
def shortened (p : ParsedFrame) (l4 : L4Info) : Bytes :=
  p.frame.take (l4.payloadStart + truncatePayloadBytes)

/-- The IPv4 header with its new total length and a zero checksum. -/
def withTotal (p : ParsedFrame) (l4 : L4Info) : Bytes :=
  putBe16 (putBe16 (shortened p l4) (p.ipStart + 2)
    (l4.payloadStart + truncatePayloadBytes - p.ipStart)) (p.ipStart + 10) 0

/-- The `ipHeaderLen` bytes that the IPv4 header checksum covers. -/
def summedHeader (p : ParsedFrame) (l4 : L4Info) : Bytes :=
  ((withTotal p l4).take (p.ipStart + p.ipHeaderLen)).drop p.ipStart

/-- After the fields of the IP header. -/
def withIpFields (p : ParsedFrame) (l4 : L4Info) : Bytes :=
  if p.isIpv6 then
    putBe16 (shortened p l4) (p.ipStart + 4)
      ((l4.payloadStart + truncatePayloadBytes - p.ipStart - p.ipHeaderLen) % 65536)
  else
    putBe16 (withTotal p l4) (p.ipStart + 10) (internetChecksum (summedHeader p l4)).toNat

/-- After the UDP length. -/
def withLengths (p : ParsedFrame) (l4 : L4Info) : Bytes :=
  match l4.proto with
  | .tcp => withIpFields p l4
  | .udp => putBe16 (withIpFields p l4) (l4.headerStart + 4)
      ((l4.headerLen + truncatePayloadBytes) % 65536)

/-- Where the transport checksum stands. -/
def checksumField (l4 : L4Info) : Nat :=
  match l4.proto with
  | .tcp => l4.headerStart + 16
  | .udp => l4.headerStart + 6

/-- The protocol number in the pseudo-header. -/
def protoNumber : L4Proto → UInt8
  | .tcp => 6
  | .udp => 17

/-- What is stored for a transport sum. -/
def wireSum : L4Proto → UInt16 → UInt16
  | .tcp, sum => sum
  | .udp, sum => udpChecksumWire sum

/-- The buffer that the transport checksum is computed over. -/
def zeroed (p : ParsedFrame) (l4 : L4Info) : Bytes :=
  putBe16 (withLengths p l4) (checksumField l4) 0

/-- The segment that the transport checksum is computed over. -/
def summedSegment (p : ParsedFrame) (l4 : L4Info) : Bytes := (zeroed p l4).drop l4.headerStart

/-- The finished frame. -/
def rewritten (p : ParsedFrame) (l4 : L4Info) (sum : UInt16) : Bytes :=
  putBe16 (zeroed p l4) (checksumField l4) (wireSum l4.proto sum).toNat

@[simp] theorem length_withTotal (p : ParsedFrame) (l4 : L4Info) :
    (withTotal p l4).length = (shortened p l4).length := by
  simp [withTotal]

@[simp] theorem length_withIpFields (p : ParsedFrame) (l4 : L4Info) :
    (withIpFields p l4).length = (shortened p l4).length := by
  unfold withIpFields
  split <;> simp

@[simp] theorem length_withLengths (p : ParsedFrame) (l4 : L4Info) :
    (withLengths p l4).length = (shortened p l4).length := by
  unfold withLengths
  split <;> simp

@[simp] theorem length_zeroed (p : ParsedFrame) (l4 : L4Info) :
    (zeroed p l4).length = (shortened p l4).length := by
  simp [zeroed]

@[simp] theorem length_rewritten (p : ParsedFrame) (l4 : L4Info) (sum : UInt16) :
    (rewritten p l4 sum).length = (shortened p l4).length := by
  simp [rewritten]

/-! ## Layouts that are cut -/

/-- A layout with more than 24 bytes of payload, with the offsets in order. -/
structure Long (frame : Bytes) (p : ParsedFrame) (l4 : L4Info) : Prop where
  layout : Layout frame p l4
  long : truncatePayloadBytes < (payloadOf p l4).length

/-- The cut is a cut: it leaves fewer bytes than the frame has. -/
theorem Long.cut_lt {frame : Bytes} {p : ParsedFrame} {l4 : L4Info} (h : Long frame p l4) :
    l4.payloadStart + truncatePayloadBytes < frame.length := by
  have hlong := h.long
  have hstop : payloadStop p l4 ≤ p.frame.length := Nat.min_le_left _ _
  rw [length_payloadOf] at hlong
  rw [h.layout.l4_eq.2] at hstop
  omega

theorem Long.length_shortened {frame : Bytes} {p : ParsedFrame} {l4 : L4Info}
    (h : Long frame p l4) :
    (shortened p l4).length = l4.payloadStart + truncatePayloadBytes := by
  have hcut := h.cut_lt
  rw [shortened, List.length_take, h.layout.l4_eq.2]
  omega

/-- The offsets that the stores of the cut rely on. -/
theorem Long.bounds {frame : Bytes} {p : ParsedFrame} {l4 : L4Info} (h : Long frame p l4) :
    p.ipStart + p.ipHeaderLen ≤ l4.headerStart ∧
      l4.payloadStart = l4.headerStart + l4.headerLen ∧
      p.ipStart + 8 ≤ l4.payloadStart ∧ 8 ≤ l4.headerLen ∧
      (l4.proto = .tcp → 20 ≤ l4.headerLen) ∧ (l4.proto = .udp → l4.headerLen = 8) := by
  have hord := h.layout.ordered
  have hheader := hord.header_ge
  have hpayload := hord.payload_eq
  rcases hord.headerLen_ge with ⟨hproto, hlen⟩ | ⟨hproto, hlen⟩ <;> rw [hproto] <;> simp <;> omega

/-! ## The code goes through these buffers -/

theorem updateIpv4HeaderChecksum_ok {buf : Bytes} {ip hl : Nat} (hlen : ip + 11 < buf.length)
    (hhl : ip + hl ≤ buf.length) :
    updateIpv4HeaderChecksum buf ip hl = .ok (putBe16 (putBe16 buf (ip + 10) 0) (ip + 10)
      (internetChecksum (((putBe16 buf (ip + 10) 0).take (ip + hl)).drop ip)).toNat) := by
  unfold updateIpv4HeaderChecksum
  rw [storeBe16_ok (by omega), ok_bind, slice_ok (by omega) (by simpa using hhl), ok_bind,
    storeBe16_ok (by simpa using hlen)]

/-- What is summed is the transport header and the 24 bytes that are left of the
payload. -/
theorem Long.length_summedSegment {frame : Bytes} {p : ParsedFrame} {l4 : L4Info}
    (h : Long frame p l4) :
    (summedSegment p l4).length = l4.headerLen + truncatePayloadBytes := by
  rw [summedSegment, List.length_drop, length_zeroed, h.length_shortened, h.bounds.2.1]
  omega

/-- Zero, sum and store, when the field and the segment are in the buffer. -/
theorem updateTransportChecksum_ok {build : Build} {buf : Bytes} {ip hl start stop field : Nat}
    {v6 : Bool} {proto : UInt8} {wire : UInt16 → UInt16} (hfield : field + 1 < buf.length)
    (hstart : start ≤ stop) (hstop : stop = buf.length) :
    updateTransportChecksum build buf ip hl v6 start stop field proto wire =
      (transportSum build (putBe16 buf field 0) ip hl v6 proto
        ((putBe16 buf field 0).drop start) >>= fun sum =>
        .ok (putBe16 (putBe16 buf field 0) field (wire sum).toNat)) := by
  have hwhole : (putBe16 buf field 0).take stop = putBe16 buf field 0 :=
    List.take_of_length_le (by simp [hstop])
  unfold updateTransportChecksum
  rw [storeBe16_ok hfield, ok_bind, slice_ok hstart (by simp [hstop]), ok_bind, hwhole]
  cases transportSum build (putBe16 buf field 0) ip hl v6 proto
      ((putBe16 buf field 0).drop start) with
  | error e => rfl
  | ok sum => rw [ok_bind, ok_bind, storeBe16_ok (by simpa using hfield)]

theorem updateIpFields_ok {frame : Bytes} {p : ParsedFrame} {l4 : L4Info} (h : Long frame p l4) :
    updateIpFields (shortened p l4) p.ipStart p.ipHeaderLen p.isIpv6
      (l4.payloadStart + truncatePayloadBytes - p.ipStart) = .ok (withIpFields p l4) := by
  have hlen := h.length_shortened
  have h24 : truncatePayloadBytes = 24 := rfl
  obtain ⟨hheader, hpayload, hip, -⟩ := h.bounds
  unfold updateIpFields withIpFields summedHeader withTotal
  cases p.isIpv6 with
  | true =>
    simp only [if_true]
    rw [sub_ok (by omega), ok_bind, storeBe16_ok (by omega)]
  | false =>
    simp only [Bool.false_eq_true, if_false]
    rw [storeBe16_ok (by omega), ok_bind, updateIpv4HeaderChecksum_ok
      (by rw [length_putBe16]; omega) (by rw [length_putBe16]; omega)]

theorem updateTransportFields_eq {build : Build} {frame : Bytes} {p : ParsedFrame} {l4 : L4Info}
    (h : Long frame p l4) :
    updateTransportFields build (withIpFields p l4) p.ipStart p.ipHeaderLen p.isIpv6 l4 =
      (transportSum build (zeroed p l4) p.ipStart p.ipHeaderLen p.isIpv6 (protoNumber l4.proto)
        (summedSegment p l4) >>= fun sum => .ok (rewritten p l4 sum)) := by
  have hlen := h.length_shortened
  have h24 : truncatePayloadBytes = 24 := rfl
  obtain ⟨-, hpayload, -, -, htcp, hudp⟩ := h.bounds
  unfold updateTransportFields summedSegment rewritten zeroed withLengths checksumField
  cases hproto : l4.proto with
  | tcp =>
    have := htcp hproto
    dsimp only
    unfold updateTcpChecksum
    rw [updateTransportChecksum_ok (by rw [length_withIpFields]; omega)
      (by rw [length_withIpFields]; omega) rfl]
    rfl
  | udp =>
    have := hudp hproto
    dsimp only
    unfold updateUdpChecksum
    rw [storeBe16_ok (by rw [length_withIpFields]; omega), ok_bind,
      updateTransportChecksum_ok (by rw [length_putBe16, length_withIpFields]; omega) (by omega)
        (by rw [length_putBe16, length_withIpFields]; omega)]
    rfl

/-- The cut of a long payload: what is left that can fail is `transportSum`. -/
theorem applyTruncateOnParsed_eq {build : Build} {frame : Bytes} {p : ParsedFrame} {l4 : L4Info}
    (h : Long frame p l4) :
    applyTruncateOnParsed build frame p =
      (transportSum build (zeroed p l4) p.ipStart p.ipHeaderLen p.isIpv6 (protoNumber l4.proto)
        (summedSegment p l4) >>= fun sum => .ok (rewritten p l4 sum, true)) := by
  have hlong := h.long
  have hcut := h.cut_lt
  have hframe := h.layout.l4_eq.2
  have hlen := h.length_shortened
  obtain ⟨hheader, hpayload, -⟩ := h.bounds
  have hshort : frame.take (l4.payloadStart + truncatePayloadBytes) = shortened p l4 := by
    rw [shortened, hframe]
  unfold applyTruncateOnParsed
  rw [h.layout.l4_eq.1]
  dsimp only
  rw [h.layout.payload_ok, ok_bind, applyTruncateFields, if_neg (Nat.not_le.mpr hlong)]
  dsimp only
  rw [if_neg (Nat.not_le.mpr hcut), hshort, hlen, sub_ok (by omega), ok_bind, updateIpFields_ok h,
    ok_bind, updateTransportFields_eq h]
  cases transportSum build (zeroed p l4) p.ipStart p.ipHeaderLen p.isIpv6 (protoNumber l4.proto)
      (summedSegment p l4) <;> rfl

/-! ## The bytes that are left alone -/

/-- The bytes of the IP length and, for IPv4, of the header checksum. -/
def OwnedByIp (p : ParsedFrame) (i : Nat) : Prop :=
  if p.isIpv6 then i = p.ipStart + 4 ∨ i = p.ipStart + 5
  else i = p.ipStart + 2 ∨ i = p.ipStart + 3 ∨ i = p.ipStart + 10 ∨ i = p.ipStart + 11

/-- The bytes of the TCP checksum, or of the UDP length and checksum. -/
def OwnedByTransport (l4 : L4Info) (i : Nat) : Prop :=
  match l4.proto with
  | .tcp => i = l4.headerStart + 16 ∨ i = l4.headerStart + 17
  | .udp => i = l4.headerStart + 4 ∨ i = l4.headerStart + 5 ∨ i = l4.headerStart + 6 ∨
      i = l4.headerStart + 7

theorem ownedByIp_ipv6 {p : ParsedFrame} {i : Nat} (hv : p.isIpv6 = true) :
    OwnedByIp p i ↔ i = p.ipStart + 4 ∨ i = p.ipStart + 5 := by
  rw [OwnedByIp, if_pos hv]

theorem ownedByIp_ipv4 {p : ParsedFrame} {i : Nat} (hv : p.isIpv6 = false) :
    OwnedByIp p i ↔
      i = p.ipStart + 2 ∨ i = p.ipStart + 3 ∨ i = p.ipStart + 10 ∨ i = p.ipStart + 11 := by
  rw [OwnedByIp, hv, if_neg (by decide)]

theorem OwnedByIp.bounds {p : ParsedFrame} {i : Nat} (h : OwnedByIp p i) :
    p.ipStart + 2 ≤ i ∧ i < p.ipStart + 12 := by
  unfold OwnedByIp at h
  split at h <;> omega

theorem ownedByTransport_tcp {l4 : L4Info} {i : Nat} (hproto : l4.proto = .tcp) :
    OwnedByTransport l4 i ↔ i = l4.headerStart + 16 ∨ i = l4.headerStart + 17 := by
  simp only [OwnedByTransport, hproto]

theorem ownedByTransport_udp {l4 : L4Info} {i : Nat} (hproto : l4.proto = .udp) :
    OwnedByTransport l4 i ↔ i = l4.headerStart + 4 ∨ i = l4.headerStart + 5 ∨
      i = l4.headerStart + 6 ∨ i = l4.headerStart + 7 := by
  simp only [OwnedByTransport, hproto]

theorem OwnedByTransport.bounds {l4 : L4Info} {i : Nat} (h : OwnedByTransport l4 i) :
    l4.headerStart + 4 ≤ i ∧ i < l4.headerStart + 18 := by
  unfold OwnedByTransport at h
  split at h <;> omega

theorem elemAt_withIpFields {p : ParsedFrame} {l4 : L4Info} {i : Nat} (h : ¬ OwnedByIp p i) :
    elemAt (withIpFields p l4) i = elemAt (shortened p l4) i := by
  unfold withIpFields withTotal
  cases hv : p.isIpv6 with
  | true =>
    rw [ownedByIp_ipv6 hv, not_or] at h
    exact elemAt_putBe16_ne h.1 h.2
  | false =>
    simp only [ownedByIp_ipv4 hv, not_or] at h
    rw [if_neg (by decide), elemAt_putBe16_ne h.2.2.1 h.2.2.2, elemAt_putBe16_ne h.2.2.1 h.2.2.2,
      elemAt_putBe16_ne h.1 h.2.1]

theorem elemAt_rewritten_withIpFields {p : ParsedFrame} {l4 : L4Info} {sum : UInt16} {i : Nat}
    (h : ¬ OwnedByTransport l4 i) :
    elemAt (rewritten p l4 sum) i = elemAt (withIpFields p l4) i := by
  unfold rewritten zeroed withLengths checksumField
  cases hproto : l4.proto with
  | tcp =>
    rw [ownedByTransport_tcp hproto, not_or] at h
    dsimp only
    rw [elemAt_putBe16_ne h.1 h.2, elemAt_putBe16_ne h.1 h.2]
  | udp =>
    simp only [ownedByTransport_udp hproto, not_or] at h
    dsimp only
    rw [elemAt_putBe16_ne h.2.2.1 h.2.2.2, elemAt_putBe16_ne h.2.2.1 h.2.2.2,
      elemAt_putBe16_ne h.1 h.2.1]

theorem elemAt_shortened {frame : Bytes} {p : ParsedFrame} {l4 : L4Info} {i : Nat}
    (hframe : p.frame = frame) (hi : i < l4.payloadStart + truncatePayloadBytes) :
    elemAt (shortened p l4) i = elemAt frame i := by
  rw [shortened, elemAt_take hi, hframe]

/-- **Frame condition.** A byte that no rewritten field owns is the byte of the
captured frame. -/
theorem elemAt_rewritten {frame : Bytes} {p : ParsedFrame} {l4 : L4Info} {sum : UInt16} {i : Nat}
    (hframe : p.frame = frame) (hi : i < l4.payloadStart + truncatePayloadBytes)
    (hip : ¬ OwnedByIp p i) (htransport : ¬ OwnedByTransport l4 i) :
    elemAt (rewritten p l4 sum) i = elemAt frame i := by
  rw [elemAt_rewritten_withIpFields htransport, elemAt_withIpFields hip,
    elemAt_shortened hframe hi]

/-- The low byte of the new UDP length. -/
theorem elemAt_rewritten_udpLen {frame : Bytes} {p : ParsedFrame} {l4 : L4Info} (sum : UInt16)
    (h : Long frame p l4) (hproto : l4.proto = .udp) :
    elemAt (rewritten p l4 sum) (l4.headerStart + 5) = 32 := by
  have hlen := h.length_shortened
  obtain ⟨-, hpayload, -, -, -, hudp⟩ := h.bounds
  have h8 := hudp hproto
  unfold rewritten zeroed withLengths checksumField
  rw [hproto]
  dsimp only
  rw [elemAt_putBe16_ne (by omega) (by omega), elemAt_putBe16_ne (by omega) (by omega),
    show l4.headerStart + 5 = l4.headerStart + 4 + 1 from rfl,
    elemAt_putBe16_lo (by rw [length_withIpFields]; omega), h8]
  rfl

/-! ## The transport sum -/

/-- The pseudo-header of a segment of `segmentLen` bytes: the addresses of the
IP header at `ip`, but for an IPv4 source route, the protocol and the length. -/
def pseudoHeader (buf : Bytes) (ip hl : Nat) (isIpv6 : Bool) (proto : UInt8)
    (segmentLen : Nat) : Checked Bytes := do
  if isIpv6 then
    let src ← readIp6 buf (ip + 8)
    let dst ← readIp6 buf (ip + 24)
    return pseudoIpv6 src dst proto segmentLen
  else
    let src ← readIp4 buf (ip + 12)
    let dst ← ipv4PseudoDst buf ip hl
    return pseudoIpv4 src dst proto segmentLen

theorem readIp6_ok {buf : Bytes} {off : Nat} (h : off + 16 ≤ buf.length) :
    ∃ a, readIp6 buf off = .ok a ∧ a.bytes = (buf.take (off + 16)).drop off := by
  have hlen : ((buf.take (off + 16)).drop off).length = 16 := by
    rw [length_window off h, Nat.add_sub_cancel_left]
  unfold readIp6
  rw [slice_ok (by omega) h, ok_bind, FixedBytes.copyFrom, dif_pos hlen]
  exact ⟨_, rfl, rfl⟩

/-- An address is read from its sixteen bytes. -/
theorem readIp6_congr {buf buf' : Bytes} {off : Nat} (h : off + 16 ≤ buf.length)
    (h' : off + 16 ≤ buf'.length)
    (hagree : ∀ i, off ≤ i → i < off + 16 → elemAt buf' i = elemAt buf i) :
    readIp6 buf' off = readIp6 buf off := by
  unfold readIp6
  rw [slice_ok (by omega) h, slice_ok (by omega) h', window_congr h h' hagree]

/-- In the release build the transport sum is the complement of the folded sum
of pseudo-header and segment. -/
theorem transportSum_release {buf : Bytes} {ip hl : Nat} {isIpv6 : Bool} {proto : UInt8}
    {segment ph : Bytes} (hseg : segment.length < 65536)
    (hph : pseudoHeader buf ip hl isIpv6 proto segment.length = .ok ph) :
    ∃ sum, transportSum .release buf ip hl isIpv6 proto segment = .ok sum ∧
      sum.toNat = 65535 - fold (wordSum ph + wordSum segment) := by
  unfold pseudoHeader at hph
  unfold transportSum
  cases isIpv6 with
  | true =>
    simp only [if_true, bind_eq_ok] at hph
    obtain ⟨src, hsrc, dst, hdst, hph⟩ := hph
    cases hph
    rw [if_pos rfl, hsrc, ok_bind, hdst, ok_bind]
    exact ⟨_, rfl, finish_eq (toNat_checksumSumPseudoIpv6 hseg)⟩
  | false =>
    simp only [Bool.false_eq_true, if_false, bind_eq_ok] at hph
    obtain ⟨src, hsrc, dst, hdst, hph⟩ := hph
    cases hph
    rw [if_neg (by decide), hsrc, ok_bind, hdst, ok_bind]
    exact ⟨_, rfl, finish_eq (toNat_checksumSumPseudoIpv4 hseg)⟩

/-- The other build differs only where its assertion about the segment fails. -/
theorem transportSum_build {build : Build} {buf : Bytes} {ip hl : Nat} {isIpv6 : Bool}
    {proto : UInt8} {segment : Bytes} {sum : UInt16}
    (h : transportSum .release buf ip hl isIpv6 proto segment = .ok sum) :
    transportSum build buf ip hl isIpv6 proto segment =
      if build = .debug ∧ maxTransportSegment < segment.length then .error .assertion
      else .ok sum := by
  unfold transportSum transportChecksumIpv4 transportChecksumIpv6 debugAssert at *
  cases isIpv6 with
  | true =>
    simp only [if_true, bind_eq_ok] at h
    obtain ⟨src, hsrc, dst, hdst, -, -, hsum⟩ := h
    rw [if_pos rfl, hsrc, ok_bind, hdst, ok_bind, hsum]
    simp only [decide_eq_false_iff_not, Nat.not_le]
    split <;> rfl
  | false =>
    simp only [Bool.false_eq_true, if_false, bind_eq_ok] at h
    obtain ⟨src, hsrc, dst, hdst, -, -, hsum⟩ := h
    rw [if_neg (by decide), hsrc, ok_bind, hdst, ok_bind, hsum]
    simp only [decide_eq_false_iff_not, Nat.not_le]
    split <;> rfl

/-- The pseudo-header depends on the addresses and the IPv4 options only, and is
always there. -/
theorem pseudoHeader_congr {buf buf' : Bytes} {ip hl : Nat} {isIpv6 : Bool} (n : Nat)
    (proto : UInt8) (hlen : buf'.length = buf.length)
    (hfixed : ip + (if isIpv6 then 40 else 20) ≤ buf.length) (hhl : ip + hl ≤ buf.length)
    (hagree : ∀ i, ip + (if isIpv6 then 8 else 12) ≤ i →
      i < ip + (if isIpv6 then 40 else max 20 hl) → elemAt buf' i = elemAt buf i) :
    ∃ ph, pseudoHeader buf ip hl isIpv6 proto n = .ok ph ∧
      pseudoHeader buf' ip hl isIpv6 proto n = .ok ph := by
  unfold pseudoHeader
  cases isIpv6 with
  | true =>
    simp only [if_true] at hfixed hagree ⊢
    have hread : ∀ off, 8 ≤ off → off ≤ 24 → readIp6 buf' (ip + off) = readIp6 buf (ip + off) :=
      fun off hlo hhi => readIp6_congr (by omega) (by omega) fun i hi hlt =>
        hagree i (by omega) (by omega)
    obtain ⟨src, hsrc, -⟩ := readIp6_ok (show ip + 8 + 16 ≤ buf.length by omega)
    obtain ⟨dst, hdst, -⟩ := readIp6_ok (show ip + 24 + 16 ≤ buf.length by omega)
    rw [hread 8 (by omega) (by omega), hread 24 (by omega) (by omega), hsrc, hdst]
    exact ⟨_, rfl, rfl⟩
  | false =>
    simp only [Bool.false_eq_true, if_false] at hfixed hagree ⊢
    obtain ⟨dst, hdst, hdst'⟩ := ipv4PseudoDst_congr (show ip + 20 ≤ buf.length by omega)
      (show ip + 20 ≤ buf'.length by omega) hhl (by omega) fun i hi hlt => hagree i (by omega) hlt
    rw [readIp4_ok (show ip + 12 + 4 ≤ buf.length by omega), ok_bind,
      readIp4_ok (show ip + 12 + 4 ≤ buf'.length by omega), ok_bind, hdst, hdst',
      hagree (ip + 12) (by omega) (by omega), hagree (ip + 12 + 1) (by omega) (by omega),
      hagree (ip + 12 + 2) (by omega) (by omega), hagree (ip + 12 + 3) (by omega) (by omega)]
    exact ⟨_, rfl, rfl⟩

/-- The cut of a long payload returns in the release build. -/
theorem Long.transportSum_ok {frame : Bytes} {p : ParsedFrame} {l4 : L4Info}
    (h : Long frame p l4) :
    ∃ ph sum, pseudoHeader (zeroed p l4) p.ipStart p.ipHeaderLen p.isIpv6 (protoNumber l4.proto)
        (summedSegment p l4).length = .ok ph ∧
      transportSum .release (zeroed p l4) p.ipStart p.ipHeaderLen p.isIpv6 (protoNumber l4.proto)
        (summedSegment p l4) = .ok sum ∧
      sum.toNat = 65535 - fold (wordSum ph + wordSum (summedSegment p l4)) := by
  have hlen := h.length_shortened
  have h24 : truncatePayloadBytes = 24 := rfl
  have h60 := h.layout.ordered.headerLen_le
  obtain ⟨hheader, hpayload, hip, -⟩ := h.bounds
  have hseg : (summedSegment p l4).length < 65536 := by
    rw [summedSegment, List.length_drop, length_zeroed, hlen]
    omega
  have hfixed : p.ipStart + (if p.isIpv6 then 40 else 20) ≤ (zeroed p l4).length := by
    rw [length_zeroed, hlen]
    cases hv : p.isIpv6 with
    | true => rw [if_pos rfl]; have := h.layout.ipv6_headerLen hv; omega
    | false => rw [if_neg (by decide)]; omega
  have hhl : p.ipStart + p.ipHeaderLen ≤ (zeroed p l4).length := by
    rw [length_zeroed, hlen]
    omega
  obtain ⟨ph, hph, -⟩ := pseudoHeader_congr (summedSegment p l4).length (protoNumber l4.proto) rfl
    hfixed hhl fun _ _ _ => rfl
  obtain ⟨sum, hsum, hvalue⟩ := transportSum_release hseg hph
  exact ⟨ph, sum, hph, hsum, hvalue⟩

end PcapSlim.Truncate
