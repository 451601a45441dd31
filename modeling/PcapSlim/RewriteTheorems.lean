/-
PcapSlim.RewriteTheorems — what a truncated frame looks like.

Two results about every frame that `process_packet` cuts. The first is that the
cut preserves the headers (`Preserves`): the source promises that everything but
the payload survives, and `preserves_iff` says for which frames it does. The
frames for which it does not have an IPv4 header length below 20, which
`parse_ipv4` accepts; the transport header then overlaps the IP header, and the
fields of the one are written over the other. The second is that the rewritten
checksums validate (`checksums_validate`), for every legal header length.
-/
import PcapSlim.PacketTheorems

namespace PcapSlim.Packet

open Lib.Buffer Lib.Octets Lib.OnesComplement Checksum Parse Policy Truncate

/-! ## The headers survive the cut -/

/-- Byte `i` belongs to the link header; to the TTL, the protocol, the addresses
or the options of the IP header, or an extension header; to the ports, sequence
numbers, flags or options of the transport header; or to the first 24 bytes of
the payload. -/
def Kept (p : ParsedFrame) (l4 : L4Info) (i : Nat) : Prop :=
  i < p.ipStart ∨
  (if p.isIpv6 then p.ipStart + 6 ≤ i ∧ i < l4.headerStart
    else i = p.ipStart + 8 ∨ i = p.ipStart + 9 ∨
      (p.ipStart + 12 ≤ i ∧ i < p.ipStart + max 20 p.ipHeaderLen)) ∨
  (match l4.proto with
    | .tcp => (l4.headerStart ≤ i ∧ i < l4.headerStart + 14) ∨
        (l4.headerStart + 20 ≤ i ∧ i < l4.payloadStart)
    | .udp => l4.headerStart ≤ i ∧ i < l4.headerStart + 4) ∨
  (l4.payloadStart ≤ i ∧ i < l4.payloadStart + truncatePayloadBytes)

/-- `g` is `frame` cut 24 bytes into the payload, with only the length and
checksum fields rewritten, no transport field inside the fixed IP header, and
the bytes that identify the packet in place. -/
structure Preserves (frame : Bytes) (p : ParsedFrame) (l4 : L4Info) (g : Bytes) : Prop where
  length_eq : g.length = l4.payloadStart + truncatePayloadBytes
  rest_eq : ∀ i < g.length, ¬ OwnedByIp p i → ¬ OwnedByTransport l4 i →
    elemAt g i = elemAt frame i
  outside : ∀ i, OwnedByTransport l4 i → ¬ (p.ipStart ≤ i ∧ i < p.ipStart + fixedHeaderLen p)
  kept_eq : ∀ i, Kept p l4 i → elemAt g i = elemAt frame i

/-- The IPv4 header of `frame` with the total length it has after the cut. -/
def shortenedHeader (frame : Bytes) (p : ParsedFrame) (l4 : L4Info) : Bytes :=
  putBe16 ((frame.drop p.ipStart).take p.ipHeaderLen) 2
    (p.ipHeaderLen + l4.headerLen + truncatePayloadBytes)

/-- The headers do not overlap in a way that matters: the packet is IPv6; the IPv4
header length is at least 16, or 12 with TCP behind it; or it is 4 or 8 with TCP
behind it and the captured bytes 10 and 11 already are the checksum that the
shortened header gets. -/
def HeadersApart (frame : Bytes) (p : ParsedFrame) (l4 : L4Info) : Prop :=
  p.isIpv6 = true ∨ 16 ≤ p.ipHeaderLen ∨
  (l4.proto = .tcp ∧ (p.ipHeaderLen = 12 ∨ ((p.ipHeaderLen = 4 ∨ p.ipHeaderLen = 8) ∧
    be16At frame (p.ipStart + 10) = internetChecksum (shortenedHeader frame p l4))))

/-- The summed header is the shortened header with a zero checksum field. -/
theorem summedHeader_eq {frame : Bytes} {p : ParsedFrame} {l4 : L4Info} (h : Long frame p l4)
    (hv : p.isIpv6 = false) :
    summedHeader p l4 = putBe16 (shortenedHeader frame p l4) 10 0 := by
  obtain ⟨hheader, hpayload, -⟩ := h.bounds
  obtain ⟨-, hstart⟩ := h.layout.ipv4_headerStart hv
  have htotal : l4.payloadStart + truncatePayloadBytes - p.ipStart =
      p.ipHeaderLen + l4.headerLen + truncatePayloadBytes := by omega
  have hwindow : ((shortened p l4).take (p.ipStart + p.ipHeaderLen)).drop p.ipStart =
      (frame.drop p.ipStart).take p.ipHeaderLen := by
    rw [shortened, h.layout.l4_eq.2, List.take_take, Nat.min_eq_left (by omega), List.drop_take,
      Nat.add_sub_cancel_left]
  rw [summedHeader, withTotal, window_putBe16, window_putBe16, hwindow, htotal, shortenedHeader]

/-- The header checksum field of the rewritten frame, where no transport field is
written over it. -/
theorem be16At_rewritten_checksum {frame : Bytes} {p : ParsedFrame} {l4 : L4Info} {sum : UInt16}
    (h : Long frame p l4) (hv : p.isIpv6 = false)
    (hten : ¬ OwnedByTransport l4 (p.ipStart + 10))
    (heleven : ¬ OwnedByTransport l4 (p.ipStart + 11)) :
    be16At (rewritten p l4 sum) (p.ipStart + 10) = internetChecksum (summedHeader p l4) := by
  have hlen := h.length_shortened
  have h24 : truncatePayloadBytes = 24 := rfl
  obtain ⟨hheader, hpayload, hip, -⟩ := h.bounds
  rw [be16At, elemAt_rewritten_withIpFields hten, elemAt_rewritten_withIpFields heleven]
  change be16At (withIpFields p l4) (p.ipStart + 10) = _
  rw [withIpFields, hv, if_neg (by decide), be16At_putBe16_toNat (by rw [length_withTotal]; omega)]

/-- With room for the stores, the kept bytes are not owned by the transport header. -/
theorem Kept.not_ownedByTransport {frame : Bytes} {p : ParsedFrame} {l4 : L4Info} {i : Nat}
    (h : Long frame p l4) (hkept : Kept p l4 i)
    (hout : ∀ i, OwnedByTransport l4 i → ¬ (p.ipStart ≤ i ∧ i < p.ipStart + fixedHeaderLen p)) :
    ¬ OwnedByTransport l4 i := by
  intro hown
  have hfixed := hout i hown
  obtain ⟨hheader, hpayload, -, -, htcp, hudp⟩ := h.bounds
  have hbounds := hown.bounds
  unfold Kept at hkept
  cases hv : p.isIpv6 with
  | true =>
    have hfixedLen := fixedHeaderLen_ipv6 hv
    simp only [hv, if_true] at hkept
    cases hproto : l4.proto with
    | tcp =>
      have := htcp hproto
      rw [ownedByTransport_tcp hproto] at hown
      simp only [hproto] at hkept
      omega
    | udp =>
      have := hudp hproto
      rw [ownedByTransport_udp hproto] at hown
      simp only [hproto] at hkept
      omega
  | false =>
    have hfixedLen := fixedHeaderLen_ipv4 hv
    have hstart := (h.layout.ipv4_headerStart hv).2
    simp only [hv, Bool.false_eq_true, if_false] at hkept
    cases hproto : l4.proto with
    | tcp =>
      have := htcp hproto
      rw [ownedByTransport_tcp hproto] at hown
      simp only [hproto] at hkept
      omega
    | udp =>
      have := hudp hproto
      rw [ownedByTransport_udp hproto] at hown
      simp only [hproto] at hkept
      omega

/-- The kept bytes that the IP header owns: bytes 10 and 11, under a TCP header
that starts 4 or 8 bytes into the IP header. -/
theorem Kept.ownedByIp {frame : Bytes} {p : ParsedFrame} {l4 : L4Info} {i : Nat}
    (h : Long frame p l4) (hkept : Kept p l4 i)
    (hout : ∀ i, OwnedByTransport l4 i → ¬ (p.ipStart ≤ i ∧ i < p.ipStart + fixedHeaderLen p))
    (hown : OwnedByIp p i) :
    p.isIpv6 = false ∧ l4.proto = .tcp ∧ (p.ipHeaderLen = 4 ∨ p.ipHeaderLen = 8) ∧
      (i = p.ipStart + 10 ∨ i = p.ipStart + 11) := by
  obtain ⟨hheader, hpayload, -, -, htcp, hudp⟩ := h.bounds
  unfold Kept at hkept
  cases hv : p.isIpv6 with
  | true =>
    have hlen := h.layout.ipv6_headerLen hv
    rw [ownedByIp_ipv6 hv] at hown
    simp only [hv, if_true] at hkept
    cases hproto : l4.proto <;> simp only [hproto] at hkept <;> omega
  | false =>
    have hstart := (h.layout.ipv4_headerStart hv).2
    have hfour := h.layout.ipHeaderLen_mod hv
    have hfixed := fixedHeaderLen_ipv4 hv
    rw [ownedByIp_ipv4 hv] at hown
    simp only [hv, Bool.false_eq_true, if_false] at hkept
    cases hproto : l4.proto with
    | tcp =>
      have := htcp hproto
      have hfield := hout (l4.headerStart + 16) ((ownedByTransport_tcp hproto).mpr (.inl rfl))
      simp only [hproto] at hkept
      refine ⟨rfl, rfl, ?_⟩
      omega
    | udp =>
      have := hudp hproto
      have hfield := hout (l4.headerStart + 4) ((ownedByTransport_udp hproto).mpr (.inl rfl))
      simp only [hproto] at hkept
      exfalso
      omega

/-- Where the transport fields stay outside the fixed IP header. -/
theorem outside_iff {frame : Bytes} {p : ParsedFrame} {l4 : L4Info} (h : Long frame p l4) :
    (∀ i, OwnedByTransport l4 i → ¬ (p.ipStart ≤ i ∧ i < p.ipStart + fixedHeaderLen p)) ↔
      p.isIpv6 = true ∨ 16 ≤ p.ipHeaderLen ∨ (l4.proto = .tcp ∧ 4 ≤ p.ipHeaderLen) := by
  obtain ⟨hheader, -⟩ := h.bounds
  cases hv : p.isIpv6 with
  | true =>
    have hlen := h.layout.ipv6_headerLen hv
    have hfixed := fixedHeaderLen_ipv6 hv
    refine iff_of_true (fun i hown => ?_) (.inl rfl)
    have := hown.bounds
    omega
  | false =>
    have hstart := (h.layout.ipv4_headerStart hv).2
    have hfour := h.layout.ipHeaderLen_mod hv
    have hfixed := fixedHeaderLen_ipv4 hv
    cases hproto : l4.proto with
    | tcp =>
      simp only [ownedByTransport_tcp hproto, Bool.false_eq_true, false_or, true_and]
      constructor
      · intro hout
        have := hout _ (.inl rfl)
        omega
      · omega
    | udp =>
      simp only [ownedByTransport_udp hproto, Bool.false_eq_true, reduceCtorEq, false_or,
        false_and, or_false]
      constructor
      · intro hout
        have := hout _ (.inl rfl)
        omega
      · omega

/-- Then the kept bytes survive, but perhaps for the two under the header checksum. -/
theorem kept_iff {frame : Bytes} {p : ParsedFrame} {l4 : L4Info} {sum : UInt16}
    (h : Long frame p l4)
    (hout : ∀ i, OwnedByTransport l4 i → ¬ (p.ipStart ≤ i ∧ i < p.ipStart + fixedHeaderLen p)) :
    (∀ i, Kept p l4 i → elemAt (rewritten p l4 sum) i = elemAt frame i) ↔
      (p.isIpv6 = false → l4.proto = .tcp → p.ipHeaderLen = 4 ∨ p.ipHeaderLen = 8 →
        be16At frame (p.ipStart + 10) = internetChecksum (shortenedHeader frame p l4)) := by
  have h24 : truncatePayloadBytes = 24 := rfl
  obtain ⟨hheader, hpayload, hip, -, htcp, hudp⟩ := h.bounds
  -- the checksum field when the TCP header starts inside the IP header
  have hfield (hv : p.isIpv6 = false) (hproto : l4.proto = .tcp)
      (hlen : p.ipHeaderLen = 4 ∨ p.ipHeaderLen = 8) :
      be16At (rewritten p l4 sum) (p.ipStart + 10) =
        internetChecksum (shortenedHeader frame p l4) := by
    have hstart := (h.layout.ipv4_headerStart hv).2
    have hsmall : (shortenedHeader frame p l4).length ≤ 10 := by
      rw [shortenedHeader, length_putBe16, List.length_take]
      omega
    rw [be16At_rewritten_checksum h hv (by rw [ownedByTransport_tcp hproto]; omega)
      (by rw [ownedByTransport_tcp hproto]; omega), summedHeader_eq h hv,
      putBe16_of_length_le hsmall]
  constructor
  · intro hsame hv hproto hlen
    have hstart := (h.layout.ipv4_headerStart hv).2
    have hunder : ∀ i, p.ipStart + 10 ≤ i → i < p.ipStart + 12 → Kept p l4 i := by
      intro i hlo hhi
      simp only [Kept, hproto]
      omega
    rw [← hfield hv hproto hlen, be16At, be16At, hsame _ (hunder _ (by omega) (by omega)),
      hsame _ (hunder _ (by omega) (by omega))]
  · intro hcond i hkept
    have htransport := hkept.not_ownedByTransport h hout
    by_cases hown : OwnedByIp p i
    · obtain ⟨hv, hproto, hlen, hi⟩ := hkept.ownedByIp h hout hown
      obtain ⟨hten, heleven⟩ :=
        be16_inj ((hfield hv hproto hlen).trans (hcond hv hproto hlen).symm)
      rcases hi with rfl | rfl
      · exact hten
      · exact heleven
    · refine elemAt_rewritten h.layout.l4_eq.2 ?_ hown htransport
      unfold Kept at hkept
      cases hproto : l4.proto <;> cases hv : p.isIpv6 <;>
        simp only [hproto, hv, if_true, if_false, Bool.false_eq_true] at hkept <;> omega

/-- **Truncation preserves the headers exactly when they are apart.** -/
theorem preserves_iff {build : Build} {frame g : Bytes} {p : ParsedFrame} {l4 : L4Info}
    {cut : Bool} (hparse : parseFrame frame = .ok (.ok p)) (hl4 : p.l4 = some l4)
    (hcut : processPacket build frame = .ok (.truncated g, cut)) :
    Preserves frame p l4 g ↔ HeadersApart frame p l4 := by
  obtain ⟨sum, hlayout, hcuts, -, rfl⟩ := truncated_of_parsed hparse hl4 hcut
  have h := hcuts.long hlayout
  have hlength : (rewritten p l4 sum).length = l4.payloadStart + truncatePayloadBytes := by
    rw [length_rewritten, h.length_shortened]
  constructor
  · intro hpres
    have hwhere := (outside_iff h).mp hpres.outside
    have hunder := (kept_iff h hpres.outside).mp hpres.kept_eq
    rcases hwhere with hv | hlen | ⟨hproto, hlen⟩
    · exact .inl hv
    · exact .inr (.inl hlen)
    · cases hv : p.isIpv6 with
      | true => exact .inl hv
      | false =>
        have hfour := hlayout.ipHeaderLen_mod hv
        by_cases hsmall : p.ipHeaderLen = 4 ∨ p.ipHeaderLen = 8
        · exact .inr (.inr ⟨hproto, .inr ⟨hsmall, hunder hv hproto hsmall⟩⟩)
        · by_cases htwelve : p.ipHeaderLen = 12
          · exact .inr (.inr ⟨hproto, .inl htwelve⟩)
          · exact .inr (.inl (by omega))
  · intro hapart
    have hout := (outside_iff h).mpr <| by
      rcases hapart with hv | hlen | ⟨hproto, hlen | ⟨hlen, -⟩⟩
      · exact .inl hv
      · exact .inr (.inl hlen)
      · exact .inr (.inr ⟨hproto, by omega⟩)
      · exact .inr (.inr ⟨hproto, by omega⟩)
    refine
      { length_eq := hlength
        rest_eq := fun i hi => elemAt_rewritten hlayout.l4_eq.2 (by omega)
        outside := hout
        kept_eq := (kept_iff h hout).mpr fun hv hproto hlen => ?_ }
    rcases hapart with hv' | hlen' | ⟨-, hlen' | ⟨-, hsum⟩⟩
    · rw [hv] at hv'
      cases hv'
    · omega
    · omega
    · exact hsum

/-- An IPv4 header that claims 12 bytes: the UDP length is written over the
destination address. -/
def overlappingUdp : Bytes :=
  List.replicate 12 0 ++ [0x08, 0x00] ++
    [0x43, 0, 0, 60, 0, 1, 0, 0, 64, 17, 0, 0] ++
    [0x01, 0xbb, 0x30, 0x39, 0, 48, 0, 0] ++ List.replicate 40 0x17

/-- The UDP header that the parser finds there. -/
def overlappingUdpInfo : L4Info :=
  { proto := .udp, sport := 443, dport := 0x3039, headerStart := 26, headerLen := 8,
    payloadStart := 34 }

/-- What the parser answers. -/
def overlappingUdpParsed : ParsedFrame :=
  { frame := overlappingUdp, ipStart := 14, ipHeaderLen := 12, isIpv6 := false,
    l4 := some overlappingUdpInfo }

theorem parseFrame_overlappingUdp :
    parseFrame overlappingUdp = .ok (.ok overlappingUdpParsed) := by
  decide +kernel

theorem exists_truncated_overlappingUdp :
    ∃ g, processPacket .release overlappingUdp = .ok (.truncated g, true) :=
  exists_truncated (by decide +kernel) (by decide +kernel)

theorem overlappingUdp_not_preserved :
    ¬ ∀ frame p l4 g, parseFrame frame = .ok (.ok p) → p.l4 = some l4 →
      processPacket .release frame = .ok (.truncated g, true) → Preserves frame p l4 g := by
  intro h
  obtain ⟨g, hg⟩ := exists_truncated_overlappingUdp
  have hpres := h _ _ _ g parseFrame_overlappingUdp rfl hg
  exact hpres.outside 30 (.inl rfl) ⟨by decide, by decide⟩

theorem preserves_iff_overlappingUdp :
    ∃ g, processPacket .release overlappingUdp = .ok (.truncated g, true) ∧
      (Preserves overlappingUdp overlappingUdpParsed overlappingUdpInfo g ↔
        HeadersApart overlappingUdp overlappingUdpParsed overlappingUdpInfo) := by
  obtain ⟨g, hg⟩ := exists_truncated_overlappingUdp
  exact ⟨g, hg, preserves_iff parseFrame_overlappingUdp rfl hg⟩

/-! ## The checksums validate -/

/-- Storing a sum over a zero field: a complement validates, and so does 65535
where the complement is 0. -/
theorem fold_wire {n : Nat} {proto : L4Proto} {sum : UInt16} (hsum : sum.toNat = 65535 - fold n) :
    fold (n + (wireSum proto sum).toNat) = 65535 := by
  have hle := fold_le n
  cases proto with
  | tcp => rw [wireSum, hsum, fold_add_complement]
  | udp =>
    rw [wireSum, udpChecksumWire]
    by_cases hzero : sum = 0
    · rw [if_pos hzero]
      have hfull : fold n = 65535 := by
        have h0 : sum.toNat = 0 := by rw [hzero]; rfl
        omega
      exact fold_add_max hfull
    · rw [if_neg hzero, hsum, fold_add_complement]

/-- The IPv4 header of the rewritten frame, behind which the transport header
starts. -/
theorem header_rewritten {frame : Bytes} {p : ParsedFrame} {l4 : L4Info} {sum : UInt16}
    (h : Long frame p l4) (hv : p.isIpv6 = false) :
    ((rewritten p l4 sum).take (p.ipStart + p.ipHeaderLen)).drop p.ipStart =
      putBe16 (summedHeader p l4) 10 (internetChecksum (summedHeader p l4)).toNat := by
  have hstart := (h.layout.ipv4_headerStart hv).2
  have hsame : (rewritten p l4 sum).take (p.ipStart + p.ipHeaderLen) =
      (withIpFields p l4).take (p.ipStart + p.ipHeaderLen) := by
    refine ext_elemAt (by simp) fun i hi => ?_
    rw [List.length_take] at hi
    rw [elemAt_take (by omega), elemAt_take (by omega), elemAt_rewritten_withIpFields]
    intro hown
    have := hown.bounds
    omega
  rw [hsame, withIpFields, hv, if_neg (by decide), window_putBe16, summedHeader]

/-- **The IPv4 header validates**, for every header length of at least 20. -/
theorem header_validates {frame : Bytes} {p : ParsedFrame} {l4 : L4Info} {sum : UInt16}
    (h : Long frame p l4) (hv : p.isIpv6 = false) (hlegal : 20 ≤ p.ipHeaderLen) :
    fold (wordSum (((rewritten p l4 sum).take (p.ipStart + p.ipHeaderLen)).drop p.ipStart)) =
      65535 := by
  obtain ⟨hheader, hpayload, hip, -⟩ := h.bounds
  obtain ⟨hihl, hstart⟩ := h.layout.ipv4_headerStart hv
  have hfifteen : p.ipHeaderLen ≤ 60 := by rw [hihl, ihlBytes]; omega
  have hlen : (summedHeader p l4).length = p.ipHeaderLen := by
    rw [summedHeader, List.length_drop, List.length_take, length_withTotal, h.length_shortened]
    omega
  have hzero : be16At (summedHeader p l4) 10 = 0 := by
    rw [summedHeader_eq h hv]
    rw [summedHeader_eq h hv, length_putBe16] at hlen
    exact be16At_putBe16_toNat (v := 0) (by omega)
  rw [header_rewritten h hv, wordSum_put_over_zero rfl (by omega) hzero,
    toNat_internetChecksum (by omega), fold_add_complement]

/-- The segment of the rewritten frame. -/
theorem segment_rewritten (p : ParsedFrame) (l4 : L4Info) (sum : UInt16) :
    (rewritten p l4 sum).drop l4.headerStart =
      putBe16 (summedSegment p l4) (checksumField l4 - l4.headerStart)
        (wireSum l4.proto sum).toNat := by
  have hle : l4.headerStart ≤ checksumField l4 := by
    unfold checksumField
    split <;> omega
  rw [rewritten, summedSegment, ← drop_putBe16, Nat.add_sub_cancel' hle]

/-- The pseudo-header is read from bytes that the transport stores leave alone. -/
theorem pseudoHeader_rewritten {frame : Bytes} {p : ParsedFrame} {l4 : L4Info} (sum : UInt16)
    (n : Nat) (h : Long frame p l4) (hlegal : p.isIpv6 = false → 20 ≤ p.ipHeaderLen) :
    ∃ ph, pseudoHeader (zeroed p l4) p.ipStart p.ipHeaderLen p.isIpv6 (protoNumber l4.proto) n =
        .ok ph ∧
      pseudoHeader (rewritten p l4 sum) p.ipStart p.ipHeaderLen p.isIpv6 (protoNumber l4.proto) n =
        .ok ph := by
  have hlen := h.length_shortened
  have h24 : truncatePayloadBytes = 24 := rfl
  obtain ⟨hheader, hpayload, hip, -⟩ := h.bounds
  have hfield : l4.headerStart < checksumField l4 := by
    unfold checksumField
    split <;> omega
  cases hv : p.isIpv6 with
  | true =>
    have h40 := h.layout.ipv6_headerLen hv
    refine pseudoHeader_congr _ _ (by simp) (by rw [if_pos rfl, length_zeroed]; omega)
      (by rw [length_zeroed]; omega) fun i _ hi => ?_
    rw [if_pos rfl] at hi
    exact elemAt_putBe16_ne (by omega) (by omega)
  | false =>
    have h20 := hlegal hv
    refine pseudoHeader_congr _ _ (by simp) (by rw [if_neg (by decide), length_zeroed]; omega)
      (by rw [length_zeroed]; omega) fun i _ hi => ?_
    rw [if_neg (by decide)] at hi
    exact elemAt_putBe16_ne (by omega) (by omega)

/-- **The transport checksum validates.** -/
theorem segment_validates {frame : Bytes} {p : ParsedFrame} {l4 : L4Info} {sum : UInt16}
    (h : Long frame p l4) (hlegal : p.isIpv6 = false → 20 ≤ p.ipHeaderLen)
    (hsum : transportSum .release (zeroed p l4) p.ipStart p.ipHeaderLen p.isIpv6
      (protoNumber l4.proto) (summedSegment p l4) = .ok sum) :
    ∃ ph, pseudoHeader (rewritten p l4 sum) p.ipStart p.ipHeaderLen p.isIpv6
        (protoNumber l4.proto) ((rewritten p l4 sum).drop l4.headerStart).length = .ok ph ∧
      fold (wordSum ph + wordSum ((rewritten p l4 sum).drop l4.headerStart)) = 65535 := by
  have hlen := h.length_shortened
  have h24 : truncatePayloadBytes = 24 := rfl
  obtain ⟨-, hpayload, -, -, htcp, hudp⟩ := h.bounds
  obtain ⟨ph, sum', hph, hsum', hvalue⟩ := h.transportSum_ok
  obtain rfl : sum' = sum := Except.ok.inj (hsum'.symm.trans hsum)
  obtain ⟨ph', hph', hrewritten⟩ := pseudoHeader_rewritten sum'
    (summedSegment p l4).length h hlegal
  obtain rfl : ph' = ph := Except.ok.inj (hph'.symm.trans hph)
  -- the field is inside the segment, at an even offset, and zero there
  have hfield : l4.headerStart ≤ checksumField l4 ∧
      checksumField l4 + 1 < l4.payloadStart + truncatePayloadBytes ∧
      (checksumField l4 - l4.headerStart) % 2 = 0 := by
    unfold checksumField
    cases hproto : l4.proto with
    | tcp => have := htcp hproto; dsimp only; omega
    | udp => have := hudp hproto; dsimp only; omega
  have hseglen : (summedSegment p l4).length =
      l4.payloadStart + truncatePayloadBytes - l4.headerStart := by
    rw [summedSegment, List.length_drop, length_zeroed, hlen]
  have hzero : be16At (summedSegment p l4) (checksumField l4 - l4.headerStart) = 0 := by
    rw [be16At, summedSegment, elemAt_drop, elemAt_drop, ← Nat.add_assoc,
      Nat.add_sub_cancel' hfield.1]
    exact be16At_putBe16_toNat (v := 0) (by rw [length_withLengths]; omega)
  refine ⟨ph', ?_, ?_⟩
  · rw [segment_rewritten, length_putBe16, hrewritten]
  · rw [segment_rewritten, wordSum_put_over_zero hfield.2.2 (by omega) hzero, ← Nat.add_assoc,
      fold_wire hvalue]

/-- A stored UDP checksum is not zero, which would mean that there is none. -/
theorem udpChecksumWire_ne_zero (sum : UInt16) : udpChecksumWire sum ≠ 0 := by
  unfold udpChecksumWire
  split
  · decide
  · assumption

theorem udpChecksum_rewritten {frame : Bytes} {p : ParsedFrame} {l4 : L4Info} {sum : UInt16}
    (h : Long frame p l4) (hproto : l4.proto = .udp) :
    be16At (rewritten p l4 sum) (l4.headerStart + 6) ≠ 0 := by
  obtain ⟨-, hpayload, -, -, -, hudp⟩ := h.bounds
  have h8 := hudp hproto
  have hfield : checksumField l4 = l4.headerStart + 6 := by
    simp only [checksumField, hproto]
  rw [rewritten, hfield, be16At_putBe16_toNat (by rw [length_zeroed, h.length_shortened]; omega),
    hproto]
  exact udpChecksumWire_ne_zero sum

/-- **Every truncated packet carries checksums that validate.** -/
theorem checksums_validate {frame g : Bytes} {p : ParsedFrame} {l4 : L4Info} {cut : Bool}
    (hparse : parseFrame frame = .ok (.ok p)) (hl4 : p.l4 = some l4)
    (hlegal : p.isIpv6 = false → 20 ≤ p.ipHeaderLen)
    (hcut : processPacket .release frame = .ok (.truncated g, cut)) :
    (p.isIpv6 = false →
      fold (wordSum ((g.take (p.ipStart + p.ipHeaderLen)).drop p.ipStart)) = 0xffff) ∧
    (∃ ph, pseudoHeader g p.ipStart p.ipHeaderLen p.isIpv6 (protoNumber l4.proto)
        (g.drop l4.headerStart).length = .ok ph ∧
      fold (wordSum ph + wordSum (g.drop l4.headerStart)) = 0xffff) ∧
    (l4.proto = .udp → be16At g (l4.headerStart + 6) ≠ 0) := by
  obtain ⟨sum, hlayout, hcuts, hsum, rfl⟩ := truncated_of_parsed hparse hl4 hcut
  have h := hcuts.long hlayout
  exact ⟨fun hv => header_validates h hv (hlegal hv), segment_validates h hlegal hsum,
    udpChecksum_rewritten h⟩

/-- A TLS record of 40 bytes from port 443, behind a VLAN tag and an IPv4 header
with four option bytes. -/
def tlsFrame : Bytes :=
  List.replicate 12 0 ++ [0x81, 0x00, 0, 5, 0x08, 0x00] ++
    [0x46, 0, 0, 84, 0, 1, 0x40, 0, 64, 6, 0, 0, 10, 0, 0, 1, 10, 0, 0, 2, 1, 1, 1, 0] ++
    [0x01, 0xbb, 0x30, 0x39, 0, 0, 0, 1, 0, 0, 0, 2, 0x50, 0x18, 0, 0, 0, 0, 0, 0] ++
    List.replicate 40 0x17

/-- The TCP header that the parser finds there. -/
def tlsFrameInfo : L4Info :=
  { proto := .tcp, sport := 443, dport := 0x3039, headerStart := 42, headerLen := 20,
    payloadStart := 62 }

/-- What the parser answers. -/
def tlsFrameParsed : ParsedFrame :=
  { frame := tlsFrame, ipStart := 18, ipHeaderLen := 24, isIpv6 := false,
    l4 := some tlsFrameInfo }

theorem checksums_validate_tlsFrame :
    ∃ g, processPacket .release tlsFrame = .ok (.truncated g, true) ∧
      fold (wordSum ((g.take 42).drop 18)) = 0xffff := by
  obtain ⟨g, hg⟩ : ∃ g, processPacket .release tlsFrame = .ok (.truncated g, true) :=
    exists_truncated (by decide +kernel) (by decide +kernel)
  have hparse : parseFrame tlsFrame = .ok (.ok tlsFrameParsed) := by decide +kernel
  exact ⟨g, hg, (checksums_validate hparse rfl (fun _ => by decide) hg).1 rfl⟩

end PcapSlim.Packet
