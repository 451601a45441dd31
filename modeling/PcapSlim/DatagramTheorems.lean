/-
PcapSlim.DatagramTheorems — payloads and the datagrams that hold them.

The length fields of a packet are read by the parser, by `payload_len` and by the
cut. Two results say how they fit together. `payloadExact_iff`: the payload is
the transport payload of the datagram, and bytes behind the datagram change
nothing, exactly when no extension headers make `payload_len` count too far.
`truncated_same_flow`: where the payload is inside the datagram, the truncated
frame is parsed again with the same headers, and its lengths fit.
-/
import PcapSlim.RewriteTheorems

namespace PcapSlim.Packet

open Lib.Buffer Lib.Octets Checksum Parse Policy Truncate

/-! ## The length field of a truncated packet -/

/-- The transport stores stay behind the length field, for every header length. -/
theorem ipLengthField_rewritten {frame : Bytes} {p : ParsedFrame} {l4 : L4Info} (sum : UInt16)
    (h : Long frame p l4) :
    ipLengthField (rewritten p l4 sum) p =
      (l4.payloadStart + truncatePayloadBytes - (p.ipStart + if p.isIpv6 then ip6Hdr else 0)) %
        65536 := by
  have hlen := h.length_shortened
  have h24 : truncatePayloadBytes = 24 := rfl
  have h40 : ip6Hdr = 40 := rfl
  obtain ⟨hheader, hpayload, hip, -⟩ := h.bounds
  have hfront : ∀ i < l4.headerStart + 4,
      elemAt (rewritten p l4 sum) i = elemAt (withIpFields p l4) i := fun i hi =>
    elemAt_rewritten_withIpFields fun ho => by have := ho.bounds; omega
  have hfield : ∀ i, i + 1 < l4.headerStart + 4 →
      be16At (rewritten p l4 sum) i = be16At (withIpFields p l4) i := fun i hi => by
    rw [be16At, be16At, hfront i (by omega), hfront (i + 1) hi]
  cases hv : p.isIpv6 with
  | true =>
    have hlen6 := h.layout.ipv6_headerLen hv
    rw [ipLengthField, if_pos hv, ipv6Plen, hfield _ (by omega), withIpFields, if_pos hv,
      be16At_putBe16 (by omega), Nat.mod_mod, if_pos rfl, hlen6, h40, Nat.sub_sub]
  | false =>
    rw [ipLengthField, hv, if_neg Bool.false_ne_true, ipv4Total, hfield _ (by omega), withIpFields,
      hv, if_neg Bool.false_ne_true, be16At_putBe16_ne (.inl (by omega)), withTotal,
      be16At_putBe16_ne (.inl (by omega)), be16At_putBe16 (by omega), if_neg Bool.false_ne_true,
      Nat.add_zero]

/-- A length field has 16 bits. -/
theorem ipLengthField_lt (frame : Bytes) (p : ParsedFrame) : ipLengthField frame p < 65536 := by
  unfold ipLengthField
  split
  · exact (be16At frame (p.ipStart + 4)).toNat_lt
  · exact (be16At frame (p.ipStart + 2)).toNat_lt

/-- Where more than 24 payload bytes are inside the datagram, the length of what is
left fits its field and is smaller. -/
theorem ipLengthField_rewritten_lt {frame : Bytes} {p : ParsedFrame} {l4 : L4Info} (sum : UInt16)
    (h : Long frame p l4)
    (hinside : l4.payloadStart + truncatePayloadBytes < datagramEnd frame p) :
    datagramEnd (rewritten p l4 sum) p = l4.payloadStart + truncatePayloadBytes ∧
      ipLengthField (rewritten p l4 sum) p < ipLengthField frame p := by
  have hfield := ipLengthField_rewritten sum h
  have hlt := ipLengthField_lt frame p
  have h24 : truncatePayloadBytes = 24 := rfl
  obtain ⟨hheader, hpayload, hip, -⟩ := h.bounds
  have hfixed : p.ipStart + (if p.isIpv6 then ip6Hdr else 0) ≤ l4.payloadStart := by
    cases hv : p.isIpv6 with
    | true =>
      have hlen := h.layout.ipv6_headerLen hv
      have h40 : ip6Hdr = 40 := rfl
      rw [if_pos rfl]
      omega
    | false =>
      rw [if_neg Bool.false_ne_true]
      omega
  unfold datagramEnd at hinside ⊢
  rw [Nat.mod_eq_of_lt (by omega)] at hfield
  rw [hfield]
  omega

/-! ## The truncated frame is parsed again -/

/-- The finished frame has the layout of the captured one. -/
theorem layout_rewritten {frame : Bytes} {p : ParsedFrame} {l4 : L4Info} (sum : UInt16)
    (h : Long frame p l4) (hlegal : p.isIpv6 = false → 20 ≤ p.ipHeaderLen)
    (hinside : l4.payloadStart + truncatePayloadBytes < datagramEnd frame p) :
    Layout (rewritten p l4 sum) { p with frame := rewritten p l4 sum } l4 := by
  have hlen := h.length_shortened
  obtain ⟨hend, -⟩ := ipLengthField_rewritten_lt sum h hinside
  obtain ⟨hheader, hpayload, hip, hl4len, -⟩ := h.bounds
  have hfixed : p.ipStart + fixedHeaderLen p ≤ l4.headerStart := by
    cases hv : p.isIpv6 with
    | true => have := h.layout.ipv6_headerLen hv; rw [fixedHeaderLen_ipv6 hv]; omega
    | false => have := hlegal hv; rw [fixedHeaderLen_ipv4 hv]; omega
  have hbehind : 20 ≤ fixedHeaderLen p := by unfold fixedHeaderLen; split <;> omega
  refine h.layout.transfer
    (sameHeaders_rewritten h fun hv _ hfour => by have := hlegal hv; omega)
    (fun i hi hlt => elemAt_rewritten h.layout.l4_eq.2 (by omega) (fun ho => ?_) fun ho => ?_)
    (by rw [length_rewritten]; omega) (by rw [length_rewritten]; omega) (by omega)
  · have := ho.bounds
    omega
  · have := ho.bounds
    omega

/-- `g` is a shorter packet of the flow that `frame` belongs to: the parser finds the
same headers, the payload is the first 24 bytes of the old one, and the length
fields are those of `g`. -/
structure SameFlow (frame g payload : Bytes) (p : ParsedFrame) (l4 : L4Info) : Prop where
  parse : parseFrame g = .ok (.ok { p with frame := g })
  payload_eq : ParsedFrame.payload { p with frame := g } = .ok (payload.take 24)
  payload_length : (payload.take 24).length = 24
  datagram : datagramEnd g p = g.length
  udp_length : l4.proto = .udp → be16At g (l4.headerStart + 4) = 32
  shorter : ipLengthField g p < ipLengthField frame p

/-- The bytes behind the headers are the first 24 bytes of the payload. -/
theorem payload_rewritten {frame : Bytes} {p : ParsedFrame} {l4 : L4Info} {sum : UInt16}
    (h : Long frame p l4) (hlegal : p.isIpv6 = false → 20 ≤ p.ipHeaderLen) :
    (rewritten p l4 sum).drop l4.payloadStart = (payloadOf p l4).take 24 := by
  have hlen := h.length_shortened
  have h24 : truncatePayloadBytes = 24 := rfl
  have hlong := h.long
  have hstop := length_payloadOf p l4
  obtain ⟨hheader, hpayload, hip, hl4len, htcp, hudp⟩ := h.bounds
  refine ext_elemAt ?_ fun i hi => ?_
  · rw [List.length_drop, length_rewritten, List.length_take]
    omega
  · rw [List.length_drop, length_rewritten] at hi
    rw [elemAt_drop, elemAt_take (by omega), payloadOf, elemAt_drop, elemAt_take (by omega),
      h.layout.l4_eq.2]
    refine elemAt_rewritten h.layout.l4_eq.2 (by omega) (fun ho => ?_) fun ho => ?_
    · have hbounds := ho.bounds
      cases hv : p.isIpv6 with
      | true => have := h.layout.ipv6_headerLen hv; omega
      | false => have := hlegal hv; omega
    · cases hproto : l4.proto with
      | tcp => have := htcp hproto; rw [ownedByTransport_tcp hproto] at ho; omega
      | udp => have := hudp hproto; rw [ownedByTransport_udp hproto] at ho; omega

/-- The UDP length that the cut stores. -/
theorem udpLength_rewritten {frame : Bytes} {p : ParsedFrame} {l4 : L4Info} (sum : UInt16)
    (h : Long frame p l4) (hproto : l4.proto = .udp) :
    be16At (rewritten p l4 sum) (l4.headerStart + 4) = 32 := by
  have hlen := h.length_shortened
  obtain ⟨-, hpayload, -, -, -, hudp⟩ := h.bounds
  have h8 := hudp hproto
  have h24 : truncatePayloadBytes = 24 := rfl
  apply UInt16.toNat_inj.mp
  unfold rewritten zeroed withLengths checksumField
  rw [hproto]
  dsimp only
  rw [be16At_putBe16_ne (.inl (by omega)), be16At_putBe16_ne (.inl (by omega)),
    be16At_putBe16 (by rw [length_withIpFields]; omega), h8]
  rfl

/-- **A truncated packet is self-consistent and still of the same flow.** -/
theorem truncated_same_flow {build : Build} {frame g payload : Bytes} {p : ParsedFrame}
    {l4 : L4Info} {cut : Bool} (hparse : parseFrame frame = .ok (.ok p)) (hl4 : p.l4 = some l4)
    (hlegal : p.isIpv6 = false → 20 ≤ p.ipHeaderLen) (hpayload : p.payload = .ok payload)
    (hinside : l4.payloadStart + payload.length ≤ datagramEnd frame p)
    (hcut : processPacket build frame = .ok (.truncated g, cut)) :
    SameFlow frame g payload p l4 := by
  obtain ⟨sum, hlayout, hcuts, -, rfl⟩ := truncated_of_parsed hparse hl4 hcut
  obtain rfl : payload = payloadOf p l4 :=
    Except.ok.inj (hpayload.symm.trans hlayout.payload_ok)
  have h := hcuts.long hlayout
  have hlong := h.long
  have h24 : truncatePayloadBytes = 24 := rfl
  have hin : l4.payloadStart + truncatePayloadBytes < datagramEnd frame p := by omega
  obtain ⟨hend, hshorter⟩ := ipLengthField_rewritten_lt sum h hin
  have hlayout' := layout_rewritten sum h hlegal hin
  have hlength : (rewritten p l4 sum).length = l4.payloadStart + truncatePayloadBytes := by
    rw [length_rewritten, h.length_shortened]
  have hend' : datagramEnd (rewritten p l4 sum) { p with frame := rewritten p l4 sum } =
      l4.payloadStart + truncatePayloadBytes := hend
  refine
    { parse := hlayout'.parseFrame_eq
      payload_eq := ?_
      payload_length := by rw [List.length_take]; omega
      datagram := hend.trans hlength.symm
      udp_length := udpLength_rewritten sum h
      shorter := hshorter }
  rw [Parse.payload_eq hlayout', payloadStop_eq hlayout', hend', ← hlength,
    Nat.min_eq_left (Nat.le_add_right _ _), List.take_length, payload_rewritten h hlegal]

theorem truncated_same_flow_tlsFrame :
    ∃ g, processPacket .release tlsFrame = .ok (.truncated g, true) ∧
      parseFrame g = .ok (.ok { tlsFrameParsed with frame := g }) ∧
      datagramEnd g tlsFrameParsed = g.length := by
  obtain ⟨g, hg⟩ : ∃ g, processPacket .release tlsFrame = .ok (.truncated g, true) :=
    exists_truncated (by decide +kernel) (by decide +kernel)
  have hparse : parseFrame tlsFrame = .ok (.ok tlsFrameParsed) := by decide +kernel
  have hpayload : tlsFrameParsed.payload = .ok (List.replicate 40 0x17) := by decide +kernel
  have hflow := truncated_same_flow hparse rfl (fun _ => by decide) hpayload (by decide +kernel) hg
  exact ⟨g, hg, hflow.parse, hflow.datagram⟩

/-! ## Bytes behind the datagram -/

/-- The payload ends with the datagram, as far as that is captured. -/
def EndsWithDatagram (frame : Bytes) (p : ParsedFrame) (l4 : L4Info) : Prop :=
  p.isIpv6 = true → l4.headerStart = p.ipStart + 40 ∨ frame.length ≤ datagramEnd frame p

theorem payloadStop_of_endsWithDatagram {frame : Bytes} {p : ParsedFrame} {l4 : L4Info}
    (h : Layout frame p l4) (hends : EndsWithDatagram frame p l4) :
    payloadStop p l4 = min frame.length (datagramEnd frame p) := by
  rw [payloadStop_eq h]
  cases hv : p.isIpv6 with
  | true =>
    have hlen := h.ipv6_headerLen hv
    rcases hends hv with hstart | hcaptured
    · rw [hstart, hlen, Nat.sub_self, Nat.add_zero]
    · rw [Nat.min_eq_left hcaptured, Nat.min_eq_left (by omega)]
  | false => rw [(h.ipv4_headerStart hv).2, Nat.sub_self, Nat.add_zero]

/-- Frames that agree on the length field declare datagrams of one length. -/
theorem datagramEnd_congr {frame frame' : Bytes} {p : ParsedFrame}
    (h : ∀ i, p.ipStart + 2 ≤ i → i < p.ipStart + 6 → elemAt frame' i = elemAt frame i) :
    datagramEnd frame' p = datagramEnd frame p := by
  unfold datagramEnd ipLengthField ipv6Plen ipv4Total be16At
  rw [h (p.ipStart + 2) (by omega) (by omega), h (p.ipStart + 2 + 1) (by omega) (by omega),
    h (p.ipStart + 4) (by omega) (by omega), h (p.ipStart + 4 + 1) (by omega) (by omega)]

/-- Without the bytes behind the datagram the frame has the same layout. -/
theorem layout_take_datagram {frame : Bytes} {p : ParsedFrame} {l4 : L4Info} (h : Long frame p l4)
    (hinside : l4.payloadStart + truncatePayloadBytes < datagramEnd frame p) :
    datagramEnd (frame.take (datagramEnd frame p)) p = datagramEnd frame p ∧
      Layout (frame.take (datagramEnd frame p))
        { p with frame := frame.take (datagramEnd frame p) } l4 := by
  have h24 : truncatePayloadBytes = 24 := rfl
  have h40 : ip6Hdr = 40 := rfl
  have hcut := h.cut_lt
  have hfixed := h.layout.ordered.fixed_le
  obtain ⟨hheader, hpayload, hip, hl4len, htcp, -⟩ := h.bounds
  have hsame : ∀ i < datagramEnd frame p,
      elemAt (frame.take (datagramEnd frame p)) i = elemAt frame i := fun i hi => elemAt_take hi
  have hfield := datagramEnd_congr (p := p) fun i _ hi => hsame i (by omega)
  have hlength : (frame.take (datagramEnd frame p)).length =
      min (datagramEnd frame p) frame.length := List.length_take
  have hroom : p.ipStart + fixedHeaderLen p ≤ datagramEnd frame p := by
    cases hv : p.isIpv6 with
    | true => rw [fixedHeaderLen_ipv6 hv, datagramEnd_ipv6 hv]; omega
    | false => rw [fixedHeaderLen_ipv4 hv]; omega
  refine ⟨hfield, h.layout.transfer ?_ (fun i _ hi => hsame i (by omega)) (by omega) (by omega)
    (by omega)⟩
  exact
    { link := fun i hi => hsame i (by omega)
      version := hsame _ (by omega)
      proto := hsame _ (by split <;> omega)
      chain := fun _ i _ hi => hsame i (by omega)
      offset := fun hproto => hsame _ (by have := htcp hproto; omega) }

/-- The buffers of the cut are made from the shortened frame alone. -/
theorem rewritten_congr {frame' : Bytes} {p : ParsedFrame} {l4 : L4Info}
    (h : shortened { p with frame := frame' } l4 = shortened p l4) :
    zeroed { p with frame := frame' } l4 = zeroed p l4 ∧
      ∀ sum, rewritten { p with frame := frame' } l4 sum = rewritten p l4 sum := by
  have hzeroed : zeroed { p with frame := frame' } l4 = zeroed p l4 := by
    unfold zeroed withLengths withIpFields summedHeader withTotal
    rw [h]
  exact ⟨hzeroed, fun sum => by rw [rewritten, rewritten, hzeroed]⟩

/-- Bytes behind the datagram do not matter for a frame that is cut. -/
theorem processPacket_take_datagram {build : Build} {frame : Bytes} {p : ParsedFrame} {l4 : L4Info}
    (h : Layout frame p l4) (hends : EndsWithDatagram frame p l4) (hcuts : Cuts frame p l4) :
    processPacket build (frame.take (datagramEnd frame p)) = processPacket build frame := by
  by_cases hcaptured : frame.length ≤ datagramEnd frame p
  · rw [List.take_of_length_le hcaptured]
  have hlong := hcuts.long h
  have h24 : truncatePayloadBytes = 24 := rfl
  have hstop := payloadStop_of_endsWithDatagram h hends
  have hlen := length_payloadOf p l4
  have hmore := hlong.long
  obtain ⟨hheader, hpayload, hip, -⟩ := hlong.bounds
  obtain ⟨hfield, hlayout⟩ := layout_take_datagram hlong (by omega)
  have hends' : EndsWithDatagram (frame.take (datagramEnd frame p))
      { p with frame := frame.take (datagramEnd frame p) } l4 := fun _ =>
    .inr (by
      rw [List.length_take]
      exact Nat.le_trans (Nat.min_le_left _ _) (Nat.le_of_eq hfield.symm))
  have hshort : shortened { p with frame := frame.take (datagramEnd frame p) } l4 = shortened p l4 := by
    rw [shortened, shortened, h.l4_eq.2, List.take_take, Nat.min_eq_left (by omega)]
  have hbytes : payloadOf { p with frame := frame.take (datagramEnd frame p) } l4 = payloadOf p l4 := by
    have hstop' : payloadStop { p with frame := frame.take (datagramEnd frame p) } l4 =
        datagramEnd frame p := by
      rw [payloadStop_of_endsWithDatagram hlayout hends', List.length_take,
        Nat.min_eq_left (Nat.le_of_not_le hcaptured)]
      exact (congrArg _ hfield).trans (Nat.min_self _)
    rw [payloadOf, payloadOf, hstop', hstop, Nat.min_eq_right (Nat.le_of_not_le hcaptured),
      h.l4_eq.2, List.take_take, Nat.min_self]
  have hcuts' : Cuts (frame.take (datagramEnd frame p))
      { p with frame := frame.take (datagramEnd frame p) } l4 := by
    refine ⟨fun hv hbits => hcuts.1 hv ?_, by rw [hbytes]; exact hcuts.2⟩
    dsimp only at hbits
    rwa [FragmentBits, be16At, elemAt_take (by omega), elemAt_take (by omega)] at hbits
  obtain ⟨hzeroed, hrewritten⟩ := rewritten_congr hshort
  rw [processPacket_of_layout h, processPacket_of_layout hlayout, if_pos hcuts, if_pos hcuts',
    summedSegment, summedSegment, hzeroed]
  simp only [hrewritten]

/-- The payload of `frame` is the transport payload inside its datagram, and bytes
behind the datagram neither cause a cut nor make the stored length larger. -/
structure PayloadExact (build : Build) (frame : Bytes) (p : ParsedFrame) (l4 : L4Info) :
    Prop where
  payload_eq : p.payload = .ok ((frame.take (datagramEnd frame p)).drop l4.payloadStart)
  no_trigger : ∀ g cut, processPacket build frame = .ok (.truncated g, cut) →
    processPacket build (frame.take (datagramEnd frame p)) = .ok (.truncated g, cut)
  not_longer : ∀ g cut, processPacket build frame = .ok (.truncated g, cut) →
    ipLengthField g p ≤ ipLengthField frame p

/-- **The payload is the one of the datagram exactly when no extension headers are
counted into it**: the packet is IPv4, its transport header follows the IPv6
header at once, or nothing is captured behind the datagram. -/
theorem payloadExact_iff {build : Build} {frame : Bytes} {p : ParsedFrame} {l4 : L4Info}
    (hparse : parseFrame frame = .ok (.ok p)) (hl4 : p.l4 = some l4) :
    PayloadExact build frame p l4 ↔ EndsWithDatagram frame p l4 := by
  have h := parseFrame_some_iff.mp ⟨hparse, hl4⟩
  have hpayload := payload_eq h
  constructor
  · intro hexact hv
    by_contra hnot
    push Not at hnot
    obtain ⟨hext, hbehind⟩ := hnot
    have hstart := h.payloadStart_le
    have hheader := h.ordered.header_ge
    have hlen := h.ipv6_headerLen hv
    have heq := congrArg List.length (Except.ok.inj (hpayload.symm.trans hexact.payload_eq))
    rw [payloadStop_eq h, List.length_drop, List.length_take, List.length_drop,
      List.length_take] at heq
    omega
  · intro hends
    have hstop := payloadStop_of_endsWithDatagram h hends
    refine
      { payload_eq := ?_
        no_trigger := fun g cut hcut => ?_
        not_longer := fun g cut hcut => ?_ }
    · rw [hpayload, hstop, Nat.min_comm, ← List.take_take, List.take_length]
    · obtain ⟨sum, -, hcuts, -⟩ := truncated_of_parsed hparse hl4 hcut
      rw [processPacket_take_datagram h hends hcuts, hcut]
    · obtain ⟨sum, -, hcuts, -, rfl⟩ := truncated_of_parsed hparse hl4 hcut
      have hlong := (hcuts.long h).long
      rw [length_payloadOf, hstop] at hlong
      exact Nat.le_of_lt (ipLengthField_rewritten_lt sum (hcuts.long h) (by omega)).2

/-- An IPv6 packet with eight bytes of destination options before a UDP datagram of
20 payload bytes, and an Ethernet trailer of eight bytes behind it. -/
def trailedUdp : Bytes :=
  List.replicate 12 0 ++ [0x86, 0xdd] ++
    [0x60, 0, 0, 0, 0, 36, 60, 64] ++ List.replicate 32 1 ++ [17, 0, 1, 4, 0, 0, 0, 0] ++
    [0x01, 0xbb, 0x30, 0x39, 0, 28, 0, 0] ++ List.replicate 20 0x17 ++ List.replicate 8 0

/-- The UDP header that the parser finds there. -/
def trailedUdpInfo : L4Info :=
  { proto := .udp, sport := 443, dport := 0x3039, headerStart := 62, headerLen := 8,
    payloadStart := 70 }

/-- What the parser answers. -/
def trailedUdpParsed : ParsedFrame :=
  { frame := trailedUdp, ipStart := 14, ipHeaderLen := 40, isIpv6 := true,
    l4 := some trailedUdpInfo }

theorem parseFrame_trailedUdp : parseFrame trailedUdp = .ok (.ok trailedUdpParsed) := by
  decide +kernel

/-- The trailer is taken for payload, and the packet is cut because of it. -/
theorem trailedUdp_not_exact :
    ¬ ∀ frame p l4, parseFrame frame = .ok (.ok p) → p.l4 = some l4 →
      PayloadExact .release frame p l4 := by
  intro h
  have hexact := h _ _ _ parseFrame_trailedUdp rfl
  obtain ⟨g, hg⟩ : ∃ g, processPacket .release trailedUdp = .ok (.truncated g, true) :=
    exists_truncated (by decide +kernel) (by decide +kernel)
  have hkept : processPacket .release (trailedUdp.take (datagramEnd trailedUdp trailedUdpParsed)) =
      .ok (.keep, false) := by decide +kernel
  have htrigger := hexact.no_trigger g true hg
  rw [hkept] at htrigger
  cases htrigger

theorem payloadExact_iff_trailedUdp :
    ¬ PayloadExact .release trailedUdp trailedUdpParsed trailedUdpInfo :=
  fun hexact => absurd ((payloadExact_iff parseFrame_trailedUdp rfl).mp hexact rfl) (by decide +kernel)

end PcapSlim.Packet
