/-
PcapSlim.WellFormedTheorems — the parser recovers every well-formed frame.

Each encoder gets the lemma that says what the parser's relations see in its
output, whatever stands before and behind it: `linkTo_encode` for the tags,
`transport?_encode` for the TCP and UDP headers, `extChain_encode` for the
extension headers, by induction on the chain. Together they give a `Layout` of
the encoded frame, and a layout is what the parser answers (`parse_encode`).
-/
import PcapSlim.Layout
import PcapSlim.WellFormed

namespace PcapSlim.WellFormed

open Lib.Buffer Lib.Octets Parse

/-! ## Link layer -/

theorem length_tagBytes : ∀ tags, (tagBytes tags).length = 4 * tags.length
  | [] => rfl
  | (_, _) :: tags => by
      simp only [tagBytes, List.length_cons, length_tagBytes tags]
      omega

theorem LinkHeader.length_encode (h : LinkHeader) (e : UInt16) :
    (h.encode e).length = h.length := by
  simp only [LinkHeader.encode, List.length_append, h.dst.size, h.src.size, length_tagBytes,
    List.length_cons, List.length_nil, LinkHeader.length]
  omega

/-- Every tag shows its type. -/
theorem be16At_tagBytes : ∀ (tags : List (UInt8 × UInt8)) (rest : Bytes) (i : Nat),
    i < tags.length → be16At (tagBytes tags ++ rest) (4 * i) = ethertypeVlan
  | (hi, lo) :: tags, rest, 0, _ => by
      simp only [be16At, tagBytes, List.cons_append, Nat.mul_zero, Nat.zero_add,
        elemAt_cons_zero, elemAt_cons_succ]
      decide
  | (hi, lo) :: tags, rest, i + 1, h => by
      have hnext := be16At_tagBytes tags rest i (by simpa using h)
      simpa [be16At, tagBytes, Nat.mul_add, elemAt_cons_succ] using hnext

theorem linkTo_encode (h : LinkHeader) {e : UInt16} (he : e ≠ ethertypeVlan) (rest : Bytes) :
    LinkTo (h.encode e ++ rest) e h.length := by
  have hmac : (h.dst.bytes ++ h.src.bytes).length = 12 := by simp [h.dst.size, h.src.size]
  have hsplit : h.encode e ++ rest = (h.dst.bytes ++ h.src.bytes) ++
      (tagBytes h.tags ++ ([hi16 e.toNat, lo16 e.toNat] ++ rest)) := by
    simp only [LinkHeader.encode, List.append_assoc]
  have hbehind : ∀ k, be16At (h.encode e ++ rest) (12 + k) =
      be16At (tagBytes h.tags ++ ([hi16 e.toNat, lo16 e.toNat] ++ rest)) k := by
    intro k
    rw [hsplit, ← hmac, be16At_append_add]
  refine ⟨h.tags.length, rfl, ?_, fun i hi => ?_, ?_, he⟩
  · rw [List.length_append, h.length_encode]
    exact Nat.le_add_right _ _
  · rw [hbehind, be16At_tagBytes _ _ _ hi]
  · rw [hbehind, ← length_tagBytes h.tags]
    exact (be16At_append_add _ _ 0).trans (be16_split e)

/-! ## Transport headers -/

theorem Options.length (o : Options) : o.bytes.bytes.length = 4 * o.words := o.bytes.size

theorem Transport.length_encode (t : Transport) : t.encode.length = t.headerLen := by
  cases t with
  | tcp h => simp [Transport.encode, Transport.headerLen, h.options.length]; omega
  | udp h => rfl

theorem Transport.info_headerLen (t : Transport) (start : Nat) :
    (t.info start).headerLen = t.headerLen ∧
      (t.info start).payloadStart = start + t.headerLen := by
  cases t <;> exact ⟨rfl, rfl⟩

/-- The nibble that holds the data offset. -/
theorem dataOffset_encode (h : TcpHeader) (pre post : Bytes) :
    dataOffset (pre ++ ((Transport.tcp h).encode ++ post)) pre.length =
      20 + 4 * h.options.words := by
  have hwords := h.options.words.isLt
  have hreserved := h.reserved.isLt
  rw [dataOffset, elemAt_append_add]
  change (UInt8.ofNat ((5 + h.options.words) * 16 + h.reserved)).toNat / 16 * 4 = _
  rw [UInt8.toNat_ofNat']
  omega

/-- A TCP or UDP header is found where it stands, whatever surrounds it. -/
theorem transport?_encode (t : Transport) (pre post : Bytes) (avail : Nat)
    (havail : t.headerLen ≤ avail) :
    transport? (pre ++ (t.encode ++ post)) t.number pre.length avail =
      some (t.info pre.length) := by
  have hlen : (pre ++ (t.encode ++ post)).length = pre.length + t.headerLen + post.length := by
    rw [List.length_append, List.length_append, t.length_encode]
    omega
  have hports : be16At (pre ++ (t.encode ++ post)) pre.length = (t.info 0).sport ∧
      be16At (pre ++ (t.encode ++ post)) (pre.length + 2) = (t.info 0).dport := by
    constructor
    · refine (be16At_append_add _ _ 0).trans ?_
      cases t <;> exact be16_split _
    · refine (be16At_append_add _ _ 2).trans ?_
      cases t <;> exact be16_split _
  cases t with
  | tcp h =>
    have hoffset := dataOffset_encode h pre post
    have hheader : (Transport.tcp h).headerLen = 20 + 4 * h.options.words := rfl
    rw [transport?, Transport.number, if_pos rfl, if_pos (by omega), tcpInfo, hports.1, hports.2,
      hoffset]
    rfl
  | udp h =>
    have hheader : (Transport.udp h).headerLen = 8 := rfl
    rw [transport?, Transport.number, if_neg (by decide), if_pos rfl, if_pos (by omega), udpInfo,
      hports.1, hports.2]
    rfl

/-! ## IPv4 -/

theorem Ipv4Header.length_encode (h : Ipv4Header) (proto : UInt8) (total : Nat) :
    (h.encode proto total).length = h.length := by
  simp [Ipv4Header.encode, Ipv4Header.length, h.options.length]
  omega

/-- The IPv4 layout of an encoded packet behind `pre`. -/
theorem ipv4Transport?_encode (p : Ipv4Packet) (pre : Bytes) :
    ihlBytes (pre ++ p.encode) pre.length = p.header.length ∧
      ipv4Total (pre ++ p.encode) pre.length = p.total ∧
      ipv4Transport? (pre ++ p.encode) pre.length =
        some (p.transport.info (pre.length + p.header.length)) := by
  have hwords := p.header.options.words.isLt
  have hfits := p.fits
  have hlen : (pre ++ p.encode).length =
      pre.length + p.header.length + p.transport.headerLen + p.payload.length +
        p.trailer.length := by
    simp only [Ipv4Packet.encode, List.length_append, p.header.length_encode,
      p.transport.length_encode]
    omega
  have hge : 20 ≤ p.header.length := by rw [Ipv4Header.length]; omega
  have hversion : elemAt (pre ++ p.encode) pre.length =
      UInt8.ofNat (0x45 + p.header.options.words) := elemAt_append_add _ _ 0
  have hihl : ihlBytes (pre ++ p.encode) pre.length = p.header.length := by
    rw [ihlBytes, hversion, UInt8.toNat_ofNat', Ipv4Header.length]
    omega
  have htotal : ipv4Total (pre ++ p.encode) pre.length = p.total := by
    rw [ipv4Total, be16At_append_add]
    change (be16 (hi16 p.total) (lo16 p.total)).toNat = _
    rw [be16_hi16_lo16, Nat.mod_eq_of_lt]
    rw [Ipv4Packet.total]
    omega
  have hfixed : Ipv4Fixed (pre ++ p.encode) pre.length := by
    refine ⟨by omega, ?_⟩
    rw [hversion, UInt8.toNat_ofNat']
    omega
  have hproto : elemAt (pre ++ p.encode) (pre.length + 9) = p.transport.number :=
    elemAt_append_add _ _ 9
  have hpre : (pre ++ p.header.encode p.transport.number p.total).length =
      pre.length + p.header.length := by
    rw [List.length_append, p.header.length_encode]
  have hfound := transport?_encode p.transport
    (pre ++ p.header.encode p.transport.number p.total) (p.payload ++ p.trailer)
    (p.total - p.header.length) (by rw [Ipv4Packet.total]; omega)
  rw [hpre, List.append_assoc] at hfound
  refine ⟨hihl, htotal, ?_⟩
  rw [ipv4Transport?, hihl, htotal, hproto, if_pos ⟨hfixed, by omega⟩]
  exact hfound

/-! ## IPv6 -/

theorem ExtKind.size_ge (kind : ExtKind) (len : UInt8) : 8 ≤ kind.size len := by
  cases kind <;> simp only [ExtKind.size] <;> omega

theorem extHeaderLen_number (kind : ExtKind) (len : UInt8) :
    extHeaderLen kind.number len = some (kind.size len) := by
  cases kind <;> rfl

theorem length_chainBytes (proto : UInt8) (chain : List ExtHeader) :
    (chainBytes chain proto).length = chainLength chain := by
  induction chain with
  | nil => rfl
  | cons h chain ih =>
    have hge := h.kind.size_ge h.len
    simp only [chainBytes, List.length_cons, List.length_append, h.body.size, ih, chainLength]
    omega

/-- The walk over an encoded chain ends behind it. -/
theorem extChain_encode (proto : UInt8) (stop : Nat) : ∀ (chain : List ExtHeader)
    (pre post : Bytes), pre.length + chainLength chain ≤ stop →
    ExtChain (pre ++ (chainBytes chain proto ++ post)) stop (chainNext chain proto) pre.length
      proto (pre.length + chainLength chain)
  | [], pre, post, _ => .here _ _
  | h :: chain, pre, post, hstop => by
      have hge := h.kind.size_ge h.len
      have hsum : chainLength (h :: chain) = h.kind.size h.len + chainLength chain := rfl
      -- the same bytes, cut behind the first header of the chain
      have hcut : pre ++ (chainBytes (h :: chain) proto ++ post) =
          (pre ++ chainNext chain proto :: h.len :: h.body.bytes) ++
            (chainBytes chain proto ++ post) := by
        simp only [chainBytes, List.cons_append, List.append_assoc]
      have hlen : (pre ++ chainNext chain proto :: h.len :: h.body.bytes).length =
          pre.length + h.kind.size h.len := by
        simp only [List.length_append, List.length_cons, h.body.size]
        omega
      have hnext : elemAt (pre ++ (chainBytes (h :: chain) proto ++ post)) pre.length =
          chainNext chain proto := elemAt_append_add _ _ 0
      have hlenByte : elemAt (pre ++ (chainBytes (h :: chain) proto ++ post)) (pre.length + 1) =
          h.len := elemAt_append_add _ _ 1
      have hrest := extChain_encode proto stop chain
        (pre ++ chainNext chain proto :: h.len :: h.body.bytes) post (by omega)
      rw [← hcut, hlen] at hrest
      rw [hsum, ← Nat.add_assoc]
      have hsize : extHeaderLen h.kind.number
          (elemAt (pre ++ (chainBytes (h :: chain) proto ++ post)) (pre.length + 1)) =
            some (h.kind.size h.len) := by
        rw [hlenByte]
        exact extHeaderLen_number h.kind h.len
      refine .skip hsize (by omega) ?_
      · rw [hnext]
        exact hrest

theorem Ipv6Header.length_encode (h : Ipv6Header) (next : UInt8) (plen : Nat) :
    (h.encode next plen).length = 40 := by
  simp [Ipv6Header.encode, h.src.size, h.dst.size]

/-- The IPv6 layout of an encoded packet behind `pre`. -/
theorem ipv6Found_encode (p : Ipv6Packet) (pre : Bytes) :
    ipv6Plen (pre ++ p.encode) pre.length = p.plen ∧
      Ipv6Found (pre ++ p.encode) pre.length
        (p.transport.info (pre.length + 40 + chainLength p.chain)) := by
  have hfits := p.fits
  have h40 : ip6Hdr = 40 := rfl
  have hlen : (pre ++ p.encode).length = pre.length + 40 + p.plen := by
    simp only [Ipv6Packet.encode, List.length_append, p.header.length_encode, length_chainBytes,
      p.transport.length_encode, Ipv6Packet.plen]
    omega
  have hplen : ipv6Plen (pre ++ p.encode) pre.length = p.plen := by
    rw [ipv6Plen, be16At_append_add]
    change (be16 (hi16 p.plen) (lo16 p.plen)).toNat = _
    rw [be16_hi16_lo16, Nat.mod_eq_of_lt]
    rw [Ipv6Packet.plen]
    omega
  have hversion : elemAt (pre ++ p.encode) pre.length =
      UInt8.ofNat (0x60 + p.header.trafficClassHigh) := elemAt_append_add _ _ 0
  have hfixed : Ipv6Fixed (pre ++ p.encode) pre.length := by
    have hclass := p.header.trafficClassHigh.isLt
    refine ⟨by omega, ?_⟩
    rw [hversion, UInt8.toNat_ofNat']
    omega
  have hnext : elemAt (pre ++ p.encode) (pre.length + 6) =
      chainNext p.chain p.transport.number := elemAt_append_add _ _ 6
  have hstop : ipv6Stop (pre ++ p.encode) pre.length = pre.length + 40 + p.plen := by
    rw [ipv6Stop, hplen, hlen, h40, Nat.min_self]
  have hpre : (pre ++ p.header.encode (chainNext p.chain p.transport.number) p.plen).length =
      pre.length + 40 := by
    rw [List.length_append, p.header.length_encode]
  have hbefore : (pre ++ p.header.encode (chainNext p.chain p.transport.number) p.plen ++
      chainBytes p.chain p.transport.number).length = pre.length + 40 + chainLength p.chain := by
    rw [List.length_append, hpre, length_chainBytes]
  have hchain := extChain_encode p.transport.number (pre.length + 40 + p.plen) p.chain
    (pre ++ p.header.encode (chainNext p.chain p.transport.number) p.plen)
    (p.transport.encode ++ p.payload) (by rw [hpre, Ipv6Packet.plen]; omega)
  have hfound := transport?_encode p.transport
    (pre ++ p.header.encode (chainNext p.chain p.transport.number) p.plen ++
      chainBytes p.chain p.transport.number) p.payload
    (pre.length + 40 + p.plen - (pre.length + 40 + chainLength p.chain))
    (by rw [Ipv6Packet.plen]; omega)
  rw [hpre, List.append_assoc] at hchain
  rw [hbefore, List.append_assoc, List.append_assoc] at hfound
  have hheader : 8 ≤ p.transport.headerLen := by
    cases p.transport <;> simp only [Transport.headerLen] <;> omega
  refine ⟨hplen, hfixed, p.transport.number, pre.length + 40 + chainLength p.chain, ?_, ?_, ?_⟩
  · rw [hstop, hnext, h40]
    exact hchain
  · rw [hstop, Ipv6Packet.plen]
    omega
  · rw [hstop]
    exact hfound

/-! ## Frames -/

/-- The layout of an encoded IPv4 frame. -/
theorem layout_ipv4 (link : LinkHeader) (p : Ipv4Packet) :
    Layout (Frame.mk link (.ipv4 p)).encode (Frame.mk link (.ipv4 p)).parsed
      (p.transport.info (link.length + p.header.length)) := by
  obtain ⟨hihl, -, hfound⟩ := ipv4Transport?_encode p (link.encode ethertypeIpv4)
  rw [link.length_encode] at hihl hfound
  have hlink := linkTo_encode link (e := ethertypeIpv4) (by decide) p.encode
  have h := Layout.ipv4 hlink hfound
  rw [hihl] at h
  exact h

/-- The layout of an encoded IPv6 frame. -/
theorem layout_ipv6 (link : LinkHeader) (p : Ipv6Packet) :
    Layout (Frame.mk link (.ipv6 p)).encode (Frame.mk link (.ipv6 p)).parsed
      (p.transport.info (link.length + 40 + chainLength p.chain)) := by
  obtain ⟨-, hfound⟩ := ipv6Found_encode p (link.encode ethertypeIpv6)
  rw [link.length_encode] at hfound
  exact .ipv6 (linkTo_encode link (by decide) p.encode) hfound

/-- A payload between a prefix and a trailer. -/
theorem window_payload (pre payload trailer : Bytes) :
    ((pre ++ (payload ++ trailer)).take (pre.length + payload.length)).drop pre.length =
      payload := by
  rw [← List.append_assoc, ← List.length_append, List.take_left, List.drop_left]

theorem payload_ipv4 (link : LinkHeader) (p : Ipv4Packet) :
    (Frame.mk link (.ipv4 p)).parsed.payload = .ok p.payload := by
  have hlayout := layout_ipv4 link p
  obtain ⟨-, htotal, -⟩ := ipv4Transport?_encode p (link.encode ethertypeIpv4)
  obtain ⟨hheaderLen, hstart⟩ :=
    p.transport.info_headerLen (link.length + p.header.length)
  rw [link.length_encode] at htotal
  have hpre : (link.encode ethertypeIpv4 ++ p.header.encode p.transport.number p.total ++
      p.transport.encode).length = link.length + p.header.length + p.transport.headerLen := by
    simp only [List.length_append, link.length_encode, p.header.length_encode,
      p.transport.length_encode]
  have hsplit : (Frame.mk link (.ipv4 p)).encode =
      link.encode ethertypeIpv4 ++ p.header.encode p.transport.number p.total ++
        p.transport.encode ++ (p.payload ++ p.trailer) := by
    simp only [Frame.encode, Ipv4Packet.encode, List.append_assoc]
  have hlen : (Frame.mk link (.ipv4 p)).encode.length =
      link.length + p.header.length + p.transport.headerLen + p.payload.length +
        p.trailer.length := by
    rw [hsplit, List.length_append, hpre, List.length_append]
    omega
  have hstop : payloadStop (Frame.mk link (.ipv4 p)).parsed
      (p.transport.info (link.length + p.header.length)) =
        link.length + p.header.length + p.transport.headerLen + p.payload.length := by
    change min (Frame.mk link (.ipv4 p)).encode.length
      (_ + (ipv4Total (link.encode ethertypeIpv4 ++ p.encode) link.length - p.header.length - _)) = _
    rw [hlen, htotal, hheaderLen, hstart, Ipv4Packet.total]
    omega
  rw [payload_eq hlayout, hstop, hstart, hsplit, ← hpre, window_payload]

theorem payload_ipv6 (link : LinkHeader) (p : Ipv6Packet) :
    (Frame.mk link (.ipv6 p)).parsed.payload = .ok p.payload := by
  have hlayout := layout_ipv6 link p
  obtain ⟨hplen, -⟩ := ipv6Found_encode p (link.encode ethertypeIpv6)
  obtain ⟨hheaderLen, hstart⟩ :=
    p.transport.info_headerLen (link.length + 40 + chainLength p.chain)
  rw [link.length_encode] at hplen
  have hpre : (link.encode ethertypeIpv6 ++
      p.header.encode (chainNext p.chain p.transport.number) p.plen ++
      chainBytes p.chain p.transport.number ++ p.transport.encode).length =
        link.length + 40 + chainLength p.chain + p.transport.headerLen := by
    simp only [List.length_append, link.length_encode, p.header.length_encode, length_chainBytes,
      p.transport.length_encode]
  have hsplit : (Frame.mk link (.ipv6 p)).encode =
      link.encode ethertypeIpv6 ++
        p.header.encode (chainNext p.chain p.transport.number) p.plen ++
        chainBytes p.chain p.transport.number ++ p.transport.encode ++ (p.payload ++ []) := by
    simp only [Frame.encode, Ipv6Packet.encode, List.append_assoc, List.append_nil]
  have hlen : (Frame.mk link (.ipv6 p)).encode.length =
      link.length + 40 + chainLength p.chain + p.transport.headerLen + p.payload.length := by
    rw [hsplit, List.length_append, hpre, List.append_nil]
  -- the declared length counts the extension headers, the end of the frame cuts it
  have hstop : payloadStop (Frame.mk link (.ipv6 p)).parsed
      (p.transport.info (link.length + 40 + chainLength p.chain)) =
        link.length + 40 + chainLength p.chain + p.transport.headerLen + p.payload.length := by
    change min (Frame.mk link (.ipv6 p)).encode.length
      (_ + (40 + ipv6Plen (link.encode ethertypeIpv6 ++ p.encode) link.length - 40 - _)) = _
    rw [hlen, hplen, hheaderLen, hstart, Ipv6Packet.plen]
    omega
  rw [payload_eq hlayout, hstop, hstart, hsplit, ← hpre, window_payload]

/-- **The parser recovers every well-formed frame**: protocol, ports, offsets and
payload. -/
theorem parse_encode (f : Frame) :
    parseFrame f.encode = .ok (.ok f.parsed) ∧ f.parsed.payload = .ok f.payload := by
  obtain ⟨link, packet⟩ := f
  cases packet with
  | ipv4 p => exact ⟨(layout_ipv4 link p).parseFrame_eq, payload_ipv4 link p⟩
  | ipv6 p => exact ⟨(layout_ipv6 link p).parseFrame_eq, payload_ipv6 link p⟩

end PcapSlim.WellFormed
