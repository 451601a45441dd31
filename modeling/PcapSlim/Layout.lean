/-
PcapSlim.Layout — frames in which a transport header was found.

`Layout frame p l4` says where the link, IP and transport headers of `frame`
stand when `parse_frame` answers `p` with the transport header `l4`; the parser
finds exactly the layouts (`parseFrame_some_iff`). The order of the headers
(`Layout.ordered`) is what keeps every later index in bounds, and `payload_eq`
is the payload of a layout. The last section compares the extension-header
walks of two frames that agree up to the transport header, which is how a
rewritten frame is parsed again.
-/
import PcapSlim.ParseTheorems

namespace PcapSlim.Parse

open Lib.Buffer Lib.Octets

/-- The headers of a frame in which a transport header was found. -/
inductive Layout (frame : Bytes) : ParsedFrame → L4Info → Prop where
  | ipv4 {ip : Nat} {l4 : L4Info} (link : LinkTo frame ethertypeIpv4 ip)
      (found : ipv4Transport? frame ip = some l4) :
      Layout frame { frame, ipStart := ip, ipHeaderLen := ihlBytes frame ip,
                     isIpv6 := false, l4 := some l4 } l4
  | ipv6 {ip : Nat} {l4 : L4Info} (link : LinkTo frame ethertypeIpv6 ip)
      (found : Ipv6Found frame ip l4) :
      Layout frame { frame, ipStart := ip, ipHeaderLen := ip6Hdr,
                     isIpv6 := true, l4 := some l4 } l4

/-! ## The parser finds exactly the layouts -/

theorem LinkTo.bounds {frame : Bytes} {e : UInt16} {l3 : Nat} (h : LinkTo frame e l3) :
    14 ≤ l3 ∧ l3 ≤ frame.length := by
  obtain ⟨n, rfl, hle, -⟩ := h
  omega

theorem ipv4Transport?_found {frame : Bytes} {ip : Nat} {l4 : L4Info}
    (h : ipv4Transport? frame ip = some l4) :
    Ipv4Fixed frame ip ∧ ip + ihlBytes frame ip ≤ frame.length ∧
      TransportFound frame (elemAt frame (ip + 9)) (ip + ihlBytes frame ip)
        (ipv4Total frame ip - ihlBytes frame ip) l4 := by
  unfold ipv4Transport? at h
  split_ifs at h with hbounds
  exact ⟨hbounds.1, hbounds.2, transport?_found h⟩

theorem layout_of_parsed {frame : Bytes} {p : ParsedFrame} {l4 : L4Info} (h : Parsed frame p)
    (hl4 : p.l4 = some l4) : Layout frame p l4 := by
  cases h with
  | noIp => cases hl4
  | ipv4 link =>
    have hfound : ipv4Transport? frame _ = some l4 := hl4
    rw [if_pos (ipv4Transport?_found hfound).1, hfound]
    exact .ipv4 link hfound
  | ipv6 link found =>
    obtain rfl : _ = some l4 := hl4
    exact .ipv6 link ((found l4).mp rfl)

theorem Layout.l4_eq {frame : Bytes} {p : ParsedFrame} {l4 : L4Info} (h : Layout frame p l4) :
    p.l4 = some l4 ∧ p.frame = frame := by
  cases h <;> exact ⟨rfl, rfl⟩

theorem Layout.length_ge {frame : Bytes} {p : ParsedFrame} {l4 : L4Info}
    (h : Layout frame p l4) : 14 ≤ frame.length := by
  cases h with
  | ipv4 link => have := link.bounds; omega
  | ipv6 link => have := link.bounds; omega

theorem Layout.parseFrame_eq {frame : Bytes} {p : ParsedFrame} {l4 : L4Info}
    (h : Layout frame p l4) : parseFrame frame = .ok (.ok p) := by
  obtain ⟨p', hparse, hparsed⟩ := parseFrame_spec h.length_ge
  rw [hparse]
  have h46 : ethertypeIpv4 ≠ ethertypeIpv6 := by decide
  cases h with
  | ipv4 link found =>
    cases hparsed with
    | noIp h4 => exact absurd link (h4 _)
    | ipv4 link' =>
      obtain rfl := (link.unique link').2
      rw [if_pos (ipv4Transport?_found found).1, found]
    | ipv6 link' => exact absurd (link.unique link').1 h46
  | ipv6 link found =>
    cases hparsed with
    | noIp _ h6 => exact absurd link (h6 _)
    | ipv4 link' => exact absurd (link.unique link').1 (Ne.symm h46)
    | ipv6 link' found' =>
      obtain rfl := (link.unique link').2
      rw [(found' _).mpr found]

/-- `parse_frame` finds a transport header exactly where a layout has one. -/
theorem parseFrame_some_iff {frame : Bytes} {p : ParsedFrame} {l4 : L4Info} :
    parseFrame frame = .ok (.ok p) ∧ p.l4 = some l4 ↔ Layout frame p l4 :=
  ⟨fun ⟨hparse, hl4⟩ => layout_of_parsed (parsed_of_parseFrame hparse).2 hl4,
    fun h => ⟨h.parseFrame_eq, h.l4_eq.1⟩⟩

/-! ## The order of the headers -/

/-- The length of the part of the IP header that every packet has. -/
def fixedHeaderLen (p : ParsedFrame) : Nat := if p.isIpv6 then 40 else 20

theorem fixedHeaderLen_ipv6 {p : ParsedFrame} (hv : p.isIpv6 = true) : fixedHeaderLen p = 40 := by
  rw [fixedHeaderLen, if_pos hv]

theorem fixedHeaderLen_ipv4 {p : ParsedFrame} (hv : p.isIpv6 = false) : fixedHeaderLen p = 20 := by
  rw [fixedHeaderLen, hv, if_neg Bool.false_ne_true]

/-- The header offsets of a layout, in frame order. -/
structure Ordered (frame : Bytes) (p : ParsedFrame) (l4 : L4Info) : Prop where
  ip_ge : 14 ≤ p.ipStart
  header_ge : p.ipStart + p.ipHeaderLen ≤ l4.headerStart
  fixed_le : p.ipStart + fixedHeaderLen p ≤ frame.length
  payload_eq : l4.payloadStart = l4.headerStart + l4.headerLen
  payload_le : l4.payloadStart ≤ frame.length
  headerLen_ge : (l4.proto = .tcp ∧ 20 ≤ l4.headerLen) ∨ (l4.proto = .udp ∧ l4.headerLen = 8)
  headerLen_le : l4.headerLen ≤ 60

theorem TransportFound.headerLen_ge {frame : Bytes} {proto : UInt8} {start avail : Nat}
    {l4 : L4Info} (h : TransportFound frame proto start avail l4) :
    (l4.proto = .tcp ∧ 20 ≤ l4.headerLen) ∨ (l4.proto = .udp ∧ l4.headerLen = 8) := by
  rcases h.kind with ⟨-, hproto, -, hlen⟩ | ⟨-, hproto, hlen⟩
  · exact .inl ⟨hproto, hlen⟩
  · exact .inr ⟨hproto, hlen⟩

/-- The transport header behind an IPv6 walk. -/
theorem FoundBehind.found {frame : Bytes} {stop off : Nat} {next : UInt8} {l4 : L4Info}
    (h : FoundBehind frame stop next off l4) :
    ∃ proto, off ≤ l4.headerStart ∧ l4.headerStart < stop ∧
      ExtChain frame stop next off proto l4.headerStart ∧
      TransportFound frame proto l4.headerStart (stop - l4.headerStart) l4 := by
  obtain ⟨proto, start, hchain, hlt, hsome⟩ := h
  have hfound := transport?_found hsome
  obtain rfl := hfound.headerStart
  exact ⟨proto, hchain.le, hlt, hchain, hfound⟩

theorem Layout.ordered {frame : Bytes} {p : ParsedFrame} {l4 : L4Info} (h : Layout frame p l4) :
    Ordered frame p l4 := by
  cases h with
  | ipv4 link found =>
    obtain ⟨hfixed, -, htransport⟩ := ipv4Transport?_found found
    exact
      { ip_ge := link.bounds.1
        header_ge := Nat.le_of_eq htransport.headerStart.symm
        fixed_le := hfixed.1
        payload_eq := by rw [htransport.payloadStart, htransport.headerStart]
        payload_le := htransport.captured
        headerLen_ge := htransport.headerLen_ge
        headerLen_le := htransport.headerLen_le }
  | ipv6 link found =>
    obtain ⟨proto, hle, -, -, htransport⟩ := found.2.found
    exact
      { ip_ge := link.bounds.1
        header_ge := hle
        fixed_le := found.1.1
        payload_eq := htransport.payloadStart
        payload_le := htransport.captured
        headerLen_ge := htransport.headerLen_ge
        headerLen_le := htransport.headerLen_le }

/-- An IPv4 transport header follows the IP header at once. -/
theorem Layout.ipv4_headerStart {frame : Bytes} {p : ParsedFrame} {l4 : L4Info}
    (h : Layout frame p l4) (hv : p.isIpv6 = false) :
    p.ipHeaderLen = ihlBytes frame p.ipStart ∧
      l4.headerStart = p.ipStart + p.ipHeaderLen := by
  cases h with
  | ipv4 link found => exact ⟨rfl, (ipv4Transport?_found found).2.2.headerStart⟩
  | ipv6 => cases hv

/-- The IHL counts words of four bytes. -/
theorem Layout.ipHeaderLen_mod {frame : Bytes} {p : ParsedFrame} {l4 : L4Info}
    (h : Layout frame p l4) (hv : p.isIpv6 = false) : p.ipHeaderLen % 4 = 0 := by
  rw [(h.ipv4_headerStart hv).1, ihlBytes]
  omega

/-- An IPv6 header is 40 bytes long. -/
theorem Layout.ipv6_headerLen {frame : Bytes} {p : ParsedFrame} {l4 : L4Info}
    (h : Layout frame p l4) (hv : p.isIpv6 = true) : p.ipHeaderLen = 40 := by
  cases h with
  | ipv4 => cases hv
  | ipv6 => rfl

/-- The link header of a layout. -/
theorem Layout.link {frame : Bytes} {p : ParsedFrame} {l4 : L4Info} (h : Layout frame p l4) :
    LinkTo frame (if p.isIpv6 then ethertypeIpv6 else ethertypeIpv4) p.ipStart := by
  cases h with
  | ipv4 link => exact link
  | ipv6 link => exact link

/-! ## Payload -/

/-- Where the payload ends, as `payload` computes it. -/
def payloadStop (p : ParsedFrame) (l4 : L4Info) : Nat :=
  min p.frame.length (l4.payloadStart +
    ((if p.isIpv6 then p.ipHeaderLen + ipv6Plen p.frame p.ipStart
      else ipv4Total p.frame p.ipStart) - p.ipHeaderLen - l4.headerLen))

theorem payloadLen_eq {frame : Bytes} {p : ParsedFrame} {l4 : L4Info} (h : Layout frame p l4) :
    p.payloadLen = .ok ((if p.isIpv6 then p.ipHeaderLen + ipv6Plen p.frame p.ipStart
      else ipv4Total p.frame p.ipStart) - p.ipHeaderLen - l4.headerLen) := by
  have hord := h.ordered
  have hle := hord.fixed_le
  unfold ParsedFrame.payloadLen
  rw [h.l4_eq.1, h.l4_eq.2]
  dsimp only
  cases hv : p.isIpv6 with
  | true =>
    rw [fixedHeaderLen_ipv6 hv] at hle
    simp only [if_true]
    rw [readBe16_ok (by omega)]
    rfl
  | false =>
    rw [fixedHeaderLen_ipv4 hv] at hle
    simp only [if_false, Bool.false_eq_true]
    rw [readBe16_ok (by omega)]
    rfl

theorem payload_eq {frame : Bytes} {p : ParsedFrame} {l4 : L4Info} (h : Layout frame p l4) :
    p.payload = .ok ((frame.take (payloadStop p l4)).drop l4.payloadStart) := by
  have hframe := h.l4_eq.2
  unfold ParsedFrame.payload
  rw [h.l4_eq.1]
  dsimp only
  rw [payloadLen_eq h, ok_bind]
  change (if l4.payloadStart ≥ payloadStop p l4 then pure []
    else slice p.frame l4.payloadStart (payloadStop p l4)) = _
  have hstop : payloadStop p l4 ≤ p.frame.length := Nat.min_le_left _ _
  by_cases hempty : l4.payloadStart ≥ payloadStop p l4
  · rw [if_pos hempty, window_eq_nil frame hempty]
    rfl
  · rw [if_neg hempty, slice_ok (by omega) hstop, hframe]

/-- The payload bytes, for a layout. -/
def payloadOf (p : ParsedFrame) (l4 : L4Info) : Bytes :=
  (p.frame.take (payloadStop p l4)).drop l4.payloadStart

theorem length_payloadOf (p : ParsedFrame) (l4 : L4Info) :
    (payloadOf p l4).length = payloadStop p l4 - l4.payloadStart := by
  have hstop : payloadStop p l4 ≤ p.frame.length := Nat.min_le_left _ _
  exact length_window _ hstop

theorem Layout.payload_ok {frame : Bytes} {p : ParsedFrame} {l4 : L4Info}
    (h : Layout frame p l4) : p.payload = .ok (payloadOf p l4) := by
  rw [payload_eq h, payloadOf, h.l4_eq.2]

/-- `payload` returns for every frame that was parsed. -/
theorem Parsed.payload_total {frame : Bytes} {p : ParsedFrame} (h : Parsed frame p) :
    ∃ payload, p.payload = .ok payload := by
  cases hl4 : p.l4 with
  | none => exact ⟨[], by rw [ParsedFrame.payload, hl4]; rfl⟩
  | some l4 => exact ⟨_, payload_eq (layout_of_parsed h hl4)⟩

/-! ## The datagram -/

/-- The length field of the IP header: the total length of an IPv4 packet, the
payload length of an IPv6 one. -/
def ipLengthField (frame : Bytes) (p : ParsedFrame) : Nat :=
  if p.isIpv6 then ipv6Plen frame p.ipStart else ipv4Total frame p.ipStart

/-- Where the datagram ends that the IP header declares. -/
def datagramEnd (frame : Bytes) (p : ParsedFrame) : Nat :=
  p.ipStart + (if p.isIpv6 then ip6Hdr else 0) + ipLengthField frame p

theorem datagramEnd_ipv6 {frame : Bytes} {p : ParsedFrame} (hv : p.isIpv6 = true) :
    datagramEnd frame p = p.ipStart + 40 + ipv6Plen frame p.ipStart := by
  rw [datagramEnd, ipLengthField, if_pos hv, if_pos hv]
  rfl

theorem datagramEnd_ipv4 {frame : Bytes} {p : ParsedFrame} (hv : p.isIpv6 = false) :
    datagramEnd frame p = p.ipStart + ipv4Total frame p.ipStart := by
  rw [datagramEnd, ipLengthField, hv, if_neg Bool.false_ne_true, if_neg Bool.false_ne_true,
    Nat.add_zero]

/-- The headers are inside the datagram. -/
theorem Layout.payloadStart_le {frame : Bytes} {p : ParsedFrame} {l4 : L4Info}
    (h : Layout frame p l4) : l4.payloadStart ≤ datagramEnd frame p := by
  have hlen := h.ordered.headerLen_ge
  cases h with
  | ipv4 link found =>
    obtain ⟨-, -, htransport⟩ := ipv4Transport?_found found
    have hfits := htransport.fits
    rw [datagramEnd_ipv4 rfl, htransport.payloadStart]
    dsimp only
    omega
  | @ipv6 ip _ link found =>
    obtain ⟨proto, -, hlt, -, htransport⟩ := found.2.found
    have hfits := htransport.fits
    have hstop : ipv6Stop frame ip ≤ ip + ip6Hdr + ipv6Plen frame ip := Nat.min_le_left _ _
    have h40 : ip6Hdr = 40 := rfl
    rw [datagramEnd_ipv6 rfl, htransport.payloadStart]
    dsimp only
    omega

/-- The payload ends with the datagram, or with the frame, but for extension
headers: `payload_len` leaves them in, so their length is counted on the end. -/
theorem payloadStop_eq {frame : Bytes} {p : ParsedFrame} {l4 : L4Info} (h : Layout frame p l4) :
    payloadStop p l4 = min frame.length
      (datagramEnd frame p + (l4.headerStart - (p.ipStart + p.ipHeaderLen))) := by
  have hstart := h.payloadStart_le
  have hpayload := h.ordered.payload_eq
  have hheader := h.ordered.header_ge
  rw [payloadStop, h.l4_eq.2]
  congr 1
  cases hv : p.isIpv6 with
  | true =>
    have h40 := h.ipv6_headerLen hv
    rw [datagramEnd_ipv6 hv] at hstart ⊢
    rw [if_pos rfl]
    omega
  | false =>
    have hfour := (h.ipv4_headerStart hv).2
    rw [datagramEnd_ipv4 hv] at hstart ⊢
    rw [if_neg Bool.false_ne_true]
    omega

/-! ## The two paths agree -/

/-- **The fast path agrees with the general one**: `parse_frame` returns what the
general path alone returns, payload included, and so does the fast path wherever
it returns a result. -/
theorem fastPath_agrees {frame : Bytes} (h : 14 ≤ frame.length) :
    ∃ p payload, parseFrame frame = .ok (.ok p) ∧ parseGeneral frame = .ok p ∧
      p.payload = .ok payload ∧
      ∀ parsed, tryParseIpv4Plain frame = .ok (some parsed) →
        parsed = p ∧ parsed.payload = .ok payload := by
  obtain ⟨p, hgeneral, hparsed⟩ := parseGeneral_spec frame
  obtain ⟨payload, hpayload⟩ := hparsed.payload_total
  obtain ⟨r, hfast, hagree⟩ := tryParseIpv4Plain_spec frame
  refine ⟨p, payload, ?_, hgeneral, hpayload, fun parsed hparse => ?_⟩
  · rw [parseFrame_eq, if_neg (Nat.not_lt.mpr h), hgeneral]
    rfl
  · have hsome : r = some parsed := Except.ok.inj (hfast.symm.trans hparse)
    obtain rfl : parsed = p := Except.ok.inj ((hagree parsed hsome).symm.trans hgeneral)
    exact ⟨rfl, hpayload⟩

/-- A UDP datagram that the fast path takes: four bytes of payload and an
Ethernet trailer behind the datagram. -/
def plainUdp : Bytes :=
  List.replicate 12 0 ++ [0x08, 0x00] ++
    [0x45, 0, 0, 32, 0, 1, 0x40, 0, 64, 17, 0, 0, 10, 0, 0, 1, 10, 0, 0, 2] ++
    [0x01, 0xbb, 0x30, 0x39, 0, 12, 0, 0, 1, 2, 3, 4] ++ List.replicate 14 0

theorem fastPath_agrees_plainUdp :
    ∃ parsed, tryParseIpv4Plain plainUdp = .ok (some parsed) ∧
      parseGeneral plainUdp = .ok parsed ∧ parsed.payload = .ok [1, 2, 3, 4] := by
  obtain ⟨p, payload, -, hgeneral, -, hagree⟩ := fastPath_agrees (show 14 ≤ plainUdp.length by decide)
  have hfast : tryParseIpv4Plain plainUdp = .ok (some
      { frame := plainUdp, ipStart := 14, ipHeaderLen := 20, isIpv6 := false,
        l4 := some { proto := .udp, sport := 443, dport := 0x3039, headerStart := 34,
                     headerLen := 8, payloadStart := 42 } }) := by decide +kernel
  obtain ⟨rfl, -⟩ := hagree _ hfast
  exact ⟨_, hfast, hgeneral, by decide +kernel⟩

/-! ## Two frames that agree up to the transport header -/

/-- The walk over extension headers reads the bytes before the transport header
only, so two frames that agree there are walked alike. -/
theorem ExtChain.same_end {frame frame' : Bytes} {stop stop' off start start' : Nat}
    {next proto proto' : UInt8} (h : ExtChain frame stop next off proto start)
    (hproto : proto = ipProtoTcp ∨ proto = ipProtoUdp)
    (h' : ExtChain frame' stop' next off proto' start')
    (hproto' : proto' = ipProtoTcp ∨ proto' = ipProtoUdp)
    (hagree : ∀ i, off ≤ i → i < start → elemAt frame' i = elemAt frame i) :
    proto' = proto ∧ start' = start := by
  induction h with
  | here => exact h'.eq_of_none (extHeaderLen_transport hproto)
  | skip hlen _ rest ih =>
    have hle := rest.le
    have hge := extHeaderLen_ge hlen
    rw [← hagree _ (by omega) (by omega)] at hlen
    obtain ⟨-, htail⟩ := h'.tail hlen hproto'
    rw [hagree _ (by omega) (by omega)] at htail
    exact ih hproto htail fun i hi hlt => hagree i (by omega) hlt

/-- Where a payload starts depends on the data offset only. -/
theorem TransportFound.same_payload {frame frame' : Bytes} {proto : UInt8}
    {start avail avail' : Nat} {l4 l4' : L4Info} (h : TransportFound frame proto start avail l4)
    (h' : TransportFound frame' proto start avail' l4')
    (hoffset : l4.proto = .tcp → elemAt frame' (start + 12) = elemAt frame (start + 12)) :
    l4'.payloadStart = l4.payloadStart := by
  have hne : ipProtoTcp ≠ ipProtoUdp := by decide
  rw [h.payloadStart, h'.payloadStart]
  rcases h.kind with ⟨hp, htcp, hlen, -⟩ | ⟨hp, -, hlen⟩ <;>
    rcases h'.kind with ⟨hp', -, hlen', -⟩ | ⟨hp', -, hlen'⟩
  · rw [hlen, hlen', dataOffset, dataOffset, hoffset htcp]
  · exact absurd (hp.symm.trans hp') hne
  · exact absurd (hp'.symm.trans hp) hne
  · rw [hlen, hlen']

/-- `frame'` agrees with `frame` on the bytes that decide where the payload
starts: the link header, the version and header length, the protocol, the
extension headers and the TCP data offset. -/
structure SameHeaders (frame frame' : Bytes) (p : ParsedFrame) (l4 : L4Info) : Prop where
  link : ∀ i < p.ipStart, elemAt frame' i = elemAt frame i
  version : elemAt frame' p.ipStart = elemAt frame p.ipStart
  proto : elemAt frame' (p.ipStart + if p.isIpv6 then 6 else 9) =
    elemAt frame (p.ipStart + if p.isIpv6 then 6 else 9)
  chain : p.isIpv6 = true → ∀ i, p.ipStart + ip6Hdr ≤ i → i < l4.headerStart →
    elemAt frame' i = elemAt frame i
  offset : l4.proto = .tcp →
    elemAt frame' (l4.headerStart + 12) = elemAt frame (l4.headerStart + 12)

/-- Then the payloads start at the same place. -/
theorem Layout.same_payload {frame frame' : Bytes} {p p' : ParsedFrame} {l4 l4' : L4Info}
    (h : Layout frame p l4) (h' : Layout frame' p' l4') (hlen : p.ipStart ≤ frame'.length)
    (hsame : SameHeaders frame frame' p l4) : l4'.payloadStart = l4.payloadStart := by
  have h46 : ethertypeIpv4 ≠ ethertypeIpv6 := by decide
  cases h with
  | @ipv4 ip _ link found =>
    have hlink := link.congr hlen hsame.link
    obtain ⟨-, -, htransport⟩ := ipv4Transport?_found found
    have hoffset := hsame.offset
    rw [htransport.headerStart] at hoffset
    cases h' with
    | ipv4 link' found' =>
      obtain ⟨-, rfl⟩ := hlink.unique link'
      obtain ⟨-, -, htransport'⟩ := ipv4Transport?_found found'
      have hihl : ihlBytes frame' ip = ihlBytes frame ip := by
        rw [ihlBytes, ihlBytes, hsame.version]
      have hproto : elemAt frame' (ip + 9) = elemAt frame (ip + 9) := hsame.proto
      rw [hihl, hproto] at htransport'
      exact htransport.same_payload htransport' hoffset
    | ipv6 link' => exact absurd (hlink.unique link').1 h46
  | @ipv6 ip _ link found =>
    have hlink := link.congr hlen hsame.link
    obtain ⟨proto, -, -, hchain, htransport⟩ := found.2.found
    cases h' with
    | ipv4 link' => exact absurd (hlink.unique link').1.symm h46
    | ipv6 link' found' =>
      obtain ⟨-, rfl⟩ := hlink.unique link'
      obtain ⟨proto', -, -, hchain', htransport'⟩ := found'.2.found
      have hnext : elemAt frame' (ip + 6) = elemAt frame (ip + 6) := hsame.proto
      rw [hnext] at hchain'
      obtain ⟨rfl, hstart⟩ := hchain.same_end htransport.proto_kind hchain'
        htransport'.proto_kind (hsame.chain rfl)
      rw [hstart] at htransport'
      exact htransport.same_payload htransport' hsame.offset

/-- A walk that is over by `stop'` is a walk in every frame that agrees on the
bytes it reads. -/
theorem ExtChain.transfer {frame frame' : Bytes} {stop stop' off start : Nat} {next proto : UInt8}
    (h : ExtChain frame stop next off proto start)
    (hagree : ∀ i, off ≤ i → i < start → elemAt frame' i = elemAt frame i)
    (hstop : start ≤ stop') : ExtChain frame' stop' next off proto start := by
  induction h with
  | here => exact .here _ _
  | skip hlen _ rest ih =>
    have hle := rest.le
    have hge := extHeaderLen_ge hlen
    rw [← hagree _ (by omega) (by omega)] at hlen
    refine .skip hlen (by omega) ?_
    rw [hagree _ (by omega) (by omega)]
    exact ih (fun i hi hlt => hagree i (by omega) hlt) hstop

/-- A transport header is found again where its bytes and enough room are. -/
theorem transport?_transfer {frame frame' : Bytes} {proto : UInt8} {start avail avail' : Nat}
    {l4 : L4Info} (h : transport? frame proto start avail = some l4)
    (hports : ∀ i, start ≤ i → i < start + 4 → elemAt frame' i = elemAt frame i)
    (hoffset : l4.proto = .tcp → elemAt frame' (start + 12) = elemAt frame (start + 12))
    (hlen : l4.payloadStart ≤ frame'.length) (havail : l4.headerLen ≤ avail') :
    transport? frame' proto start avail' = some l4 := by
  have hsport : be16At frame' start = be16At frame start := by
    rw [be16At, be16At, hports _ (by omega) (by omega), hports _ (by omega) (by omega)]
  have hdport : be16At frame' (start + 2) = be16At frame (start + 2) := by
    rw [be16At, be16At, hports _ (by omega) (by omega), hports _ (by omega) (by omega)]
  unfold transport? at h ⊢
  split_ifs at h with htcp hbounds hudp hbounds <;> cases h
  · have hdata : dataOffset frame' start = dataOffset frame start := by
      rw [dataOffset, dataOffset, hoffset rfl]
    rw [if_pos htcp, hdata, if_pos ⟨hbounds.1, havail, hlen⟩, tcpInfo, hsport, hdport, hdata]
    rfl
  · rw [if_neg htcp, if_pos hudp, if_pos ⟨havail, hlen⟩, udpInfo, hsport, hdport]
    rfl

/-- A frame that agrees on the headers, ports included, and has room for them has
the same layout. -/
theorem Layout.transfer {frame frame' : Bytes} {p : ParsedFrame} {l4 : L4Info}
    (h : Layout frame p l4) (hsame : SameHeaders frame frame' p l4)
    (hports : ∀ i, l4.headerStart ≤ i → i < l4.headerStart + 4 → elemAt frame' i = elemAt frame i)
    (hfixed : p.ipStart + fixedHeaderLen p ≤ frame'.length)
    (hlen : l4.payloadStart ≤ frame'.length)
    (hdatagram : l4.payloadStart ≤ datagramEnd frame' p) :
    Layout frame' { p with frame := frame' } l4 := by
  have hpayload := h.ordered.payload_eq
  have hheader := h.ordered.header_ge
  have hpos : 8 ≤ l4.headerLen := by have := h.ordered.headerLen_ge; omega
  cases h with
  | @ipv4 ip _ link found =>
    obtain ⟨hfixed', hihl, htransport⟩ := ipv4Transport?_found found
    have hstart := htransport.headerStart
    have hsameIhl : ihlBytes frame' ip = ihlBytes frame ip := by
      rw [ihlBytes, ihlBytes, hsame.version]
    have hproto : elemAt frame' (ip + 9) = elemAt frame (ip + 9) := hsame.proto
    have hoffset := hsame.offset
    rw [datagramEnd_ipv4 rfl] at hdatagram
    rw [fixedHeaderLen_ipv4 rfl] at hfixed
    dsimp only at *
    have hfound : ipv4Transport? frame' ip = some l4 := by
      rw [ipv4Transport?, if_pos ⟨hfixed', hihl⟩] at found
      rw [hstart] at hports hoffset
      rw [ipv4Transport?, hsameIhl, if_pos ⟨⟨hfixed, by rw [hsame.version]; exact hfixed'.2⟩, by omega⟩,
        hproto]
      exact transport?_transfer found hports hoffset hlen (by omega)
    have hlayout := Layout.ipv4 (link.congr (by omega) hsame.link) hfound
    rwa [hsameIhl] at hlayout
  | @ipv6 ip _ link found =>
    obtain ⟨proto, start, hchain, hlt, hsome⟩ := found.2
    have hstart := (transport?_found hsome).headerStart
    have hnext : elemAt frame' (ip + 6) = elemAt frame (ip + 6) := hsame.proto
    have hoffset := hsame.offset
    have hext := hsame.chain rfl
    have h40 : ip6Hdr = 40 := rfl
    rw [datagramEnd_ipv6 rfl] at hdatagram
    rw [fixedHeaderLen_ipv6 rfl] at hfixed
    dsimp only at *
    rw [hstart] at hports hoffset hext
    have hstop : l4.payloadStart ≤ ipv6Stop frame' ip := Nat.le_min.mpr ⟨by omega, hlen⟩
    refine .ipv6 (link.congr (by omega) hsame.link)
      ⟨⟨by omega, by rw [hsame.version]; exact found.1.2⟩, proto, start, ?_, by omega,
        transport?_transfer hsome hports hoffset hlen (by omega)⟩
    rw [hnext]
    exact hchain.transfer hext (by omega)

end PcapSlim.Parse
