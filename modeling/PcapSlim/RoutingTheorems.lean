/-
PcapSlim.RoutingTheorems — the checksums of source-routed IPv6 packets.

The sender of a packet with a routing header sums over the final destination, the
last address of that header. The cut sums over the address in the IPv6 header,
which is the next hop until the last segment. `keeps_routed_checksum_iff` says
for which packets that makes no difference: the two addresses have to have the
same one's-complement sum.
-/
import PcapSlim.RewriteTheorems

namespace PcapSlim.Packet

open Lib.Buffer Lib.Octets Lib.OnesComplement Checksum Parse Policy Truncate

/-! ## Routing headers -/

/-- The routing header at `off`, of type 0 or 2, has segments left and its last
address is `final`. Its length counts 8-byte units behind the first, so that an
address is two of them. -/
structure RoutesTo (frame : Bytes) (off : Nat) (final : FixedBytes 16) : Prop where
  kind : elemAt frame (off + 2) = 0 ∨ elemAt frame (off + 2) = 2
  segments_left : elemAt frame (off + 3) ≠ 0
  addresses : 2 ≤ (elemAt frame (off + 1)).toNat
  last : readIp6 frame (off + 8 + 16 * ((elemAt frame (off + 1)).toNat / 2 - 1)) = .ok final

/-- Among the extension headers that the parser walks over there is a routing header
to `final`. -/
structure SourceRouted (frame : Bytes) (p : ParsedFrame) (l4 : L4Info) (final : FixedBytes 16) :
    Prop where
  isIpv6 : p.isIpv6 = true
  occurs : ∃ off proto,
    ExtChain frame (ipv6Stop frame p.ipStart) (elemAt frame (p.ipStart + 6)) (p.ipStart + ip6Hdr)
      ip6Routing off ∧
    ExtChain frame (ipv6Stop frame p.ipStart) ip6Routing off proto l4.headerStart ∧
    RoutesTo frame off final

/-! ## Valid checksums -/

/-- Where the segment ends that the transport checksum covers: with the datagram for
TCP, and by its own length field for UDP. -/
def segmentEnd (frame : Bytes) (p : ParsedFrame) (l4 : L4Info) : Nat :=
  match l4.proto with
  | .tcp => datagramEnd frame p
  | .udp => l4.headerStart + (be16At frame (l4.headerStart + 4)).toNat

/-- The checksum of the segment that ends at `stop` is there and valid for the IPv6
pseudo-header with the destination `dst`. -/
structure ValidFor (frame : Bytes) (p : ParsedFrame) (l4 : L4Info) (stop : Nat)
    (dst : FixedBytes 16) : Prop where
  captured : stop ≤ frame.length
  present : l4.proto = .udp → be16At frame (l4.headerStart + 6) ≠ 0
  sums : ∃ src, readIp6 frame (p.ipStart + 8) = .ok src ∧
    fold (wordSum (pseudoIpv6 src dst (protoNumber l4.proto) (stop - l4.headerStart)) +
      wordSum ((frame.take stop).drop l4.headerStart)) = 0xffff

/-- The destination in the IPv6 header sums to what `final` sums to. -/
def SumsAlike (frame : Bytes) (p : ParsedFrame) (final : FixedBytes 16) : Prop :=
  ∃ dst, readIp6 frame (p.ipStart + 24) = .ok dst ∧
    wordSum dst.bytes % 65535 = wordSum final.bytes % 65535

/-- The pseudo-headers of two destinations differ in their sums. -/
theorem validates_iff {src dst : FixedBytes 16} {proto : UInt8} {n s : Nat}
    (final : FixedBytes 16) (hproto : proto ≠ 0)
    (h : fold (wordSum (pseudoIpv6 src dst proto n) + s) = 0xffff) :
    fold (wordSum (pseudoIpv6 src final proto n) + s) = 0xffff ↔
      wordSum final.bytes % 65535 = wordSum dst.bytes % 65535 := by
  have hpos : 0 < proto.toNat := Nat.pos_of_ne_zero fun h0 => hproto (UInt8.toNat_inj.mp h0)
  have hsplit : ∀ a : FixedBytes 16, wordSum (pseudoIpv6 src a proto n) + s =
      wordSum a.bytes + (wordSum src.bytes + wordSum (toBe32 (UInt32.ofNat n)) + proto.toNat + s) := by
    intro a
    rw [wordSum_pseudoIpv6]
    omega
  rw [hsplit] at h ⊢
  exact fold_exchange_iff h (by omega)

theorem protoNumber_ne_zero (proto : L4Proto) : protoNumber proto ≠ 0 := by
  cases proto <;> decide

/-- For which destinations the checksum of a truncated packet is valid. -/
theorem validFor_rewritten_iff {frame : Bytes} {p : ParsedFrame} {l4 : L4Info} {sum : UInt16}
    {final : FixedBytes 16} (h : Long frame p l4) (hv : p.isIpv6 = true)
    (hsum : transportSum .release (zeroed p l4) p.ipStart p.ipHeaderLen p.isIpv6
      (protoNumber l4.proto) (summedSegment p l4) = .ok sum) :
    ValidFor (rewritten p l4 sum) p l4 (rewritten p l4 sum).length final ↔
      SumsAlike frame p final := by
  obtain ⟨ph, hph, hvalid⟩ := segment_validates h (fun hv' => by rw [hv] at hv'; cases hv') hsum
  rw [hv] at hph
  simp only [pseudoHeader, if_true, bind_eq_ok] at hph
  obtain ⟨src, hsrc, dst, hdst, hph⟩ := hph
  obtain rfl : _ = ph := Except.ok.inj hph
  have hlen := h.length_shortened
  have h40 := h.layout.ipv6_headerLen hv
  have hcut := h.cut_lt
  obtain ⟨hheader, hpayload, -⟩ := h.bounds
  have hdst' : readIp6 frame (p.ipStart + 24) = .ok dst := by
    rw [← hdst]
    refine (readIp6_congr (by omega) (by rw [length_rewritten]; omega) fun i hi hlt => ?_).symm
    exact elemAt_rewritten h.layout.l4_eq.2 (by omega)
      (fun ho => by rw [ownedByIp_ipv6 hv] at ho; omega) fun ho => by have := ho.bounds; omega
  rw [List.length_drop] at hvalid
  have hiff := validates_iff final (protoNumber_ne_zero l4.proto) hvalid
  constructor
  · rintro ⟨-, -, src', hsrc', hfinal⟩
    obtain rfl : src' = src := Except.ok.inj (hsrc'.symm.trans hsrc)
    rw [List.take_length] at hfinal
    exact ⟨dst, hdst', (hiff.mp hfinal).symm⟩
  · rintro ⟨dst', hread, halike⟩
    obtain rfl : dst' = dst := Except.ok.inj (hread.symm.trans hdst')
    refine ⟨Nat.le_refl _, udpChecksum_rewritten h, src, hsrc, ?_⟩
    rw [List.take_length]
    exact hiff.mpr halike.symm

/-- **The cut keeps the checksum of a source-routed packet valid for the final
destination exactly when the next hop sums to the same**, if it was valid. -/
theorem keeps_routed_checksum_iff {build : Build} {frame g : Bytes} {p : ParsedFrame} {l4 : L4Info}
    {final : FixedBytes 16} {cut : Bool} (hparse : parseFrame frame = .ok (.ok p))
    (hl4 : p.l4 = some l4) (hrouted : SourceRouted frame p l4 final)
    (hcut : processPacket build frame = .ok (.truncated g, cut)) :
    (ValidFor frame p l4 (segmentEnd frame p l4) final → ValidFor g p l4 g.length final) ↔
      (ValidFor frame p l4 (segmentEnd frame p l4) final → SumsAlike frame p final) := by
  obtain ⟨sum, hlayout, hcuts, hsum, rfl⟩ := truncated_of_parsed hparse hl4 hcut
  exact imp_congr_right fun _ =>
    validFor_rewritten_iff (hcuts.long hlayout) hrouted.isIpv6 hsum

/-- The address at the end of the route. -/
def routeEnd : FixedBytes 16 := ⟨List.replicate 15 0 ++ [9], rfl⟩

/-- A TLS record of 40 bytes from port 443 behind a type 0 routing header with one
segment left, to `routeEnd`, with the checksum that the sender has to use. -/
def routedTcp : Bytes :=
  List.replicate 12 0 ++ [0x86, 0xdd] ++
    [0x60, 0, 0, 0, 0, 84, 43, 64] ++ List.replicate 32 1 ++
    [6, 2, 0, 1, 0, 0, 0, 0] ++ List.replicate 15 0 ++ [9] ++
    [0x01, 0xbb, 0x30, 0x39, 0, 0, 0, 1, 0, 0, 0, 2, 0x50, 0x18, 0, 0, 0xa7, 0xcf, 0, 0] ++
    List.replicate 40 0x17

/-- The TCP header that the parser finds there. -/
def routedTcpInfo : L4Info :=
  { proto := .tcp, sport := 443, dport := 0x3039, headerStart := 78, headerLen := 20,
    payloadStart := 98 }

/-- What the parser answers. -/
def routedTcpParsed : ParsedFrame :=
  { frame := routedTcp, ipStart := 14, ipHeaderLen := 40, isIpv6 := true,
    l4 := some routedTcpInfo }

theorem parseFrame_routedTcp : parseFrame routedTcp = .ok (.ok routedTcpParsed) := by
  decide +kernel

theorem routedTcp_routed : SourceRouted routedTcp routedTcpParsed routedTcpInfo routeEnd := by
  refine ⟨rfl, 54, ipProtoTcp, .here _ _, ?_, ?_⟩
  · refine @ExtChain.skip _ _ _ _ _ 24 _ (by decide +kernel) (by decide +kernel) ?_
    exact .here _ _
  · exact ⟨.inl (by decide +kernel), by decide +kernel, by decide +kernel, by decide +kernel⟩

theorem routedTcp_valid :
    ValidFor routedTcp routedTcpParsed routedTcpInfo
      (segmentEnd routedTcp routedTcpParsed routedTcpInfo) routeEnd :=
  { captured := by decide +kernel
    present := fun hproto => (by cases hproto)
    sums := ⟨⟨List.replicate 16 1, rfl⟩, by decide +kernel, by decide +kernel⟩ }

theorem exists_truncated_routedTcp :
    ∃ g, processPacket .release routedTcp = .ok (.truncated g, true) :=
  exists_truncated (by decide +kernel) (by decide +kernel)

theorem routedTcp_not_alike : ¬ SumsAlike routedTcp routedTcpParsed routeEnd := by
  rintro ⟨dst, hread, halike⟩
  have hdst : readIp6 routedTcp 38 = .ok ⟨List.replicate 16 1, rfl⟩ := by decide +kernel
  obtain rfl := Except.ok.inj (hread.symm.trans hdst)
  exact absurd halike (by decide +kernel)

theorem routedTcp_not_kept :
    ¬ ∀ frame p l4 final g, parseFrame frame = .ok (.ok p) → p.l4 = some l4 →
      SourceRouted frame p l4 final → ValidFor frame p l4 (segmentEnd frame p l4) final →
      processPacket .release frame = .ok (.truncated g, true) → ValidFor g p l4 g.length final := by
  intro h
  obtain ⟨g, hg⟩ := exists_truncated_routedTcp
  have hvalid := h _ _ _ _ g parseFrame_routedTcp rfl routedTcp_routed routedTcp_valid hg
  obtain ⟨sum, hlayout, hcuts, hsum, rfl⟩ := truncated_of_parsed parseFrame_routedTcp rfl hg
  exact routedTcp_not_alike ((validFor_rewritten_iff (hcuts.long hlayout) rfl hsum).mp hvalid)

theorem keeps_routed_checksum_iff_routedTcp :
    ∃ g, processPacket .release routedTcp = .ok (.truncated g, true) ∧
      ¬ ValidFor g routedTcpParsed routedTcpInfo g.length routeEnd := by
  obtain ⟨g, hg⟩ := exists_truncated_routedTcp
  refine ⟨g, hg, fun hvalid => routedTcp_not_alike ?_⟩
  exact (keeps_routed_checksum_iff parseFrame_routedTcp rfl routedTcp_routed hg).mp
    (fun _ => hvalid) routedTcp_valid

end PcapSlim.Packet
