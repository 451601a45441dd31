/-
PcapSlim.PacketTheorems — the outcome of one frame.

`processPacket_of_layout` and `processPacket_of_none` give the outcome of every
frame of at least 14 bytes in closed form: a fault for a cut-off IPv4 header,
the rewritten frame for a layout that the policy cuts, and `keep` otherwise.
`processPacket_truncated` inverts it, and everything said below about the
truncated frames goes through that inversion: which frames stop the program,
what becomes of fragments, and that a second pass keeps what the first one cut.
-/
import PcapSlim.Packet
import PcapSlim.TruncateTheorems

namespace PcapSlim.Packet

open Lib.Buffer Lib.Octets Checksum Parse Policy Truncate

/-! ## The outcome in closed form -/

/-- The policy cuts this layout: no IPv4 fragment bits, and the tree cuts. -/
def Cuts (frame : Bytes) (p : ParsedFrame) (l4 : L4Info) : Prop :=
  (p.isIpv6 = false → ¬ FragmentBits frame p.ipStart) ∧
    TreeCuts l4.proto l4.sport l4.dport (payloadOf p l4)

instance (frame : Bytes) (p : ParsedFrame) (l4 : L4Info) : Decidable (Cuts frame p l4) := by
  unfold Cuts; infer_instance

theorem Cuts.long {frame : Bytes} {p : ParsedFrame} {l4 : L4Info} (h : Cuts frame p l4)
    (hlayout : Layout frame p l4) : Long frame p l4 :=
  ⟨hlayout, h.2.1⟩

/-- A frame that is to be truncated has a layout that the policy cuts. -/
theorem cuts_of_truncate {frame : Bytes} {p : ParsedFrame}
    (hparse : parseFrame frame = .ok (.ok p)) (hdecide : decideAction p = .ok .truncate) :
    ∃ l4, Layout frame p l4 ∧ Cuts frame p l4 := by
  obtain ⟨hlen, hparsed⟩ := parsed_of_parseFrame hparse
  cases hl4 : p.l4 with
  | none =>
    have hnone := decideAction_of_none hlen hparsed hl4
    by_cases hcut : CutIpv4 frame
    · rw [hnone.1 hcut] at hdecide
      cases hdecide
    · rw [hnone.2 hcut] at hdecide
      cases hdecide
  | some l4 =>
    have hlayout := layout_of_parsed hparsed hl4
    refine ⟨l4, hlayout, ?_⟩
    rw [decideAction_of_layout hlayout] at hdecide
    by_contra hcuts
    unfold Cuts at hcuts
    rw [if_neg hcuts] at hdecide
    cases hdecide

theorem processPacket_short {build : Build} {frame : Bytes} (h : frame.length < 14) :
    processPacket build frame = .ok (.keep, false) := by
  rw [processPacket, parseFrame_short h]
  rfl

theorem processPacket_of_none (build : Build) {frame : Bytes} {p : ParsedFrame}
    (hlen : 14 ≤ frame.length) (hparse : parseFrame frame = .ok (.ok p)) (hnone : p.l4 = none) :
    (CutIpv4 frame → processPacket build frame = .error .index) ∧
      (¬ CutIpv4 frame → processPacket build frame = .ok (.keep, false)) := by
  have hdecide := decideAction_of_none hlen (parsed_of_parseFrame hparse).2 hnone
  unfold processPacket
  rw [hparse, ok_bind]
  dsimp only
  constructor
  · intro hcut
    rw [hdecide.1 hcut, error_bind]
  · intro hcut
    rw [hdecide.2 hcut, ok_bind]
    rfl

theorem processPacket_of_layout {build : Build} {frame : Bytes} {p : ParsedFrame} {l4 : L4Info}
    (h : Layout frame p l4) :
    processPacket build frame =
      if Cuts frame p l4 then
        transportSum build (zeroed p l4) p.ipStart p.ipHeaderLen p.isIpv6 (protoNumber l4.proto)
          (summedSegment p l4) >>= fun sum => .ok (.truncated (rewritten p l4 sum), true)
      else .ok (.keep, false) := by
  unfold processPacket
  rw [h.parseFrame_eq, ok_bind]
  dsimp only
  rw [decideAction_of_layout h, ok_bind]
  by_cases hcuts : Cuts frame p l4
  · have hcuts' := hcuts
    unfold Cuts at hcuts'
    rw [if_pos hcuts, if_pos hcuts', applyTruncateOnParsed_eq (hcuts.long h)]
    cases transportSum build (zeroed p l4) p.ipStart p.ipHeaderLen p.isIpv6
        (protoNumber l4.proto) (summedSegment p l4) <;> rfl
  · have hcuts' := hcuts
    unfold Cuts at hcuts'
    rw [if_neg hcuts, if_neg hcuts']
    rfl

/-- Every frame is short, has a layout, or was parsed without one. -/
theorem frame_cases (frame : Bytes) :
    frame.length < 14 ∨ (∃ p l4, Layout frame p l4) ∨
      (14 ≤ frame.length ∧ ∃ p, parseFrame frame = .ok (.ok p) ∧ p.l4 = none) := by
  by_cases hshort : frame.length < 14
  · exact .inl hshort
  have hlen : 14 ≤ frame.length := Nat.not_lt.mp hshort
  obtain ⟨p, hparse, hparsed⟩ := parseFrame_spec hlen
  cases hl4 : p.l4 with
  | none => exact .inr (.inr ⟨hlen, p, hparse, hl4⟩)
  | some l4 => exact .inr (.inl ⟨p, l4, layout_of_parsed hparsed hl4⟩)

/-- A frame with a layout is not cut off inside the IPv4 header. -/
theorem not_cutIpv4_of_layout {frame : Bytes} {p : ParsedFrame} {l4 : L4Info}
    (h : Layout frame p l4) : ¬ CutIpv4 frame := by
  rintro ⟨ip, hlink, hcut⟩
  cases h with
  | ipv4 link found =>
    obtain ⟨-, rfl⟩ := hlink.unique link
    have := (ipv4Transport?_found found).1.1
    omega
  | ipv6 link => exact absurd (hlink.unique link).1 (by decide)

/-- The two outcomes, and what a truncated frame comes from. -/
theorem processPacket_cases {build : Build} {frame : Bytes} {r : PacketOutcome × Bool}
    (h : processPacket build frame = .ok r) :
    r = (.keep, false) ∨ ∃ p l4 sum, Layout frame p l4 ∧ Cuts frame p l4 ∧
      transportSum .release (zeroed p l4) p.ipStart p.ipHeaderLen p.isIpv6 (protoNumber l4.proto)
        (summedSegment p l4) = .ok sum ∧ r = (.truncated (rewritten p l4 sum), true) := by
  rcases frame_cases frame with hshort | ⟨p, l4, hlayout⟩ | ⟨hlen, p, hparse, hnone⟩
  · rw [processPacket_short hshort] at h
    exact .inl (Except.ok.inj h).symm
  · rw [processPacket_of_layout hlayout] at h
    split_ifs at h with hcuts
    · obtain ⟨ph, sum, -, hsum, -⟩ := (hcuts.long hlayout).transportSum_ok
      rw [transportSum_build hsum] at h
      split_ifs at h
      · cases h
      · exact .inr ⟨p, l4, sum, hlayout, hcuts, hsum, (Except.ok.inj h).symm⟩
    · exact .inl (Except.ok.inj h).symm
  · by_cases hcut : CutIpv4 frame
    · rw [(processPacket_of_none _ hlen hparse hnone).1 hcut] at h
      cases h
    · rw [(processPacket_of_none _ hlen hparse hnone).2 hcut] at h
      exact .inl (Except.ok.inj h).symm

theorem processPacket_truncated {build : Build} {frame g : Bytes} {shortened : Bool}
    (h : processPacket build frame = .ok (.truncated g, shortened)) :
    ∃ p l4 sum, Layout frame p l4 ∧ Cuts frame p l4 ∧
      transportSum .release (zeroed p l4) p.ipStart p.ipHeaderLen p.isIpv6 (protoNumber l4.proto)
        (summedSegment p l4) = .ok sum ∧ g = rewritten p l4 sum ∧ shortened = true := by
  rcases processPacket_cases h with hr | ⟨p, l4, sum, hlayout, hcuts, hsum, hr⟩
  · cases hr
  · cases hr
    exact ⟨p, l4, sum, hlayout, hcuts, hsum, rfl, rfl⟩

/-- The same for a frame that has been parsed. -/
theorem truncated_of_parsed {build : Build} {frame g : Bytes} {p : ParsedFrame} {l4 : L4Info}
    {shortened : Bool} (hparse : parseFrame frame = .ok (.ok p)) (hl4 : p.l4 = some l4)
    (h : processPacket build frame = .ok (.truncated g, shortened)) :
    ∃ sum, Layout frame p l4 ∧ Cuts frame p l4 ∧
      transportSum .release (zeroed p l4) p.ipStart p.ipHeaderLen p.isIpv6 (protoNumber l4.proto)
        (summedSegment p l4) = .ok sum ∧ g = rewritten p l4 sum := by
  obtain ⟨p', l4', sum, hlayout, hcuts, hsum, hg, -⟩ := processPacket_truncated h
  obtain rfl : p' = p := Except.ok.inj (Except.ok.inj (hlayout.parseFrame_eq.symm.trans hparse))
  obtain rfl : l4' = l4 := Option.some.inj (hlayout.l4_eq.1.symm.trans hl4)
  exact ⟨sum, hlayout, hcuts, hsum, hg⟩

/-- A frame that is not kept is truncated. -/
theorem exists_truncated {build : Build} {frame : Bytes}
    (hreturns : (processPacket build frame).isOk = true)
    (hcut : processPacket build frame ≠ .ok (.keep, false)) :
    ∃ g, processPacket build frame = .ok (.truncated g, true) := by
  cases hr : processPacket build frame with
  | error e => rw [hr] at hreturns; cases hreturns
  | ok r =>
    rcases processPacket_cases hr with rfl | ⟨p, l4, sum, -, -, -, rfl⟩
    · exact absurd hr hcut
    · exact ⟨_, rfl⟩

/-- Which layouts end up cut: the policy cuts them and no assertion is in the way. -/
theorem processPacket_cut_iff (build : Build) {frame : Bytes} {p : ParsedFrame} {l4 : L4Info}
    (h : Layout frame p l4) :
    (∃ g, processPacket build frame = .ok (.truncated g, true)) ↔
      Cuts frame p l4 ∧
        (build = .debug → l4.headerLen + truncatePayloadBytes ≤ maxTransportSegment) := by
  rw [processPacket_of_layout h]
  by_cases hcuts : Cuts frame p l4
  · have hlong := hcuts.long h
    obtain ⟨ph, sum, -, hsum, -⟩ := hlong.transportSum_ok
    rw [if_pos hcuts, transportSum_build hsum, hlong.length_summedSegment]
    by_cases hassert : build = .debug ∧
        maxTransportSegment < l4.headerLen + truncatePayloadBytes
    · rw [if_pos hassert, error_bind]
      constructor
      · rintro ⟨g, hg⟩
        cases hg
      · rintro ⟨-, hfits⟩
        have := hfits hassert.1
        omega
    · rw [if_neg hassert, ok_bind]
      refine ⟨fun _ => ⟨hcuts, fun hb => ?_⟩, fun _ => ⟨_, rfl⟩⟩
      exact Nat.not_lt.mp fun hlt => hassert ⟨hb, hlt⟩
  · rw [if_neg hcuts]
    constructor
    · rintro ⟨g, hg⟩
      cases hg
    · rintro ⟨hc, -⟩
      exact absurd hc hcuts

/-! ## Frames that stop the program -/

/-- The frames for which `process_packet` does not return: those that end inside the
first eight bytes of an IPv4 header, and in a debug build those whose cut leaves
a segment that the checksum code asserts not to get. -/
def Stops (build : Build) (frame : Bytes) : Prop :=
  CutIpv4 frame ∨ (build = .debug ∧ ∃ p l4, Layout frame p l4 ∧ Cuts frame p l4 ∧
    maxTransportSegment < l4.headerLen + truncatePayloadBytes)

theorem returns_iff_not_stops {build : Build} {frame : Bytes} :
    (∃ r, processPacket build frame = .ok r) ↔ ¬ Stops build frame := by
  rcases frame_cases frame with hshort | ⟨p, l4, hlayout⟩ | ⟨hlen, p, hparse, hnone⟩
  · refine ⟨fun _ => ?_, fun _ => ⟨_, processPacket_short hshort⟩⟩
    rintro (⟨ip, hlink, -⟩ | ⟨-, p, l4, hlayout, -⟩)
    · have := hlink.bounds
      omega
    · have := hlayout.length_ge
      omega
  · have hunique : ∀ p' l4', Layout frame p' l4' → p' = p ∧ l4' = l4 := fun p' l4' h' => by
      obtain rfl : p' = p :=
        Except.ok.inj (Except.ok.inj (h'.parseFrame_eq.symm.trans hlayout.parseFrame_eq))
      exact ⟨rfl, Option.some.inj (h'.l4_eq.1.symm.trans hlayout.l4_eq.1)⟩
    by_cases hcuts : Cuts frame p l4
    · have hiff := processPacket_cut_iff build hlayout
      constructor
      · rintro ⟨r, hr⟩ (hcut | ⟨hbuild, p', l4', hlayout', -, hlong⟩)
        · exact not_cutIpv4_of_layout hlayout hcut
        · obtain ⟨rfl, rfl⟩ := hunique p' l4' hlayout'
          rcases processPacket_cases hr with rfl | ⟨p'', l4'', sum, -, -, -, rfl⟩
          · rw [processPacket_of_layout hlayout, if_pos hcuts] at hr
            obtain ⟨sum, -, hkeep⟩ := bind_eq_ok.mp hr
            cases hkeep
          · have := (hiff.mp ⟨_, hr⟩).2 hbuild
            omega
      · intro hstops
        obtain ⟨g, hg⟩ := hiff.mpr ⟨hcuts, fun hbuild => Nat.not_lt.mp fun hlong =>
          hstops (.inr ⟨hbuild, p, l4, hlayout, hcuts, hlong⟩)⟩
        exact ⟨_, hg⟩
    · refine ⟨fun _ => ?_, fun _ => ⟨_, by rw [processPacket_of_layout hlayout, if_neg hcuts]⟩⟩
      rintro (hcut | ⟨-, p', l4', hlayout', hcuts', -⟩)
      · exact not_cutIpv4_of_layout hlayout hcut
      · obtain ⟨rfl, rfl⟩ := hunique p' l4' hlayout'
        exact hcuts hcuts'
  · have houtcome := processPacket_of_none build hlen hparse hnone
    constructor
    · rintro ⟨r, hr⟩ (hcut | ⟨-, p', l4', hlayout', -⟩)
      · rw [houtcome.1 hcut] at hr
        cases hr
      · cases hlayout'.parseFrame_eq.symm.trans hparse
        rw [hlayout'.l4_eq.1] at hnone
        cases hnone
    · exact fun hstops => ⟨_, houtcome.2 fun hcut => hstops (.inl hcut)⟩

/-- In the release build `process_packet` returns for every frame but those that
end inside the first eight bytes of an IPv4 header: `decide_action` reads the
fragment field of a header that `parse_ipv4` found to be cut off. -/
theorem processPacket_returns_iff (frame : Bytes) :
    (∃ r, processPacket .release frame = .ok r) ↔ ¬ CutIpv4 frame := by
  have hrelease : Stops .release frame ↔ CutIpv4 frame := by simp [Stops]
  rw [returns_iff_not_stops, hrelease]

/-- Two zero addresses and the IPv4 type, captured with nothing behind them. -/
def bareIpv4 : Bytes := List.replicate 12 0 ++ [0x08, 0x00]

theorem processPacket_bareIpv4_faults :
    ¬ ∀ frame, ∃ r, processPacket .release frame = .ok r := by
  intro h
  obtain ⟨r, hr⟩ := h bareIpv4
  have hfault : processPacket .release bareIpv4 = .error .index := by decide +kernel
  rw [hfault] at hr
  cases hr

/-! ## A second pass -/

/-- The cut leaves the bytes that decide where the payload starts alone, but for
a UDP header that starts four bytes into the IPv4 header. -/
theorem sameHeaders_rewritten {frame : Bytes} {p : ParsedFrame} {l4 : L4Info} {sum : UInt16}
    (h : Long frame p l4)
    (happart : p.isIpv6 = false → l4.proto = .udp → p.ipHeaderLen ≠ 4) :
    SameHeaders frame (rewritten p l4 sum) p l4 := by
  have hframe := h.layout.l4_eq.2
  have h24 : truncatePayloadBytes = 24 := rfl
  have h40 : ip6Hdr = 40 := rfl
  obtain ⟨hheader, hpayload, hip, -, htcp, -⟩ := h.bounds
  have hsame : ∀ i < l4.payloadStart + 24, ¬ OwnedByIp p i → ¬ OwnedByTransport l4 i →
      elemAt (rewritten p l4 sum) i = elemAt frame i :=
    fun i hi => elemAt_rewritten hframe hi
  have hbefore : ∀ i, i < l4.headerStart + 4 → ¬ OwnedByTransport l4 i :=
    fun i hi ho => by have := ho.bounds; omega
  have hoffset : l4.proto = .tcp → elemAt (rewritten p l4 sum) (l4.headerStart + 12) =
      elemAt frame (l4.headerStart + 12) := fun hp => by
    have := htcp hp
    refine hsame _ (by omega) (fun ho => ?_) (by rw [ownedByTransport_tcp hp]; omega)
    have := ho.bounds
    omega
  cases hv : p.isIpv6 with
  | true =>
    have hlen := h.layout.ipv6_headerLen hv
    refine ⟨fun i hi => ?_, ?_, ?_, fun _ i hi hlt => ?_, hoffset⟩
    · exact hsame i (by omega) (by rw [ownedByIp_ipv6 hv]; omega) (hbefore i (by omega))
    · exact hsame _ (by omega) (by rw [ownedByIp_ipv6 hv]; omega) (hbefore _ (by omega))
    · rw [hv, if_pos rfl]
      exact hsame _ (by omega) (by rw [ownedByIp_ipv6 hv]; omega) (hbefore _ (by omega))
    · exact hsame i (by omega) (by rw [ownedByIp_ipv6 hv]; omega) (hbefore i (by omega))
  | false =>
    obtain ⟨hihl, hstart⟩ := h.layout.ipv4_headerStart hv
    have hfour : p.ipHeaderLen % 4 = 0 := by rw [hihl, ihlBytes]; omega
    refine ⟨fun i hi => ?_, ?_, ?_, fun hv' => ?_, hoffset⟩
    · exact hsame i (by omega) (by rw [ownedByIp_ipv4 hv]; omega) (hbefore i (by omega))
    · exact hsame _ (by omega) (by rw [ownedByIp_ipv4 hv]; omega) (hbefore _ (by omega))
    · rw [hv, if_neg (by decide)]
      refine hsame _ (by omega) (by rw [ownedByIp_ipv4 hv]; omega) ?_
      cases hp : l4.proto with
      | tcp => rw [ownedByTransport_tcp hp]; omega
      | udp => have := happart hv hp; rw [ownedByTransport_udp hp]; omega
    · rw [hv] at hv'
      cases hv'

/-- The link header is never rewritten. -/
theorem link_rewritten {frame : Bytes} {p : ParsedFrame} {l4 : L4Info} (sum : UInt16)
    (h : Long frame p l4) :
    LinkTo (rewritten p l4 sum) (if p.isIpv6 then ethertypeIpv6 else ethertypeIpv4)
      p.ipStart := by
  have hlen := h.length_shortened
  obtain ⟨hheader, hpayload, hip, -⟩ := h.bounds
  refine h.layout.link.congr (by rw [length_rewritten]; omega) fun i hi => ?_
  refine elemAt_rewritten h.layout.l4_eq.2 (by omega) (fun ho => ?_) fun ho => ?_
  · have := ho.bounds
    omega
  · have := ho.bounds
    omega

/-- If the rewritten frame still has a transport header, its payload starts where
it did. In the one layout where the protocol byte is overwritten, by the low
byte of the UDP length, no transport header is left. -/
theorem payloadStart_rewritten {frame : Bytes} {p p' : ParsedFrame} {l4 l4' : L4Info}
    {sum : UInt16} (h : Long frame p l4) (h' : Layout (rewritten p l4 sum) p' l4') :
    l4'.payloadStart = l4.payloadStart := by
  have hlen := h.length_shortened
  obtain ⟨hheader, hpayload, hip, -⟩ := h.bounds
  by_cases happart : p.isIpv6 = false → l4.proto = .udp → p.ipHeaderLen ≠ 4
  · exact h.layout.same_payload h' (by rw [length_rewritten]; omega)
      (sameHeaders_rewritten h happart)
  push Not at happart
  obtain ⟨hv, hproto, hfour⟩ := happart
  have hlink := link_rewritten sum h
  rw [hv, if_neg (by decide)] at hlink
  have hbyte := elemAt_rewritten_udpLen sum h hproto
  rw [(h.layout.ipv4_headerStart hv).2, hfour] at hbyte
  cases h' with
  | ipv4 link' found' =>
    obtain ⟨-, rfl⟩ := hlink.unique link'
    have hkind := (ipv4Transport?_found found').2.2.proto_kind
    rw [show p.ipStart + 9 = p.ipStart + 4 + 5 by omega, hbyte] at hkind
    exact absurd hkind (by decide)
  | ipv6 link' => exact absurd (hlink.unique link').1 (by decide)

/-- **A second pass keeps what the first one cut**, in every build. -/
theorem processPacket_rewritten {build : Build} {frame : Bytes} {p : ParsedFrame} {l4 : L4Info}
    {sum : UInt16} (h : Long frame p l4) :
    processPacket build (rewritten p l4 sum) = .ok (.keep, false) := by
  have hlen := h.length_shortened
  have h24 : truncatePayloadBytes = 24 := rfl
  obtain ⟨hheader, hpayload, hip, -⟩ := h.bounds
  rcases frame_cases (rewritten p l4 sum) with hshort | ⟨p', l4', hlayout⟩ | ⟨hge, p', hparse, hnone⟩
  · exact processPacket_short hshort
  · rw [processPacket_of_layout hlayout, if_neg]
    rintro ⟨-, hlong, -⟩
    have hstop : payloadStop p' l4' ≤ p'.frame.length := Nat.min_le_left _ _
    rw [length_payloadOf, payloadStart_rewritten h hlayout] at hlong
    rw [hlayout.l4_eq.2, length_rewritten] at hstop
    omega
  · refine (processPacket_of_none _ hge hparse hnone).2 ?_
    rintro ⟨ip, hlink, hcut⟩
    obtain ⟨-, rfl⟩ := hlink.unique (link_rewritten _ h)
    rw [length_rewritten] at hcut
    omega

/-! ## Fragments -/

/-- The length of an IPv6 extension header in the header chain of a packet: 8
bytes for a Fragment header, 4-byte units for AH, 8-byte units for hop-by-hop
options, routing, destination options, mobility, HIP and Shim6. -/
def chainHeaderLen (next len : UInt8) : Option Nat :=
  if next = ip6Fragment then some 8
  else if next = ip6Ah then some ((len.toNat + 2) * 4)
  else if next = ip6HopByHop ∨ next = ip6Routing ∨ next = ip6DestOpts ∨ next = 135 ∨
      next = 139 ∨ next = 140 then some ((len.toNat + 1) * 8)
  else none

/-- Among the extension headers from `next` at `off` there is a Fragment header
with a non-zero offset or the M bit. -/
inductive FragmentInChain (frame : Bytes) (stop : Nat) : UInt8 → Nat → Prop where
  | here {off : Nat} (hfit : off + 8 ≤ stop) (hbits : be16At frame (off + 2) &&& 0xfff9 ≠ 0) :
      FragmentInChain frame stop ip6Fragment off
  | skip {next : UInt8} {off len : Nat}
      (hlen : chainHeaderLen next (elemAt frame (off + 1)) = some len) (hfit : off + len ≤ stop)
      (rest : FragmentInChain frame stop (elemAt frame off) (off + len)) :
      FragmentInChain frame stop next off

/-- The frame carries a fragment of an IPv4 or IPv6 packet. -/
def CarriesFragment (frame : Bytes) : Prop :=
  (∃ ip, LinkTo frame ethertypeIpv4 ip ∧ FragmentBits frame ip) ∨
    ∃ ip, LinkTo frame ethertypeIpv6 ip ∧ Ipv6Fixed frame ip ∧
      FragmentInChain frame (ipv6Stop frame ip) (elemAt frame (ip + 6)) (ip + ip6Hdr)

/-- Behind the extension headers of an IPv6 frame, Fragment headers stepped over
like any other, stands what reads as a transport header with a payload that the
decision tree cuts. -/
def CutBehindChain (build : Build) (frame : Bytes) : Prop :=
  ∃ p l4, Layout frame p l4 ∧ p.isIpv6 = true ∧
    TreeCuts l4.proto l4.sport l4.dport (payloadOf p l4) ∧
    (build = .debug → l4.headerLen + truncatePayloadBytes ≤ maxTransportSegment)

/-- Fragments are kept except behind an IPv6 Fragment header that hides a
payload of an encrypted kind: the IPv4 test has no IPv6 counterpart. -/
theorem fragment_kept_iff {build : Build} {frame : Bytes} (h : CarriesFragment frame) :
    (∀ r, processPacket build frame = .ok r → r = (.keep, false)) ↔
      ¬ CutBehindChain build frame := by
  constructor
  · rintro hkeep ⟨p, l4, hlayout, hv, htree, hbuild⟩
    have hcuts : Cuts frame p l4 := ⟨fun hv' => (by rw [hv] at hv'; cases hv'), htree⟩
    obtain ⟨g, hg⟩ := (processPacket_cut_iff _ hlayout).mpr ⟨hcuts, hbuild⟩
    cases hkeep _ hg
  · intro hcond r hr
    rcases processPacket_cases hr with hkeep | ⟨p, l4, sum, hlayout, hcuts, -, rfl⟩
    · exact hkeep
    have hbuild := ((processPacket_cut_iff _ hlayout).mp ⟨_, hr⟩).2
    cases hv : p.isIpv6 with
    | true => exact absurd ⟨p, l4, hlayout, hv, hcuts.2, hbuild⟩ hcond
    | false =>
      -- an IPv4 fragment is kept by `decide_action`
      have hlink := hlayout.link
      rw [hv, if_neg (by decide)] at hlink
      rcases h with ⟨ip, hlink', hbits⟩ | ⟨ip, hlink', -⟩
      · obtain ⟨-, rfl⟩ := hlink'.unique hlink
        exact absurd hbits (hcuts.1 hv)
      · exact absurd (hlink'.unique hlink).1 (by decide)

/-- A later fragment of an IPv6 packet: the bytes behind its Fragment header (offset
1480, more to come) are data that read as a TCP header with TLS ports. -/
def ipv6Fragment : Bytes :=
  List.replicate 12 0 ++ [0x86, 0xdd] ++
    [0x60, 0, 0, 0, 0, 68, 44, 64] ++ List.replicate 32 1 ++
    [6, 0, 0x05, 0xc9, 0, 0, 0, 7] ++
    [0x01, 0xbb, 0x30, 0x39, 0, 0, 0, 1, 0, 0, 0, 2, 0x50, 0x18, 0, 0, 0, 0, 0, 0] ++
    List.replicate 40 0x17

theorem ipv6Fragment_carriesFragment : CarriesFragment ipv6Fragment :=
  .inr ⟨14, ⟨0, rfl, by decide +kernel, by simp, by decide +kernel, by decide⟩, by decide +kernel,
    .here (by decide +kernel) (by decide +kernel)⟩

theorem ipv6Fragment_is_cut :
    ¬ ∀ frame, CarriesFragment frame →
      ∀ r, processPacket .release frame = .ok r → r = (.keep, false) := by
  intro h
  obtain ⟨g, hg⟩ : ∃ g, processPacket .release ipv6Fragment = .ok (.truncated g, true) :=
    exists_truncated (by decide +kernel) (by decide +kernel)
  cases h _ ipv6Fragment_carriesFragment _ hg

theorem fragment_kept_iff_ipv6Fragment :
    CarriesFragment ipv6Fragment ∧
      ((∀ r, processPacket .release ipv6Fragment = .ok r → r = (.keep, false)) ↔
        ¬ CutBehindChain .release ipv6Fragment) :=
  ⟨ipv6Fragment_carriesFragment, fragment_kept_iff ipv6Fragment_carriesFragment⟩

/-! ## Exactly the packets of the decision tree -/

/-- The outcome for a frame with transport header `l4` and this payload is the one
that the decision tree gives: cut what it names, keep everything else. -/
structure FollowsTree (build : Build) (frame : Bytes) (l4 : L4Info) (payload : Bytes) : Prop where
  cut_iff : (∃ g, processPacket build frame = .ok (.truncated g, true)) ↔
    TreeCuts l4.proto l4.sport l4.dport payload
  keep : ¬ TreeCuts l4.proto l4.sport l4.dport payload →
    processPacket build frame = .ok (.keep, false)

/-- A packet that is no fragment has no fragment bits where `decide_action` looks. -/
theorem cuts_iff_treeCuts {frame : Bytes} {p : ParsedFrame} {l4 : L4Info}
    (h : Layout frame p l4) (hwhole : ¬ CarriesFragment frame) :
    Cuts frame p l4 ↔ TreeCuts l4.proto l4.sport l4.dport (payloadOf p l4) := by
  refine ⟨And.right, fun htree => ⟨fun hv hbits => hwhole (.inl ⟨p.ipStart, ?_, hbits⟩), htree⟩⟩
  have hlink := h.link
  rwa [hv, if_neg (by decide)] at hlink

/-- **The outcome follows the decision tree**, but for the debug assertion about
the segment: a payload behind a TCP header of more than 40 bytes is named by the
tree like any other. -/
theorem followsTree_iff {build : Build} {frame payload : Bytes} {p : ParsedFrame} {l4 : L4Info}
    (hparse : parseFrame frame = .ok (.ok p)) (hl4 : p.l4 = some l4)
    (hpayload : p.payload = .ok payload) (hwhole : ¬ CarriesFragment frame) :
    FollowsTree build frame l4 payload ↔
      (build = .debug → TreeCuts l4.proto l4.sport l4.dport payload → l4.headerLen ≤ 40) := by
  have hlayout := parseFrame_some_iff.mp ⟨hparse, hl4⟩
  obtain rfl : payload = payloadOf p l4 :=
    Except.ok.inj (hpayload.symm.trans hlayout.payload_ok)
  have hcut := processPacket_cut_iff build hlayout
  rw [cuts_iff_treeCuts hlayout hwhole] at hcut
  have h24 : truncatePayloadBytes = 24 := rfl
  have h64 : maxTransportSegment = 64 := rfl
  constructor
  · intro h hbuild htree
    have := (hcut.mp (h.cut_iff.mpr htree)).2 hbuild
    omega
  · intro hcond
    refine ⟨hcut.trans ⟨And.left, fun htree => ⟨htree, fun hbuild => ?_⟩⟩, fun htree => ?_⟩
    · have := hcond hbuild htree
      omega
    · rw [processPacket_of_layout hlayout, if_neg]
      rwa [cuts_iff_treeCuts hlayout hwhole]

/-- A TCP segment from port 443 whose header has 24 bytes of options, with 40 bytes
of application data. -/
def longHeaderTcp : Bytes :=
  List.replicate 12 0 ++ [0x08, 0x00] ++
    [0x45, 0, 0, 104, 0, 1, 0x40, 0, 64, 6, 0, 0, 10, 0, 0, 1, 10, 0, 0, 2] ++
    [0x01, 0xbb, 0x30, 0x39, 0, 0, 0, 1, 0, 0, 0, 2, 0xb0, 0x18, 0, 0, 0, 0, 0, 0] ++
    List.replicate 24 1 ++ List.replicate 40 0x17

/-- The TCP header that the parser finds there. -/
def longHeaderTcpInfo : L4Info :=
  { proto := .tcp, sport := 443, dport := 0x3039, headerStart := 34, headerLen := 44,
    payloadStart := 78 }

/-- What the parser answers. -/
def longHeaderTcpParsed : ParsedFrame :=
  { frame := longHeaderTcp, ipStart := 14, ipHeaderLen := 20, isIpv6 := false,
    l4 := some longHeaderTcpInfo }

theorem parseFrame_longHeaderTcp :
    parseFrame longHeaderTcp = .ok (.ok longHeaderTcpParsed) := by
  decide +kernel

theorem longHeaderTcp_whole : ¬ CarriesFragment longHeaderTcp := by
  have hlink : LinkTo longHeaderTcp ethertypeIpv4 14 :=
    ⟨0, rfl, by decide +kernel, by simp, by decide +kernel, by decide⟩
  rintro (⟨ip, hlink', hbits⟩ | ⟨ip, hlink', -⟩)
  · obtain ⟨-, rfl⟩ := hlink.unique hlink'
    exact absurd hbits (by decide +kernel)
  · exact absurd (hlink.unique hlink').1 (by decide)

theorem longHeaderTcp_leaves_tree :
    ¬ ∀ build frame p l4 payload, parseFrame frame = .ok (.ok p) → p.l4 = some l4 →
      p.payload = .ok payload → ¬ CarriesFragment frame → FollowsTree build frame l4 payload := by
  intro h
  have htree := (h .debug _ _ _ (List.replicate 40 0x17) parseFrame_longHeaderTcp rfl
    (by decide +kernel) longHeaderTcp_whole).cut_iff
  have hstop : processPacket .debug longHeaderTcp = .error .assertion := by decide +kernel
  obtain ⟨g, hg⟩ := htree.mpr (by decide +kernel)
  rw [hstop] at hg
  cases hg

theorem followsTree_iff_longHeaderTcp :
    FollowsTree .release longHeaderTcp longHeaderTcpInfo (List.replicate 40 0x17) :=
  (followsTree_iff parseFrame_longHeaderTcp rfl (by decide +kernel) longHeaderTcp_whole).mpr
    fun hbuild => by cases hbuild

end PcapSlim.Packet
