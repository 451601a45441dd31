/-
PcapSlim.ParseTheorems — what `parse.rs` computes, for every byte string.

The checked definitions of `Parse` are first given closed forms: each parser
returns (no index is ever out of bounds) and what it returns is a pure function
of the bytes. `parseTcp_eq` and `parseUdp_eq` share one closed form,
`transport?`. The two loops get a relation each: `LinkTo frame type l3` says
that the link header, with any number of 802.1Q tags, ends at `l3` with `type`,
and `ExtChain` is the walk over IPv6 extension headers. `parseFrame_eq` then
removes the fast path: it never disagrees with the general one.

`Parsed` lists the three kinds of answers, and `parseFrame_spec` says that every
frame of at least 14 bytes gets one of them.
-/
import PcapSlim.ParseLoops
import Mathlib.Tactic.SplitIfs

namespace PcapSlim.Parse

open Lib.Buffer Lib.Octets

/-! ## Nibbles -/

theorem toNat_shiftRight_four (b : UInt8) : (b >>> 4).toNat = b.toNat / 16 := by
  simp [Nat.shiftRight_eq_div_pow]

theorem toNat_and_fifteen (b : UInt8) : (b &&& 0x0f).toNat = b.toNat % 16 := by
  simpa using Nat.and_two_pow_sub_one_eq_mod b.toNat 4

/-! ## Transport headers -/

/-- The TCP data offset in bytes. -/
def dataOffset (frame : Bytes) (start : Nat) : Nat :=
  (elemAt frame (start + 12)).toNat / 16 * 4

/-- The TCP header at `start`. -/
def tcpInfo (frame : Bytes) (start : Nat) : L4Info :=
  { proto := .tcp, sport := be16At frame start, dport := be16At frame (start + 2),
    headerStart := start, headerLen := dataOffset frame start,
    payloadStart := start + dataOffset frame start }

/-- The UDP header at `start`. -/
def udpInfo (frame : Bytes) (start : Nat) : L4Info :=
  { proto := .udp, sport := be16At frame start, dport := be16At frame (start + 2),
    headerStart := start, headerLen := 8, payloadStart := start + 8 }

/-- The transport header of protocol `proto` at `start`, if it is complete in
the frame and within the `avail` bytes that the IP header declares for it. -/
def transport? (frame : Bytes) (proto : UInt8) (start avail : Nat) : Option L4Info :=
  if proto = ipProtoTcp then
    if 20 ≤ dataOffset frame start ∧ dataOffset frame start ≤ avail ∧
        start + dataOffset frame start ≤ frame.length then some (tcpInfo frame start) else none
  else if proto = ipProtoUdp then
    if 8 ≤ avail ∧ start + 8 ≤ frame.length then some (udpInfo frame start) else none
  else none

theorem parseTcp_eq (frame : Bytes) (start avail : Nat) :
    parseTcp frame start avail = .ok (transport? frame ipProtoTcp start avail) := by
  unfold parseTcp transport?
  rw [if_pos rfl]
  by_cases hshort : frame.length < start + 20 ∨ avail < 20
  · rw [if_pos hshort, if_neg (by omega)]
    rfl
  · simp (disch := omega) only [if_neg hshort, read_ok, ok_bind, toNat_shiftRight_four,
      readBe16_ok, pure_eq_ok]
    change (if dataOffset frame start < 20 ∨ frame.length < start + dataOffset frame start
      then Except.ok none else if avail < dataOffset frame start then _ else
        Except.ok (some (tcpInfo frame start))) = _
    split_ifs <;> first | rfl | omega

theorem parseUdp_eq (frame : Bytes) (start avail : Nat) :
    parseUdp frame start avail = .ok (transport? frame ipProtoUdp start avail) := by
  have hne : ¬ ipProtoUdp = ipProtoTcp := by decide
  unfold parseUdp transport?
  rw [if_neg hne, if_pos rfl]
  by_cases hshort : frame.length < start + 8 ∨ avail < 8
  · rw [if_pos hshort, if_neg (by omega)]
    rfl
  · simp (disch := omega) only [if_neg hshort, readBe16_ok, ok_bind, pure_eq_ok]
    rw [if_pos (by omega)]
    rfl

/-- The facts about a transport header that was found. -/
structure TransportFound (frame : Bytes) (proto : UInt8) (start avail : Nat)
    (l4 : L4Info) : Prop where
  headerStart : l4.headerStart = start
  payloadStart : l4.payloadStart = start + l4.headerLen
  captured : l4.payloadStart ≤ frame.length
  fits : l4.headerLen ≤ avail
  kind : (proto = ipProtoTcp ∧ l4.proto = .tcp ∧ l4.headerLen = dataOffset frame start ∧
      20 ≤ l4.headerLen) ∨ (proto = ipProtoUdp ∧ l4.proto = .udp ∧ l4.headerLen = 8)

theorem transport?_found {frame : Bytes} {proto : UInt8} {start avail : Nat} {l4 : L4Info}
    (h : transport? frame proto start avail = some l4) :
    TransportFound frame proto start avail l4 := by
  unfold transport? at h
  split_ifs at h with htcp hbounds hudp hbounds <;> cases h
  · exact ⟨rfl, rfl, hbounds.2.2, hbounds.2.1, .inl ⟨htcp, rfl, rfl, hbounds.1⟩⟩
  · exact ⟨rfl, rfl, hbounds.2, hbounds.1, .inr ⟨hudp, rfl, rfl⟩⟩

/-- A transport header is at most 60 bytes long. -/
theorem TransportFound.headerLen_le {frame : Bytes} {proto : UInt8} {start avail : Nat}
    {l4 : L4Info} (h : TransportFound frame proto start avail l4) : l4.headerLen ≤ 60 := by
  have hbyte := (elemAt frame (start + 12)).toNat_lt
  rcases h.kind with ⟨-, -, hlen, -⟩ | ⟨-, -, hlen⟩
  · rw [hlen, dataOffset]
    omega
  · omega

/-! ## Link layer -/

/-- The link header names `ethertype` and layer 3 starts at `l3`, behind `n`
802.1Q tags for some `n`. -/
def LinkTo (frame : Bytes) (ethertype : UInt16) (l3 : Nat) : Prop :=
  ∃ n, l3 = 14 + 4 * n ∧ l3 ≤ frame.length ∧
    (∀ i < n, be16At frame (12 + 4 * i) = ethertypeVlan) ∧
    be16At frame (12 + 4 * n) = ethertype ∧ ethertype ≠ ethertypeVlan

/-- The tag loop from `off`: it returns, and finds the first type field that is
not a tag. Each round moves four bytes on, so `frame.length` rounds suffice. -/
theorem l2Loop_spec (frame : Bytes) (fuel : Nat) : ∀ off,
    (∃ r, l2Loop frame fuel off = .ok r) ∧
    ∀ ethertype l3, l2Loop frame fuel off = .ok (some (ethertype, l3)) ↔
      ∃ n < fuel, l3 = off + 2 + 4 * n ∧ l3 ≤ frame.length ∧
        (∀ i < n, be16At frame (off + 4 * i) = ethertypeVlan) ∧
        be16At frame (off + 4 * n) = ethertype ∧ ethertype ≠ ethertypeVlan := by
  induction fuel with
  | zero =>
    intro off
    exact ⟨⟨none, rfl⟩, fun ethertype l3 => by simp [l2Loop]⟩
  | succ fuel ih =>
    intro off
    rw [l2Loop]
    by_cases hend : off + 2 > frame.length
    · simp only [if_pos hend, pure_eq_ok]
      refine ⟨⟨none, rfl⟩, fun ethertype l3 => ⟨by simp, ?_⟩⟩
      rintro ⟨n, -, hl3, hle, -⟩
      omega
    simp only [if_neg hend]
    rw [readBe16_ok (by omega), ok_bind]
    by_cases htag : be16At frame off ≠ ethertypeVlan
    · simp only [if_pos htag, pure_eq_ok]
      refine ⟨⟨_, rfl⟩, fun ethertype l3 => ⟨fun h => ?_, ?_⟩⟩
      · simp only [Except.ok.injEq, Option.some.injEq, Prod.mk.injEq] at h
        obtain ⟨rfl, rfl⟩ := h
        exact ⟨0, by omega, rfl, by omega, by simp, rfl, htag⟩
      · rintro ⟨n, -, rfl, -, htags, rfl, -⟩
        have hn : n = 0 := by
          by_contra hpos
          exact htag (by simpa using htags 0 (by omega))
        subst hn
        rfl
    simp only [if_neg htag]
    have htag' : be16At frame off = ethertypeVlan := by simpa using htag
    by_cases hcut : off + 4 > frame.length
    · simp only [if_pos hcut, pure_eq_ok]
      refine ⟨⟨none, rfl⟩, fun ethertype l3 => ⟨by simp, ?_⟩⟩
      rintro ⟨n, -, rfl, hle, -, rfl, hne⟩
      have hn : n = 0 := by omega
      subst hn
      exact absurd htag' hne
    simp only [if_neg hcut]
    obtain ⟨hret, hiff⟩ := ih (off + 4)
    refine ⟨hret, fun ethertype l3 => (hiff ethertype l3).trans ⟨?_, ?_⟩⟩
    · rintro ⟨n, hn, rfl, hle, htags, rfl, hne⟩
      refine ⟨n + 1, by omega, by omega, hle, fun i hi => ?_, by
        rw [show off + 4 * (n + 1) = off + 4 + 4 * n by omega], hne⟩
      cases i with
      | zero => simpa using htag'
      | succ i =>
        rw [show off + 4 * (i + 1) = off + 4 + 4 * i by omega]
        exact htags i (by omega)
    · rintro ⟨n, hn, rfl, hle, htags, rfl, hne⟩
      cases n with
      | zero => exact absurd htag' hne
      | succ n =>
        refine ⟨n, by omega, by omega, hle, fun i hi => ?_, by
          rw [show off + 4 + 4 * n = off + 4 * (n + 1) by omega], hne⟩
        rw [show off + 4 + 4 * i = off + 4 * (i + 1) by omega]
        exact htags (i + 1) (by omega)

theorem l2_total (frame : Bytes) : ∃ r, l2EthertypeAndL3Start frame = .ok r := by
  unfold l2EthertypeAndL3Start
  split
  · exact ⟨none, rfl⟩
  · exact (l2Loop_spec frame frame.length 12).1

theorem l2_eq_some {frame : Bytes} {ethertype : UInt16} {l3 : Nat} :
    l2EthertypeAndL3Start frame = .ok (some (ethertype, l3)) ↔ LinkTo frame ethertype l3 := by
  unfold l2EthertypeAndL3Start LinkTo
  by_cases hshort : frame.length < 14
  · simp only [if_pos hshort, pure_eq_ok]
    constructor
    · simp
    · rintro ⟨n, rfl, hle, -⟩
      omega
  · simp only [if_neg hshort]
    refine ((l2Loop_spec frame frame.length 12).2 ethertype l3).trans ⟨?_, ?_⟩
    · rintro ⟨n, -, hl3, h⟩
      exact ⟨n, by omega, h⟩
    · rintro ⟨n, hl3, hle, h⟩
      exact ⟨n, by omega, by omega, hle, h⟩

/-- The link header determines the type and the start of layer 3. -/
theorem LinkTo.unique {frame : Bytes} {e e' : UInt16} {l3 l3' : Nat}
    (h : LinkTo frame e l3) (h' : LinkTo frame e' l3') : e = e' ∧ l3 = l3' := by
  have heq := (l2_eq_some.mpr h).symm.trans (l2_eq_some.mpr h')
  simpa using heq

/-- Frames that agree up to `l3` have the same link header. -/
theorem LinkTo.congr {frame frame' : Bytes} {e : UInt16} {l3 : Nat} (h : LinkTo frame e l3)
    (hlen : l3 ≤ frame'.length) (hagree : ∀ i < l3, elemAt frame' i = elemAt frame i) :
    LinkTo frame' e l3 := by
  obtain ⟨n, rfl, -, htags, htype, hne⟩ := h
  refine ⟨n, rfl, hlen, fun i hi => ?_, ?_, hne⟩
  · rw [← htags i hi, be16At, be16At, hagree _ (by omega), hagree _ (by omega)]
  · rw [← htype, be16At, be16At, hagree _ (by omega), hagree _ (by omega)]

/-! ## IPv4 -/

/-- The header length that the first byte of an IPv4 header spells. -/
def ihlBytes (frame : Bytes) (ip : Nat) : Nat := (elemAt frame ip).toNat % 16 * 4

/-- The length of the datagram that an IPv4 header declares. -/
def ipv4Total (frame : Bytes) (ip : Nat) : Nat := (be16At frame (ip + 2)).toNat

/-- The fixed part of the IPv4 header is captured and says version 4. -/
def Ipv4Fixed (frame : Bytes) (ip : Nat) : Prop :=
  ip + 20 ≤ frame.length ∧ (elemAt frame ip).toNat / 16 = 4

instance (frame : Bytes) (ip : Nat) : Decidable (Ipv4Fixed frame ip) := by
  unfold Ipv4Fixed; infer_instance

/-- The transport header of the IPv4 packet at `ip`. -/
def ipv4Transport? (frame : Bytes) (ip : Nat) : Option L4Info :=
  if Ipv4Fixed frame ip ∧ ip + ihlBytes frame ip ≤ frame.length then
    transport? frame (elemAt frame (ip + 9)) (ip + ihlBytes frame ip)
      (ipv4Total frame ip - ihlBytes frame ip)
  else none

theorem parseIpv4_eq (frame : Bytes) (ip : Nat) :
    parseIpv4 frame ip = .ok
      { frame, ipStart := ip,
        ipHeaderLen := if Ipv4Fixed frame ip then ihlBytes frame ip else 0,
        isIpv6 := false, l4 := ipv4Transport? frame ip } := by
  unfold parseIpv4 ipv4Transport?
  by_cases hshort : frame.length < ip + 20
  · have hfixed : ¬ Ipv4Fixed frame ip := fun h => absurd h.1 (by omega)
    simp [if_pos hshort, hfixed]
  simp only [if_neg hshort]
  rw [read_ok (by omega), ok_bind]
  by_cases hversion : elemAt frame ip >>> 4 ≠ 4
  · have hfixed : ¬ Ipv4Fixed frame ip := fun h => hversion <| by
      apply UInt8.toNat_inj.mp
      rw [toNat_shiftRight_four, h.2]
      rfl
    simp [if_pos hversion, hfixed]
  have hfixed : Ipv4Fixed frame ip := by
    refine ⟨by omega, ?_⟩
    rw [← toNat_shiftRight_four, not_not.mp hversion]
    rfl
  have hihl : (elemAt frame ip).toNat % 16 * 4 = ihlBytes frame ip := rfl
  have htotal : (be16At frame (ip + 2)).toNat = ipv4Total frame ip := rfl
  simp only [if_neg hversion, toNat_and_fifteen, hfixed, if_true, true_and, hihl]
  by_cases hcut : frame.length < ip + ihlBytes frame ip
  · have hcut' : ¬ ip + ihlBytes frame ip ≤ frame.length := by omega
    simp [if_pos hcut, if_neg hcut']
  have hcut' : ip + ihlBytes frame ip ≤ frame.length := by omega
  rw [if_neg hcut, read_ok (by omega), ok_bind, readBe16_ok (by omega), ok_bind]
  simp only [if_pos hcut', htotal]
  have hne : ¬ ipProtoUdp = ipProtoTcp := by decide
  by_cases htcp : elemAt frame (ip + 9) = ipProtoTcp
  · simp only [htcp, if_true, parseTcp_eq, ok_bind, pure_eq_ok]
  by_cases hudp : elemAt frame (ip + 9) = ipProtoUdp
  · simp only [hudp, if_neg hne, if_true, parseUdp_eq, ok_bind, pure_eq_ok]
  · simp only [if_neg htcp, if_neg hudp, ok_bind, pure_eq_ok, transport?]

/-! ## IPv4 options -/

theorem readIp4_ok {buf : Bytes} {off : Nat} (h : off + 4 ≤ buf.length) :
    readIp4 buf off = .ok ⟨[elemAt buf off, elemAt buf (off + 1), elemAt buf (off + 2),
      elemAt buf (off + 3)], rfl⟩ := by
  unfold readIp4
  rw [read_ok (by omega), ok_bind, read_ok (by omega), ok_bind, read_ok (by omega), ok_bind,
    read_ok (by omega)]
  rfl

/-! ## The fast path -/

/-- An untagged IPv4 frame goes to `parse_ipv4` at offset 14. -/
theorem parseGeneral_untagged {frame : Bytes} (hlen : 14 ≤ frame.length)
    (h12 : elemAt frame 12 = 0x08) (h13 : elemAt frame 13 = 0x00) :
    parseGeneral frame = parseIpv4 frame 14 := by
  have htype : be16At frame 12 = ethertypeIpv4 := by rw [be16At, h12, h13]; rfl
  have hlink : LinkTo frame ethertypeIpv4 14 :=
    ⟨0, rfl, hlen, by simp, htype, by decide⟩
  simp [parseGeneral, l2_eq_some.mpr hlink]

/-- A frame that the fast path leaves to the general one. -/
theorem agrees_of_none {r : Checked (Option ParsedFrame)} {general : Checked ParsedFrame}
    (h : r = .ok none) :
    ∃ found, r = .ok found ∧ ∀ parsed, found = some parsed → general = .ok parsed :=
  ⟨none, h, nofun⟩

/-- The fast path returns, and what it returns is what the general path finds. -/
theorem tryParseIpv4Plain_spec (frame : Bytes) :
    ∃ r, tryParseIpv4Plain frame = .ok r ∧
      ∀ parsed, r = some parsed → parseGeneral frame = .ok parsed := by
  unfold tryParseIpv4Plain
  dsimp only
  by_cases hshort : frame.length < 54
  · exact agrees_of_none (by rw [if_pos hshort]; rfl)
  rw [if_neg hshort, read_ok (by omega), ok_bind]
  by_cases h12 : elemAt frame 12 ≠ 0x08
  · exact agrees_of_none (by rw [if_pos h12]; rfl)
  rw [if_neg h12, read_ok (by omega), ok_bind]
  by_cases h13 : elemAt frame 13 ≠ 0x00
  · exact agrees_of_none (by rw [if_pos h13]; rfl)
  rw [if_neg h13, read_ok (by omega), ok_bind]
  by_cases h14 : elemAt frame 14 ≠ 0x45
  · exact agrees_of_none (by rw [if_pos h14]; rfl)
  rw [if_neg h14, readBe16_ok (by omega), ok_bind]
  rw [not_not] at h12 h13 h14
  by_cases hflags : be16At frame (14 + 6) &&& 0x3fff ≠ 0
  · exact agrees_of_none (by rw [if_pos hflags]; rfl)
  rw [if_neg hflags, readBe16_ok (by omega), ok_bind]
  by_cases htotal : frame.length < 14 + (be16At frame (14 + 2)).toNat
  · exact agrees_of_none (by rw [if_pos htotal]; rfl)
  rw [if_neg htotal, read_ok (by omega), ok_bind]
  have hfixed : Ipv4Fixed frame 14 := ⟨by omega, by rw [h14]; rfl⟩
  have hihl : ihlBytes frame 14 = 20 := by rw [ihlBytes, h14]; rfl
  have hgeneral : parseGeneral frame = .ok
      { frame, ipStart := 14, ipHeaderLen := 20, isIpv6 := false,
        l4 := transport? frame (elemAt frame (14 + 9)) (14 + 20)
          ((be16At frame (14 + 2)).toNat - 20) } := by
    rw [parseGeneral_untagged (by omega) h12 h13, parseIpv4_eq, ipv4Transport?, if_pos hfixed,
      hihl, if_pos ⟨hfixed, by omega⟩]
    rfl
  rw [hgeneral]
  have hne : ¬ ipProtoUdp = ipProtoTcp := by decide
  by_cases htcp : elemAt frame (14 + 9) = ipProtoTcp
  · rw [if_pos htcp, htcp]
    by_cases hfew : (be16At frame (14 + 2)).toNat - 20 < 20 ∨ frame.length < 14 + 20 + 20
    · exact agrees_of_none (by rw [if_pos hfew]; rfl)
    rw [if_neg hfew, read_ok (by omega), ok_bind]
    by_cases hoffset : elemAt frame (14 + 20 + 12) >>> 4 ≠ 5
    · exact agrees_of_none (by rw [if_pos hoffset]; rfl)
    rw [if_neg hoffset, readBe16_ok (by omega), ok_bind, readBe16_ok (by omega), ok_bind]
    refine ⟨_, rfl, fun parsed h => ?_⟩
    have hdata : dataOffset frame (14 + 20) = 20 := by
      rw [dataOffset, ← toNat_shiftRight_four, not_not.mp hoffset]
      rfl
    rw [transport?, if_pos rfl, hdata, if_pos (by omega), ← Option.some.inj h, tcpInfo, hdata]
  rw [if_neg htcp]
  by_cases hudp : elemAt frame (14 + 9) = ipProtoUdp
  · rw [if_pos hudp, hudp]
    by_cases hfew : (be16At frame (14 + 2)).toNat - 20 < 8 ∨ frame.length < 14 + 20 + 8
    · exact agrees_of_none (by rw [if_pos hfew]; rfl)
    rw [if_neg hfew, readBe16_ok (by omega), ok_bind, readBe16_ok (by omega), ok_bind]
    refine ⟨_, rfl, fun parsed h => ?_⟩
    rw [transport?, if_neg hne, if_pos rfl, if_pos (by omega), ← Option.some.inj h, udpInfo]
  · rw [if_neg hudp]
    refine ⟨_, rfl, fun parsed h => ?_⟩
    rw [transport?, if_neg htcp, if_neg hudp, ← Option.some.inj h]

/-! ## IPv6 -/

/-- The length of an extension header that the parser walks over, from its type
and its second byte: 8-byte units for most, 4-byte units for AH. -/
def extHeaderLen (next len : UInt8) : Option Nat :=
  if next = ip6HopByHop ∨ next = ip6Routing ∨ next = ip6Fragment ∨ next = ip6DestOpts then
    some ((len.toNat + 1) * 8)
  else if next = ip6Ah then some ((len.toNat + 2) * 4)
  else none

theorem extHeaderLen_ge {next len : UInt8} {n : Nat} (h : extHeaderLen next len = some n) :
    8 ≤ n := by
  unfold extHeaderLen at h
  split_ifs at h <;> cases h <;> omega

/-- A transport header is not an extension header. -/
theorem extHeaderLen_transport {proto len : UInt8} (h : proto = ipProtoTcp ∨ proto = ipProtoUdp) :
    extHeaderLen proto len = none := by
  unfold extHeaderLen
  rcases h with rfl | rfl <;> rw [if_neg (by decide), if_neg (by decide)]

/-- From a header of type `next` at `off`, walking over extension headers that
end by `stop` leads to a header of type `proto` at `start`. -/
inductive ExtChain (frame : Bytes) (stop : Nat) : UInt8 → Nat → UInt8 → Nat → Prop where
  | here (next : UInt8) (off : Nat) : ExtChain frame stop next off next off
  | skip {next proto : UInt8} {off len start : Nat}
      (hlen : extHeaderLen next (elemAt frame (off + 1)) = some len)
      (hfit : off + len ≤ stop)
      (rest : ExtChain frame stop (elemAt frame off) (off + len) proto start) :
      ExtChain frame stop next off proto start

theorem ExtChain.le {frame : Bytes} {stop off start : Nat} {next proto : UInt8}
    (h : ExtChain frame stop next off proto start) : off ≤ start := by
  induction h with
  | here => exact Nat.le_refl _
  | skip _ _ _ ih => omega

/-- A walk that starts at something else than an extension header is over. -/
theorem ExtChain.eq_of_none {frame : Bytes} {stop off start : Nat} {next proto : UInt8}
    (h : ExtChain frame stop next off proto start)
    (hnone : extHeaderLen next (elemAt frame (off + 1)) = none) : proto = next ∧ start = off := by
  cases h with
  | here => exact ⟨rfl, rfl⟩
  | skip hlen => rw [hnone] at hlen; cases hlen

/-- A walk from an extension header to a transport header skips the former. -/
theorem ExtChain.tail {frame : Bytes} {stop off start len : Nat} {next proto : UInt8}
    (h : ExtChain frame stop next off proto start)
    (hlen : extHeaderLen next (elemAt frame (off + 1)) = some len)
    (hproto : proto = ipProtoTcp ∨ proto = ipProtoUdp) :
    off + len ≤ stop ∧ ExtChain frame stop (elemAt frame off) (off + len) proto start := by
  cases h with
  | here => rw [extHeaderLen_transport hproto] at hlen; cases hlen
  | skip hlen' hfit rest =>
    cases hlen.symm.trans hlen'
    exact ⟨hfit, rest⟩

theorem TransportFound.proto_kind {frame : Bytes} {proto : UInt8} {start avail : Nat}
    {l4 : L4Info} (h : TransportFound frame proto start avail l4) :
    proto = ipProtoTcp ∨ proto = ipProtoUdp := by
  rcases h.kind with ⟨hp, -⟩ | ⟨hp, -⟩
  · exact .inl hp
  · exact .inr hp

theorem transport?_kind {frame : Bytes} {proto : UInt8} {start avail : Nat} {l4 : L4Info}
    (h : transport? frame proto start avail = some l4) :
    proto = ipProtoTcp ∨ proto = ipProtoUdp :=
  (transport?_found h).proto_kind

/-- What the walk from `next` at `off` finds: a transport header behind it. -/
def FoundBehind (frame : Bytes) (stop : Nat) (next : UInt8) (off : Nat) (l4 : L4Info) : Prop :=
  ∃ proto start, ExtChain frame stop next off proto start ∧ start < stop ∧
    transport? frame proto start (stop - start) = some l4

theorem foundBehind_of_none {frame : Bytes} {stop off : Nat} {next : UInt8} {l4 : L4Info}
    (hnone : extHeaderLen next (elemAt frame (off + 1)) = none) :
    FoundBehind frame stop next off l4 ↔
      off < stop ∧ transport? frame next off (stop - off) = some l4 := by
  constructor
  · rintro ⟨proto, start, hchain, hlt, hsome⟩
    obtain ⟨rfl, rfl⟩ := hchain.eq_of_none hnone
    exact ⟨hlt, hsome⟩
  · rintro ⟨hlt, hsome⟩
    exact ⟨next, off, .here _ _, hlt, hsome⟩

theorem foundBehind_of_some {frame : Bytes} {stop off len : Nat} {next : UInt8} {l4 : L4Info}
    (hlen : extHeaderLen next (elemAt frame (off + 1)) = some len) :
    FoundBehind frame stop next off l4 ↔
      off + len ≤ stop ∧ FoundBehind frame stop (elemAt frame off) (off + len) l4 := by
  constructor
  · rintro ⟨proto, start, hchain, hlt, hsome⟩
    obtain ⟨hfit, hrest⟩ := hchain.tail hlen (transport?_kind hsome)
    exact ⟨hfit, proto, start, hrest, hlt, hsome⟩
  · rintro ⟨hfit, proto, start, hrest, hlt, hsome⟩
    exact ⟨proto, start, .skip hlen hfit hrest, hlt, hsome⟩

/-- The walk stops at the end of the datagram. -/
theorem not_foundBehind_of_le {frame : Bytes} {stop off : Nat} {next : UInt8} {l4 : L4Info}
    (h : stop ≤ off) : ¬ FoundBehind frame stop next off l4 := by
  rintro ⟨proto, start, hchain, hlt, -⟩
  have := hchain.le
  omega

/-- A round before the end of the datagram: an extension header that fits is skipped,
anything else is tried as a transport header. -/
theorem ipv6Round_eq {frame : Bytes} {stop off : Nat} {next : UInt8}
    (hstop : stop ≤ frame.length) (hlt : off < stop) :
    ipv6Round frame stop (next, off) =
      match extHeaderLen next (elemAt frame (off + 1)) with
      | none => .ok (.leave (transport? frame next off (stop - off)))
      | some len =>
          if off + len > stop then .ok (.leave none)
          else .ok (.again (elemAt frame off, off + len)) := by
  rw [ipv6Round, if_neg (by omega), sub_ok (by omega)]
  simp only [ok_bind, pure_eq_ok]
  by_cases htcp : next = ipProtoTcp
  · rw [if_pos htcp, parseTcp_eq, htcp, extHeaderLen_transport (.inl rfl)]
    rfl
  rw [if_neg htcp]
  by_cases hudp : next = ipProtoUdp
  · rw [if_pos hudp, parseUdp_eq, hudp, extHeaderLen_transport (.inr rfl)]
    rfl
  rw [if_neg hudp]
  have hnot : transport? frame next off (stop - off) = none := by
    rw [transport?, if_neg htcp, if_neg hudp]
  by_cases hoptions : next = ip6HopByHop ∨ next = ip6Routing ∨ next = ip6Fragment ∨
      next = ip6DestOpts
  · have hgo : ¬ next = ip6NoNext ∧ ¬ next = ip6Esp := by
      rcases hoptions with rfl | rfl | rfl | rfl <;> decide
    rw [if_neg hgo.1, if_neg hgo.2, if_pos hoptions, extHeaderLen, if_pos hoptions]
    by_cases hcut : off + 2 > stop
    · rw [if_pos hcut]
      simp only
      rw [if_pos (by omega)]
    rw [if_neg hcut, read_ok (by omega), ok_bind]
    by_cases hfit : off + ((elemAt frame (off + 1)).toNat + 1) * 8 > stop
    · rw [if_pos (.inr hfit)]
      simp only
      rw [if_pos hfit]
    · rw [if_neg (by omega), read_ok (by omega), ok_bind]
      simp only
      rw [if_neg hfit]
  rw [extHeaderLen, if_neg hoptions]
  by_cases hah : next = ip6Ah
  · have hgo : ¬ next = ip6NoNext ∧ ¬ next = ip6Esp := by
      rw [hah]; decide
    rw [if_neg hgo.1, if_neg hgo.2, if_neg hoptions, if_pos hah, if_pos hah]
    by_cases hcut : off + 2 > stop
    · rw [if_pos hcut]
      simp only
      rw [if_pos (by omega)]
    rw [if_neg hcut, read_ok (by omega), ok_bind]
    by_cases hfit : off + ((elemAt frame (off + 1)).toNat + 2) * 4 > stop
    · rw [if_pos hfit]
      simp only
      rw [if_pos hfit]
    · rw [if_neg hfit, read_ok (by omega), ok_bind]
      simp only
      rw [if_neg hfit]
  · rw [if_neg hah, if_neg hoptions, if_neg hah]
    simp only [hnot, ite_self]

theorem ipv6Loop_round {frame : Bytes} {stop fuel off : Nat} {next : UInt8}
    (hstop : stop ≤ frame.length) (hlt : off < stop) :
    ipv6Loop frame stop (fuel + 1) next off =
      match extHeaderLen next (elemAt frame (off + 1)) with
      | none => .ok (transport? frame next off (stop - off))
      | some len =>
          if off + len > stop then .ok none
          else ipv6Loop frame stop fuel (elemAt frame off) (off + len) := by
  have hsucc := ipv6Loop_succ frame stop fuel (next, off)
  rw [ipv6Round_eq hstop hlt] at hsucc
  refine hsucc.trans ?_
  cases extHeaderLen next (elemAt frame (off + 1)) with
  | none => rfl
  | some len => dsimp only; split <;> rfl

/-- The extension-header loop returns, and finds exactly what is behind the
walk. Each round moves at least eight bytes on. -/
theorem ipv6Loop_spec {frame : Bytes} {stop : Nat} (hstop : stop ≤ frame.length) (fuel : Nat) :
    ∀ (off : Nat) (next : UInt8), stop ≤ off + fuel →
      ∃ r, ipv6Loop frame stop fuel next off = .ok r ∧
        ∀ l4, r = some l4 ↔ FoundBehind frame stop next off l4 := by
  induction fuel with
  | zero =>
    intro off next hfuel
    exact ⟨none, rfl, fun l4 => by simp [not_foundBehind_of_le (show stop ≤ off by omega)]⟩
  | succ fuel ih =>
    intro off next hfuel
    by_cases hlt : off < stop
    · rw [ipv6Loop_round hstop hlt]
      cases hlen : extHeaderLen next (elemAt frame (off + 1)) with
      | none =>
        exact ⟨_, rfl, fun l4 => by rw [foundBehind_of_none hlen]; simp [hlt]⟩
      | some len =>
        have hge := extHeaderLen_ge hlen
        by_cases hcut : off + len > stop
        · refine ⟨none, by simp [hcut], fun l4 => ?_⟩
          rw [foundBehind_of_some hlen]
          constructor
          · simp
          · rintro ⟨hfit, -⟩; omega
        · obtain ⟨r, hr, hiff⟩ := ih (off + len) (elemAt frame off) (by omega)
          refine ⟨r, by simpa [hcut] using hr, fun l4 => ?_⟩
          rw [hiff, foundBehind_of_some hlen]
          exact ⟨fun h => ⟨by omega, h⟩, And.right⟩
    · refine ⟨none, by rw [ipv6Loop, if_pos (by omega)]; rfl, fun l4 => ?_⟩
      simp [not_foundBehind_of_le (show stop ≤ off by omega)]

/-- The fixed IPv6 header is captured and says version 6. -/
def Ipv6Fixed (frame : Bytes) (ip : Nat) : Prop :=
  ip + ip6Hdr ≤ frame.length ∧ (elemAt frame ip).toNat / 16 = 6

instance (frame : Bytes) (ip : Nat) : Decidable (Ipv6Fixed frame ip) := by
  unfold Ipv6Fixed; infer_instance

/-- The payload length field of the IPv6 header. -/
def ipv6Plen (frame : Bytes) (ip : Nat) : Nat := (be16At frame (ip + 4)).toNat

/-- The captured end of the IPv6 datagram. -/
def ipv6Stop (frame : Bytes) (ip : Nat) : Nat :=
  min (ip + ip6Hdr + ipv6Plen frame ip) frame.length

/-- The transport header of the IPv6 packet at `ip`. -/
def Ipv6Found (frame : Bytes) (ip : Nat) (l4 : L4Info) : Prop :=
  Ipv6Fixed frame ip ∧
    FoundBehind frame (ipv6Stop frame ip) (elemAt frame (ip + 6)) (ip + ip6Hdr) l4

theorem parseIpv6_spec (frame : Bytes) (ip : Nat) :
    ∃ r, parseIpv6 frame ip = .ok
        { frame, ipStart := ip, ipHeaderLen := ip6Hdr, isIpv6 := true, l4 := r } ∧
      ∀ l4, r = some l4 ↔ Ipv6Found frame ip l4 := by
  have h40 : ip6Hdr = 40 := rfl
  unfold parseIpv6
  dsimp only
  by_cases hshort : frame.length < ip + ip6Hdr
  · refine ⟨none, by rw [if_pos hshort]; rfl, fun l4 => ?_⟩
    constructor
    · simp
    · rintro ⟨⟨hle, -⟩, -⟩; omega
  rw [if_neg hshort, read_ok (by omega), ok_bind]
  by_cases hversion : elemAt frame ip >>> 4 ≠ 6
  · refine ⟨none, by rw [if_pos hversion]; rfl, fun l4 => ?_⟩
    constructor
    · simp
    · rintro ⟨⟨-, hv⟩, -⟩
      refine absurd (UInt8.toNat_inj.mp ?_) hversion
      rw [toNat_shiftRight_four, hv]
      rfl
  rw [if_neg hversion, readBe16_ok (by omega), ok_bind, read_ok (by omega), ok_bind]
  have hfixed : Ipv6Fixed frame ip := by
    refine ⟨by omega, ?_⟩
    rw [← toNat_shiftRight_four, not_not.mp hversion]
    rfl
  have hstop : ipv6Stop frame ip ≤ frame.length := Nat.min_le_right _ _
  obtain ⟨r, hr, hiff⟩ :=
    ipv6Loop_spec hstop frame.length (ip + ip6Hdr) (elemAt frame (ip + 6)) (by omega)
  refine ⟨r, ?_, fun l4 => (hiff l4).trans ⟨fun h => ⟨hfixed, h⟩, And.right⟩⟩
  rw [show min (ip + ip6Hdr + (be16At frame (ip + 4)).toNat) frame.length
    = ipv6Stop frame ip from rfl, hr]
  rfl

/-! ## Frames -/

/-- What `parse_frame` answers for a frame of at least 14 bytes. -/
inductive Parsed (frame : Bytes) : ParsedFrame → Prop where
  | noIp (h4 : ∀ ip, ¬ LinkTo frame ethertypeIpv4 ip) (h6 : ∀ ip, ¬ LinkTo frame ethertypeIpv6 ip) :
      Parsed frame { frame, ipStart := 0, ipHeaderLen := 0, isIpv6 := false, l4 := none }
  | ipv4 {ip : Nat} (link : LinkTo frame ethertypeIpv4 ip) :
      Parsed frame
        { frame, ipStart := ip, ipHeaderLen := if Ipv4Fixed frame ip then ihlBytes frame ip else 0,
          isIpv6 := false, l4 := ipv4Transport? frame ip }
  | ipv6 {ip : Nat} {r : Option L4Info} (link : LinkTo frame ethertypeIpv6 ip)
      (found : ∀ l4, r = some l4 ↔ Ipv6Found frame ip l4) :
      Parsed frame { frame, ipStart := ip, ipHeaderLen := ip6Hdr, isIpv6 := true, l4 := r }

theorem parseGeneral_spec (frame : Bytes) :
    ∃ p, parseGeneral frame = .ok p ∧ Parsed frame p := by
  obtain ⟨r, hr⟩ := l2_total frame
  unfold parseGeneral
  rw [hr, ok_bind]
  match r, hr with
  | none, hr =>
    refine ⟨_, rfl, .noIp (fun ip h => ?_) (fun ip h => ?_)⟩ <;>
      simpa using hr.symm.trans (l2_eq_some.mpr h)
  | some (ethertype, l3), hr =>
    have hlink := l2_eq_some.mp hr
    dsimp only
    by_cases h4 : ethertype = ethertypeIpv4
    · rw [if_pos h4, parseIpv4_eq]
      exact ⟨_, rfl, .ipv4 (h4 ▸ hlink)⟩
    rw [if_neg h4]
    by_cases h6 : ethertype = ethertypeIpv6
    · rw [if_pos h6]
      obtain ⟨r, hparse, hfound⟩ := parseIpv6_spec frame l3
      exact ⟨_, hparse, .ipv6 (h6 ▸ hlink) hfound⟩
    · rw [if_neg h6]
      exact ⟨_, rfl, .noIp (fun ip h => h4 (hlink.unique h).1) (fun ip h => h6 (hlink.unique h).1)⟩

/-- The fast path changes nothing: every frame is parsed as the general path
parses it. -/
theorem parseFrame_eq (frame : Bytes) :
    parseFrame frame =
      if frame.length < 14 then .ok (.error .tooShort)
      else parseGeneral frame >>= fun p => .ok (.ok p) := by
  unfold parseFrame
  by_cases hshort : frame.length < 14
  · rw [if_pos hshort, if_pos hshort]
    rfl
  rw [if_neg hshort, if_neg hshort]
  obtain ⟨r, hr, hagree⟩ := tryParseIpv4Plain_spec frame
  rw [hr, ok_bind]
  cases r with
  | none => rfl
  | some parsed =>
    rw [hagree parsed rfl]
    rfl

theorem parseFrame_short {frame : Bytes} (h : frame.length < 14) :
    parseFrame frame = .ok (.error .tooShort) := by
  rw [parseFrame_eq, if_pos h]

theorem parseFrame_spec {frame : Bytes} (h : 14 ≤ frame.length) :
    ∃ p, parseFrame frame = .ok (.ok p) ∧ Parsed frame p := by
  obtain ⟨p, hp, hparsed⟩ := parseGeneral_spec frame
  exact ⟨p, by rw [parseFrame_eq, if_neg (by omega), hp]; rfl, hparsed⟩

/-- A parse result determines, and is determined by, its description. -/
theorem parsed_of_parseFrame {frame : Bytes} {p : ParsedFrame}
    (h : parseFrame frame = .ok (.ok p)) : 14 ≤ frame.length ∧ Parsed frame p := by
  by_cases hshort : frame.length < 14
  · rw [parseFrame_short hshort] at h
    cases h
  · obtain ⟨p', hp', hparsed⟩ := parseFrame_spec (show 14 ≤ frame.length by omega)
    cases hp'.symm.trans h
    exact ⟨by omega, hparsed⟩

end PcapSlim.Parse
