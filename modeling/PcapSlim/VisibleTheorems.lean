/-
PcapSlim.VisibleTheorems — what a slimmed capture says about the hidden payload.

The tool is run so that nothing of an encrypted payload past its first 24 bytes is
kept. That is more than a shorter frame: the lengths and the checksums in the
headers of a captured frame are functions of the bytes that are cut. `SameVisible`
is the relation between frames that may differ in those fields and in everything
behind the cut, the number of bytes included. Frames that are cut come out as one
frame exactly when they show the same (`truncated_eq_iff`), and captures of such
frames behind one global header out of the slim pass as one file (`slimPcap_of_alike`),
if no IPv4 header says that it is shorter than 20 bytes.

The original length in the record header is not part of the frame. The pass copies
it, so captures that differ in it are told apart.
-/
import PcapSlim.DatagramTheorems
import PcapSlim.AccountTheorems
import PcapSlim.Lib.Agree

namespace PcapSlim.Packet

open Lib.Buffer Lib.Octets Lib.Agree Checksum Parse Policy Truncate

/-! ## Frames with the same visible part -/

/-- The bytes up to 24 bytes into the payload are the same in both frames, but for the
fields that the cut rewrites. -/
def VisibleEq (frame frame' : Bytes) (p : ParsedFrame) (l4 : L4Info) : Prop :=
  ∀ i < l4.payloadStart + truncatePayloadBytes, ¬ OwnedByIp p i → ¬ OwnedByTransport l4 i →
    elemAt frame' i = elemAt frame i

/-- `frame'` shows what is left of `frame` when that is cut, and has more payload than
that inside its datagram. -/
structure SameVisible (frame frame' : Bytes) (p : ParsedFrame) (l4 : L4Info) : Prop where
  visible : VisibleEq frame frame' p l4
  captured : l4.payloadStart + truncatePayloadBytes < frame'.length
  inside : l4.payloadStart + truncatePayloadBytes < datagramEnd frame' p

instance (p : ParsedFrame) (i : Nat) : Decidable (OwnedByIp p i) := by
  unfold OwnedByIp; infer_instance

instance (l4 : L4Info) (i : Nat) : Decidable (OwnedByTransport l4 i) := by
  unfold OwnedByTransport; split <;> infer_instance

/-- The positions of the fields that the cut rewrites. -/
def Rewritten (p : ParsedFrame) (l4 : L4Info) : Set Nat :=
  {i | OwnedByIp p i ∨ OwnedByTransport l4 i}

/-- Byte `i` is one that the parser and the policy read on the way to the payload: of
the link header, the version and the protocol, the fragment field, the extension
headers, the ports or the data offset. -/
def Located (p : ParsedFrame) (l4 : L4Info) (i : Nat) : Prop :=
  i < p.ipStart + 2 ∨ i = p.ipStart + (if p.isIpv6 then 6 else 9) ∨
    (p.isIpv6 = false ∧ (i = p.ipStart + 6 ∨ i = p.ipStart + 7)) ∨
    (p.isIpv6 = true ∧ p.ipStart + ip6Hdr ≤ i ∧ i < l4.headerStart) ∨
    (l4.headerStart ≤ i ∧ i < l4.headerStart + 4) ∨
    (l4.proto = .tcp ∧ i = l4.headerStart + 12)

section Frame

variable {frame frame' : Bytes} {p : ParsedFrame} {l4 : L4Info}

/-- With a legal header length none of these bytes is rewritten. -/
theorem located_visible (h : Long frame p l4) (hlegal : p.isIpv6 = false → 20 ≤ p.ipHeaderLen)
    {i : Nat} (hi : Located p l4 i) :
    i < l4.payloadStart + truncatePayloadBytes ∧ i ∉ Rewritten p l4 := by
  have h24 : truncatePayloadBytes = 24 := rfl
  have h40 : ip6Hdr = 40 := rfl
  obtain ⟨hheader, hpayload, -, -, htcp, hudp⟩ := h.bounds
  unfold Located at hi
  cases hv : p.isIpv6 with
  | true =>
    have hlen := h.layout.ipv6_headerLen hv
    simp only [hv, if_true, reduceCtorEq, false_and, false_or, true_and] at hi
    cases hproto : l4.proto with
    | tcp =>
      have := htcp hproto
      simp only [Rewritten, Set.mem_ofPred_eq, ownedByIp_ipv6 hv, ownedByTransport_tcp hproto]
      omega
    | udp =>
      have := hudp hproto
      rw [hproto] at hi
      simp only [reduceCtorEq, false_and, or_false] at hi
      simp only [Rewritten, Set.mem_ofPred_eq, ownedByIp_ipv6 hv, ownedByTransport_udp hproto]
      omega
  | false =>
    have hfixed := hlegal hv
    simp only [hv, Bool.false_eq_true, if_false, false_and, false_or, true_and] at hi
    cases hproto : l4.proto with
    | tcp =>
      have := htcp hproto
      simp only [Rewritten, Set.mem_ofPred_eq, ownedByIp_ipv4 hv, ownedByTransport_tcp hproto]
      omega
    | udp =>
      have := hudp hproto
      rw [hproto] at hi
      simp only [reduceCtorEq, false_and, or_false] at hi
      simp only [Rewritten, Set.mem_ofPred_eq, ownedByIp_ipv4 hv, ownedByTransport_udp hproto]
      omega

/-- The rewritten bytes are all in the headers. -/
theorem rewritten_lt (h : Long frame p l4) (hlegal : p.isIpv6 = false → 20 ≤ p.ipHeaderLen)
    {i : Nat} (hi : i ∈ Rewritten p l4) : i < l4.payloadStart := by
  obtain ⟨hheader, hpayload, -, -, htcp, hudp⟩ := h.bounds
  rcases hi with hip | htransport
  · have hbounds := hip.bounds
    cases hv : p.isIpv6 with
    | true => have := h.layout.ipv6_headerLen hv; omega
    | false => have := hlegal hv; omega
  · cases hproto : l4.proto with
    | tcp => have := htcp hproto; rw [ownedByTransport_tcp hproto] at htransport; omega
    | udp => have := hudp hproto; rw [ownedByTransport_udp hproto] at htransport; omega

/-- A visible byte that the cut does not rewrite is the same. -/
theorem VisibleEq.elemAt_eq (hvisible : VisibleEq frame frame' p l4) {i : Nat}
    (hi : i < l4.payloadStart + truncatePayloadBytes ∧ i ∉ Rewritten p l4) :
    elemAt frame' i = elemAt frame i :=
  hvisible i hi.1 (fun ho => hi.2 (.inl ho)) fun ho => hi.2 (.inr ho)

/-- The lengths, and then the checksums, are computed from visible bytes alone: before
the transport checksum is stored the two buffers are the same. -/
theorem VisibleEq.zeroed_eq (hvisible : VisibleEq frame frame' p l4) (h : Long frame p l4)
    (hcaptured : l4.payloadStart + truncatePayloadBytes < frame'.length) :
    zeroed { p with frame := frame' } l4 = zeroed p l4 := by
  have hlen := h.length_shortened
  obtain ⟨hheader, hpayload, hip, -⟩ := h.bounds
  have hshort : AgreeOff (Rewritten p l4) (shortened { p with frame := frame' } l4)
      (shortened p l4) := by
    refine ⟨?_, fun i hi hnot => ?_⟩
    · rw [hlen, shortened, List.length_take]
      dsimp only
      omega
    · have hlt : i < l4.payloadStart + truncatePayloadBytes := by
        rw [shortened, List.length_take] at hi
        omega
      rw [elemAt_shortened rfl hlt, elemAt_shortened h.layout.l4_eq.2 hlt]
      exact hvisible.elemAt_eq ⟨hlt, hnot⟩
  have hipFields : AgreeOff {i | OwnedByTransport l4 i} (withIpFields { p with frame := frame' } l4)
      (withIpFields p l4) := by
    unfold withIpFields
    dsimp only
    by_cases hv : p.isIpv6 = true
    · rw [if_pos hv, if_pos hv]
      refine (hshort.putBe16 _ _).mono fun i hi => hi.1.resolve_left fun ho => hi.2 ?_
      rwa [ownedByIp_ipv6 hv] at ho
    · rw [if_neg hv, if_neg hv]
      rw [Bool.not_eq_true] at hv
      have htotal : AgreeOff {i | OwnedByTransport l4 i} (withTotal { p with frame := frame' } l4)
          (withTotal p l4) := by
        refine ((hshort.putBe16 _ _).putBe16 _ _).mono fun i hi =>
          hi.1.1.resolve_left fun ho => ?_
        rw [ownedByIp_ipv4 hv] at ho
        simp only [Set.mem_sdiff, Set.mem_insert_iff, Set.mem_singleton_iff, not_or] at hi
        omega
      have hheader : summedHeader { p with frame := frame' } l4 = summedHeader p l4 := by
        refine htotal.window_eq ?_ fun i hi hlt ho => ?_
        · rw [length_withTotal, hshort.length_eq, hlen]
          dsimp only
          omega
        · have := OwnedByTransport.bounds ho
          dsimp only at hlt
          omega
      rw [hheader]
      exact (htotal.putBe16 _ _).mono Set.sdiff_subset
  have hlengths : AgreeOff {checksumField l4, checksumField l4 + 1}
      (withLengths { p with frame := frame' } l4) (withLengths p l4) := by
    unfold withLengths checksumField
    cases hproto : l4.proto with
    | tcp =>
      refine hipFields.mono fun i ho => ?_
      exact (ownedByTransport_tcp hproto).mp ho
    | udp =>
      refine (hipFields.putBe16 _ _).mono fun i hi => ?_
      have ho := (ownedByTransport_udp hproto).mp hi.1
      simp only [Set.mem_sdiff, Set.mem_insert_iff, Set.mem_singleton_iff, not_or] at hi ⊢
      omega
  refine (hlengths.putBe16 _ _).eq fun i _ => ?_
  exact fun hin => hin.2 hin.1

namespace SameVisible

/-- The parser finds the same headers in both. -/
theorem layout (hsame : SameVisible frame frame' p l4) (h : Long frame p l4)
    (hlegal : p.isIpv6 = false → 20 ≤ p.ipHeaderLen) :
    Layout frame' { p with frame := frame' } l4 := by
  have hcaptured := hsame.captured
  have hinside := hsame.inside
  obtain ⟨hheader, hpayload, -⟩ := h.bounds
  have hlocated : ∀ i, Located p l4 i → elemAt frame' i = elemAt frame i := fun i hi =>
    hsame.visible.elemAt_eq (located_visible h hlegal hi)
  have hroom : p.ipStart + fixedHeaderLen p ≤ l4.headerStart := by
    cases hv : p.isIpv6 with
    | true => have := h.layout.ipv6_headerLen hv; rw [fixedHeaderLen_ipv6 hv]; omega
    | false => have := hlegal hv; rw [fixedHeaderLen_ipv4 hv]; omega
  refine h.layout.transfer ?_ (fun i hi hlt => ?_) (by omega) (by omega) (by omega)
  · exact
      { link := fun i hi => hlocated i (.inl (by omega))
        version := hlocated _ (.inl (by omega))
        proto := hlocated _ (.inr (.inl rfl))
        chain := fun hv i hi hlt => hlocated i (by simp only [Located]; tauto)
        offset := fun hproto => hlocated _ (by simp only [Located]; tauto) }
  · exact hlocated i (by simp only [Located]; tauto)

/-- There is a long payload in both, and it begins with the same 24 bytes. -/
theorem payload_take (hsame : SameVisible frame frame' p l4) (h : Long frame p l4)
    (hlegal : p.isIpv6 = false → 20 ≤ p.ipHeaderLen) :
    Long frame' { p with frame := frame' } l4 ∧
      (payloadOf { p with frame := frame' } l4).take 24 = (payloadOf p l4).take 24 := by
  have h24 : truncatePayloadBytes = 24 := rfl
  have hlayout := hsame.layout h hlegal
  have hcaptured := hsame.captured
  have hinside : l4.payloadStart + truncatePayloadBytes <
      datagramEnd frame' { p with frame := frame' } := hsame.inside
  have hlong := h.long
  rw [length_payloadOf] at hlong
  have hlong' : l4.payloadStart + truncatePayloadBytes <
      payloadStop { p with frame := frame' } l4 := by
    rw [payloadStop_eq hlayout]
    exact Nat.lt_min.mpr ⟨hcaptured, Nat.lt_of_lt_of_le hinside (Nat.le_add_right _ _)⟩
  refine ⟨⟨hlayout, by rw [length_payloadOf]; omega⟩, ?_⟩
  have hstop : payloadStop p l4 ≤ p.frame.length := Nat.min_le_left _ _
  have hwindow : ∀ q : ParsedFrame, l4.payloadStart + 24 ≤ payloadStop q l4 →
      (payloadOf q l4).take 24 = (q.frame.take (l4.payloadStart + 24)).drop l4.payloadStart := by
    intro q hq
    rw [payloadOf, List.take_drop, List.take_take, Nat.min_eq_left hq]
  rw [hwindow _ (by omega), hwindow _ (by omega)]
  refine window_congr (by omega) (by dsimp only; omega) fun i hi hlt => ?_
  rw [h.layout.l4_eq.2]
  exact hsame.visible.elemAt_eq ⟨by omega, fun ho => by have := rewritten_lt h hlegal ho; omega⟩

end SameVisible

/-- The decision tree reads no more of a long payload than its first 24 bytes. -/
theorem treeCuts_congr {proto : L4Proto} {sport dport : UInt16} {payload payload' : Bytes}
    (htake : payload'.take 24 = payload.take 24) (hlong' : 24 < payload'.length)
    (hcuts : TreeCuts proto sport dport payload) :
    TreeCuts proto sport dport payload' := by
  have hfirst : elemAt payload' 0 = elemAt payload 0 := by
    rw [← elemAt_take (show 0 < 24 by omega), htake, elemAt_take (by omega)]
  have hbanner : sshBanner <+: payload' ↔ sshBanner <+: payload := by
    have hshort : sshBanner.length ≤ 24 := by decide
    have hfront : ∀ bytes : Bytes, sshBanner <+: bytes ↔ sshBanner <+: bytes.take 24 :=
      fun bytes => by simp [List.prefix_take_iff, hshort]
    rw [hfront payload', hfront payload, htake]
  have hencrypted : TcpEncrypted sport dport payload' ↔ TcpEncrypted sport dport payload := by
    unfold TcpEncrypted
    rw [hfirst, hbanner]
  exact ⟨hlong', by rw [hencrypted]; exact hcuts.2⟩

/-- The policy cuts both. -/
theorem SameVisible.cuts (hsame : SameVisible frame frame' p l4) (h : Layout frame p l4)
    (hlegal : p.isIpv6 = false → 20 ≤ p.ipHeaderLen) (hcuts : Cuts frame p l4) :
    Cuts frame' { p with frame := frame' } l4 := by
  have hlong := hcuts.long h
  obtain ⟨hlong', htake⟩ := hsame.payload_take hlong hlegal
  refine ⟨fun hv hbits => hcuts.1 hv ?_, treeCuts_congr htake hlong'.long hcuts.2⟩
  have hbyte : ∀ i, i = p.ipStart + 6 ∨ i = p.ipStart + 7 → elemAt frame' i = elemAt frame i :=
    fun i hi => hsame.visible.elemAt_eq (located_visible hlong hlegal (.inr (.inr (.inl ⟨hv, hi⟩))))
  unfold FragmentBits be16At at hbits ⊢
  rwa [← hbyte _ (.inl rfl), ← hbyte _ (.inr rfl)]

/-- So both have one outcome. -/
theorem SameVisible.processPacket_eq {build : Build} (hsame : SameVisible frame frame' p l4)
    (h : Layout frame p l4) (hlegal : p.isIpv6 = false → 20 ≤ p.ipHeaderLen)
    (hcuts : Cuts frame p l4) : processPacket build frame' = processPacket build frame := by
  have hlong := hcuts.long h
  have hzeroed := hsame.visible.zeroed_eq hlong hsame.captured
  rw [processPacket_of_layout (hsame.layout hlong hlegal),
    if_pos (hsame.cuts h hlegal hcuts), processPacket_of_layout h, if_pos hcuts]
  unfold rewritten summedSegment
  rw [hzeroed]

end Frame

/-- **What is left of a packet is what can be seen of it**: two frames with their headers
in the same places are cut to one frame if and only if they agree on the bytes that are
left and not rewritten. Nothing else has an influence: not the payload behind the cut,
and not the old lengths and checksums, which depend on that payload. -/
theorem truncated_eq_iff {build : Build} {frame frame' g g' : Bytes} {p : ParsedFrame} {l4 : L4Info}
    {cut cut' : Bool} (hparse : parseFrame frame = .ok (.ok p))
    (hparse' : parseFrame frame' = .ok (.ok { p with frame := frame' })) (hl4 : p.l4 = some l4)
    (hcut : processPacket build frame = .ok (.truncated g, cut))
    (hcut' : processPacket build frame' = .ok (.truncated g', cut')) :
    g' = g ↔ VisibleEq frame frame' p l4 := by
  obtain ⟨sum, hlayout, hcuts, hsum, rfl⟩ := truncated_of_parsed hparse hl4 hcut
  obtain ⟨sum', hlayout', hcuts', hsum', rfl⟩ := truncated_of_parsed hparse' hl4 hcut'
  have hlong := hcuts.long hlayout
  have hlong' := hcuts'.long hlayout'
  constructor
  · intro heq i hi hip htransport
    have hkept : elemAt (rewritten p l4 sum) i = elemAt frame i :=
      elemAt_rewritten hlayout.l4_eq.2 hi hip htransport
    rw [← hkept, ← heq]
    exact (elemAt_rewritten hlayout'.l4_eq.2 hi hip htransport).symm
  · intro hvisible
    have hzeroed := hvisible.zeroed_eq hlong hlong'.cut_lt
    rw [summedSegment, hzeroed, ← summedSegment, hsum] at hsum'
    rw [rewritten, hzeroed, ← Except.ok.inj hsum', ← rewritten]

/-- The packet of `tlsFrame` with another, longer payload behind the first 24 bytes, and
with the lengths and checksums of that. -/
def otherTlsFrame : Bytes :=
  List.replicate 12 0 ++ [0x81, 0x00, 0, 5, 0x08, 0x00] ++
    [0x46, 0, 0, 144, 0, 1, 0x40, 0, 64, 6, 0x12, 0x34, 10, 0, 0, 1, 10, 0, 0, 2, 1, 1, 1, 0] ++
    [0x01, 0xbb, 0x30, 0x39, 0, 0, 0, 1, 0, 0, 0, 2, 0x50, 0x18, 0, 0, 0xbe, 0xef, 0, 0] ++
    List.replicate 24 0x17 ++ List.replicate 76 0xab

theorem sameVisible_otherTlsFrame :
    SameVisible tlsFrame otherTlsFrame tlsFrameParsed tlsFrameInfo where
  visible := by unfold VisibleEq; decide +kernel
  captured := by decide +kernel
  inside := by decide +kernel

theorem truncated_eq_iff_tlsFrame :
    ∃ g, processPacket .release tlsFrame = .ok (.truncated g, true) ∧
      processPacket .release otherTlsFrame = .ok (.truncated g, true) := by
  obtain ⟨g, hg⟩ : ∃ g, processPacket .release tlsFrame = .ok (.truncated g, true) :=
    exists_truncated (by decide +kernel) (by decide +kernel)
  obtain ⟨g', hg'⟩ : ∃ g', processPacket .release otherTlsFrame = .ok (.truncated g', true) :=
    exists_truncated (by decide +kernel) (by decide +kernel)
  have hparse : parseFrame tlsFrame = .ok (.ok tlsFrameParsed) := by decide +kernel
  have hparse' : parseFrame otherTlsFrame =
      .ok (.ok { tlsFrameParsed with frame := otherTlsFrame }) := by decide +kernel
  obtain rfl := (truncated_eq_iff hparse hparse' rfl hg hg').mpr sameVisible_otherTlsFrame.visible
  exact ⟨_, hg, hg'⟩

end PcapSlim.Packet

namespace PcapSlim.PcapIo

open Lib.Buffer Lib.Octets Checksum Parse Packet Capture

/-! ## Captures with the same visible part -/

/-- The same frame, or frames that are cut and show the same. An IPv4 header has its 20 bytes:
in a shorter one the ports can stand where the header checksum is stored, and what decides
about the cut would not be visible. -/
def Alike (build : Build) (frame frame' : Bytes) : Prop :=
  frame' = frame ∨ ∃ p l4 g cut, parseFrame frame = .ok (.ok p) ∧ p.l4 = some l4 ∧
    (p.isIpv6 = false → 20 ≤ p.ipHeaderLen) ∧
    processPacket build frame = .ok (.truncated g, cut) ∧ SameVisible frame frame' p l4

/-- Records with the same fields, but for the captured length, and with frames alike. -/
structure AlikeRecord (build : Build) (r r' : Record) : Prop where
  tsSec : r'.tsSec = r.tsSec
  tsUsec : r'.tsUsec = r.tsUsec
  origLen : r'.origLen = r.origLen
  frame : Alike build r.frame r'.frame

/-- Captures with one global header whose records are alike one by one. -/
structure AlikeFile (build : Build) (c c' : PcapFile) : Prop where
  endian : c'.endian = c.endian
  ghdr : c'.ghdr = c.ghdr
  records : List.Forall₂ (AlikeRecord build) c.records c'.records

/-- What the slim pass returns, but for the size of its input. -/
def shown (r : Bytes × SlimStats) : Bytes × SlimStats := (r.1, { r.2 with inBytes := 0 })

section Pass

variable {build : Build} {e : Endian}

/-- One outcome for frames that are alike, but for a copy of the frame in neither. -/
theorem Alike.cases {frame frame' : Bytes} (h : Alike build frame frame') :
    (∀ fault, processPacket build frame = .error fault →
      processPacket build frame' = .error fault) ∧
    (Returns build frame → Returns build frame') ∧
    slimFrame build frame' = slimFrame build frame := by
  rcases h with rfl | ⟨p, l4, g, cut, hparse, hl4, hlegal, hcut, hsame⟩
  · exact ⟨fun _ => id, id, rfl⟩
  · obtain ⟨-, hlayout, hcuts, -⟩ := truncated_of_parsed hparse hl4 hcut
    have heq : processPacket build frame' = processPacket build frame :=
      hsame.processPacket_eq hlayout hlegal hcuts
    exact ⟨fun fault hfault => heq.trans hfault, fun hreturns => hreturns.imp fun _ => heq.trans,
      by rw [slimFrame, slimFrame, heq, hcut]⟩

theorem AlikeRecord.slim_eq {r r' : Record} (h : AlikeRecord build r r') :
    r'.slim build = r.slim build :=
  Record.ext h.tsSec h.tsUsec h.origLen (congrArg Prod.fst h.frame.cases.2.2)

/-- Two states of the record loop that have written and counted the same. -/
structure Shows (s s' : SlimState) : Prop where
  emitted : s'.batch.emitted = s.batch.emitted
  stats : { s'.stats with inBytes := 0 } = { s.stats with inBytes := 0 }

theorem shows_count {s s' t t' : SlimState} {r r' : Record} (h : Shows s s')
    (hr : AlikeRecord build r r')
    (ht : t.batch.emitted = s.batch.emitted ++ (r.slim build).encode e)
    (ht' : t'.batch.emitted = s'.batch.emitted ++ (r'.slim build).encode e)
    (hstats : t.stats = s.stats.count (slimFrame build r.frame).2)
    (hstats' : t'.stats = s'.stats.count (slimFrame build r'.frame).2) : Shows t t' := by
  refine ⟨by rw [ht, ht', h.emitted, hr.slim_eq], ?_⟩
  have hsame := h.stats
  rw [hstats, hstats', hr.frame.cases.2.2]
  simp only [SlimStats.count, SlimStats.mk.injEq] at hsame ⊢
  simp [hsame]

/-- Rounds over records that are alike go the same way, so the loops do. -/
theorem slimLoop_alike {records records' : List Record} {tail tail' : Bytes}
    (h : List.Forall₂ (AlikeRecord build) records records') (htail : tail.length < 16)
    (htail' : tail'.length < 16) :
    ∀ (fuel fuel' : Nat) (s s' : SlimState), records.length < fuel → records'.length < fuel' →
      s.input = encodeRecords e records ++ tail → s'.input = encodeRecords e records' ++ tail' →
      Shows s s' →
      (∃ failure, slimLoop build e fuel s = .error failure ∧
        slimLoop build e fuel' s' = .error failure) ∨
      ∃ t t', slimLoop build e fuel s = .ok t ∧ slimLoop build e fuel' s' = .ok t' ∧ Shows t t' := by
  induction h with
  | nil =>
    intro fuel fuel' s s' hfuel hfuel' hinput hinput' hshows
    obtain ⟨fuel, rfl⟩ := Nat.exists_eq_succ_of_ne_zero (Nat.ne_zero_of_lt hfuel)
    obtain ⟨fuel', rfl⟩ := Nat.exists_eq_succ_of_ne_zero (Nat.ne_zero_of_lt hfuel')
    have hend : s.input = tail := hinput
    have hend' : s'.input = tail' := hinput'
    refine .inr ⟨s, s', ?_, ?_, hshows⟩
    · rw [slimLoop, slimRound_end (by rw [hend]; exact htail)]
      rfl
    · rw [slimLoop, slimRound_end (by rw [hend']; exact htail')]
      rfl
  | @cons r r' records records' hr _ ih =>
    intro fuel fuel' s s' hfuel hfuel' hinput hinput' hshows
    obtain ⟨fuel, rfl⟩ := Nat.exists_eq_succ_of_ne_zero (Nat.ne_zero_of_lt hfuel)
    obtain ⟨fuel', rfl⟩ := Nat.exists_eq_succ_of_ne_zero (Nat.ne_zero_of_lt hfuel')
    have hnext : nextRecord e s.input = some (r, encodeRecords e records ++ tail) := by
      rw [hinput, nextRecord_encodeRecords]
    have hnext' : nextRecord e s'.input = some (r', encodeRecords e records' ++ tail') := by
      rw [hinput', nextRecord_encodeRecords]
    obtain ⟨hfault, hreturns, -⟩ := hr.frame.cases
    cases hout : processPacket build r.frame with
    | error fault =>
      refine .inl ⟨.panic fault, ?_, ?_⟩
      · rw [slimLoop, (slimRound_record hnext).1 fault hout]
        rfl
      · rw [slimLoop, (slimRound_record hnext').1 fault (hfault fault hout)]
        rfl
    | ok outcome =>
      obtain ⟨t, ht, hrest, hemitted, hstats⟩ := (slimRound_record hnext).2 ⟨outcome, hout⟩
      obtain ⟨t', ht', hrest', hemitted', hstats'⟩ :=
        (slimRound_record hnext').2 (hreturns ⟨outcome, hout⟩)
      rw [slimLoop, slimLoop, ht, ht']
      exact ih fuel fuel' t t' (by simpa using hfuel) (by simpa using hfuel') hrest hrest'
        (shows_count hshows hr hemitted hemitted' hstats hstats')

/-- **A slimmed capture tells nothing about what is hidden**: from captures that are alike,
with one global header and IPv4 headers of a legal length in the packets that differ, the
slim pass makes one output, and reports one set of numbers but for the size of its
input, or it ends with one failure. -/
theorem slimPcap_of_alike (path : String) {c c' : PcapFile} (h : AlikeFile build c c') :
    (slimPcap build path c'.bytes).map shown = (slimPcap build path c.bytes).map shown := by
  have hheader := readGlobalHeader_file c path
  have hheader' := readGlobalHeader_file c' path
  rw [h.endian, h.ghdr] at hheader'
  have hloops := slimLoop_alike (e := c.endian) h.records c.tail_lt c'.tail_lt
    (c.bytes.length + 1) (c'.bytes.length + 1)
    (slimStart c.ghdr (encodeRecords c.endian c.records ++ c.tail) c.bytes.length)
    (slimStart c.ghdr (encodeRecords c.endian c'.records ++ c'.tail) c'.bytes.length)
    (records_lt_fuel_file c) (records_lt_fuel_file c') rfl rfl ⟨rfl, rfl⟩
  unfold slimPcap
  rw [slimPcapToWriter_of_header hheader, slimPcapToWriter_of_header hheader']
  rcases hloops with ⟨failure, hs, hs'⟩ | ⟨t, t', hs, hs', hshows⟩
  · rw [hs, hs']
  · have hwriter : t'.batch.flush.writer = t.batch.flush.writer := by
      rw [t.batch.flush_writer.1, t'.batch.flush_writer.1, hshows.emitted]
    have hstats := hshows.stats
    rw [hs, hs', ok_bind, ok_bind, ok_bind, ok_bind]
    simp only [SlimStats.mk.injEq] at hstats
    simp [shown, Except.map, hwriter, hstats]

end Pass

/-- A capture of the one frame `frame`, of 200 bytes on the wire. -/
def oneFrame (frame : Bytes) (hfits : frame.length < 4294967296) : PcapFile :=
  { cutOffCapture with
    records := [⟨7, 8, 200, frame, hfits⟩]
    tail := []
    tail_lt := Nat.succ_pos 15 }

theorem alikeFile_oneFrame {build : Build} {frame frame' : Bytes}
    {hfits : frame.length < 4294967296} {hfits' : frame'.length < 4294967296}
    (h : Alike build frame frame') : AlikeFile build (oneFrame frame hfits) (oneFrame frame' hfits') :=
  ⟨rfl, rfl, .cons ⟨rfl, rfl, rfl, h⟩ .nil⟩

/-- The two packets of the flow on port 443, each in a capture of its own. -/
theorem slimPcap_of_alike_tlsFrame :
    (slimPcap .release "a.pcap" (oneFrame otherTlsFrame (by decide +kernel)).bytes).map shown =
      (slimPcap .release "a.pcap" (oneFrame tlsFrame (by decide +kernel)).bytes).map shown := by
  obtain ⟨g, hg⟩ : ∃ g, processPacket .release tlsFrame = .ok (.truncated g, true) :=
    exists_truncated (by decide +kernel) (by decide +kernel)
  have hparse : parseFrame tlsFrame = .ok (.ok tlsFrameParsed) := by decide +kernel
  have halike : Alike .release tlsFrame otherTlsFrame :=
    .inr ⟨_, _, g, true, hparse, rfl, fun _ => by decide, hg, sameVisible_otherTlsFrame⟩
  exact slimPcap_of_alike "a.pcap" (alikeFile_oneFrame halike)

/-! ## What is saved -/

/-- How many bytes of a frame the pass leaves out. -/
def hiddenLen (build : Build) (frame : Bytes) : Nat :=
  frame.length - (slimFrame build frame).1.length

/-- How many bytes it leaves out of the records. -/
def hiddenTotal (build : Build) (records : List Record) : Nat :=
  (records.map fun r => hiddenLen build r.frame).sum

section Saved

variable {build : Build}

/-- A frame is copied, or it is cut and gets shorter. -/
theorem slimFrame_cases (build : Build) (frame : Bytes) :
    slimFrame build frame = (frame, false) ∨
      ∃ g, slimFrame build frame = (g, true) ∧ g.length < frame.length := by
  unfold slimFrame
  cases hr : processPacket build frame with
  | error fault => exact .inl rfl
  | ok outcome =>
    rcases processPacket_cases hr with rfl | ⟨p, l4, sum, hlayout, hcuts, -, rfl⟩
    · exact .inl rfl
    · have hlong := hcuts.long hlayout
      refine .inr ⟨_, rfl, ?_⟩
      rw [Truncate.length_rewritten, hlong.length_shortened]
      exact hlong.cut_lt

/-- The output and what is hidden make up the frame. -/
theorem length_slimFrame_add (build : Build) (frame : Bytes) :
    (slimFrame build frame).1.length + hiddenLen build frame = frame.length :=
  Nat.add_sub_cancel' (length_slimFrame_le build frame)

/-- They make up the records. -/
theorem length_encodeRecords_add (build : Build) (e : Endian) (records : List Record) :
    (encodeRecords e (records.map (Record.slim build))).length + hiddenTotal build records =
      (encodeRecords e records).length := by
  induction records with
  | nil => rfl
  | cons r records ih =>
    have hframe := length_slimFrame_add build r.frame
    rw [hiddenTotal] at ih
    rw [hiddenTotal, List.map_cons, List.map_cons, List.sum_cons, encodeRecords, encodeRecords,
      List.flatMap_cons, List.flatMap_cons, ← encodeRecords, ← encodeRecords, List.length_append,
      List.length_append, length_encode, length_encode]
    change 16 + (slimFrame build r.frame).1.length + _ + _ = _
    omega

/-- Each packet that is cut gives at least one byte. -/
theorem cutCount_le_hidden (build : Build) (records : List Record) :
    cutCount build records ≤ hiddenTotal build records := by
  induction records with
  | nil => exact Nat.le_refl _
  | cons r records ih =>
    rw [cutCount] at ih
    rw [hiddenTotal] at ih
    rw [cutCount, hiddenTotal, List.countP_cons, List.map_cons, List.sum_cons, hiddenLen]
    rcases slimFrame_cases build r.frame with heq | ⟨g, heq, hlt⟩ <;> rw [heq] <;> simp <;> omega

/-- Records of which nothing is hidden are copied. -/
theorem slim_eq_of_hidden (build : Build) (records : List Record)
    (h : hiddenTotal build records = 0) : records.map (Record.slim build) = records := by
  induction records with
  | nil => rfl
  | cons r records ih =>
    rw [hiddenTotal, List.map_cons, List.sum_cons] at h
    obtain ⟨hr, hrest⟩ := Nat.add_eq_zero_iff.mp h
    have hframe : (slimFrame build r.frame).1 = r.frame := by
      rcases slimFrame_cases build r.frame with heq | ⟨g, heq, hlt⟩
      · rw [heq]
      · rw [hiddenLen, heq] at hr
        dsimp only at hr
        omega
    rw [List.map_cons, ih hrest]
    exact congrArg (· :: records) (Record.ext rfl rfl rfl hframe)

/-- What a slim pass saves of the file `c`. -/
structure Saves (build : Build) (c : PcapFile) (out : Bytes) (stats : SlimStats) : Prop where
  inBytes : stats.inBytes = c.bytes.length
  outBytes : stats.outBytes = out.length
  exact : stats.outBytes + hiddenTotal build c.records + c.tail.length = stats.inBytes
  truncated : stats.outBytes + stats.truncated + c.tail.length ≤ stats.inBytes
  unchanged : stats.outBytes = stats.inBytes ↔ out = c.bytes

/-- **The pass saves what it hides**: the sizes that it reports differ by the hidden bytes of
the packets that it cut, at least one for each, and by the rest of a record header at the end.
If the sizes are the same, so are the files. -/
theorem slimPcap_saves {path : String} {input out : Bytes} {stats : SlimStats}
    (h : slimPcap build path input = .ok (out, stats)) :
    ∃ c : PcapFile, input = c.bytes ∧ out = (c.slim build).bytes ∧ Saves build c out stats := by
  obtain ⟨⟨b, stats'⟩, hpass, h⟩ := bind_eq_ok.mp h
  obtain ⟨c, rfl, -, hwriter, -, rfl⟩ := slimPcapToWriter_eq_ok hpass
  cases h
  have hbytes : c.bytes.length =
      c.ghdr.length + (encodeRecords c.endian c.records).length + c.tail.length := by
    rw [PcapFile.bytes, List.length_append, List.length_append]
  have hslim : (c.slim build).bytes.length =
      c.ghdr.length + (encodeRecords c.endian (c.records.map (Record.slim build))).length := by
    simp [PcapFile.bytes, PcapFile.slim]
  have hadd := length_encodeRecords_add build c.endian c.records
  have hcut := cutCount_le_hidden build c.records
  refine ⟨c, rfl, hwriter, ?_⟩
  rw [hwriter]
  refine
    { inBytes := rfl
      outBytes := rfl
      exact := by simp only [statsOf]; omega
      truncated := by simp only [statsOf]; omega
      unchanged := ⟨fun heq => ?_, fun heq => by simp only [statsOf, heq]⟩ }
  simp only [statsOf] at heq
  have hnone : hiddenTotal build c.records = 0 := by omega
  have htail : c.tail = [] := List.eq_nil_of_length_eq_zero (by omega)
  rw [PcapFile.bytes, PcapFile.bytes, htail]
  simp only [PcapFile.slim, slim_eq_of_hidden build c.records hnone]

end Saved

theorem slimPcap_saves_oneRecordFile :
    ∃ out stats, slimPcap .release "a.pcap" oneRecordFile = .ok (out, stats) ∧
      ∃ c : PcapFile, oneRecordFile = c.bytes ∧ Saves .release c out stats := by
  have hok : (slimPcap .release "a.pcap" oneRecordFile).isOk = true := by decide +kernel
  cases hr : slimPcap .release "a.pcap" oneRecordFile with
  | error e => rw [hr] at hok; cases hok
  | ok r =>
    obtain ⟨c, hbytes, -, hsaves⟩ := slimPcap_saves hr
    exact ⟨r.1, r.2, rfl, c, hbytes, hsaves⟩

end PcapSlim.PcapIo
