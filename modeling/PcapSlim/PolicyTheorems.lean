/-
PcapSlim.PolicyTheorems — what `policy.rs` decides.

`TreeCuts` is the decision tree of the algorithm description, over a protocol,
two ports and a payload; `decideTcp_eq` and `decideUdp_eq` say that the code
decides it. `decideAction` adds the fragment test of IPv4 and the missing
transport header. The one way it can stop is the read of the fragment field,
and `decideAction_of_none` says when that read is out of bounds.
-/
import PcapSlim.Layout
import PcapSlim.Policy

namespace PcapSlim.Policy

open Lib.Buffer Lib.Octets Parse

/-! ## The decision tree -/

/-- TCP packets of the encrypted kinds: TLS application data on a TLS port,
TLS-shaped application data on another port, SSH past its banner. -/
def TcpEncrypted (sport dport : UInt16) (payload : Bytes) : Prop :=
  ((sport ∈ tlsPorts ∨ dport ∈ tlsPorts) ∧ elemAt payload 0 ∉ tlsHandshakeBytes) ∨
  (¬ (sport ∈ tlsPorts ∨ dport ∈ tlsPorts) ∧ elemAt payload 0 = tlsApplicationData) ∨
  ((sport ∈ sshPorts ∨ dport ∈ sshPorts) ∧ ¬ sshBanner <+: payload)

/-- UDP packets of the encrypted kinds: QUIC and IPsec. -/
def UdpEncrypted (sport dport : UInt16) : Prop :=
  (sport ∈ quicPorts ∨ dport ∈ quicPorts) ∨ (sport ∈ ipsecPorts ∨ dport ∈ ipsecPorts)

/-- The packets whose payload is cut: it is encrypted and longer than 24 bytes. -/
def TreeCuts (proto : L4Proto) (sport dport : UInt16) (payload : Bytes) : Prop :=
  24 < payload.length ∧
    ((proto = .tcp ∧ TcpEncrypted sport dport payload) ∨
      (proto = .udp ∧ UdpEncrypted sport dport))

instance (sport dport : UInt16) (payload : Bytes) :
    Decidable (TcpEncrypted sport dport payload) := by
  unfold TcpEncrypted; infer_instance

instance (sport dport : UInt16) : Decidable (UdpEncrypted sport dport) := by
  unfold UdpEncrypted; infer_instance

instance (proto : L4Proto) (sport dport : UInt16) (payload : Bytes) :
    Decidable (TreeCuts proto sport dport payload) := by
  unfold TreeCuts; infer_instance

theorem portInSet_iff {port : UInt16} {set : List UInt16} :
    portInSet port set = true ↔ port ∈ set := by
  simp [portInSet]

/-- The first guard of both deciders keeps the short payloads. -/
theorem short_iff {payload : Bytes} :
    (payload.isEmpty = true ∨ payload.length ≤ truncatePayloadBytes) ↔
      ¬ 24 < payload.length := by
  have h24 : truncatePayloadBytes = 24 := rfl
  rw [List.isEmpty_iff_length_eq_zero, h24]
  omega

theorem decideTcp_eq (sport dport : UInt16) (payload : Bytes) :
    decideTcp sport dport payload =
      .ok (if TreeCuts .tcp sport dport payload then .truncate else .keep) := by
  have hcuts : TreeCuts .tcp sport dport payload ↔
      24 < payload.length ∧ TcpEncrypted sport dport payload := by simp [TreeCuts]
  unfold decideTcp
  by_cases hlong : 24 < payload.length
  · rw [if_neg (by rwa [short_iff, not_not]), read_ok (by omega), ok_bind]
    simp only [hcuts, hlong, true_and, TcpEncrypted, Bool.and_eq_true, Bool.or_eq_true,
      Bool.not_eq_true', ← Bool.not_eq_true, beq_iff_eq, portInSet_iff, List.contains_iff_mem,
      List.isPrefixOf_iff_prefix, pure_eq_ok, ite_or]
    split_ifs <;> rfl
  · rw [if_pos (short_iff.mpr hlong), if_neg (fun h => hlong h.1)]
    rfl

theorem decideUdp_eq (sport dport : UInt16) (payload : Bytes) :
    decideUdp sport dport payload =
      .ok (if TreeCuts .udp sport dport payload then .truncate else .keep) := by
  have hcuts : TreeCuts .udp sport dport payload ↔
      24 < payload.length ∧ UdpEncrypted sport dport := by simp [TreeCuts]
  unfold decideUdp
  by_cases hlong : 24 < payload.length
  · rw [if_neg (by rwa [short_iff, not_not])]
    simp only [hcuts, hlong, true_and, UdpEncrypted, Bool.or_eq_true, portInSet_iff, pure_eq_ok, ite_or]
    split_ifs <;> rfl
  · rw [if_pos (short_iff.mpr hlong), if_neg (fun h => hlong h.1)]
    rfl

/-! ## The decision for a frame -/

/-- The more-fragments bit or a bit of the fragment offset is set at `ip`. -/
def FragmentBits (frame : Bytes) (ip : Nat) : Prop := be16At frame (ip + 6) &&& 0x3fff ≠ 0

instance (frame : Bytes) (ip : Nat) : Decidable (FragmentBits frame ip) := by
  unfold FragmentBits; infer_instance

theorem decideTransport_eq (l4 : L4Info) (payload : Bytes) :
    decideTransport l4 payload =
      .ok (if TreeCuts l4.proto l4.sport l4.dport payload then .truncate else .keep) := by
  unfold decideTransport
  cases l4.proto with
  | tcp => exact decideTcp_eq _ _ _
  | udp => exact decideUdp_eq _ _ _

/-- With a transport header in place the decision is made without a fault: an
IPv4 fragment is kept, and everything else is up to the tree. -/
theorem decideAction_of_layout {frame : Bytes} {p : ParsedFrame} {l4 : L4Info}
    (h : Layout frame p l4) :
    decideAction p = .ok
      (if (p.isIpv6 = false → ¬ FragmentBits frame p.ipStart) ∧
          TreeCuts l4.proto l4.sport l4.dport (payloadOf p l4) then .truncate else .keep) := by
  have hord := h.ordered.fixed_le
  have hpayload := h.payload_ok
  unfold decideAction
  rw [h.l4_eq.1, h.l4_eq.2]
  cases hv : p.isIpv6 with
  | true => simp [hpayload, decideTransport_eq]
  | false =>
    rw [fixedHeaderLen_ipv4 hv] at hord
    simp only [Bool.not_false, if_true, true_implies]
    rw [readBe16_ok (by omega), ok_bind, hpayload, ok_bind, decideTransport_eq]
    by_cases hbits : FragmentBits frame p.ipStart
    · rw [if_pos (show be16At frame (p.ipStart + 6) &&& 0x3fff ≠ 0 from hbits),
        if_neg (fun h => h.1 hbits)]
      rfl
    · rw [if_neg (show ¬ be16At frame (p.ipStart + 6) &&& 0x3fff ≠ 0 from hbits)]
      simp only [hbits, not_false_eq_true, true_and]

/-- The header that `decideAction` reads is cut off: the link header names IPv4
and fewer than eight bytes follow it. -/
def CutIpv4 (frame : Bytes) : Prop :=
  ∃ ip, LinkTo frame ethertypeIpv4 ip ∧ frame.length < ip + 8

/-- Without a transport header the frame is kept, unless the fragment field is
cut off. -/
theorem decideAction_of_none {frame : Bytes} {p : ParsedFrame} (hlen : 14 ≤ frame.length)
    (hp : Parsed frame p) (hnone : p.l4 = none) :
    (CutIpv4 frame → decideAction p = .error .index) ∧
      (¬ CutIpv4 frame → decideAction p = .ok .keep) := by
  unfold decideAction
  cases hp with
  | noIp h4 =>
    refine ⟨fun ⟨ip, hlink, _⟩ => absurd hlink (h4 ip), fun _ => ?_⟩
    simp only [Bool.not_false, if_true]
    rw [readBe16_ok (by omega), ok_bind]
    split <;> rfl
  | ipv6 link =>
    refine ⟨fun ⟨ip, hlink, _⟩ => ?_, fun _ => ?_⟩
    · exact absurd (hlink.unique link).1 (by decide)
    · have hr : _ = none := hnone
      rw [hr]
      rfl
  | @ipv4 ip link =>
    have hr : ipv4Transport? frame ip = none := hnone
    simp only [Bool.not_false, if_true, hr]
    constructor
    · rintro ⟨ip', hlink, hcut⟩
      obtain rfl := (link.unique hlink).2
      rw [readBe16_fault (by omega)]
      rfl
    · intro hcut
      have hlong : ip + 8 ≤ frame.length := Nat.not_lt.mp fun h => hcut ⟨ip, link, h⟩
      rw [readBe16_ok (by omega), ok_bind]
      split <;> rfl

end PcapSlim.Policy
