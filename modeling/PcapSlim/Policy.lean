/-
PcapSlim.Policy — `policy.rs`: which packets lose their payload.

`decideAction` reads the IPv4 fragment field of every frame that is not IPv6,
at `ipStart + 6`, before it looks at whether a transport header was found. That
read is checked like every other.
-/
import PcapSlim.Parse

namespace PcapSlim

open Lib.Buffer Lib.Octets

namespace Policy

open Parse

/-- `TRUNCATE_PAYLOAD_BYTES`. -/
def truncatePayloadBytes : Nat := 24

def tlsHandshakeBytes : List UInt8 := [0x14, 0x15, 0x16, 0x18]
def tlsApplicationData : UInt8 := 0x17

def tlsPorts : List UInt16 := [443, 853, 465, 993, 995, 8443, 5061]
def quicPorts : List UInt16 := [443]
def ipsecPorts : List UInt16 := [500, 4500]
def sshPorts : List UInt16 := [22]

/-- `b"SSH-"`. -/
def sshBanner : Bytes := [0x53, 0x53, 0x48, 0x2d]

/-- `Action`. -/
inductive Action where
  | keep
  | truncate
  deriving DecidableEq, Repr

/-- `port_in_set`. -/
def portInSet (port : UInt16) (set : List UInt16) : Bool := set.contains port

/-- `decide_tcp`. -/
def decideTcp (sport dport : UInt16) (payload : Bytes) : Checked Action := do
  if payload.isEmpty ∨ payload.length ≤ truncatePayloadBytes then return .keep
  let b0 ← read payload 0
  let isTlsPort := portInSet sport tlsPorts || portInSet dport tlsPorts
  let isHandshake := tlsHandshakeBytes.contains b0
  if isTlsPort && !isHandshake then return .truncate
  if !isTlsPort && b0 == tlsApplicationData then return .truncate
  if (portInSet sport sshPorts || portInSet dport sshPorts) &&
      !sshBanner.isPrefixOf payload then return .truncate
  return .keep

/-- `decide_udp`. -/
def decideUdp (sport dport : UInt16) (payload : Bytes) : Checked Action := do
  if payload.isEmpty ∨ payload.length ≤ truncatePayloadBytes then return .keep
  if portInSet sport quicPorts || portInSet dport quicPorts ||
      portInSet sport ipsecPorts || portInSet dport ipsecPorts then return .truncate
  return .keep

/-- The `match l4.proto` of `decide_action`. -/
def decideTransport (l4 : L4Info) (payload : Bytes) : Checked Action :=
  match l4.proto with
  | .tcp => decideTcp l4.sport l4.dport payload
  | .udp => decideUdp l4.sport l4.dport payload

/-- `decide_action`. -/
def decideAction (parsed : ParsedFrame) : Checked Action := do
  if !parsed.isIpv6 then
    let flagsFrag ← readBe16 parsed.frame (parsed.ipStart + 6)
    if flagsFrag &&& 0x3fff ≠ 0 then return .keep
  match parsed.l4 with
  | none => return .keep
  | some l4 =>
      let payload ← parsed.payload
      decideTransport l4 payload

end Policy

end PcapSlim
