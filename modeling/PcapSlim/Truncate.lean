/-
PcapSlim.Truncate — `truncate.rs`: cut the payload of a frame and rewrite the
length and checksum fields that cover it.

The `&mut Vec<u8>` parameter is threaded through: each function takes the
buffer and returns it. A 16-bit field is stored as the source stores it, most
significant byte first, with the truncating `as u8` casts of `storeBe16`.
-/
import PcapSlim.Checksum
import PcapSlim.Policy

namespace PcapSlim

open Lib.Buffer Lib.Octets

namespace Truncate

open Checksum Parse Policy

/-- `read_ip6`. -/
def readIp6 (buf : Bytes) (off : Nat) : Checked (FixedBytes 16) := do
  FixedBytes.copyFrom 16 (← slice buf off (off + 16))

/-- `update_ipv4_header_checksum`. -/
def updateIpv4HeaderChecksum (buf : Bytes) (ipStart ipHeaderLen : Nat) : Checked Bytes := do
  let buf ← storeBe16 buf (ipStart + 10) 0
  let sum := internetChecksum (← slice buf ipStart (ipStart + ipHeaderLen))
  storeBe16 buf (ipStart + 10) sum.toNat

/-- The checksum that both `update_tcp_checksum` and `update_udp_checksum`
compute over `segment`: the addresses stand at fixed offsets of the IP header,
but for an IPv4 source route. -/
def transportSum (build : Build) (buf : Bytes) (ipStart ipHeaderLen : Nat) (isIpv6 : Bool)
    (proto : UInt8) (segment : Bytes) : Checked UInt16 := do
  if isIpv6 then
    let src ← readIp6 buf (ipStart + 8)
    let dst ← readIp6 buf (ipStart + 24)
    transportChecksumIpv6 build src dst proto segment
  else
    let src ← readIp4 buf (ipStart + 12)
    let dst ← ipv4PseudoDst buf ipStart ipHeaderLen
    transportChecksumIpv4 build src dst proto segment

/-- Zero the checksum field at `field`, sum the segment from `start` to `stop`
for protocol `proto`, and store what `wire` makes of the sum. -/
def updateTransportChecksum (build : Build) (buf : Bytes) (ipStart ipHeaderLen : Nat)
    (isIpv6 : Bool) (start stop field : Nat) (proto : UInt8) (wire : UInt16 → UInt16) :
    Checked Bytes := do
  let buf ← storeBe16 buf field 0
  let segment ← slice buf start stop
  let sum ← transportSum build buf ipStart ipHeaderLen isIpv6 proto segment
  storeBe16 buf field (wire sum).toNat

/-- `update_tcp_checksum`: the segment runs to the end of the buffer. -/
def updateTcpChecksum (build : Build) (buf : Bytes) (ipStart ipHeaderLen : Nat)
    (isIpv6 : Bool) (tcpStart : Nat) : Checked Bytes :=
  updateTransportChecksum build buf ipStart ipHeaderLen isIpv6 tcpStart buf.length
    (tcpStart + 16) 6 id

/-- `update_udp_checksum`: the segment has the length given to it. -/
def updateUdpChecksum (build : Build) (buf : Bytes) (ipStart ipHeaderLen : Nat)
    (isIpv6 : Bool) (udpStart udpLen : Nat) : Checked Bytes :=
  updateTransportChecksum build buf ipStart ipHeaderLen isIpv6 udpStart (udpStart + udpLen)
    (udpStart + 6) 17 udpChecksumWire

/-- The `if is_ipv6` of `apply_truncate_fields`: the length and checksum fields
of the IP header, once the packet is `newIpTotal` bytes long. -/
def updateIpFields (buf : Bytes) (ipStart ipHeaderLen : Nat) (isIpv6 : Bool)
    (newIpTotal : Nat) : Checked Bytes := do
  if isIpv6 then
    let plen := (← sub newIpTotal ipHeaderLen) % 65536  -- `as u16`
    storeBe16 buf (ipStart + 4) plen
  else
    let buf ← storeBe16 buf (ipStart + 2) newIpTotal
    updateIpv4HeaderChecksum buf ipStart ipHeaderLen

/-- The `match l4.proto` of `apply_truncate_fields`. -/
def updateTransportFields (build : Build) (buf : Bytes) (ipStart ipHeaderLen : Nat)
    (isIpv6 : Bool) (l4 : L4Info) : Checked Bytes :=
  match l4.proto with
  | .tcp => updateTcpChecksum build buf ipStart ipHeaderLen isIpv6 l4.headerStart
  | .udp => do
      let udpLen := (l4.headerLen + truncatePayloadBytes) % 65536  -- `as u16`
      let buf ← storeBe16 buf (l4.headerStart + 4) udpLen
      updateUdpChecksum build buf ipStart ipHeaderLen isIpv6 l4.headerStart
        (l4.headerLen + truncatePayloadBytes)

/-- `apply_truncate_fields`. -/
def applyTruncateFields (build : Build) (buf : Bytes) (ipStart ipHeaderLen : Nat)
    (isIpv6 : Bool) (l4 : L4Info) (payloadLen : Nat) : Checked (Bytes × Bool) := do
  if payloadLen ≤ truncatePayloadBytes then return (buf, false)
  let newPayloadEnd := l4.payloadStart + truncatePayloadBytes
  if newPayloadEnd ≥ buf.length then return (buf, false)
  let buf := buf.take newPayloadEnd
  let newIpTotal ← sub buf.length ipStart
  let buf ← updateIpFields buf ipStart ipHeaderLen isIpv6 newIpTotal
  let buf ← updateTransportFields build buf ipStart ipHeaderLen isIpv6 l4
  return (buf, true)

/-- `apply_truncate_on_parsed`. -/
def applyTruncateOnParsed (build : Build) (buf : Bytes) (parsed : ParsedFrame) :
    Checked (Bytes × Bool) := do
  match parsed.l4 with
  | none => return (buf, false)
  | some l4 =>
      let payload ← parsed.payload
      applyTruncateFields build buf parsed.ipStart parsed.ipHeaderLen parsed.isIpv6 l4
        payload.length

/-- `apply_truncate`. -/
def applyTruncate (build : Build) (buf : Bytes) : Checked (Bytes × Bool) := do
  match ← parseFrame buf with
  | .error _ => return (buf, false)
  | .ok parsed => applyTruncateOnParsed build buf parsed

end Truncate

end PcapSlim
