/-
PcapSlim.Parse — `parse.rs`: from an Ethernet frame to the offsets of its
IPv4/IPv6 and TCP/UDP headers.

Every index into the frame is a checked `read`, so a call that the source would
answer with a panic is an error here. `usize` offsets are `Nat`: they are sums
of a few header lengths below the frame's length and never overflow. Each loop
takes fuel, one unit a round; `LoopTheorems` shows that the fuel given by the
callers is never used up.
-/
import PcapSlim.Lib.Octets

namespace PcapSlim

open Lib.Buffer Lib.Octets

namespace Parse

def ethertypeVlan : UInt16 := 0x8100
def ethertypeIpv6 : UInt16 := 0x86DD
def ethertypeIpv4 : UInt16 := 0x0800

def ipProtoTcp : UInt8 := 6
def ipProtoUdp : UInt8 := 17

/-- IPv4 option types: `IP_OPT_EOL` is the whole byte, the other two are its
low five bits. -/
def ipOptEol : UInt8 := 0
def ipOptLsrr : UInt8 := 3
def ipOptSsrr : UInt8 := 9

/-- `L4Proto`. -/
inductive L4Proto where
  | tcp
  | udp
  deriving DecidableEq, Repr

/-- `L4Info`. -/
structure L4Info where
  proto : L4Proto
  sport : UInt16
  dport : UInt16
  headerStart : Nat
  headerLen : Nat
  payloadStart : Nat
  deriving DecidableEq, Repr

/-- `ParsedFrame`. -/
structure ParsedFrame where
  frame : Bytes
  ipStart : Nat
  ipHeaderLen : Nat
  isIpv6 : Bool
  l4 : Option L4Info
  deriving DecidableEq, Repr

/-- `ParseError`, with its one message "frame too short". -/
inductive ParseError where
  | tooShort
  deriving DecidableEq, Repr

/-! ## Payload -/

/-- `ParsedFrame::payload_len`. -/
def ParsedFrame.payloadLen (p : ParsedFrame) : Checked Nat := do
  match p.l4 with
  | none => return 0
  | some l4 =>
      let ipTotal ← if p.isIpv6 then do
          let plen ← readBe16 p.frame (p.ipStart + 4)
          pure (p.ipHeaderLen + plen.toNat)
        else do
          let total ← readBe16 p.frame (p.ipStart + 2)
          pure total.toNat
      let l4Total := ipTotal - p.ipHeaderLen  -- `saturating_sub`
      return l4Total - l4.headerLen  -- `saturating_sub`

/-- `ParsedFrame::payload`. -/
def ParsedFrame.payload (p : ParsedFrame) : Checked Bytes := do
  match p.l4 with
  | none => return []
  | some l4 =>
      let payloadLen ← p.payloadLen
      let stop := min p.frame.length (l4.payloadStart + payloadLen)
      if l4.payloadStart ≥ stop then return []
      slice p.frame l4.payloadStart stop

/-! ## IPv4 options -/

/-- Four consecutive bytes as an address. -/
def readIp4 (buf : Bytes) (off : Nat) : Checked (FixedBytes 4) := do
  let a ← read buf off
  let b ← read buf (off + 1)
  let c ← read buf (off + 2)
  let d ← read buf (off + 3)
  return ⟨[a, b, c, d], rfl⟩

/-- The `while i < end` loop of `ipv4_pseudo_dst` from option offset `i`. -/
def pseudoDstLoop (buf : Bytes) (stop : Nat) (dflt : FixedBytes 4) :
    (fuel : Nat) → (i : Nat) → Checked (FixedBytes 4)
  | 0, _ => return dflt
  | fuel + 1, i => do
      if ¬ i < stop then return dflt
      let kind ← read buf i
      if kind = ipOptEol then return dflt
      if i + 1 ≥ stop then return dflt
      let optLen := (← read buf (i + 1)).toNat
      if optLen < 2 ∨ i + optLen > stop then return dflt
      let ty := kind &&& 0x1f
      if ty = ipOptLsrr ∨ ty = ipOptSsrr then
        let dataStart := i + 3
        let dataEnd := i + optLen
        if dataEnd ≥ dataStart + 4 then
          let last ← sub dataEnd 4
          return ← readIp4 buf last
      if optLen = 0 then return dflt
      pseudoDstLoop buf stop dflt fuel (i + optLen)

/-- `ipv4_pseudo_dst`: the destination that TCP and UDP sum over. -/
def ipv4PseudoDst (buf : Bytes) (ipStart ipHeaderLen : Nat) : Checked (FixedBytes 4) := do
  let dflt ← readIp4 buf (ipStart + 16)
  if ipHeaderLen ≤ 20 then return dflt
  pseudoDstLoop buf (ipStart + ipHeaderLen) dflt ipHeaderLen (ipStart + 20)

/-! ## Link layer -/

/-- The `loop` of `l2_ethertype_and_l3_start` with the tag or type field at `off`. -/
def l2Loop (frame : Bytes) : (fuel : Nat) → (off : Nat) → Checked (Option (UInt16 × Nat))
  | 0, _ => return none
  | fuel + 1, off => do
      if off + 2 > frame.length then return none
      let ethertype ← readBe16 frame off
      if ethertype ≠ ethertypeVlan then return some (ethertype, off + 2)
      if off + 4 > frame.length then return none
      l2Loop frame fuel (off + 4)

/-- `l2_ethertype_and_l3_start`: the inner ethertype and where layer 3 starts. -/
def l2EthertypeAndL3Start (frame : Bytes) : Checked (Option (UInt16 × Nat)) := do
  if frame.length < 14 then return none
  l2Loop frame frame.length 12

/-! ## Transport headers -/

/-- `parse_tcp`. -/
def parseTcp (frame : Bytes) (l4Start l4Len : Nat) : Checked (Option L4Info) := do
  if frame.length < l4Start + 20 ∨ l4Len < 20 then return none
  let dataOffset := ((← read frame (l4Start + 12)) >>> 4).toNat * 4
  if dataOffset < 20 ∨ frame.length < l4Start + dataOffset then return none
  if l4Len < dataOffset then return none
  let sport ← readBe16 frame l4Start
  let dport ← readBe16 frame (l4Start + 2)
  return some { proto := .tcp, sport, dport, headerStart := l4Start,
                headerLen := dataOffset, payloadStart := l4Start + dataOffset }

/-- `parse_udp`. -/
def parseUdp (frame : Bytes) (l4Start l4Len : Nat) : Checked (Option L4Info) := do
  let udpHdr := 8
  if frame.length < l4Start + udpHdr ∨ l4Len < udpHdr then return none
  let sport ← readBe16 frame l4Start
  let dport ← readBe16 frame (l4Start + 2)
  return some { proto := .udp, sport, dport, headerStart := l4Start,
                headerLen := udpHdr, payloadStart := l4Start + udpHdr }

/-! ## IPv4 -/

/-- `try_parse_ipv4_plain`: untagged Ethernet, IHL 5, no fragment bits, a
captured datagram, and a TCP header of 20 bytes or a UDP header. -/
def tryParseIpv4Plain (frame : Bytes) : Checked (Option ParsedFrame) := do
  if frame.length < 54 then return none
  if (← read frame 12) ≠ 0x08 then return none
  if (← read frame 13) ≠ 0x00 then return none
  let ip := 14
  if (← read frame ip) ≠ 0x45 then return none
  let flags ← readBe16 frame (ip + 6)
  if flags &&& 0x3fff ≠ 0 then return none
  let ipTotal := (← readBe16 frame (ip + 2)).toNat
  if frame.length < ip + ipTotal then return none
  let proto ← read frame (ip + 9)
  let l4Start := ip + 20
  let l4InIp := ipTotal - 20  -- `saturating_sub`
  let parsed (l4 : Option L4Info) : ParsedFrame :=
    { frame, ipStart := ip, ipHeaderLen := 20, isIpv6 := false, l4 }
  if proto = ipProtoTcp then
    if l4InIp < 20 ∨ frame.length < l4Start + 20 then return none
    if (← read frame (l4Start + 12)) >>> 4 ≠ 5 then return none
    let sport ← readBe16 frame l4Start
    let dport ← readBe16 frame (l4Start + 2)
    return some (parsed (some { proto := .tcp, sport, dport, headerStart := l4Start,
                                headerLen := 20, payloadStart := l4Start + 20 }))
  else if proto = ipProtoUdp then
    if l4InIp < 8 ∨ frame.length < l4Start + 8 then return none
    let sport ← readBe16 frame l4Start
    let dport ← readBe16 frame (l4Start + 2)
    return some (parsed (some { proto := .udp, sport, dport, headerStart := l4Start,
                                headerLen := 8, payloadStart := l4Start + 8 }))
  else return some (parsed none)

/-- `parse_ipv4`. -/
def parseIpv4 (frame : Bytes) (ipStart : Nat) : Checked ParsedFrame := do
  let parsed (ipHeaderLen : Nat) (l4 : Option L4Info) : ParsedFrame :=
    { frame, ipStart, ipHeaderLen, isIpv6 := false, l4 }
  if frame.length < ipStart + 20 then return parsed 0 none
  let versionIhl ← read frame ipStart
  if versionIhl >>> 4 ≠ 4 then return parsed 0 none
  let ipHeaderLen := (versionIhl &&& 0x0f).toNat * 4
  if frame.length < ipStart + ipHeaderLen then return parsed ipHeaderLen none
  let proto ← read frame (ipStart + 9)
  let ipTotal := (← readBe16 frame (ipStart + 2)).toNat
  let l4Start := ipStart + ipHeaderLen
  let l4InIp := ipTotal - ipHeaderLen  -- `saturating_sub`
  let l4 ←
    if proto = ipProtoTcp then parseTcp frame l4Start l4InIp
    else if proto = ipProtoUdp then parseUdp frame l4Start l4InIp
    else pure none
  return parsed ipHeaderLen l4

/-! ## IPv6 -/

def ip6HopByHop : UInt8 := 0
def ip6Routing : UInt8 := 43
def ip6Fragment : UInt8 := 44
def ip6Esp : UInt8 := 50
def ip6Ah : UInt8 := 51
def ip6DestOpts : UInt8 := 60
def ip6NoNext : UInt8 := 59

/-- `IP6_HDR`. -/
def ip6Hdr : Nat := 40

/-- The `loop` of `parse_ipv6` with header type `next` at offset `off`. -/
def ipv6Loop (frame : Bytes) (payloadEnd : Nat) :
    (fuel : Nat) → (next : UInt8) → (off : Nat) → Checked (Option L4Info)
  | 0, _, _ => return none
  | fuel + 1, next, off => do
      if off ≥ payloadEnd then return none
      if next = ipProtoTcp then return ← parseTcp frame off (← sub payloadEnd off)
      if next = ipProtoUdp then return ← parseUdp frame off (← sub payloadEnd off)
      if next = ip6NoNext then return none
      if next = ip6Esp then return none
      if next = ip6HopByHop ∨ next = ip6Routing ∨ next = ip6Fragment ∨ next = ip6DestOpts then
        if off + 2 > payloadEnd then return none
        let extLen := ((← read frame (off + 1)).toNat + 1) * 8
        if extLen < 8 ∨ off + extLen > payloadEnd then return none
        let next ← read frame off
        return ← ipv6Loop frame payloadEnd fuel next (off + extLen)
      if next = ip6Ah then
        if off + 2 > payloadEnd then return none
        let payloadLen := (← read frame (off + 1)).toNat
        let extLen := (payloadLen + 2) * 4
        if off + extLen > payloadEnd then return none
        let next ← read frame off
        return ← ipv6Loop frame payloadEnd fuel next (off + extLen)
      return none

/-- `parse_ipv6`. -/
def parseIpv6 (frame : Bytes) (ipStart : Nat) : Checked ParsedFrame := do
  let parsed (l4 : Option L4Info) : ParsedFrame :=
    { frame, ipStart, ipHeaderLen := ip6Hdr, isIpv6 := true, l4 }
  if frame.length < ipStart + ip6Hdr then return parsed none
  if (← read frame ipStart) >>> 4 ≠ 6 then return parsed none
  let plen := (← readBe16 frame (ipStart + 4)).toNat
  let payloadEnd := min (ipStart + ip6Hdr + plen) frame.length
  let next ← read frame (ipStart + 6)
  let l4 ← ipv6Loop frame payloadEnd frame.length next (ipStart + ip6Hdr)
  return parsed l4

/-! ## Frames -/

/-- `parse_frame` without its fast path: the link layer, then `parse_ipv4` or
`parse_ipv6`. -/
def parseGeneral (frame : Bytes) : Checked ParsedFrame := do
  let unparsed : ParsedFrame :=
    { frame, ipStart := 0, ipHeaderLen := 0, isIpv6 := false, l4 := none }
  match ← l2EthertypeAndL3Start frame with
  | none => return unparsed
  | some (ethertype, l3Start) =>
      if ethertype = ethertypeIpv4 then parseIpv4 frame l3Start
      else if ethertype = ethertypeIpv6 then parseIpv6 frame l3Start
      else return unparsed

/-- `parse_frame`. -/
def parseFrame (frame : Bytes) : Checked (Except ParseError ParsedFrame) := do
  if frame.length < 14 then return .error .tooShort
  match ← tryParseIpv4Plain frame with
  | some parsed => return .ok parsed
  | none => return .ok (← parseGeneral frame)

end Parse

end PcapSlim
