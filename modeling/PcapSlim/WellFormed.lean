/-
PcapSlim.WellFormed — the frames that a sender builds.

This layer says what a well-formed frame is, without the parser: an Ethernet
header with any number of 802.1Q tags, an IPv4 header with up to ten words of
options or an IPv6 header with any chain of extension headers, a TCP or UDP
header, and a payload whose length the IP header declares. The lengths that a
header can express are part of the types (`Options`, `ExtHeader.body`), so a
value of `Frame` always has an encoding, `Frame.encode`. Fields that the parser
does not read take any value.

`WellFormedTheorems` shows that the parser recovers every such frame.
-/
import PcapSlim.Parse

namespace PcapSlim.WellFormed

open Lib.Buffer Lib.Octets Parse

/-! ## Link layer -/

/-- An Ethernet header with its 802.1Q tags, outermost first. A tag is the two
bytes that follow the type 0x8100. -/
structure LinkHeader where
  dst : FixedBytes 6
  src : FixedBytes 6
  tags : List (UInt8 × UInt8)

/-- The tags, each behind its type. -/
def tagBytes : List (UInt8 × UInt8) → Bytes
  | [] => []
  | (hi, lo) :: tags => 0x81 :: 0x00 :: hi :: lo :: tagBytes tags

def LinkHeader.encode (h : LinkHeader) (ethertype : UInt16) : Bytes :=
  h.dst.bytes ++ h.src.bytes ++
    (tagBytes h.tags ++ [hi16 ethertype.toNat, lo16 ethertype.toNat])

def LinkHeader.length (h : LinkHeader) : Nat := 14 + 4 * h.tags.length

/-! ## Transport headers -/

/-- Up to ten 4-byte words of options. -/
structure Options where
  words : Fin 11
  bytes : FixedBytes (4 * words)

structure TcpHeader where
  sport : UInt16
  dport : UInt16
  seq : UInt32
  ack : UInt32
  reserved : Fin 16
  flags : UInt8
  window : UInt16
  checksum : UInt16
  urgent : UInt16
  options : Options

structure UdpHeader where
  sport : UInt16
  dport : UInt16
  length : UInt16
  checksum : UInt16

inductive Transport where
  | tcp (header : TcpHeader)
  | udp (header : UdpHeader)

namespace Transport

def encode : Transport → Bytes
  | .tcp h =>
      [hi16 h.sport.toNat, lo16 h.sport.toNat, hi16 h.dport.toNat, lo16 h.dport.toNat] ++
        toBe32 h.seq ++ toBe32 h.ack ++
        [UInt8.ofNat ((5 + h.options.words) * 16 + h.reserved), h.flags,
          hi16 h.window.toNat, lo16 h.window.toNat, hi16 h.checksum.toNat, lo16 h.checksum.toNat,
          hi16 h.urgent.toNat, lo16 h.urgent.toNat] ++ h.options.bytes.bytes
  | .udp h =>
      [hi16 h.sport.toNat, lo16 h.sport.toNat, hi16 h.dport.toNat, lo16 h.dport.toNat,
        hi16 h.length.toNat, lo16 h.length.toNat, hi16 h.checksum.toNat, lo16 h.checksum.toNat]

def headerLen : Transport → Nat
  | .tcp h => 20 + 4 * h.options.words
  | .udp _ => 8

/-- The protocol number in the header before it. -/
def number : Transport → UInt8
  | .tcp _ => ipProtoTcp
  | .udp _ => ipProtoUdp

/-- What a parser should report for this header at `start`. -/
def info (start : Nat) : Transport → L4Info
  | .tcp h =>
      { proto := .tcp, sport := h.sport, dport := h.dport, headerStart := start,
        headerLen := 20 + 4 * h.options.words,
        payloadStart := start + (20 + 4 * h.options.words) }
  | .udp h =>
      { proto := .udp, sport := h.sport, dport := h.dport, headerStart := start,
        headerLen := 8, payloadStart := start + 8 }

end Transport

/-! ## IPv4 -/

structure Ipv4Header where
  tos : UInt8
  id : UInt16
  flagsFragment : UInt16
  ttl : UInt8
  checksum : UInt16
  src : UInt32
  dst : UInt32
  options : Options

def Ipv4Header.length (h : Ipv4Header) : Nat := 20 + 4 * h.options.words

def Ipv4Header.encode (h : Ipv4Header) (proto : UInt8) (total : Nat) : Bytes :=
  [UInt8.ofNat (0x45 + h.options.words), h.tos, hi16 total, lo16 total,
    hi16 h.id.toNat, lo16 h.id.toNat, hi16 h.flagsFragment.toNat, lo16 h.flagsFragment.toNat,
    h.ttl, proto, hi16 h.checksum.toNat, lo16 h.checksum.toNat] ++
    toBe32 h.src ++ toBe32 h.dst ++ h.options.bytes.bytes

/-- A datagram that is not longer than its header can say, and a link-layer
trailer behind it. -/
structure Ipv4Packet where
  header : Ipv4Header
  transport : Transport
  payload : Bytes
  trailer : Bytes
  fits : header.length + transport.headerLen + payload.length ≤ 65535

def Ipv4Packet.total (p : Ipv4Packet) : Nat :=
  p.header.length + p.transport.headerLen + p.payload.length

def Ipv4Packet.encode (p : Ipv4Packet) : Bytes :=
  p.header.encode p.transport.number p.total ++
    (p.transport.encode ++ (p.payload ++ p.trailer))

/-! ## IPv6 -/

/-- The extension headers a packet may carry in front of its transport header. -/
inductive ExtKind where
  | hopByHop
  | routing
  | destOpts
  | ah

def ExtKind.number : ExtKind → UInt8
  | .hopByHop => ip6HopByHop
  | .routing => ip6Routing
  | .destOpts => ip6DestOpts
  | .ah => ip6Ah

/-- The size that a length byte expresses: AH counts 4-byte words less two, the
others count 8-byte units less one. -/
def ExtKind.size (len : UInt8) : ExtKind → Nat
  | .ah => (len.toNat + 2) * 4
  | _ => (len.toNat + 1) * 8

/-- An extension header: `body` is what follows its next-header and length bytes. -/
structure ExtHeader where
  kind : ExtKind
  len : UInt8
  body : FixedBytes (kind.size len - 2)

/-- The type of the first header of a chain that ends in `proto`. -/
def chainNext : List ExtHeader → UInt8 → UInt8
  | [], proto => proto
  | h :: _, _ => h.kind.number

/-- The chain: each header names the type of the one behind it. -/
def chainBytes : List ExtHeader → UInt8 → Bytes
  | [], _ => []
  | h :: chain, proto => chainNext chain proto :: h.len :: (h.body.bytes ++ chainBytes chain proto)

def chainLength : List ExtHeader → Nat
  | [] => 0
  | h :: chain => h.kind.size h.len + chainLength chain

structure Ipv6Header where
  trafficClassHigh : Fin 16
  trafficClassFlow : UInt8
  flow : UInt16
  hopLimit : UInt8
  src : FixedBytes 16
  dst : FixedBytes 16

def Ipv6Header.encode (h : Ipv6Header) (next : UInt8) (plen : Nat) : Bytes :=
  [UInt8.ofNat (0x60 + h.trafficClassHigh), h.trafficClassFlow, hi16 h.flow.toNat,
    lo16 h.flow.toNat, hi16 plen, lo16 plen, next, h.hopLimit] ++ (h.src.bytes ++ h.dst.bytes)

/-- A packet that is not longer than its header can say; the frame ends with it. -/
structure Ipv6Packet where
  header : Ipv6Header
  chain : List ExtHeader
  transport : Transport
  payload : Bytes
  fits : chainLength chain + transport.headerLen + payload.length ≤ 65535

def Ipv6Packet.plen (p : Ipv6Packet) : Nat :=
  chainLength p.chain + p.transport.headerLen + p.payload.length

def Ipv6Packet.encode (p : Ipv6Packet) : Bytes :=
  p.header.encode (chainNext p.chain p.transport.number) p.plen ++
    (chainBytes p.chain p.transport.number ++ (p.transport.encode ++ p.payload))

/-! ## Frames -/

inductive Packet where
  | ipv4 (packet : Ipv4Packet)
  | ipv6 (packet : Ipv6Packet)

structure Frame where
  link : LinkHeader
  packet : Packet

namespace Frame

def encode (f : Frame) : Bytes :=
  match f.packet with
  | .ipv4 p => f.link.encode ethertypeIpv4 ++ p.encode
  | .ipv6 p => f.link.encode ethertypeIpv6 ++ p.encode

def payload (f : Frame) : Bytes :=
  match f.packet with
  | .ipv4 p => p.payload
  | .ipv6 p => p.payload

/-- What a parser should report for the frame. -/
def parsed (f : Frame) : ParsedFrame :=
  match f.packet with
  | .ipv4 p =>
      { frame := f.encode, ipStart := f.link.length, ipHeaderLen := p.header.length,
        isIpv6 := false,
        l4 := some (p.transport.info (f.link.length + p.header.length)) }
  | .ipv6 p =>
      { frame := f.encode, ipStart := f.link.length, ipHeaderLen := 40, isIpv6 := true,
        l4 := some (p.transport.info (f.link.length + 40 + chainLength p.chain)) }

end Frame

end PcapSlim.WellFormed
