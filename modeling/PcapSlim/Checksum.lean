/-
PcapSlim.Checksum — `checksum.rs`: the Internet checksums of IPv4, TCP and UDP.

Sums are `u32`, so `UInt32` with its wrapping addition, as the release build
adds; `ChecksumTheorems` shows that none of these sums wraps. The index loop
over `data[i]`, `data[i + 1]` is `sumWords`, which takes the same two bytes off
the front of the list, and `while sum >> 16 != 0` is `foldCarries`.

`Build` is the compilation profile. Only a debug build keeps `debug_assert!`,
and this module holds the only two of the crate.
-/
import PcapSlim.Lib.Octets

namespace PcapSlim

open Lib.Buffer Lib.Octets

/-- The compilation profile. -/
inductive Build where
  | release
  | debug
  deriving DecidableEq, Repr

/-- `debug_assert!(cond)`. -/
def debugAssert (build : Build) (cond : Bool) : Checked Unit :=
  if build = .debug ∧ cond = false then .error .assertion else .ok ()

namespace Checksum

/-- `MAX_TRANSPORT_SEGMENT`. -/
def maxTransportSegment : Nat := 64

/-- The `while i + 1 < data.len()` loop with the odd byte after it. -/
def sumWords : Bytes → UInt32 → UInt32
  | hi :: lo :: rest, sum => sumWords rest (sum + (be16 hi lo).toUInt32)
  | [b], sum => sum + (b.toUInt32 <<< 8)
  | [], sum => sum

/-- `while sum >> 16 != 0`, for at most `fuel` rounds. -/
def foldCarriesFor : (fuel : Nat) → UInt32 → UInt32
  | 0, sum => sum
  | fuel + 1, sum =>
      if sum >>> 16 != 0 then foldCarriesFor fuel ((sum &&& (0xffff : UInt32)) + (sum >>> 16)) else sum

/-- `while sum >> 16 != 0 { sum = (sum & 0xffff) + (sum >> 16); }`. No `u32`
needs more than two rounds (`foldCarries_done`). -/
def foldCarries (sum : UInt32) : UInt32 := foldCarriesFor 2 sum

/-- `checksum_sum`: the one's-complement sum, folded to 16 bits, not inverted. -/
def checksumSum (data : Bytes) : UInt32 := foldCarries (sumWords data 0)

/-- `finish`: fold and invert. -/
def finish (sum : UInt32) : UInt16 := (~~~ foldCarries sum).toUInt16

/-- `internet_checksum`. -/
def internetChecksum (data : Bytes) : UInt16 := finish (checksumSum data)

/-- `checksum_sum_pseudo_ipv4`. The segment length is cast to `u16`. -/
def checksumSumPseudoIpv4 (src dst : FixedBytes 4) (proto : UInt8) (segment : Bytes) : UInt32 :=
  let len := segment.length % 65536
  let ph := src.bytes ++ dst.bytes ++ [0, proto, hi16 len, lo16 len]
  foldCarries (checksumSum ph + checksumSum segment)

/-- `checksum_sum_pseudo_ipv6`. The segment length is cast to `u32`. -/
def checksumSumPseudoIpv6 (src dst : FixedBytes 16) (proto : UInt8) (segment : Bytes) : UInt32 :=
  let sum := checksumSum src.bytes + checksumSum dst.bytes
  let sum := sum + checksumSum (toBe32 (UInt32.ofNat segment.length))
  let sum := sum + proto.toUInt32
  let sum := sum + checksumSum segment
  foldCarries sum

/-- `transport_checksum_ipv4`. -/
def transportChecksumIpv4 (build : Build) (src dst : FixedBytes 4) (proto : UInt8)
    (segment : Bytes) : Checked UInt16 := do
  debugAssert build (segment.length ≤ maxTransportSegment)
  return finish (checksumSumPseudoIpv4 src dst proto segment)

/-- `transport_checksum_ipv6`. -/
def transportChecksumIpv6 (build : Build) (src dst : FixedBytes 16) (proto : UInt8)
    (segment : Bytes) : Checked UInt16 := do
  debugAssert build (segment.length ≤ maxTransportSegment)
  return finish (checksumSumPseudoIpv6 src dst proto segment)

/-- `udp_checksum_wire`: a computed 0 goes out as 0xffff. -/
def udpChecksumWire (sum : UInt16) : UInt16 := if sum = 0 then 0xffff else sum

end Checksum

end PcapSlim
