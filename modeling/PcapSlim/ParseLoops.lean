/-
PcapSlim.ParseLoops — the loops of `parse.rs`, round by round.

Three loops step over lengths that they find in the data: 802.1Q tags, IPv6
extension headers and IPv4 options. `Parse` bounds them by fuel. Here each loop is
given by a round of its body, with no bound, and the bounded loop is the iteration
of these rounds.
-/
import PcapSlim.Lib.Loop
import PcapSlim.Parse

namespace PcapSlim.Parse

open Lib.Buffer Lib.Octets Lib.Loop

/-! ## Rounds -/

/-- A round of the `loop` of `l2_ethertype_and_l3_start` at `off`. -/
def l2Round (frame : Bytes) (off : Nat) : Checked (Round Nat (Option (UInt16 × Nat))) := do
  if off + 2 > frame.length then return .leave none
  let ethertype ← readBe16 frame off
  if ethertype ≠ ethertypeVlan then return .leave (some (ethertype, off + 2))
  if off + 4 > frame.length then return .leave none
  return .again (off + 4)

/-- A round of the `loop` of `parse_ipv6` with header type `next` at offset `off`. -/
def ipv6Round (frame : Bytes) (payloadEnd : Nat) :
    UInt8 × Nat → Checked (Round (UInt8 × Nat) (Option L4Info))
  | (next, off) => do
      if off ≥ payloadEnd then return .leave none
      if next = ipProtoTcp then return .leave (← parseTcp frame off (← sub payloadEnd off))
      if next = ipProtoUdp then return .leave (← parseUdp frame off (← sub payloadEnd off))
      if next = ip6NoNext then return .leave none
      if next = ip6Esp then return .leave none
      if next = ip6HopByHop ∨ next = ip6Routing ∨ next = ip6Fragment ∨ next = ip6DestOpts then
        if off + 2 > payloadEnd then return .leave none
        let extLen := ((← read frame (off + 1)).toNat + 1) * 8
        if extLen < 8 ∨ off + extLen > payloadEnd then return .leave none
        let next ← read frame off
        return .again (next, off + extLen)
      if next = ip6Ah then
        if off + 2 > payloadEnd then return .leave none
        let payloadLen := (← read frame (off + 1)).toNat
        let extLen := (payloadLen + 2) * 4
        if off + extLen > payloadEnd then return .leave none
        let next ← read frame off
        return .again (next, off + extLen)
      return .leave none

/-- A round of the `while i < end` of `ipv4_pseudo_dst` at option offset `i`. -/
def pseudoDstRound (buf : Bytes) (stop : Nat) (dflt : FixedBytes 4) (i : Nat) :
    Checked (Round Nat (FixedBytes 4)) := do
  if ¬ i < stop then return .leave dflt
  let kind ← read buf i
  if kind = ipOptEol then return .leave dflt
  if i + 1 ≥ stop then return .leave dflt
  let optLen := (← read buf (i + 1)).toNat
  if optLen < 2 ∨ i + optLen > stop then return .leave dflt
  let ty := kind &&& 0x1f
  if ty = ipOptLsrr ∨ ty = ipOptSsrr then
    let dataStart := i + 3
    let dataEnd := i + optLen
    if dataEnd ≥ dataStart + 4 then
      let last ← sub dataEnd 4
      return .leave (← readIp4 buf last)
  if optLen = 0 then return .leave dflt
  return .again (i + optLen)

/-! ## The bounded loops iterate them -/

theorem l2Loop_succ (frame : Bytes) (fuel off : Nat) :
    l2Loop frame (fuel + 1) off = (l2Round frame off >>= Round.proceed (l2Loop frame fuel)) := by
  simp only [l2Loop, l2Round, bind_assoc, ite_bind, pure_eq_ok, ok_bind, Round.proceed]

theorem ipv6Loop_succ (frame : Bytes) (stop fuel : Nat) (s : UInt8 × Nat) :
    ipv6Loop frame stop (fuel + 1) s.1 s.2 =
      (ipv6Round frame stop s >>= Round.proceed fun s => ipv6Loop frame stop fuel s.1 s.2) := by
  simp only [ipv6Loop, ipv6Round, bind_assoc, ite_bind, pure_eq_ok, ok_bind, bind_ok, Round.proceed]

theorem pseudoDstLoop_succ (buf : Bytes) (stop : Nat) (dflt : FixedBytes 4) (fuel i : Nat) :
    pseudoDstLoop buf stop dflt (fuel + 1) i =
      (pseudoDstRound buf stop dflt i >>= Round.proceed (pseudoDstLoop buf stop dflt fuel)) := by
  simp only [pseudoDstLoop, pseudoDstRound, bind_assoc, ite_bind, pure_eq_ok, ok_bind, bind_ok,
    Round.proceed]

end PcapSlim.Parse
