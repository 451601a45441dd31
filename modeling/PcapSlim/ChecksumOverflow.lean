/-
PcapSlim.ChecksumOverflow — `checksum.rs` with overflow checks on.

`Checksum` adds as the release build does, wrapping, and bounds the folding loop.
Here the same functions add with `checkedAdd`, which stops the program when a sum
does not fit into a `u32`, and a folding loop whose guard is still true after
three rounds stops it as well. Each function has one lemma, `…_checked`: it runs
through, to the value that `Checksum` computes. `ends_foldRound` says the same
about the folding loop without any bound. The main result is that the split
checksums are the plain checksum of pseudo-header and segment.
-/
import PcapSlim.ChecksumTheorems
import PcapSlim.Lib.Loop

namespace PcapSlim.Checksum

open Lib.Buffer Lib.Octets Lib.OnesComplement Lib.Loop

/-! ## The functions with overflow checks -/

/-- What stops a checked sum: an addition that overflows, or a loop that has not
ended when its rounds are used up. -/
inductive Trap where
  | overflow
  | unfinished
  deriving DecidableEq, Repr

/-- `a + b` on `u32`, with overflow checks on. -/
def checkedAdd (a b : UInt32) : Except Trap UInt32 :=
  if a.toNat + b.toNat < 4294967296 then .ok (a + b) else .error .overflow

/-- `sumWords`, its additions checked. -/
def checkedSumWords : Bytes → UInt32 → Except Trap UInt32
  | hi :: lo :: rest, sum => do
      let sum ← checkedAdd sum (be16 hi lo).toUInt32
      checkedSumWords rest sum
  | [b], sum => checkedAdd sum (b.toUInt32 <<< 8)
  | [], sum => .ok sum

/-- A round of `while sum >> 16 != 0 { sum = (sum & 0xffff) + (sum >> 16); }`. -/
def foldRound (sum : UInt32) : Except Trap (Round UInt32 UInt32) := do
  if sum >>> 16 != 0 then
    let sum ← checkedAdd (sum &&& (0xffff : UInt32)) (sum >>> 16)
    return .again sum
  else return .leave sum

/-- The folding loop, which has three rounds to end in. -/
def checkedFold (sum : UInt32) : Except Trap UInt32 :=
  loopFor foldRound (.error .unfinished) 3 sum

/-- `checksum_sum`. -/
def checkedChecksumSum (data : Bytes) : Except Trap UInt32 := do
  let sum ← checkedSumWords data 0
  checkedFold sum

/-- `finish`. -/
def checkedFinish (sum : UInt32) : Except Trap UInt16 := do
  let sum ← checkedFold sum
  return (~~~ sum).toUInt16

/-- `internet_checksum`. -/
def checkedInternetChecksum (data : Bytes) : Except Trap UInt16 := do
  let sum ← checkedChecksumSum data
  checkedFinish sum

/-- `checksum_sum_pseudo_ipv4`. -/
def checkedSumPseudoIpv4 (src dst : FixedBytes 4) (proto : UInt8) (segment : Bytes) :
    Except Trap UInt32 := do
  let len := segment.length % 65536  -- `as u16`
  let ph := src.bytes ++ dst.bytes ++ [0, proto, hi16 len, lo16 len]
  let sum ← checkedAdd (← checkedChecksumSum ph) (← checkedChecksumSum segment)
  checkedFold sum

/-- `checksum_sum_pseudo_ipv6`. -/
def checkedSumPseudoIpv6 (src dst : FixedBytes 16) (proto : UInt8) (segment : Bytes) :
    Except Trap UInt32 := do
  let sum ← checkedAdd (← checkedChecksumSum src.bytes) (← checkedChecksumSum dst.bytes)
  let sum ← checkedAdd sum (← checkedChecksumSum (toBe32 (UInt32.ofNat segment.length)))
  let sum ← checkedAdd sum proto.toUInt32
  let sum ← checkedAdd sum (← checkedChecksumSum segment)
  checkedFold sum

/-- `transport_checksum_ipv4` behind its assertion. -/
def checkedTransportIpv4 (src dst : FixedBytes 4) (proto : UInt8) (segment : Bytes) :
    Except Trap UInt16 := do
  let sum ← checkedSumPseudoIpv4 src dst proto segment
  checkedFinish sum

/-- `transport_checksum_ipv6` behind its assertion. -/
def checkedTransportIpv6 (src dst : FixedBytes 16) (proto : UInt8) (segment : Bytes) :
    Except Trap UInt16 := do
  let sum ← checkedSumPseudoIpv6 src dst proto segment
  checkedFinish sum

/-! ## The additions -/

theorem checkedAdd_ok {a b : UInt32} (h : a.toNat + b.toNat < 4294967296) :
    checkedAdd a b = .ok (a + b) := if_pos h

/-- Numbers below `m` and `k` are added without overflow. -/
theorem checkedAdd_lt {a b : UInt32} {m k : Nat} (ha : a.toNat < m) (hb : b.toNat < k)
    (h : m + k ≤ 4294967297) :
    checkedAdd a b = .ok (a + b) ∧ (a + b).toNat < m + k := by
  have hsum : a.toNat + b.toNat < 4294967296 := by omega
  exact ⟨checkedAdd_ok hsum, by rw [UInt32.toNat_add]; omega⟩

/-- A sum that stays below 2^32 to its end never leaves that range. -/
theorem checkedSumWords_eq : ∀ (data : Bytes) (sum : UInt32),
    sum.toNat + wordSum data < 4294967296 → checkedSumWords data sum = .ok (sumWords data sum)
  | [], sum, _ => rfl
  | [b], sum, h => by
      simp only [wordSum] at h
      rw [checkedSumWords, checkedAdd_ok (by rw [toNat_shiftLeft_eight]; omega), sumWords]
  | hi :: lo :: rest, sum, h => by
      rw [wordSum_cons_cons] at h
      have hfits : sum.toNat + (hi.toNat * 256 + lo.toNat) < 4294967296 :=
        Nat.lt_of_le_of_lt (Nat.add_le_add_left (Nat.le_add_right _ _) _) h
      rw [checkedSumWords, checkedAdd_ok (by rw [toNat_word]; exact hfits), ok_bind,
        checkedSumWords_eq rest _ (by rw [toNat_add_word hfits, Nat.add_assoc]; exact h), sumWords]

/-! ## The folding loop -/

theorem foldRound_leave {s : UInt32} (h : s.toNat < 65536) : foldRound s = .ok (.leave s) := by
  have hguard : ¬ (s >>> 16 != 0) = true := by
    rw [guard_iff]
    omega
  rw [foldRound, if_neg hguard]
  rfl

theorem foldRound_again {s : UInt32} (h : (s >>> 16 != 0) = true) :
    foldRound s = .ok (.again ((s &&& (0xffff : UInt32)) + (s >>> 16))) := by
  have hs := s.toNat_lt
  have hadd : (s &&& (0xffff : UInt32)).toNat + (s >>> 16).toNat < 4294967296 := by
    rw [toNat_and_ffff, toNat_shiftRight_sixteen]
    omega
  rw [foldRound, if_pos h, checkedAdd_ok hadd]
  rfl

/-- **The folding loop ends**, from every `u32`, and no addition in it overflows. -/
theorem ends_foldRound (s : UInt32) : ∃ n ≤ 3, Ends foldRound s n (foldCarries s) := by
  have hdone := foldCarries_done s
  simp only [foldCarries, foldCarriesFor] at hdone ⊢
  split at hdone
  · rename_i h1
    rw [if_pos h1]
    split at hdone
    · rename_i h2
      rw [if_pos h2]
      exact ⟨3, by omega,
        .again (foldRound_again h1) (.again (foldRound_again h2) (.leave (foldRound_leave hdone)))⟩
    · rename_i h2
      rw [if_neg h2]
      exact ⟨2, by omega, .again (foldRound_again h1) (.leave (foldRound_leave hdone))⟩
  · rename_i h1
    rw [if_neg h1]
    exact ⟨1, by omega, .leave (foldRound_leave hdone)⟩

theorem checkedFold_eq (s : UInt32) : checkedFold s = .ok (foldCarries s) := by
  obtain ⟨n, hn, hends⟩ := ends_foldRound s
  exact hends.loopFor_eq _ hn

/-! ## The functions run through -/

variable {proto : UInt8} {segment : Bytes}

theorem checkedChecksumSum_eq {data : Bytes} (h : data.length ≤ 131072) :
    checkedChecksumSum data = .ok (checksumSum data) := by
  rw [checkedChecksumSum, checkedSumWords_eq data 0 (by simpa using wordSum_lt h), ok_bind,
    checkedFold_eq, checksumSum]

theorem checkedFinish_eq (s : UInt32) : checkedFinish s = .ok (finish s) := by
  rw [checkedFinish, checkedFold_eq, ok_bind, pure_eq_ok, finish]

theorem checkedInternetChecksum_eq {data : Bytes} (h : data.length ≤ 131072) :
    checkedInternetChecksum data = .ok (internetChecksum data) := by
  rw [checkedInternetChecksum, checkedChecksumSum_eq h, ok_bind, checkedFinish_eq,
    internetChecksum]

theorem checkedSumPseudoIpv4_eq (src dst : FixedBytes 4) (h : segment.length < 65536) :
    checkedSumPseudoIpv4 src dst proto segment =
      .ok (checksumSumPseudoIpv4 src dst proto segment) := by
  have hph : (pseudoIpv4 src dst proto (segment.length % 65536)).length ≤ 131072 := by
    rw [length_pseudoIpv4]
    omega
  have hadd := checkedAdd_lt (foldCarries_done (sumWords (pseudoIpv4 src dst proto
    (segment.length % 65536)) 0)) (foldCarries_done (sumWords segment 0)) (by omega)
  unfold checkedSumPseudoIpv4
  dsimp only
  change (checkedChecksumSum (pseudoIpv4 src dst proto (segment.length % 65536)) >>= _) = _
  rw [checkedChecksumSum_eq hph, ok_bind, checkedChecksumSum_eq (by omega), ok_bind]
  unfold checksumSum
  rw [hadd.1, ok_bind, checkedFold_eq]
  rfl

theorem checkedSumPseudoIpv6_eq (src dst : FixedBytes 16) (h : segment.length < 65536) :
    checkedSumPseudoIpv6 src dst proto segment =
      .ok (checksumSumPseudoIpv6 src dst proto segment) := by
  -- five numbers below 65536 are added
  obtain ⟨haddr, haddr_lt⟩ := checkedAdd_lt (foldCarries_done (sumWords src.bytes 0))
    (foldCarries_done (sumWords dst.bytes 0)) (by omega)
  obtain ⟨hlen, hlen_lt⟩ := checkedAdd_lt haddr_lt
    (foldCarries_done (sumWords (toBe32 (UInt32.ofNat segment.length)) 0)) (by omega)
  obtain ⟨hproto, hproto_lt⟩ := checkedAdd_lt hlen_lt
    (show proto.toUInt32.toNat < 256 from proto.toNat_lt) (by omega)
  obtain ⟨hseg, -⟩ := checkedAdd_lt hproto_lt (foldCarries_done (sumWords segment 0)) (by omega)
  unfold checkedSumPseudoIpv6
  rw [checkedChecksumSum_eq (by rw [src.size]; omega), ok_bind,
    checkedChecksumSum_eq (by rw [dst.size]; omega), ok_bind, checkedChecksumSum_eq (by simp),
    checkedChecksumSum_eq (by omega)]
  unfold checksumSum
  rw [haddr, ok_bind, ok_bind, hlen, ok_bind, hproto, ok_bind, ok_bind, hseg, ok_bind,
    checkedFold_eq]
  rfl

/-! ## The split checksum is the plain one -/

theorem debugAssert_ok {build : Build} {cond : Bool} (h : cond = true) :
    debugAssert build cond = .ok () := by
  rw [debugAssert, h, if_neg (by simp)]

/-- Sums that fold alike have the same checksum. -/
theorem finish_eq_internetChecksum {s : UInt32} {data : Bytes} (hdata : data.length ≤ 131072)
    (h : s.toNat = fold (wordSum data)) : finish s = internetChecksum data := by
  apply UInt16.toNat_inj.mp
  rw [finish_eq h, toNat_internetChecksum hdata]

/-- The checksum of a segment behind a pseudo-header, computed in parts, is the
plain checksum of the two together: in the release build, in the debug build for
the segments that its assertion lets through, and with overflow checks on. -/
structure SplitIsPlain (pseudo segment : Bytes) (transport : Build → Checked UInt16)
    (checked : Except Trap UInt16) : Prop where
  release : transport .release = .ok (internetChecksum (pseudo ++ segment))
  debug : segment.length ≤ maxTransportSegment →
    transport .debug = .ok (internetChecksum (pseudo ++ segment))
  split_checked : checked = .ok (internetChecksum (pseudo ++ segment))
  plain_checked : checkedInternetChecksum (pseudo ++ segment) =
    .ok (internetChecksum (pseudo ++ segment))

/-- It is enough that the sum of the parts, before it is finished, folds like the sum
of the whole. -/
theorem splitIsPlain_of_sum {pseudo : Bytes} {transport : Build → Checked UInt16}
    {checked : Except Trap UInt16} {s : UInt32} (heven : pseudo.length % 2 = 0)
    (hlen : (pseudo ++ segment).length ≤ 131072)
    (hsum : s.toNat = fold (wordSum pseudo + wordSum segment))
    (htransport : ∀ build, transport build =
      (debugAssert build (segment.length ≤ maxTransportSegment) >>= fun _ => .ok (finish s)))
    (hchecked : checked = .ok (finish s)) : SplitIsPlain pseudo segment transport checked := by
  have hvalue : finish s = internetChecksum (pseudo ++ segment) := by
    apply finish_eq_internetChecksum hlen
    rw [hsum, wordSum_append _ _ heven]
  constructor
  · rw [htransport, hvalue]
    rfl
  · intro hfits
    rw [htransport, debugAssert_ok (by simpa using hfits), ok_bind, hvalue]
  · rw [hchecked, hvalue]
  · exact checkedInternetChecksum_eq hlen

theorem splitIsPlain_ipv4 (src dst : FixedBytes 4) (h : segment.length < 65536) :
    SplitIsPlain (pseudoIpv4 src dst proto segment.length) segment
      (fun build => transportChecksumIpv4 build src dst proto segment)
      (checkedTransportIpv4 src dst proto segment) := by
  have hph := length_pseudoIpv4 src dst proto segment.length
  refine splitIsPlain_of_sum (by rw [hph]) ?_ (toNat_checksumSumPseudoIpv4 h) (fun _ => rfl) ?_
  · rw [List.length_append, hph]
    omega
  · rw [checkedTransportIpv4, checkedSumPseudoIpv4_eq src dst h, ok_bind, checkedFinish_eq]

theorem splitIsPlain_ipv6 (src dst : FixedBytes 16) (h : segment.length < 65536) :
    SplitIsPlain (pseudoIpv6 src dst proto segment.length) segment
      (fun build => transportChecksumIpv6 build src dst proto segment)
      (checkedTransportIpv6 src dst proto segment) := by
  have hph := length_pseudoIpv6 src dst proto segment.length
  refine splitIsPlain_of_sum (by rw [hph]) ?_ (toNat_checksumSumPseudoIpv6 h) (fun _ => rfl) ?_
  · rw [List.length_append, hph]
    omega
  · rw [checkedTransportIpv6, checkedSumPseudoIpv6_eq src dst h, ok_bind, checkedFinish_eq]

/-- **The split checksums are the plain checksum** of the 12-byte or 40-byte
pseudo-header and the segment, for all addresses and protocols and every segment
whose length fits into 16 bits, with no `u32` addition overflowing; and the folding
loop ends wherever it is started. -/
theorem transportChecksum_eq_plain (proto : UInt8) (segment : Bytes)
    (h : segment.length < 65536) :
    (∀ src dst : FixedBytes 4, (pseudoIpv4 src dst proto segment.length).length = 12 ∧
      SplitIsPlain (pseudoIpv4 src dst proto segment.length) segment
        (fun build => transportChecksumIpv4 build src dst proto segment)
        (checkedTransportIpv4 src dst proto segment)) ∧
    (∀ src dst : FixedBytes 16, (pseudoIpv6 src dst proto segment.length).length = 40 ∧
      SplitIsPlain (pseudoIpv6 src dst proto segment.length) segment
        (fun build => transportChecksumIpv6 build src dst proto segment)
        (checkedTransportIpv6 src dst proto segment)) ∧
    ∀ sum : UInt32, ∃ n ≤ 3, Ends foldRound sum n (foldCarries sum) :=
  ⟨fun src dst => ⟨length_pseudoIpv4 _ _ _ _, splitIsPlain_ipv4 src dst h⟩,
    fun src dst => ⟨length_pseudoIpv6 _ _ _ _, splitIsPlain_ipv6 src dst h⟩, ends_foldRound⟩

/-- Three bytes of UDP between two IPv4 and between two IPv6 addresses. -/
theorem transportChecksum_eq_plain_odd :
    SplitIsPlain [10, 0, 0, 1, 10, 0, 0, 2, 0, 17, 0, 3] [1, 2, 3]
      (fun build => transportChecksumIpv4 build ⟨[10, 0, 0, 1], rfl⟩ ⟨[10, 0, 0, 2], rfl⟩ 17
        [1, 2, 3])
      (checkedTransportIpv4 ⟨[10, 0, 0, 1], rfl⟩ ⟨[10, 0, 0, 2], rfl⟩ 17 [1, 2, 3]) ∧
    SplitIsPlain (List.replicate 35 0 ++ [3, 0, 0, 0, 17]) [1, 2, 3]
      (fun build => transportChecksumIpv6 build ⟨List.replicate 16 0, rfl⟩
        ⟨List.replicate 16 0, rfl⟩ 17 [1, 2, 3])
      (checkedTransportIpv6 ⟨List.replicate 16 0, rfl⟩ ⟨List.replicate 16 0, rfl⟩ 17
        [1, 2, 3]) :=
  ⟨((transportChecksum_eq_plain 17 [1, 2, 3] (by decide)).1 ⟨[10, 0, 0, 1], rfl⟩
      ⟨[10, 0, 0, 2], rfl⟩).2,
    ((transportChecksum_eq_plain 17 [1, 2, 3] (by decide)).2.1 ⟨List.replicate 16 0, rfl⟩
      ⟨List.replicate 16 0, rfl⟩).2⟩

end PcapSlim.Checksum
