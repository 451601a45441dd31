/-
PcapSlim.ChecksumTheorems — the `u32` sums of `checksum.rs` are one's-complement
sums.

Every sum the code forms stays below 2^32, so the wrapping additions add
(`toNat_sumWords`), the folding loop ends after two rounds and computes `fold`
(`toNat_foldCarries`), and `finish` is the complement (`toNat_finish`). The two
pseudo-header checksums then come out as the complement of the folded sum of
pseudo-header and segment, although the code folds the parts separately.
-/
import PcapSlim.Checksum
import PcapSlim.Lib.OnesComplement

namespace PcapSlim.Checksum

open Lib.Buffer Lib.Octets Lib.OnesComplement

/-! ## The folding loop -/

theorem toNat_shiftRight_sixteen (s : UInt32) : (s >>> 16).toNat = s.toNat / 65536 := by
  simp [Nat.shiftRight_eq_div_pow]

theorem toNat_and_ffff (s : UInt32) : (s &&& (0xffff : UInt32)).toNat = s.toNat % 65536 := by
  simpa using Nat.and_two_pow_sub_one_eq_mod s.toNat 16

/-- One round of the loop is one end-around carry. -/
theorem toNat_round (s : UInt32) :
    ((s &&& (0xffff : UInt32)) + (s >>> 16)).toNat = carry s.toNat := by
  have hs := s.toNat_lt
  rw [UInt32.toNat_add, toNat_and_ffff, toNat_shiftRight_sixteen, carry]
  omega

theorem guard_iff (s : UInt32) : (s >>> 16 != 0) = true ↔ 65536 ≤ s.toNat := by
  rw [bne_iff_ne, ne_eq, ← UInt32.toNat_inj, toNat_shiftRight_sixteen]
  simp

/-- When the loop is left its guard is false. -/
theorem foldCarries_done (s : UInt32) : (foldCarries s).toNat < 65536 := by
  have hs := s.toNat_lt
  simp only [foldCarries, foldCarriesFor]
  split
  · rename_i h1
    rw [guard_iff] at h1
    split
    · rename_i h2
      rw [guard_iff, toNat_round] at h2
      rw [toNat_round, toNat_round]
      unfold carry at *
      omega
    · rename_i h2
      rw [guard_iff] at h2
      omega
  · rename_i h1
    rw [guard_iff] at h1
    omega

/-- The loop computes the folded sum. -/
theorem toNat_foldCarries (s : UInt32) : (foldCarries s).toNat = fold s.toNat := by
  have hfold : fold (foldCarries s).toNat = fold s.toNat := by
    simp only [foldCarries, foldCarriesFor]
    split
    · split
      · rw [toNat_round, toNat_round, fold_carry, fold_carry]
      · rw [toNat_round, fold_carry]
    · rfl
  rw [← hfold, fold_of_lt (foldCarries_done s)]

theorem toNat_finish (s : UInt32) : (finish s).toNat = 65535 - fold s.toNat := by
  have hlt := foldCarries_done s
  rw [finish, UInt32.toNat_toUInt16, UInt32.toNat_not, toNat_foldCarries]
  rw [toNat_foldCarries] at hlt
  have hsize : UInt32.size = 4294967296 := rfl
  omega

theorem finish_eq {s : UInt32} {n : Nat} (h : s.toNat = fold n) :
    (finish s).toNat = 65535 - fold n := by
  rw [toNat_finish, h, fold_fold]

/-! ## The summing loop -/

theorem toNat_shiftLeft_eight (b : UInt8) : (b.toUInt32 <<< 8).toNat = b.toNat * 256 := by
  have hb := b.toNat_lt
  have h8 : (8 : UInt32).toNat % 32 = 8 := rfl
  rw [UInt32.toNat_shiftLeft, UInt8.toNat_toUInt32, h8, Nat.shiftLeft_eq]
  omega

theorem toNat_word (hi lo : UInt8) :
    (be16 hi lo).toUInt32.toNat = hi.toNat * 256 + lo.toNat := by
  rw [UInt16.toNat_toUInt32, toNat_be16]

theorem toNat_add_word {hi lo : UInt8} {sum : UInt32}
    (h : sum.toNat + (hi.toNat * 256 + lo.toNat) < 4294967296) :
    (sum + (be16 hi lo).toUInt32).toNat = sum.toNat + (hi.toNat * 256 + lo.toNat) := by
  rw [UInt32.toNat_add, toNat_word, Nat.mod_eq_of_lt h]

/-- Below 2^32 the wrapping additions add. -/
theorem toNat_sumWords : ∀ (data : Bytes) (sum : UInt32),
    sum.toNat + wordSum data < 4294967296 →
    (sumWords data sum).toNat = sum.toNat + wordSum data
  | [], sum, _ => rfl
  | [b], sum, h => by
      simp only [wordSum] at h
      rw [sumWords, UInt32.toNat_add, toNat_shiftLeft_eight, wordSum]
      omega
  | hi :: lo :: rest, sum, h => by
      rw [wordSum_cons_cons] at h
      have hadd := toNat_add_word
        (Nat.lt_of_le_of_lt (Nat.add_le_add_left (Nat.le_add_right _ _) _) h)
      rw [sumWords, toNat_sumWords rest _ (by rw [hadd]; omega), hadd, wordSum_cons_cons]
      omega

/-- Data short enough not to wrap the sum. -/
theorem wordSum_lt {data : Bytes} (h : data.length ≤ 131072) : wordSum data < 4294967296 := by
  have := wordSum_le data
  omega

theorem toNat_checksumSum (data : Bytes) (h : data.length ≤ 131072) :
    (checksumSum data).toNat = fold (wordSum data) := by
  rw [checksumSum, toNat_foldCarries, toNat_sumWords data 0 (by simpa using wordSum_lt h)]
  simp

/-- `internet_checksum` is the complement of the folded sum. -/
theorem toNat_internetChecksum {data : Bytes} (h : data.length ≤ 131072) :
    (internetChecksum data).toNat = 65535 - fold (wordSum data) := by
  rw [internetChecksum, toNat_finish, toNat_checksumSum data h, fold_fold]

/-! ## Pseudo-headers -/

/-- The IPv4 pseudo-header: addresses, zero, protocol, segment length. -/
def pseudoIpv4 (src dst : FixedBytes 4) (proto : UInt8) (segmentLen : Nat) : Bytes :=
  src.bytes ++ dst.bytes ++ [0, proto, hi16 segmentLen, lo16 segmentLen]

/-- The IPv6 pseudo-header: addresses, segment length, three zeros, next header. -/
def pseudoIpv6 (src dst : FixedBytes 16) (proto : UInt8) (segmentLen : Nat) : Bytes :=
  src.bytes ++ dst.bytes ++ toBe32 (UInt32.ofNat segmentLen) ++ [0, 0, 0, proto]

theorem length_pseudoIpv4 (src dst : FixedBytes 4) (proto : UInt8) (segmentLen : Nat) :
    (pseudoIpv4 src dst proto segmentLen).length = 12 := by
  simp [pseudoIpv4, src.size, dst.size]

theorem length_pseudoIpv6 (src dst : FixedBytes 16) (proto : UInt8) (segmentLen : Nat) :
    (pseudoIpv6 src dst proto segmentLen).length = 40 := by
  simp [pseudoIpv6, src.size, dst.size]

theorem toNat_checksumSumPseudoIpv4 {src dst : FixedBytes 4} {proto : UInt8} {segment : Bytes}
    (h : segment.length < 65536) :
    (checksumSumPseudoIpv4 src dst proto segment).toNat =
      fold (wordSum (pseudoIpv4 src dst proto segment.length) + wordSum segment) := by
  have h1 := toNat_checksumSum (pseudoIpv4 src dst proto segment.length)
    (by rw [length_pseudoIpv4]; omega)
  have h2 := toNat_checksumSum segment (by omega)
  have hle1 := fold_le (wordSum (pseudoIpv4 src dst proto segment.length))
  have hle2 := fold_le (wordSum segment)
  unfold checksumSumPseudoIpv4
  rw [Nat.mod_eq_of_lt h]
  change (foldCarries (checksumSum (pseudoIpv4 src dst proto segment.length) +
    checksumSum segment)).toNat = _
  rw [toNat_foldCarries, UInt32.toNat_add, h1, h2, Nat.mod_eq_of_lt (by omega), fold_add_fold]

theorem wordSum_pseudoIpv6 (src dst : FixedBytes 16) (proto : UInt8) (n : Nat) :
    wordSum (pseudoIpv6 src dst proto n) =
      wordSum src.bytes + wordSum dst.bytes + wordSum (toBe32 (UInt32.ofNat n)) +
        proto.toNat := by
  unfold pseudoIpv6
  rw [wordSum_append _ _ (by simp [src.size, dst.size]),
    wordSum_append _ _ (by simp [src.size, dst.size]), wordSum_append _ _ (by simp [src.size])]
  simp [wordSum]

theorem toNat_checksumSumPseudoIpv6 {src dst : FixedBytes 16} {proto : UInt8} {segment : Bytes}
    (h : segment.length < 65536) :
    (checksumSumPseudoIpv6 src dst proto segment).toNat =
      fold (wordSum (pseudoIpv6 src dst proto segment.length) + wordSum segment) := by
  have hsrc := toNat_checksumSum src.bytes (by rw [src.size]; omega)
  have hdst := toNat_checksumSum dst.bytes (by rw [dst.size]; omega)
  have hlen := toNat_checksumSum (toBe32 (UInt32.ofNat segment.length)) (by simp)
  have hseg := toNat_checksumSum segment (by omega)
  have hproto := proto.toNat_lt
  have hle1 := fold_le (wordSum src.bytes)
  have hle2 := fold_le (wordSum dst.bytes)
  have hle3 := fold_le (wordSum (toBe32 (UInt32.ofNat segment.length)))
  have hle4 := fold_le (wordSum segment)
  rw [wordSum_pseudoIpv6]
  unfold checksumSumPseudoIpv6
  simp only [toNat_foldCarries, UInt32.toNat_add, UInt8.toNat_toUInt32, hsrc, hdst, hlen, hseg]
  rw [Nat.mod_eq_of_lt (by omega), Nat.mod_eq_of_lt (by omega), Nat.mod_eq_of_lt (by omega),
    Nat.mod_eq_of_lt (by omega), fold_eq_fold]
  have hmod := fold_mod (wordSum src.bytes)
  have hmod' := fold_mod (wordSum dst.bytes)
  have hmodlen := fold_mod (wordSum (toBe32 (UInt32.ofNat segment.length)))
  have hmodseg := fold_mod (wordSum segment)
  have hzero := fold_eq_zero (n := wordSum src.bytes)
  have hzero' := fold_eq_zero (n := wordSum dst.bytes)
  have hzerolen := fold_eq_zero (n := wordSum (toBe32 (UInt32.ofNat segment.length)))
  have hzeroseg := fold_eq_zero (n := wordSum segment)
  omega

end PcapSlim.Checksum
