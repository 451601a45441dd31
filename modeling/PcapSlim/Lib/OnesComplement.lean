/-
PcapSlim.Lib.OnesComplement — the arithmetic of 16-bit one's-complement sums.

A checksum of this kind adds the 16-bit words of its data, brings the carries
out of the low 16 bits back in ("end around") until none is left, and stores
the complement. `wordSum` is the plain sum, `carry` one end-around round and
`fold` what the rounds end in. `fold` forgets everything but the residue modulo
65535 and whether the sum was zero (`fold_eq_fold`), which is why sums may be
folded early, in parts and in any order (`fold_add_fold`), and why data that
includes its own complement folds to 65535 (`fold_add_complement`).
-/
import PcapSlim.Lib.Octets

namespace Lib.OnesComplement

open Lib.Buffer Lib.Octets

/-! ## End-around carry -/

/-- Bring the carries out of the low 16 bits back in, once. -/
def carry (n : Nat) : Nat := n % 65536 + n / 65536

/-- What repeated `carry` ends in: the representative of `n` modulo 65535 in
`1 … 65535`, and 0 for 0 only. -/
def fold (n : Nat) : Nat := if n = 0 then 0 else (n - 1) % 65535 + 1

theorem fold_le (n : Nat) : fold n ≤ 65535 := by
  unfold fold
  split <;> omega

theorem fold_of_lt {n : Nat} (h : n < 65536) : fold n = n := by
  unfold fold
  split <;> omega

theorem fold_eq_zero {n : Nat} : fold n = 0 ↔ n = 0 := by
  unfold fold
  split <;> omega

theorem fold_mod (n : Nat) : fold n % 65535 = n % 65535 := by
  unfold fold
  split <;> omega

/-- A round keeps the sum's residue modulo 65535 and whether it is zero. -/
theorem fold_carry (n : Nat) : fold (carry n) = fold n := by
  unfold fold carry
  split <;> split <;> omega

/-- Folding keeps exactly the residue modulo 65535 and whether the sum is zero. -/
theorem fold_eq_fold {m n : Nat} :
    fold m = fold n ↔ m % 65535 = n % 65535 ∧ (m = 0 ↔ n = 0) := by
  unfold fold
  split <;> split <;> omega

/-- Parts of a sum may be folded before they are added. -/
theorem fold_add_fold_left (m n : Nat) : fold (fold m + n) = fold (m + n) := by
  rw [fold_eq_fold]
  unfold fold
  split <;> omega

theorem fold_add_fold_right (m n : Nat) : fold (m + fold n) = fold (m + n) := by
  rw [Nat.add_comm, fold_add_fold_left, Nat.add_comm]

theorem fold_add_fold (m n : Nat) : fold (fold m + fold n) = fold (m + n) := by
  rw [fold_add_fold_left, fold_add_fold_right]

/-- Folding once more changes nothing. -/
theorem fold_fold (n : Nat) : fold (fold n) = fold n := by
  simpa using fold_add_fold_left n 0

/-- Data whose sum is `n` and that also holds the complement of its folded sum
folds to 65535: this is what a receiver checks. -/
theorem fold_add_complement (n : Nat) : fold (n + (65535 - fold n)) = 65535 := by
  unfold fold
  split <;> split <;> omega

/-- Storing 65535 where the complement is 0 leaves the check intact. -/
theorem fold_add_max {n : Nat} (h : fold n = 65535) : fold (n + 65535) = 65535 := by
  unfold fold at *
  split at h <;> split <;> omega

/-- A check that holds survives the exchange of a part of the data exactly when the
new part has the residue of the old one. -/
theorem fold_exchange_iff {a b n : Nat} (h : fold (a + n) = 65535) (hpos : 0 < n) :
    fold (b + n) = 65535 ↔ b % 65535 = a % 65535 := by
  unfold fold at *
  split at h <;> split <;> omega

/-! ## The sum of the words of a buffer -/

/-- The sum of the big-endian 16-bit words; a last odd byte is a word's most
significant byte. -/
def wordSum : Bytes → Nat
  | hi :: lo :: rest => hi.toNat * 256 + lo.toNat + wordSum rest
  | [b] => b.toNat * 256
  | [] => 0

@[simp] theorem wordSum_nil : wordSum [] = 0 := rfl

theorem wordSum_cons_cons (hi lo : UInt8) (rest : Bytes) :
    wordSum (hi :: lo :: rest) = hi.toNat * 256 + lo.toNat + wordSum rest := rfl

/-- Words do not straddle a cut at an even offset. -/
theorem wordSum_append : ∀ (xs ys : Bytes), xs.length % 2 = 0 →
    wordSum (xs ++ ys) = wordSum xs + wordSum ys
  | [], ys, _ => by simp
  | [_], _, h => by simp at h
  | hi :: lo :: rest, ys, h => by
      have hrest : rest.length % 2 = 0 := by simp only [List.length_cons] at h; omega
      rw [List.cons_append, List.cons_append, wordSum_cons_cons, wordSum_cons_cons,
        wordSum_append rest ys hrest]
      omega

/-- Each word adds at most 65535. -/
theorem wordSum_le : ∀ xs : Bytes, wordSum xs ≤ 65535 * ((xs.length + 1) / 2)
  | [] => by simp
  | [b] => by
      have := b.toNat_lt
      simp only [wordSum, List.length_cons, List.length_nil]
      omega
  | hi :: lo :: rest => by
      have := hi.toNat_lt
      have := lo.toNat_lt
      have := wordSum_le rest
      simp only [wordSum, List.length_cons]
      omega

/-- Rewriting the word at an even offset moves the sum by the difference. -/
theorem wordSum_putBe16 : ∀ (xs : Bytes) (i v : Nat), i % 2 = 0 → i + 1 < xs.length →
    wordSum (putBe16 xs i v) + (be16At xs i).toNat = wordSum xs + v % 65536
  | [], i, v, _, h => by simp at h
  | [_], i, v, _, h => by simp only [List.length_cons, List.length_nil] at h; omega
  | hi :: lo :: rest, 0, v, _, _ => by
      have hput : putBe16 (hi :: lo :: rest) 0 v = hi16 v :: lo16 v :: rest := rfl
      rw [hput, wordSum_cons_cons, wordSum_cons_cons, toNat_hi16, toNat_lo16, toNat_be16At]
      simp only [elemAt_cons_zero, elemAt_cons_succ]
      omega
  | hi :: lo :: rest, 1, v, h, _ => by simp at h
  | hi :: lo :: rest, i + 2, v, h, hlt => by
      have hput : putBe16 (hi :: lo :: rest) (i + 2) v = hi :: lo :: putBe16 rest i v := rfl
      have hat : be16At (hi :: lo :: rest) (i + 2) = be16At rest i := by
        simp [be16At]
      have ih := wordSum_putBe16 rest i v (by omega)
        (by simp only [List.length_cons] at hlt; omega)
      rw [hput, hat, wordSum_cons_cons, wordSum_cons_cons]
      omega

/-- A checksum field that was zero while the data was summed adds its own value. -/
theorem wordSum_put_over_zero {xs : Bytes} {i : Nat} {v : UInt16} (heven : i % 2 = 0)
    (hlt : i + 1 < xs.length) (hzero : be16At xs i = 0) :
    wordSum (putBe16 xs i v.toNat) = wordSum xs + v.toNat := by
  have h := wordSum_putBe16 xs i v.toNat heven hlt
  have hv := v.toNat_lt
  rw [hzero, Nat.mod_eq_of_lt (by omega)] at h
  exact h

end Lib.OnesComplement
