/-
PcapSlim.Lib.Agree — lists that agree off a set of positions.

`AgreeOff hidden xs ys` says that the two lists differ in the entries of `hidden` at
most. It is an equivalence for each set. To write the same value at one position of
both takes the position out of the set (`AgreeOff.set`), and lists that agree off
none of their positions are equal (`AgreeOff.eq`). So what a program makes of a
buffer does not depend on the hidden entries, if it overwrites each of them with a
value that it computed from the others.
-/
import PcapSlim.Lib.Octets
import Mathlib.Data.Set.Insert

namespace Lib.Agree

open Lib.Buffer Lib.Octets

variable {α : Type} [Inhabited α]

/-- Lists of one length whose entries are the same but at the positions in `hidden`. -/
structure AgreeOff (hidden : Set Nat) (xs ys : List α) : Prop where
  length_eq : xs.length = ys.length
  agree : ∀ i < xs.length, i ∉ hidden → elemAt xs i = elemAt ys i

namespace AgreeOff

variable {hidden : Set Nat} {xs ys : List α}

/-- A smaller set of hidden positions says more. -/
theorem mono (h : AgreeOff hidden xs ys) {hidden' : Set Nat} (hsub : hidden ⊆ hidden') :
    AgreeOff hidden' xs ys :=
  ⟨h.length_eq, fun i hi hnot => h.agree i hi fun hin => hnot (hsub hin)⟩

/-- Lists that agree off none of their positions are equal. -/
theorem eq (h : AgreeOff hidden xs ys) (hnone : ∀ i < xs.length, i ∉ hidden) : xs = ys :=
  ext_elemAt h.length_eq fun i hi => h.agree i hi (hnone i hi)

/-- The same value written to both is hidden no longer. -/
theorem set (h : AgreeOff hidden xs ys) (i : Nat) (a : α) :
    AgreeOff (hidden \ {i}) (xs.set i a) (ys.set i a) := by
  refine ⟨by simp [h.length_eq], fun j hj hnot => ?_⟩
  rw [List.length_set] at hj
  by_cases hij : i = j
  · subst hij
    rw [elemAt_set hj, elemAt_set (h.length_eq ▸ hj)]
    simp
  · rw [elemAt_set_ne hij, elemAt_set_ne hij]
    exact h.agree j hj fun hin => hnot ⟨hin, fun hj' => hij hj'.symm⟩

/-- A window without hidden positions is the same in both. -/
theorem window_eq (h : AgreeOff hidden xs ys) {lo hi : Nat} (hlen : hi ≤ xs.length)
    (hnone : ∀ i, lo ≤ i → i < hi → i ∉ hidden) : (xs.take hi).drop lo = (ys.take hi).drop lo :=
  window_congr (h.length_eq ▸ hlen) hlen fun i hlo hhi => h.agree i (by omega) (hnone i hlo hhi)

end AgreeOff

/-- A 16-bit field that is stored in both is hidden no longer. -/
theorem AgreeOff.putBe16 {hidden : Set Nat} {buf buf' : Bytes} (h : AgreeOff hidden buf buf')
    (i v : Nat) :
    AgreeOff (hidden \ {i, i + 1}) (Octets.putBe16 buf i v) (Octets.putBe16 buf' i v) := by
  refine ((h.set i _).set (i + 1) _).mono fun j hj => ?_
  simp only [Set.mem_sdiff, Set.mem_singleton_iff, Set.mem_insert_iff, not_or] at hj ⊢
  exact ⟨hj.1.1, hj.1.2, hj.2⟩

end Lib.Agree
