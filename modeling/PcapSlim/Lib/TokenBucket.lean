/-
PcapSlim.Lib.TokenBucket — token buckets over an ordered field.

A bucket gains `rate` tokens in a unit of time, holds at most `burst` of them and
starts full; what is spent is taken out of it. `Within` is the invariant: what
was spent and what is still there are together no more than a full bucket and
what has flowed in. Waiting for more tokens than are there ends if the bucket can
hold them; `sub_fill_le_of_wait` is one round of that, `le_fill_of_wait` all of it.
-/
import Mathlib.Algebra.Order.Field.Basic
import Mathlib.Tactic.Linarith
import Mathlib.Tactic.Ring

namespace Lib.TokenBucket

variable {K : Type*} [Field K] [LinearOrder K]

/-- What is in the bucket a time `dt` after there were `tokens` in it. -/
def fill (rate burst tokens dt : K) : K := min (tokens + rate * dt) burst

theorem fill_le_burst (rate burst tokens dt : K) : fill rate burst tokens dt ≤ burst :=
  min_le_right _ _

theorem fill_le (rate burst tokens dt : K) : fill rate burst tokens dt ≤ tokens + rate * dt :=
  min_le_left _ _

/-- Nothing flows in within no time. -/
theorem fill_zero {rate burst tokens : K} (h : tokens ≤ burst) :
    fill rate burst tokens 0 = tokens := by
  rw [fill, mul_zero, add_zero, min_eq_left h]

/-! ## What can be spent -/

/-- At the time `last` there are `tokens` in the bucket, which was full at `start`,
and `spent` were taken out since. -/
structure Within (rate burst start tokens spent last : K) : Prop where
  nonneg : 0 ≤ tokens
  le_burst : tokens ≤ burst
  spent_add_le : spent + tokens ≤ burst + rate * (last - start)

/-- A new bucket is full. -/
theorem Within.full {rate burst : K} (hburst : 0 ≤ burst) (start : K) :
    Within rate burst start burst 0 start where
  nonneg := hburst
  le_burst := le_rfl
  spent_add_le := by simp

variable [IsStrictOrderedRing K]

/-- Tokens do not leak out. -/
theorem le_fill {rate burst tokens dt : K} (hrate : 0 ≤ rate) (hdt : 0 ≤ dt) (h : tokens ≤ burst) :
    tokens ≤ fill rate burst tokens dt :=
  le_min (le_add_of_nonneg_right (mul_nonneg hrate hdt)) h

namespace Within

variable {rate burst start tokens spent last : K}

/-- Tokens flow in until `now`. -/
theorem fill (h : Within rate burst start tokens spent last) (hrate : 0 ≤ rate) {now : K}
    (hnow : last ≤ now) :
    Within rate burst start (fill rate burst tokens (now - last)) spent now where
  nonneg := h.nonneg.trans (le_fill hrate (sub_nonneg.mpr hnow) h.le_burst)
  le_burst := fill_le_burst _ _ _ _
  spent_add_le := by
    calc spent + TokenBucket.fill rate burst tokens (now - last)
        ≤ spent + tokens + rate * (now - last) := by
          rw [add_assoc]; exact add_le_add_right (fill_le _ _ _ _) spent
      _ ≤ burst + rate * (last - start) + rate * (now - last) :=
          add_le_add_left h.spent_add_le _
      _ = burst + rate * (now - start) := by ring

/-- `n` tokens that are there are taken out. -/
theorem spend (h : Within rate burst start tokens spent last) {n : K} (hn : 0 ≤ n)
    (hle : n ≤ tokens) : Within rate burst start (tokens - n) (spent + n) last where
  nonneg := sub_nonneg.mpr hle
  le_burst := (sub_le_self tokens hn).trans h.le_burst
  spent_add_le := by
    rw [add_assoc, add_sub_cancel]
    exact h.spent_add_le

/-- What was spent until `now` is at most a full bucket and what has flowed in. -/
theorem spent_le (h : Within rate burst start tokens spent last) (hrate : 0 ≤ rate) {now : K}
    (hnow : last ≤ now) : spent ≤ burst + rate * (now - start) := by
  have hspent : spent ≤ burst + rate * (last - start) :=
    (le_add_of_nonneg_right h.nonneg).trans h.spent_add_le
  have hflow : rate * (last - start) ≤ rate * (now - start) :=
    mul_le_mul_of_nonneg_left (sub_le_sub_right hnow start) hrate
  linarith

end Within

/-! ## Waiting for tokens -/

/-- Who lacks `n - tokens` and waits until these have flowed in, or for a unit of
time, lacks a unit's inflow less afterwards, or nothing. -/
theorem sub_fill_le_of_wait {rate burst tokens n dt : K} (hrate : 0 < rate) (hn : n ≤ burst)
    (hwait : min ((n - tokens) / rate) 1 ≤ dt) {k : Nat} (hk : n - tokens ≤ (k + 1) * rate) :
    n - fill rate burst tokens dt ≤ k * rate := by
  have hflow : 0 ≤ (k : K) * rate := mul_nonneg (Nat.cast_nonneg k) hrate.le
  have hfull : n - burst ≤ k * rate := (sub_nonpos.mpr hn).trans hflow
  have hpart : n - (tokens + rate * dt) ≤ k * rate := by
    rcases min_le_iff.mp hwait with hdt | hdt
    · have := (div_le_iff₀ hrate).mp hdt
      linarith
    · have := mul_le_mul_of_nonneg_left hdt hrate.le
      linarith
  rw [fill]
  rcases min_choice (tokens + rate * dt) burst with h | h <;> rw [h] <;> assumption

/-- Whoever waits long enough for what the bucket can hold finds it there. -/
theorem le_fill_of_wait {rate burst tokens n dt : K} (hrate : 0 < rate) (htokens : 0 ≤ tokens)
    (hn : n ≤ burst) (hdt : n / rate ≤ dt) : n ≤ fill rate burst tokens dt := by
  have hflow : n ≤ rate * dt := by
    rw [mul_comm]
    exact (div_le_iff₀ hrate).mp hdt
  exact le_min (hflow.trans (le_add_of_nonneg_left htokens)) hn

/-- It makes no difference whether the bucket is looked at on the way. -/
theorem fill_fill {rate burst tokens dt dt' : K} (hflow : 0 ≤ rate * dt') :
    fill rate burst (fill rate burst tokens dt) dt' = fill rate burst tokens (dt + dt') := by
  have hfull : burst ≤ burst + rate * dt' := le_add_of_nonneg_right hflow
  rw [fill, fill, fill, ← min_add_add_right, min_assoc, min_eq_right hfull, add_assoc, ← mul_add]

end Lib.TokenBucket
