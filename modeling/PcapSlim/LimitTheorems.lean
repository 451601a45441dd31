/-
PcapSlim.LimitTheorems — what the I/O cap promises.

Whatever the workers do, the bucket never gives out more than its burst and what
has flowed in, and what `acquire_io` was told of is either charged or pending
(`Inv`, which every step keeps). So the cap holds but for one batch (`cap_holds`).

A call of `acquire` ends if and only if its bytes fit into a full bucket
(`leaves_iff`): the loop waits for tokens, and there are never more than `burst`.
The source does not compare the two; a bucket of less than 0.131072 MB/s cannot
even hold a batch.
-/
import PcapSlim.Limit
import PcapSlim.Lib.Run
import Mathlib.Algebra.Order.Archimedean.Basic
import Mathlib.Tactic.NormNum

namespace PcapSlim.Limit

open Lib.TokenBucket Relation

/-! ## The bucket -/

namespace IoBucket

@[simp] theorem refill_rate (b : IoBucket) (now : ℚ) : (b.refill now).rate = b.rate := by
  unfold refill; dsimp only; split <;> rfl

@[simp] theorem refill_burst (b : IoBucket) (now : ℚ) : (b.refill now).burst = b.burst := by
  unfold refill; dsimp only; split <;> rfl

theorem refill_tokens_le {b : IoBucket} (h : b.tokens ≤ b.burst) (now : ℚ) :
    (b.refill now).tokens ≤ b.burst := by
  unfold refill
  dsimp only
  split
  · exact fill_le_burst _ _ _ _
  · exact h

/-- With a clock that does not run back, a refill is `fill`. -/
theorem refill_eq {b : IoBucket} {now : ℚ} (hle : b.tokens ≤ b.burst) (hnow : b.lastRefill ≤ now) :
    b.refill now =
      { b with tokens := fill b.rate b.burst b.tokens (now - b.lastRefill), lastRefill := now } := by
  have hdt : max (now - b.lastRefill) 0 = now - b.lastRefill := max_eq_left (sub_nonneg.mpr hnow)
  unfold refill
  dsimp only
  rw [hdt]
  split
  · rfl
  · next h =>
    have hsame : now = b.lastRefill := le_antisymm (sub_nonpos.mp (not_lt.mp h)) hnow
    subst hsame
    rw [sub_self, fill_zero hle]

/-- An iteration of the loop: the call returns, or it sleeps. -/
theorem acquireRound_cases (b : IoBucket) (bytes : Nat) (now : ℚ) :
    (bytes = 0 ∧ b.acquireRound bytes now = (b, none)) ∨
    ((bytes : ℚ) ≤ (b.refill now).tokens ∧ b.acquireRound bytes now =
      ({ b.refill now with tokens := (b.refill now).tokens - bytes }, none)) ∨
    ((b.refill now).tokens < bytes ∧ b.acquireRound bytes now =
      (b.refill now, some (min ((bytes - (b.refill now).tokens) / b.rate) 1))) := by
  unfold acquireRound
  dsimp only
  split
  · next h => exact .inl ⟨Nat.cast_nonpos.mp h, rfl⟩
  · split
    · next h => exact .inr (.inl ⟨h, rfl⟩)
    · next h => exact .inr (.inr ⟨not_le.mp h, by rw [refill_rate]⟩)

theorem acquireRound_sleep_le {b b' : IoBucket} {bytes : Nat} {now secs : ℚ}
    (h : b.acquireRound bytes now = (b', some secs)) : secs ≤ 1 := by
  obtain ⟨-, heq⟩ | ⟨-, heq⟩ | ⟨-, heq⟩ := b.acquireRound_cases bytes now
  all_goals cases heq.symm.trans h
  exact min_le_right _ _

end IoBucket

/-- The bucket `b` was full at `start`, `charged` bytes were taken out of it until
`now`, and its clock is not ahead. -/
structure Metered (rate burst start : ℚ) (b : IoBucket) (charged : Nat) (now : ℚ) : Prop where
  rate_eq : b.rate = rate
  burst_eq : b.burst = burst
  within : Within rate burst start b.tokens charged b.lastRefill
  refilled : b.lastRefill ≤ now

namespace Metered

variable {rate burst start now : ℚ} {b : IoBucket} {charged : Nat}

theorem new {m : ℚ} (hm : 0 < m) (start : ℚ) :
    Metered (IoBucket.new m start).rate (IoBucket.new m start).burst start
      (IoBucket.new m start) 0 start where
  rate_eq := rfl
  burst_eq := rfl
  within := by
    have hburst : 0 ≤ (IoBucket.new m start).burst := by simp only [IoBucket.new]; positivity
    rw [Nat.cast_zero]
    exact Within.full hburst start
  refilled := le_rfl

theorem later (h : Metered rate burst start b charged now) {now' : ℚ} (hnow : now ≤ now') :
    Metered rate burst start b charged now' :=
  { h with refilled := h.refilled.trans hnow }

theorem refill (h : Metered rate burst start b charged now) (hrate : 0 ≤ rate) :
    Metered rate burst start (b.refill now) charged now := by
  have hle : b.tokens ≤ b.burst := h.burst_eq ▸ h.within.le_burst
  have heq := IoBucket.refill_eq hle h.refilled
  refine ⟨by simp [h.rate_eq], by simp [h.burst_eq], ?_, by simp [heq]⟩
  rw [heq, h.rate_eq, h.burst_eq]
  exact h.within.fill hrate h.refilled

/-- What an iteration of `acquire` does to the bucket, if the call returns and if not. -/
theorem acquireRound (h : Metered rate burst start b charged now) (hrate : 0 ≤ rate) {bytes : Nat}
    {b' : IoBucket} {sleep : Option ℚ} (hround : b.acquireRound bytes now = (b', sleep)) :
    Metered rate burst start b' (if sleep.isNone then charged + bytes else charged) now := by
  have hrefill := h.refill hrate
  obtain ⟨hbytes, heq⟩ | ⟨hle, heq⟩ | ⟨-, heq⟩ := b.acquireRound_cases bytes now
  all_goals
    rw [heq, Prod.mk.injEq] at hround
    obtain ⟨rfl, rfl⟩ := hround
  · simpa [hbytes] using h
  · refine ⟨hrefill.rate_eq, hrefill.burst_eq, ?_, hrefill.refilled⟩
    simpa using hrefill.within.spend (Nat.cast_nonneg bytes) hle
  · simpa using hrefill

end Metered

/-! ## Calls -/

/-- A call that does not reach `acquire` only adds to what is pending. -/
theorem Call.enter_none {c : Call} {inner inner' : Inner} {b : IoBucket} (hio : inner.io = some b)
    (henter : c.enter inner = (inner', none)) :
    inner'.io = some b ∧ inner'.ioPending = inner.ioPending + c.bytes ∧
      (inner.ioPending < ioBatchBytes → inner'.ioPending < ioBatchBytes) ∧
      (c = .flushIo → inner'.ioPending = 0) := by
  cases c with
  | acquireIo bytes =>
    simp only [Call.enter, Inner.acquireIo, Inner.drain, hio, Option.map_some] at henter
    split at henter
    · cases henter
    · next hless =>
      cases henter
      have hmin : min (inner.ioPending + bytes) u64Max = inner.ioPending + bytes := by
        simp only [ioBatchBytes, u64Max] at hless ⊢
        omega
      exact ⟨rfl, hmin, fun _ => not_le.mp hless, fun h => nomatch h⟩
  | flushIo =>
    simp only [Call.enter, Inner.flushIo, Inner.drain, hio, Option.map_some] at henter
    split at henter
    · cases henter
    · next hnone =>
      cases henter
      exact ⟨hio, rfl, id, fun _ => Nat.eq_zero_of_not_pos hnone⟩

/-- A call that reaches `acquire` passes on all that is pending. -/
theorem Call.enter_some {c : Call} {inner inner' : Inner} {b : IoBucket} {bytes : Nat}
    (hio : inner.io = some b) (hlt : inner.ioPending < ioBatchBytes)
    (henter : c.enter inner = (inner', some bytes)) :
    inner'.io = some b ∧ inner'.ioPending = 0 ∧
      bytes = min (inner.ioPending + c.bytes) u64Max := by
  cases c with
  | acquireIo n =>
    simp only [Call.enter, Inner.acquireIo, Inner.drain, hio, Option.map_some] at henter
    split at henter
    · cases henter
      exact ⟨rfl, rfl, rfl⟩
    · cases henter
  | flushIo =>
    simp only [Call.enter, Inner.flushIo, Inner.drain, hio, Option.map_some] at henter
    split at henter
    · cases henter
      refine ⟨rfl, rfl, ?_⟩
      simp only [ioBatchBytes] at hlt
      simp only [Call.bytes, u64Max]
      omega
    · cases henter

/-- What `build` makes of a rate. -/
theorem LimitConfig.build_io {cfg : LimitConfig} {m start : ℚ} {inner : Inner}
    (hcfg : cfg.maxIoMbps = some m) (hm : 0 < m) (hbuild : cfg.build start = some inner) :
    inner.io = some (IoBucket.new m start) ∧ inner.ioPending = 0 := by
  simp only [LimitConfig.build, hcfg, Option.filter_some, hm, decide_true, if_true, Option.map_some,
    Option.isNone_some, Bool.false_and, Bool.false_eq_true, if_false, Option.some.injEq] at hbuild
  subst hbuild
  exact ⟨rfl, rfl⟩

/-! ## The invariant -/

variable {ι : Type*}

/-- What `acquire_io` was told of is charged or pending, or the call that has the
mutex is about to charge it, with all that its own caller adds. -/
def Balanced (s : Sys ι) : Prop :=
  match s.mutex with
  | none => s.accounted ≤ u64Max → s.accounted = s.charged + s.inner.ioPending
  | some h => s.inner.ioPending = 0 ∧
      (s.accounted ≤ u64Max → s.accounted < s.charged + ioBatchBytes) ∧
      (s.accounted + h.call.bytes ≤ u64Max → s.accounted + h.call.bytes = s.charged + h.bytes)

/-- What holds of every state, for the bucket that was new at `start`. -/
structure Inv (rate burst start : ℚ) (s : Sys ι) : Prop where
  metered : ∃ b, s.inner.io = some b ∧ Metered rate burst start b s.charged s.now
  pending_lt : s.inner.ioPending < ioBatchBytes
  balanced : Balanced s
  flushed : s.mutex = none → s.last = some .flushIo → s.inner.ioPending = 0

theorem inv_start {m : ℚ} (hm : 0 < m) {start : ℚ} {inner : Inner}
    (hio : inner.io = some (IoBucket.new m start)) (hpending : inner.ioPending = 0) :
    Inv (IoBucket.new m start).rate (IoBucket.new m start).burst start
      (Sys.start inner start : Sys ι) where
  metered := ⟨_, hio, Metered.new hm start⟩
  pending_lt := by
    show inner.ioPending < ioBatchBytes
    rw [hpending]
    decide
  balanced := fun _ => by simp [Sys.start, hpending]
  flushed := fun _ _ => hpending

/-- Each step keeps the invariant. -/
theorem inv_step [DecidableEq ι] {rate burst start : ℚ} (hrate : 0 ≤ rate) {s s' : Sys ι}
    (hinv : Inv rate burst start s) (hstep : Step s s') : Inv rate burst start s' := by
  obtain ⟨b, hio, hb⟩ := hinv.metered
  have hbal := hinv.balanced
  have hlt := hinv.pending_lt
  cases hstep with
  | tick hnow =>
    exact ⟨⟨b, hio, hb.later hnow⟩, hlt, hbal, hinv.flushed⟩
  | callEmpty hidle =>
    exact ⟨⟨b, hio, hb⟩, hlt, hbal, fun _ hlast => by cases hlast⟩
  | call hidle hc =>
    exact ⟨⟨b, hio, hb⟩, hlt, hbal, hinv.flushed⟩
  | @collect w c inner hcall hfree henter =>
    obtain ⟨hio', hpending, hless, hflush⟩ := Call.enter_none hio henter
    refine ⟨⟨b, hio', hb⟩, hless hlt, ?_, fun _ hlast => hflush (Option.some.inj hlast)⟩
    simp only [Balanced, hfree, Sys.returns] at hbal ⊢
    omega
  | @charge w c inner bytes hcall hfree henter =>
    obtain ⟨hio', hpending, hbytes⟩ := Call.enter_some hio hlt henter
    refine ⟨⟨b, hio', hb⟩, ?_, ?_, fun hmutex => by cases hmutex⟩
    · show inner.ioPending < ioBatchBytes
      omega
    · simp only [Balanced, hfree] at hbal ⊢
      refine ⟨hpending, fun _ => by omega, fun hle => ?_⟩
      have hall : s.charged + s.inner.ioPending + c.bytes = s.accounted + c.bytes := by omega
      omega
  | @sleep h b₀ b' secs hheld hio' hround =>
    obtain rfl : b₀ = b := Option.some.inj (hio'.symm.trans hio)
    refine ⟨⟨b', rfl, by simpa using hb.acquireRound hrate hround⟩, hlt, ?_, hinv.flushed⟩
    simpa only [Balanced, hheld] using hbal
  | @leave h b₀ b' hheld hio' hround =>
    obtain rfl : b₀ = b := Option.some.inj (hio'.symm.trans hio)
    simp only [Balanced, hheld] at hbal
    refine ⟨⟨b', rfl, by simpa [Sys.returns, Sys.pays] using hb.acquireRound hrate hround⟩, hlt,
      fun hle => ?_, fun _ _ => hbal.1⟩
    have hall := hbal.2.2 hle
    simp only [Sys.returns, Sys.pays, hbal.1, hall, Nat.add_zero]

/-! ## The cap -/

/-- The cap at a state of a run that began with a full bucket at `start`. -/
structure Capped (rate burst start : ℚ) (s : Sys ι) : Prop where
  tokens : ∃ b, s.inner.io = some b ∧ 0 ≤ b.tokens ∧ b.tokens ≤ burst
  pending_lt : s.inner.ioPending < ioBatchBytes
  exact : s.mutex = none → s.accounted ≤ u64Max → s.accounted = s.charged + s.inner.ioPending
  capped : s.accounted ≤ u64Max →
    (s.accounted : ℚ) ≤ burst + rate * (s.now - start) + ioBatchBytes - 1
  flushed : s.mutex = none → s.last = some .flushIo → s.accounted ≤ u64Max →
    (s.accounted : ℚ) ≤ burst + rate * (s.now - start)

/-- Less than a batch is not charged yet. -/
theorem Balanced.lt {s : Sys ι} (h : Balanced s) (hlt : s.inner.ioPending < ioBatchBytes)
    (hle : s.accounted ≤ u64Max) : s.accounted + 1 ≤ s.charged + ioBatchBytes := by
  unfold Balanced at h
  split at h
  · have := h hle
    omega
  · exact h.2.1 hle

theorem Inv.capped {rate burst start : ℚ} {s : Sys ι} (hrate : 0 ≤ rate)
    (h : Inv rate burst start s) : Capped rate burst start s := by
  obtain ⟨b, hio, hb⟩ := h.metered
  have hcharged : (s.charged : ℚ) ≤ burst + rate * (s.now - start) :=
    hb.within.spent_le hrate hb.refilled
  have hexact : s.mutex = none → s.accounted ≤ u64Max →
      s.accounted = s.charged + s.inner.ioPending := by
    intro hfree hle
    have := h.balanced
    simp only [Balanced, hfree] at this
    exact this hle
  refine ⟨⟨b, hio, hb.within.nonneg, hb.within.le_burst⟩, h.pending_lt, hexact, fun hle => ?_,
    fun hfree hlast hle => ?_⟩
  · have hone : (s.accounted : ℚ) + 1 ≤ s.charged + ioBatchBytes := by
      exact_mod_cast h.balanced.lt h.pending_lt hle
    linarith
  · rw [hexact hfree hle, h.flushed hfree hlast, Nat.add_zero]
    exact hcharged

theorem rate_pos {m : ℚ} (hm : 0 < m) (start : ℚ) : 0 < (IoBucket.new m start).rate := by
  simp only [IoBucket.new]
  positivity

/-- The invariant holds wherever workers get with the limits that `build` returns. -/
theorem inv_run [DecidableEq ι] {cfg : LimitConfig} {m start : ℚ} {inner : Inner} {s : Sys ι}
    (hcfg : cfg.maxIoMbps = some m) (hm : 0 < m) (hbuild : cfg.build start = some inner)
    (hrun : ReflTransGen Step (Sys.start inner start) s) :
    Inv (IoBucket.new m start).rate (IoBucket.new m start).burst start s := by
  obtain ⟨hio, hpending⟩ := LimitConfig.build_io hcfg hm hbuild
  exact Lib.Run.invariant_of_run (Inv _ _ start) (fun _ _ => inv_step (rate_pos hm start).le) hrun
    (inv_start hm hio hpending)

/-- Worker `w` was the first to call, for a batch or more, and is in `acquire`. -/
def Sys.charging [DecidableEq ι] (inner : Inner) (start : ℚ) (w : ι) (bytes : Nat) : Sys ι :=
  { (Sys.start inner start : Sys ι) with
    mutex := some { worker := w, call := .acquireIo bytes, bytes }
    calls := Function.update (fun _ => none) w (some (.acquireIo bytes)) }

theorem run_charging [DecidableEq ι] {inner : Inner} {b : IoBucket} (hio : inner.io = some b)
    (hpending : inner.ioPending = 0) (start : ℚ) (w : ι) {bytes : Nat}
    (hbatch : ioBatchBytes ≤ bytes) (hmax : bytes ≤ u64Max) :
    ReflTransGen Step (Sys.start inner start) (Sys.charging inner start w bytes) := by
  have hcall : (Call.acquireIo bytes) ≠ .acquireIo 0 := by
    simp only [ioBatchBytes] at hbatch
    simp only [ne_eq, Call.acquireIo.injEq]
    omega
  have henter : (Call.acquireIo bytes).enter inner = (inner, some bytes) := by
    obtain ⟨io, cpu, ioPending⟩ := inner
    obtain rfl : io = some b := hio
    obtain rfl : ioPending = 0 := hpending
    simp [Call.enter, Inner.acquireIo, Inner.drain, hbatch, hmax]
  refine .tail (.single (.call (w := w) (c := .acquireIo bytes) rfl hcall)) ?_
  exact .charge (Function.update_self ..) rfl henter

/-- The I/O cap holds in every state of every run: the bytes of the calls that have
returned are at most a full bucket, what has flowed in and less than one batch, and
there is nothing to add after `flush_io`. -/
theorem cap_holds [DecidableEq ι] {cfg : LimitConfig} {m start : ℚ} {inner : Inner} {s : Sys ι}
    (hcfg : cfg.maxIoMbps = some m) (hm : 0 < m) (hbuild : cfg.build start = some inner)
    (hrun : ReflTransGen Step (Sys.start inner start) s) :
    Capped (IoBucket.new m start).rate (IoBucket.new m start).burst start s :=
  (inv_run hcfg hm hbuild hrun).capped (rate_pos hm start).le

/-- One of two workers charges 300000 bytes of the 2 MB of a bucket of 1 MB/s. -/
theorem cap_holds_twoWorkers : ∃ s : Sys Bool,
    ReflTransGen Step (Sys.start { io := some (IoBucket.new 1 0), cpu := none, ioPending := 0 } 0) s ∧
      s.mutex = none ∧ s.accounted = 300000 ∧ Capped 1000000 2000000 0 s := by
  have hround : (IoBucket.new 1 0).acquireRound 300000 0 =
      ({ IoBucket.new 1 0 with tokens := 1700000 }, none) := by
    norm_num [IoBucket.acquireRound, IoBucket.refill, IoBucket.new]
  obtain ⟨s, hrun, hfree, hall⟩ : ∃ s : Sys Bool, ReflTransGen Step
      (Sys.start { io := some (IoBucket.new 1 0), cpu := none, ioPending := 0 } 0) s ∧
      s.mutex = none ∧ s.accounted = 300000 :=
    ⟨_, (run_charging rfl rfl 0 true (by decide) (by decide)).tail (.leave rfl rfl hround), rfl, rfl⟩
  have hcap := @cap_holds Bool _ { maxIoMbps := some 1 } 1 0 _ _ rfl one_pos rfl hrun
  have hrate : (IoBucket.new 1 0).rate = 1000000 := by norm_num [IoBucket.new]
  have hburst : (IoBucket.new 1 0).burst = 2000000 := by norm_num [IoBucket.new]
  rw [hrate, hburst] at hcap
  exact ⟨s, hrun, hfree, hall, hcap⟩

/-! ## The loop of `acquire` -/

namespace IoBucket

variable {b : IoBucket} {bytes : Nat} {start : ℚ} {clock : Nat → ℚ}

/-- Every sleep takes at least as long as was asked for. -/
def Paced (b : IoBucket) (bytes : Nat) (start : ℚ) (clock : Nat → ℚ) : Prop :=
  ∀ k b' wake, b.acquire bytes start clock k = .asleep b' wake → wake ≤ clock k

/-- A call of `acquire` at the time `start` returns after finitely many iterations. -/
def Leaves (b : IoBucket) (bytes : Nat) (start : ℚ) : Prop :=
  ∀ clock, b.Paced bytes start clock → ∃ k b', b.acquire bytes start clock k = .returned b'

theorem acquire_succ_returned {k : Nat} {b' b'' : IoBucket} {wake : ℚ}
    (h : b.acquire bytes start clock k = .asleep b' wake)
    (hround : b'.acquireRound bytes (clock k) = (b'', none)) :
    b.acquire bytes start clock (k + 1) = .returned b'' := by
  simp only [acquire, h, hround]

theorem acquire_succ_asleep {k : Nat} {b' b'' : IoBucket} {wake secs : ℚ}
    (h : b.acquire bytes start clock k = .asleep b' wake)
    (hround : b'.acquireRound bytes (clock k) = (b'', some secs)) :
    b.acquire bytes start clock (k + 1) = .asleep b'' (clock k + secs) := by
  simp only [acquire, h, hround]

/-- A call asleep until `wake` for `bytes` that the bucket lacks, in the bucket `b'`
that once was `b`. -/
structure Lacks (b b' : IoBucket) (bytes : Nat) (wake : ℚ) : Prop where
  rate_eq : b'.rate = b.rate
  burst_eq : b'.burst = b.burst
  tokens_le : b'.tokens ≤ b'.burst
  lacks : b'.tokens < bytes
  wake_eq : wake = b'.lastRefill + min ((bytes - b'.tokens) / b.rate) 1

/-- An iteration returns, or the call sleeps again with what has flowed in. -/
theorem acquire_step {k : Nat} {b' : IoBucket} {wake : ℚ} (hrate : b'.rate = b.rate)
    (hburst : b'.burst = b.burst) (hle : b'.tokens ≤ b'.burst) (hlast : b'.lastRefill ≤ clock k)
    (h : b.acquire bytes start clock k = .asleep b' wake) :
    (∃ b'', b.acquire bytes start clock (k + 1) = .returned b'') ∨
    ∃ b'' wake', b.acquire bytes start clock (k + 1) = .asleep b'' wake' ∧ b.Lacks b'' bytes wake' ∧
      b''.tokens = fill b.rate b.burst b'.tokens (clock k - b'.lastRefill) := by
  obtain ⟨-, hround⟩ | ⟨-, hround⟩ | ⟨hlt, hround⟩ := b'.acquireRound_cases bytes (clock k)
  · exact .inl ⟨_, acquire_succ_returned h hround⟩
  · exact .inl ⟨_, acquire_succ_returned h hround⟩
  · refine .inr ⟨_, _, acquire_succ_asleep h hround, ⟨?_, ?_, ?_, hlt, ?_⟩, ?_⟩
    · rw [refill_rate, hrate]
    · rw [refill_burst, hburst]
    · rw [refill_burst]
      exact refill_tokens_le hle _
    · rw [refill_eq hle hlast, hrate]
    · rw [refill_eq hle hlast, hrate, hburst]

/-- With paced sleeps, a call for no more than the burst is `n` seconds from its end
when `n` seconds of inflow are lacking. -/
theorem returns_of_lacks (hrate : 0 < b.rate) (hfit : (bytes : ℚ) ≤ b.burst)
    (hpaced : b.Paced bytes start clock) (n : Nat) :
    ∀ k b' wake, b.acquire bytes start clock k = .asleep b' wake → b.Lacks b' bytes wake →
      bytes - b'.tokens ≤ n * b.rate → ∃ k b'', b.acquire bytes start clock k = .returned b'' := by
  induction n with
  | zero =>
    intro k b' wake _ hlacks hn
    have := hlacks.lacks
    rw [Nat.cast_zero, zero_mul] at hn
    linarith
  | succ n ih =>
    intro k b' wake hk hlacks hn
    have hsleep : min ((bytes - b'.tokens) / b.rate) 1 ≤ clock k - b'.lastRefill := by
      have := hlacks.wake_eq ▸ hpaced k b' wake hk
      linarith
    have hlast : b'.lastRefill ≤ clock k := by
      have hpos : 0 ≤ min ((bytes - b'.tokens) / b.rate) 1 :=
        le_min (div_nonneg (sub_nonneg.mpr hlacks.lacks.le) hrate.le) zero_le_one
      linarith
    obtain ⟨b'', hret⟩ | ⟨b'', wake', hk', hlacks', htokens⟩ :=
      acquire_step hlacks.rate_eq hlacks.burst_eq hlacks.tokens_le hlast hk
    · exact ⟨_, _, hret⟩
    · refine ih (k + 1) b'' wake' hk' hlacks' ?_
      rw [htokens]
      exact sub_fill_le_of_wait hrate hfit hsleep (by exact_mod_cast hn)

/-- More bytes than a full bucket holds are never there, whatever the clock. -/
theorem asleep_of_burst_lt (hpos : 0 ≤ b.burst) (hle : b.tokens ≤ b.burst)
    (hlt : b.burst < bytes) (k : Nat) :
    ∃ b' wake, b.acquire bytes start clock k = .asleep b' wake ∧ b'.tokens ≤ b'.burst ∧
      b'.burst = b.burst := by
  induction k with
  | zero => exact ⟨b, start, rfl, hle, rfl⟩
  | succ k ih =>
    obtain ⟨b', wake, hk, hle', hburst⟩ := ih
    have htokens : (b'.refill (clock k)).tokens ≤ b.burst := hburst ▸ refill_tokens_le hle' (clock k)
    obtain ⟨hzero, -⟩ | ⟨hneed, -⟩ | ⟨-, hround⟩ := b'.acquireRound_cases bytes (clock k)
    · rw [hzero, Nat.cast_zero] at hlt
      exact absurd hpos (not_le.mpr hlt)
    · exact absurd (hneed.trans htokens) (not_le.mpr hlt)
    · refine ⟨_, _, acquire_succ_asleep hk hround, ?_, ?_⟩
      · rw [refill_burst, hburst]
        exact htokens
      · rw [refill_burst, hburst]

/-- A clock that shows one more second at each iteration lets every sleep end. -/
theorem paced_of_seconds (b : IoBucket) (bytes : Nat) (start : ℚ) :
    b.Paced bytes start fun i => start + i := by
  intro k b' wake h
  cases k with
  | zero =>
    obtain ⟨rfl, rfl⟩ := Acquire.asleep.inj h
    simp
  | succ k =>
    rw [acquire] at h
    split at h
    · cases h
    · split at h
      · cases h
      · next hround =>
        obtain ⟨-, rfl⟩ := Acquire.asleep.inj h
        have := acquireRound_sleep_le hround
        push_cast
        linarith

/-- When a call of `acquire` returns: if the bucket can hold its bytes. -/
theorem leaves_iff (hrate : 0 < b.rate) (hpos : 0 ≤ b.burst) (hle : b.tokens ≤ b.burst)
    (hlast : b.lastRefill ≤ start) : b.Leaves bytes start ↔ (bytes : ℚ) ≤ b.burst := by
  constructor
  · intro h
    by_contra hlt
    obtain ⟨k, b', hret⟩ := h _ (b.paced_of_seconds bytes start)
    obtain ⟨b'', wake, hk, -⟩ := asleep_of_burst_lt hpos hle (not_le.mp hlt) k
    exact nomatch hret.symm.trans hk
  · intro hfit clock hpaced
    have hnow : start ≤ clock 0 := hpaced 0 b start rfl
    obtain ⟨b', hret⟩ | ⟨b', wake, hk, hlacks, -⟩ :=
      acquire_step rfl rfl hle (hlast.trans hnow) rfl
    · exact ⟨_, _, hret⟩
    · obtain ⟨n, hn⟩ := exists_nat_ge ((bytes - b'.tokens) / b.rate)
      exact returns_of_lacks hrate hfit hpaced n _ b' wake hk hlacks ((div_le_iff₀ hrate).mp hn)

end IoBucket

/-! ## The workers in it -/

section Workers

variable [DecidableEq ι] {s : Sys ι} {b : IoBucket}

/-- In every state that workers get to, a call of `acquire` whose sleeps are not cut
short returns if and only if its bytes are at most the burst, two seconds at the rate. -/
theorem acquire_leaves_iff {cfg : LimitConfig} {m start : ℚ} {inner : Inner}
    (hcfg : cfg.maxIoMbps = some m) (hm : 0 < m) (hbuild : cfg.build start = some inner)
    (hrun : ReflTransGen Step (Sys.start inner start) s) (hio : s.inner.io = some b) (bytes : Nat) :
    b.Leaves bytes s.now ↔ (bytes : ℚ) ≤ 2000000 * m := by
  obtain ⟨b', hio', hb⟩ := (inv_run hcfg hm hbuild hrun).metered
  obtain rfl : b = b' := Option.some.inj (hio.symm.trans hio')
  have hburst : b.burst = 2000000 * m := by
    rw [hb.burst_eq]
    simp only [IoBucket.new]
    ring
  have hrate : 0 < b.rate := by
    rw [hb.rate_eq]
    exact rate_pos hm start
  rw [← hburst]
  refine IoBucket.leaves_iff hrate ?_ (hb.burst_eq ▸ hb.within.le_burst) hb.refilled
  rw [hburst]
  positivity

end Workers

/-- A call for one batch with a cap of 1 MB/s. -/
theorem acquire_leaves_iff_fastBucket :
    (IoBucket.new 1 0).Leaves ioBatchBytes 0 ↔ (ioBatchBytes : ℚ) ≤ 2000000 * 1 :=
  @acquire_leaves_iff Unit _
    (Sys.charging { io := some (IoBucket.new 1 0), cpu := none, ioPending := 0 } 0 () ioBatchBytes) _
    { maxIoMbps := some 1 } 1 0 _ rfl one_pos rfl (run_charging rfl rfl 0 () le_rfl (by decide)) rfl _

/-- A call for one batch with a cap of 0.1 MB/s, whose bucket holds 200000 bytes:
the worker that makes it stays in `acquire`, with the mutex. -/
theorem slowBucket_never_leaves : ∃ (inner : Inner) (s : Sys Unit) (h : Held Unit) (b : IoBucket),
    ({ maxIoMbps := some (1 / 10) } : LimitConfig).build 0 = some inner ∧
      ReflTransGen Step (Sys.start inner 0) s ∧ s.mutex = some h ∧ h.bytes = ioBatchBytes ∧
      s.inner.io = some b ∧ ¬ b.Leaves h.bytes s.now := by
  have hbuild : ({ maxIoMbps := some (1 / 10) } : LimitConfig).build 0 =
      some { io := some (IoBucket.new (1 / 10) 0), cpu := none, ioPending := 0 } := by
    norm_num [LimitConfig.build, CpuGovernor.new, Option.filter]
  have hburst : (IoBucket.new (1 / 10) 0).burst = 200000 := by norm_num [IoBucket.new]
  refine ⟨_, _, _, _, hbuild, run_charging rfl rfl 0 () le_rfl (by decide), rfl, rfl, rfl, ?_⟩
  intro hleaves
  have hfit := (IoBucket.leaves_iff (rate_pos (by norm_num) 0) (by rw [hburst]; norm_num) le_rfl
    le_rfl).mp hleaves
  rw [hburst] at hfit
  norm_num [ioBatchBytes] at hfit

end PcapSlim.Limit
