/-
PcapSlim.FleetTheorems — the I/O cap, from the bytes that are moved.

`Capped` bounds what the workers have told the limits. Here the workers move the bytes
themselves (`Fleet`), and what they move is bounded: every byte is accounted for by the
call right behind it, so no more is ahead of the limits than one operation of each
worker (`Inv.conserved`), and the limits charge exactly what they are told of, as no
pending amount gets near to `u64::MAX` (`Accounts`). When all workers have come to their
ends, and each ended with a flush, nothing is ahead.
-/
import PcapSlim.Fleet
import PcapSlim.WorkloadTheorems
import PcapSlim.LimitTheorems
import Mathlib.Algebra.BigOperators.Group.Finset.Basic
import Mathlib.Algebra.BigOperators.Group.Finset.Piecewise
import Mathlib.Algebra.BigOperators.Ring.Finset
import Mathlib.Algebra.Order.BigOperators.Group.Finset

namespace PcapSlim.Limit

open Relation PcapIo

namespace Fleet

section Steps

variable {ι : Type*} [DecidableEq ι]

/-- The steps of the fleet are steps of the limits, or leave them alone. -/
theorem Step.sys_cases {f f' : Fleet ι} (h : Step f f') :
    f'.sys = f.sys ∨ Limit.Step f.sys f'.sys := by
  cases h with
  | move => exact .inl rfl
  | lose => exact .inl rfl
  | cpuTick => exact .inl rfl
  | callEmpty _ hidle => exact .inr (.callEmpty hidle)
  | call _ hidle hc => exact .inr (.call hidle hc)
  | inside hstep => exact .inr hstep

/-- A step takes the first event of one worker, or none. -/
theorem Step.todo_cases {f f' : Fleet ι} (h : Step f f') :
    (f'.todo = f.todo ∧ f'.moved = f.moved ∧ f'.unaccounted = f.unaccounted) ∨
    ∃ w e rest, f.todo w = e :: rest ∧ f'.todo = Function.update f.todo w rest ∧
      f'.moved = f.moved + e.movedBytes ∧ f'.unaccounted = f.unaccounted + e.lostBytes := by
  cases h with
  | move htodo => exact .inr ⟨_, _, _, htodo, rfl, rfl, rfl⟩
  | lose htodo => exact .inr ⟨_, _, _, htodo, rfl, rfl, rfl⟩
  | cpuTick htodo => exact .inr ⟨_, _, _, htodo, rfl, rfl, rfl⟩
  | callEmpty htodo => exact .inr ⟨_, _, _, htodo, rfl, rfl, rfl⟩
  | call htodo => exact .inr ⟨_, _, _, htodo, rfl, rfl, rfl⟩
  | inside => exact .inl ⟨rfl, rfl, rfl⟩

theorem update_idle {calls : ι → Option Call} {w : ι} (hidle : calls w = none) :
    Function.update calls w none = calls := by
  rw [← hidle, Function.update_eq_self]

/-- Inside the limits no idle worker begins a call. -/
theorem not_inside_call {calls : ι → Option Call} {w : ι} {c : Call} (hidle : calls w = none) :
    ¬ ∀ v, calls v = none → Function.update calls w (some c) v = none := fun hcalls => by
  have hbusy := hcalls w hidle
  rw [Function.update_self] at hbusy
  cases hbusy

/-- What happens inside the limits: nobody's call returns, or the call of one worker does. -/
theorem inside_cases {s s' : Sys ι} (hholds : ∀ h, s.mutex = some h → s.calls h.worker = some h.call)
    (hstep : Limit.Step s s') (hcalls : ∀ w, s.calls w = none → s'.calls w = none)
    (hlast : s'.calls = s.calls → s'.last = s.last) :
    (s'.calls = s.calls ∧ s'.accounted = s.accounted ∧ s'.last = s.last ∧
      ∀ h, s'.mutex = some h → s'.calls h.worker = some h.call) ∨
    ∃ w c, s.calls w = some c ∧ s'.calls = Function.update s.calls w none ∧
      s'.accounted = s.accounted + c.bytes ∧ s'.last = some c ∧ s'.mutex = none := by
  cases hstep with
  | tick hnow => exact .inl ⟨rfl, rfl, rfl, hholds⟩
  | @callEmpty w hidle =>
    have hsame := update_idle hidle
    refine .inl ⟨hsame, rfl, hlast hsame, fun h hheld => ?_⟩
    exact (congrFun hsame h.worker).trans (hholds h hheld)
  | call hidle => exact absurd hcalls (not_inside_call hidle)
  | @collect w c inner hcall hfree henter => exact .inr ⟨w, c, hcall, rfl, rfl, rfl, hfree⟩
  | @charge w c inner bytes hcall hfree henter =>
    refine .inl ⟨rfl, rfl, rfl, fun h hheld => ?_⟩
    cases hheld
    exact hcall
  | sleep hheld hio hround => exact .inl ⟨rfl, rfl, rfl, hholds⟩
  | @leave h b b' hheld hio hround =>
    exact .inr ⟨h.worker, h.call, hholds h hheld, rfl, rfl, rfl, rfl⟩

end Steps

/-! ## What is ahead of the limits -/

section Owed

variable {ι : Type*}

/-- What a worker in the call `call`, with the events `todo` before it, has moved and not
accounted for. -/
def owed (call : Option Call) (todo : List Event) : Nat :=
  match call, todo with
  | some c, _ => c.bytes
  | none, .call c :: _ => c.bytes
  | none, _ => 0

/-- The worker goes through charged events: it is between two of them, or about to account
for what it has moved, or doing that. -/
def OnTheWay (call : Option Call) (todo : List Event) : Prop :=
  Charged todo ∨
    (call = none ∧ ∃ n rest, todo = .call (.acquireIo n) :: rest ∧ Charged rest)

@[simp] theorem owed_some (c : Call) (todo : List Event) : owed (some c) todo = c.bytes := rfl

@[simp] theorem owed_next (c : Call) (rest : List Event) :
    owed none (.call c :: rest) = c.bytes := rfl

/-- Between two events nothing is owed. -/
theorem owed_of_charged {todo : List Event} (h : Charged todo) : owed none todo = 0 := by
  cases h <;> rfl

theorem OnTheWay.charged {c : Call} {todo : List Event} (h : OnTheWay (some c) todo) :
    Charged todo := by
  rcases h with h | ⟨hnone, -⟩
  · exact h
  · cases hnone

/-- What an idle worker has before it, with the first event `e`: `e` moves bytes and the call
for them is behind it; or `e` is something else, and what is behind it is charged. -/
theorem OnTheWay.cases {e : Event} {rest : List Event} (h : OnTheWay none (e :: rest)) :
    (∃ n rest', e = .moved n ∧ rest = .call (.acquireIo n) :: rest' ∧ Charged rest' ∧
      owed none (e :: rest) = 0) ∨
    ((∀ n, e ≠ .moved n) ∧ Charged rest ∧ ((∀ c, e ≠ .call c) → owed none (e :: rest) = 0)) := by
  rcases h with hcharged | ⟨-, n, rest', heq, hcharged⟩
  · have hzero := owed_of_charged hcharged
    cases hcharged with
    | account n hrest => exact .inl ⟨n, _, rfl, rfl, hrest, hzero⟩
    | lose _ hrest => exact .inr ⟨by simp, hrest, fun _ => hzero⟩
    | flush hrest => exact .inr ⟨by simp, hrest, fun _ => hzero⟩
    | cpuTick hrest => exact .inr ⟨by simp, hrest, fun _ => hzero⟩
  · cases heq
    exact .inr ⟨by simp, hcharged, fun hcall => absurd rfl (hcall _)⟩

/-- What all workers have moved and not accounted for. -/
def ahead [Fintype ι] (f : Fleet ι) : Nat := ∑ w, owed (f.sys.calls w) (f.todo w)

/-- What holds of every state, with operations of at most `M` bytes. -/
structure Inv [Fintype ι] (M : Nat) (f : Fleet ι) : Prop where
  onTheWay : ∀ w, OnTheWay (f.sys.calls w) (f.todo w)
  holds : ∀ h, f.sys.mutex = some h → f.sys.calls h.worker = some h.call
  conserved : f.moved = f.sys.accounted + f.ahead
  bounded : ∀ w, (∀ e ∈ f.todo w, e.bytes ≤ M) ∧ ∀ c, f.sys.calls w = some c → c.bytes ≤ M

variable [Fintype ι] {M : Nat} {f f' : Fleet ι}

theorem inv_start {inner : Inner} {now : ℚ} {todo : ι → List Event}
    (hcharged : ∀ w, Charged (todo w)) (hbounded : ∀ w, ∀ e ∈ todo w, e.bytes ≤ M) :
    Inv M (start inner now todo) where
  onTheWay := fun w => .inl (hcharged w)
  holds := fun _ hheld => by cases hheld
  conserved := by
    have hzero : (start inner now todo).ahead = 0 :=
      Finset.sum_eq_zero fun w _ => owed_of_charged (hcharged w)
    rw [hzero]
    rfl
  bounded := fun w => ⟨hbounded w, fun _ hc => by cases hc⟩

/-- No worker is ahead by more than one operation. -/
theorem Inv.ahead_le (h : Inv M f) : f.ahead ≤ Fintype.card ι * M := by
  refine Finset.sum_le_card_nsmul _ _ M (fun w _ => ?_) |>.trans (by simp)
  obtain ⟨hevents, hcalls⟩ := h.bounded w
  cases hcall : f.sys.calls w with
  | some c => exact hcalls c hcall
  | none =>
    rcases h.onTheWay w with hcharged | ⟨-, n, rest, htodo, -⟩
    · rw [owed_of_charged hcharged]
      exact Nat.zero_le M
    · rw [htodo] at hevents ⊢
      exact hevents _ (List.mem_cons_self ..)

/-- A worker that is done owes nothing. -/
theorem ahead_of_done (h : ∀ w, f.Done w) : f.ahead = 0 :=
  Finset.sum_eq_zero fun w _ => by rw [(h w).1, (h w).2]; rfl

variable [DecidableEq ι]

/-- If one worker alone gets on, a sum over all of them changes by its part. -/
theorem sum_add_of_ne {g g' : ι → Nat} (w : ι) (h : ∀ v, v ≠ w → g' v = g v) :
    ∑ v, g' v + g w = ∑ v, g v + g' w := by
  have hothers : ∑ v ∈ Finset.univ.erase w, g' v = ∑ v ∈ Finset.univ.erase w, g v :=
    Finset.sum_congr rfl fun v hv => h v (Finset.ne_of_mem_erase hv)
  have hafter := Finset.add_sum_erase Finset.univ g' (Finset.mem_univ w)
  have hbefore := Finset.add_sum_erase Finset.univ g (Finset.mem_univ w)
  omega

/-- To keep it, look at the worker that gets on. -/
theorem Inv.of_worker (h : Inv M f) (w : ι) (htodo : ∀ v, v ≠ w → f'.todo v = f.todo v)
    (hcalls : ∀ v, v ≠ w → f'.sys.calls v = f.sys.calls v)
    (hway : OnTheWay (f'.sys.calls w) (f'.todo w))
    (hholds : ∀ h, f'.sys.mutex = some h → f'.sys.calls h.worker = some h.call)
    (hsum : f'.moved + f.sys.accounted + owed (f.sys.calls w) (f.todo w) =
      f.moved + f'.sys.accounted + owed (f'.sys.calls w) (f'.todo w))
    (hbounded : (∀ e ∈ f'.todo w, e.bytes ≤ M) ∧ ∀ c, f'.sys.calls w = some c → c.bytes ≤ M) :
    Inv M f' where
  onTheWay := fun v => by
    by_cases hv : v = w
    · exact hv ▸ hway
    · rw [hcalls v hv, htodo v hv]
      exact h.onTheWay v
  holds := hholds
  conserved := by
    have howed : ∀ v, v ≠ w →
        owed (f'.sys.calls v) (f'.todo v) = owed (f.sys.calls v) (f.todo v) := fun v hv => by
      rw [hcalls v hv, htodo v hv]
    have hahead : f'.ahead + owed (f.sys.calls w) (f.todo w) =
        f.ahead + owed (f'.sys.calls w) (f'.todo w) := sum_add_of_ne w howed
    have hbefore := h.conserved
    omega
  bounded := fun v => by
    by_cases hv : v = w
    · exact hv ▸ hbounded
    · rw [htodo v hv, hcalls v hv]
      exact h.bounded v

/-- So it is with an idle worker that goes on from `e` without a call. -/
theorem Inv.of_idle (h : Inv M f) {w : ι} {e : Event} {rest : List Event}
    (htodo : f.todo w = e :: rest) (hidle : f.sys.calls w = none)
    (htodo' : f'.todo = Function.update f.todo w rest) (hcalls : f'.sys.calls = f.sys.calls)
    (hmutex : f'.sys.mutex = f.sys.mutex) (hway : OnTheWay none rest)
    (hsum : f'.moved + f.sys.accounted + owed none (e :: rest) =
      f.moved + f'.sys.accounted + owed none rest) : Inv M f' := by
  have hnext : f'.todo w = rest := by rw [htodo', Function.update_self]
  have hidle' : f'.sys.calls w = none := by rw [hcalls, hidle]
  refine h.of_worker w (fun v hv => by rw [htodo', Function.update_of_ne hv])
    (fun v _ => by rw [hcalls]) (by rwa [hnext, hidle']) (by rw [hmutex, hcalls]; exact h.holds)
    (by rwa [hnext, hidle', htodo, hidle]) ⟨fun e' he' => ?_, by simp [hidle']⟩
  refine (h.bounded w).1 e' ?_
  rw [hnext] at he'
  rw [htodo]
  exact List.mem_cons_of_mem _ he'

/-- Each step keeps the invariant. -/
theorem inv_step (h : Inv M f) (hstep : Step f f') : Inv M f' := by
  have hway : ∀ {w : ι} {e : Event} {rest : List Event}, f.todo w = e :: rest →
      f.sys.calls w = none → OnTheWay none (e :: rest) := fun {w e rest} htodo hidle => by
    rw [← htodo, ← hidle]
    exact h.onTheWay w
  cases hstep with
  | @move w bytes rest htodo hidle =>
    obtain ⟨n, rest', heq, rfl, hcharged, hzero⟩ | ⟨hmoved, -⟩ := (hway htodo hidle).cases
    · cases heq
      refine h.of_idle htodo hidle rfl rfl rfl (.inr ⟨rfl, bytes, rest', rfl, hcharged⟩) ?_
      simp only [hzero, owed_next, Call.bytes]
      omega
    · exact absurd rfl (hmoved bytes)
  | @lose w bytes rest htodo hidle =>
    obtain ⟨n, rest', heq, -⟩ | ⟨-, hcharged, hzero⟩ := (hway htodo hidle).cases
    · cases heq
    · refine h.of_idle htodo hidle rfl rfl rfl (.inl hcharged) ?_
      rw [hzero (by simp), owed_of_charged hcharged]
  | @cpuTick w rest htodo hidle hfree =>
    obtain ⟨n, rest', heq, -⟩ | ⟨-, hcharged, hzero⟩ := (hway htodo hidle).cases
    · cases heq
    · refine h.of_idle htodo hidle rfl rfl rfl (.inl hcharged) ?_
      rw [hzero (by simp), owed_of_charged hcharged]
  | @callEmpty w rest htodo hidle =>
    obtain ⟨n, rest', heq, -⟩ | ⟨-, hcharged, -⟩ := (hway htodo hidle).cases
    · cases heq
    · refine h.of_idle htodo hidle rfl (update_idle hidle) rfl (.inl hcharged) ?_
      rw [owed_of_charged hcharged]
      rfl
  | @call w c rest htodo hidle hc =>
    obtain ⟨n, rest', heq, -⟩ | ⟨-, hcharged, -⟩ := (hway htodo hidle).cases
    · cases heq
    · have hevents := (h.bounded w).1
      rw [htodo] at hevents
      refine h.of_worker w (fun v hv => Function.update_of_ne hv ..)
        (fun v hv => Function.update_of_ne hv ..) ?_ (fun held hheld => ?_) ?_ ⟨?_, fun c' hc' => ?_⟩
      · simp only [Function.update_self]
        exact .inl hcharged
      · have hworker := h.holds held hheld
        have hother : held.worker ≠ w := fun heq => by
          rw [heq, hidle] at hworker
          cases hworker
        exact (Function.update_of_ne hother ..).trans hworker
      · simp only [Function.update_self, htodo, hidle, owed_some, owed_next]
      · simp only [Function.update_self]
        exact fun e he => hevents e (List.mem_cons_of_mem _ he)
      · simp only [Function.update_self, Option.some.injEq] at hc'
        exact hc' ▸ hevents _ (List.mem_cons_self ..)
  | @inside s hstep hcalls hlast =>
    obtain ⟨hsame, haccounted, -, hholds⟩ | ⟨w, c, hcall, hcalls', haccounted, -, hfree⟩ :=
      inside_cases h.holds hstep hcalls hlast
    · exact
        { onTheWay := by rw [hsame]; exact h.onTheWay
          holds := hholds
          conserved := by
            rw [haccounted, ahead, hsame]
            exact h.conserved
          bounded := by rw [hsame]; exact h.bounded }
    · have hidle : s.calls w = none := by rw [hcalls', Function.update_self]
      have hcharged : Charged (f.todo w) := OnTheWay.charged (hcall ▸ h.onTheWay w)
      refine h.of_worker w (fun _ _ => rfl)
        (fun v hv => (congrFun hcalls' v).trans (Function.update_of_ne hv ..))
        (.inl hcharged) (fun held hheld => ?_) ?_ ⟨(h.bounded w).1, by simp [hidle]⟩
      · rw [hfree] at hheld
        cases hheld
      · simp only [hidle, owed_of_charged hcharged, hcall, owed_some, haccounted]
        omega

end Owed

/-! ## The last call -/

section Flushed

variable {ι : Type*} [DecidableEq ι]

/-- When every worker ends with a flush, so do all of them together: the call that returned
last is a flush, or there is still a worker that is not done, or nothing was accounted. -/
structure Ending (f : Fleet ι) : Prop where
  ends : ∀ w, EndsFlushed (f.todo w)
  inCall : ∀ w c, f.sys.calls w = some c → c ≠ .flushIo → f.todo w ≠ []
  last : f.sys.last = some .flushIo ∨ (∃ w, ¬ f.Done w) ∨ f.sys.accounted = 0

variable {f f' : Fleet ι}

/-- An event that is no flush is not the last one of its worker. -/
theorem Ending.of_worker (h : Ending f) {w : ι} {e : Event} {rest : List Event}
    (htodo : f.todo w = e :: rest) (hflush : e ≠ .call .flushIo)
    (htodo' : f'.todo = Function.update f.todo w rest)
    (hinCall : ∀ v, v ≠ w → f'.sys.calls v = f.sys.calls v) : Ending f' := by
  have hends := h.ends w
  rw [htodo] at hends
  have hrest := hends.tail.2 hflush
  have hnext : f'.todo w = rest := by rw [htodo', Function.update_self]
  refine ⟨fun v => ?_, fun v c hc hne => ?_, .inr (.inl ⟨w, fun hdone => hrest ?_⟩)⟩
  · by_cases hv : v = w
    · rw [hv, hnext]
      exact hends.tail.1
    · rw [htodo', Function.update_of_ne hv]
      exact h.ends v
  · by_cases hv : v = w
    · rwa [hv, hnext]
    · rw [htodo', Function.update_of_ne hv]
      exact h.inCall v c (by rwa [← hinCall v hv]) hne
  · rw [← hnext]
    exact hdone.1

/-- Each step keeps it. -/
theorem ending_step (hholds : ∀ h, f.sys.mutex = some h → f.sys.calls h.worker = some h.call)
    (h : Ending f) (hstep : Step f f') : Ending f' := by
  cases hstep with
  | move htodo hidle => exact h.of_worker htodo (by simp) rfl fun _ _ => rfl
  | lose htodo hidle => exact h.of_worker htodo (by simp) rfl fun _ _ => rfl
  | cpuTick htodo hidle hfree => exact h.of_worker htodo (by simp) rfl fun _ _ => rfl
  | callEmpty htodo hidle =>
    exact h.of_worker htodo (by simp) rfl fun v hv => Function.update_of_ne hv ..
  | @call w c rest htodo hidle hc =>
    have hends := h.ends w
    rw [htodo] at hends
    refine ⟨fun v => ?_, fun v c' hc' hne => ?_, .inr (.inl ⟨w, fun hdone => ?_⟩)⟩
    · by_cases hv : v = w
      · subst hv
        simpa only [Function.update_self] using hends.tail.1
      · simpa only [Function.update_of_ne hv] using h.ends v
    · by_cases hv : v = w
      · subst hv
        simp only [Function.update_self, Option.some.injEq] at hc' ⊢
        exact hends.tail.2 (by simpa [hc'] using hne)
      · simp only [Function.update_of_ne hv] at hc' ⊢
        exact h.inCall v c' hc' hne
    · have hidle' := hdone.2
      simp only [Function.update_self] at hidle'
      cases hidle'
  | @inside s hstep hcalls hlast =>
    obtain ⟨hsame, haccounted, hlast', -⟩ | ⟨w, c, hcall, hcalls', -, hlast', -⟩ :=
      inside_cases hholds hstep hcalls hlast
    · refine ⟨h.ends, fun v c hc => h.inCall v c (by rwa [← hsame]), ?_⟩
      simp only [Done]
      rw [hlast', haccounted, hsame]
      exact h.last
    · refine ⟨h.ends, fun v c' hc' => h.inCall v c' ?_, ?_⟩
      · simp only [hcalls'] at hc'
        by_cases hv : v = w
        · rw [hv, Function.update_self] at hc'
          cases hc'
        · rwa [Function.update_of_ne hv] at hc'
      · by_cases hflush : c = .flushIo
        · exact .inl (hflush ▸ hlast')
        · exact .inr (.inl ⟨w, fun hdone => h.inCall w c hcall hflush hdone.1⟩)

omit [DecidableEq ι] in
theorem ending_start {inner : Inner} {now : ℚ} {todo : ι → List Event}
    (hends : ∀ w, EndsFlushed (todo w)) : Ending (start inner now todo) :=
  ⟨hends, fun _ _ hc => absurd hc.symm (Option.some_ne_none _), .inr (.inr rfl)⟩

end Flushed

/-! ## What is charged -/

/-- What the limits are told of is pending, or charged, or about to be charged by the call
that has the mutex. Calls of a bounded size leave no room for `saturating_add` to lose
anything. -/
structure Accounts {ι : Type*} (s : Sys ι) : Prop where
  free : s.mutex = none → s.accounted = s.charged + s.inner.ioPending
  held : ∀ h, s.mutex = some h → s.inner.ioPending = 0 ∧
    s.accounted + h.call.bytes = s.charged + h.bytes ∧ h.bytes < ioBatchBytes + h.call.bytes

section Charges

variable {ι : Type*} {M : Nat} {rate burst began : ℚ}

/-- All that is known of a fleet on its way. -/
structure Coherent [Fintype ι] (M : Nat) (rate burst began : ℚ) (f : Fleet ι) : Prop where
  inv : Inv M f
  limits : Limit.Inv rate burst began f.sys
  accounts : Accounts f.sys

variable [Fintype ι] {f f' : Fleet ι}

/-- Less than a batch is not charged yet. -/
theorem Coherent.accounted_lt (h : Coherent M rate burst began f) :
    f.sys.accounted < f.sys.charged + ioBatchBytes := by
  cases hmutex : f.sys.mutex with
  | none =>
    have hfree := h.accounts.free hmutex
    have hlt := h.limits.pending_lt
    omega
  | some held =>
    have hheld := h.accounts.held held hmutex
    omega

/-- The bucket never gives out more than it had and got. -/
theorem Coherent.charged_le (h : Coherent M rate burst began f) (hrate : 0 ≤ rate) :
    (f.sys.charged : ℚ) ≤ burst + rate * (f.sys.now - began) := by
  obtain ⟨b, -, hb⟩ := h.limits.metered
  exact hb.within.spent_le hrate hb.refilled

/-- Nobody is in `acquire` when all workers are done. -/
theorem Inv.free_of_done (h : Inv M f) (hdone : ∀ w, f.Done w) : f.sys.mutex = none := by
  cases hheld : f.sys.mutex with
  | none => rfl
  | some held => exact absurd ((hdone held.worker).2.symm.trans (h.holds held hheld)) (by simp)

variable [DecidableEq ι]

omit [Fintype ι] in
/-- Each step of the limits keeps the accounts. -/
theorem accounts_step {s s' : Sys ι} (hlimits : Limit.Inv rate burst began s)
    (hbytes : ∀ w c, s.calls w = some c → c.bytes ≤ M) (hsmall : ioBatchBytes + M ≤ u64Max)
    (h : Accounts s) (hstep : Limit.Step s s') : Accounts s' := by
  obtain ⟨b, hio, -⟩ := hlimits.metered
  have hlt := hlimits.pending_lt
  cases hstep with
  | tick hnow => exact ⟨h.free, h.held⟩
  | callEmpty hidle => exact ⟨h.free, h.held⟩
  | call hidle hc => exact ⟨h.free, h.held⟩
  | @collect w c inner hcall hfree henter =>
    obtain ⟨-, hpending, -⟩ := Call.enter_none hio henter
    have hbefore := h.free hfree
    refine ⟨fun _ => ?_, fun held hheld => ?_⟩
    · simp only [Sys.returns]
      omega
    · exact absurd (hfree.symm.trans hheld) (by simp)
  | @charge w c inner bytes hcall hfree henter =>
    obtain ⟨-, hpending, hsum⟩ := Call.enter_some hio hlt henter
    have hbefore := h.free hfree
    have hc := hbytes w c hcall
    refine ⟨fun hmutex => absurd hmutex (by simp), fun held hheld => ?_⟩
    cases hheld
    refine ⟨hpending, ?_, ?_⟩ <;> dsimp only <;> omega
  | sleep hheld hio' hround => exact ⟨h.free, h.held⟩
  | @leave held b' b'' hheld hio' hround =>
    obtain ⟨hpending, hsum, -⟩ := h.held held hheld
    refine ⟨fun _ => ?_, fun held' hheld' => by cases hheld'⟩
    simp only [Sys.returns, Sys.pays]
    omega

theorem coherent_step (hrate : 0 ≤ rate) (hsmall : ioBatchBytes + M ≤ u64Max)
    (h : Coherent M rate burst began f) (hstep : Step f f') : Coherent M rate burst began f' := by
  rcases hstep.sys_cases with hsame | hsys
  · exact ⟨inv_step h.inv hstep, hsame ▸ h.limits, hsame ▸ h.accounts⟩
  · exact ⟨inv_step h.inv hstep, Limit.inv_step hrate h.limits hsys,
      accounts_step h.limits (fun w => (h.inv.bounded w).2) hsmall h.accounts hsys⟩

omit [DecidableEq ι] in
theorem coherent_start {cfg : LimitConfig} {m now : ℚ} {inner : Inner} {todo : ι → List Event}
    (hcfg : cfg.maxIoMbps = some m) (hm : 0 < m) (hbuild : cfg.build now = some inner)
    (hsized : ∀ w, Sized M (todo w)) :
    Coherent M (IoBucket.new m now).rate (IoBucket.new m now).burst now (start inner now todo) := by
  obtain ⟨hio, hpending⟩ := LimitConfig.build_io hcfg hm hbuild
  refine ⟨inv_start (fun w => (hsized w).charged) fun w => (hsized w).bounded,
    Limit.inv_start hm hio hpending, ⟨fun _ => ?_, fun _ hheld => by cases hheld⟩⟩
  simp [start, Sys.start, hpending]

end Charges

/-! ## The cap -/

section Cap

variable {ι : Type*} [Fintype ι] [DecidableEq ι] {cfg : LimitConfig} {m now : ℚ} {inner : Inner}
  {todo : ι → List Event} {f : Fleet ι} {M : Nat}

/-- The cap in numbers: what flows into the bucket in a second, and that it holds two seconds'
worth. -/
theorem rate_new : (IoBucket.new m now).rate = 1000000 * m := by
  rw [IoBucket.new]
  ring

theorem burst_new : (IoBucket.new m now).burst = 2000000 * m := by
  rw [IoBucket.new]
  ring

theorem burst_add_rate (m now later : ℚ) :
    (IoBucket.new m now).burst + (IoBucket.new m now).rate * (later - now) =
      1000000 * m * (2 + (later - now)) := by
  rw [burst_new, rate_new]
  ring

theorem coherent_run (hcfg : cfg.maxIoMbps = some m) (hm : 0 < m)
    (hbuild : cfg.build now = some inner) (hsized : ∀ w, Sized M (todo w))
    (hsmall : ioBatchBytes + M ≤ u64Max) (hrun : ReflTransGen Step (start inner now todo) f) :
    Coherent M (IoBucket.new m now).rate (IoBucket.new m now).burst now f :=
  Lib.Run.invariant_of_run (Coherent M _ _ now)
    (fun _ _ => coherent_step (rate_pos hm now).le hsmall) hrun (coherent_start hcfg hm hbuild hsized)

/-- What is moved stays below the cap, but for one batch and one operation of each worker. -/
theorem moved_le (hcfg : cfg.maxIoMbps = some m) (hm : 0 < m) (hbuild : cfg.build now = some inner)
    (hsized : ∀ w, Sized M (todo w)) (hsmall : ioBatchBytes + M ≤ u64Max)
    (hrun : ReflTransGen Step (start inner now todo) f) :
    (f.moved : ℚ) ≤ 1000000 * m * (2 + (f.sys.now - now)) + ioBatchBytes - 1 +
      Fintype.card ι * M := by
  have hcoherent := coherent_run hcfg hm hbuild hsized hsmall hrun
  have hcap := hcoherent.charged_le (rate_pos hm now).le
  have hpart : f.moved + 1 ≤ f.sys.charged + ioBatchBytes + Fintype.card ι * M := by
    have hconserved := hcoherent.inv.conserved
    have hahead := hcoherent.inv.ahead_le
    have hlt := hcoherent.accounted_lt
    omega
  have hsum : (f.moved : ℚ) + 1 ≤ f.sys.charged + ioBatchBytes + Fintype.card ι * M := by
    exact_mod_cast hpart
  rw [burst_add_rate] at hcap
  linarith

/-- When all workers are done, each after a flush, what was moved is charged to the last
byte. -/
theorem charged_of_done (hcfg : cfg.maxIoMbps = some m) (hm : 0 < m)
    (hbuild : cfg.build now = some inner) (hsized : ∀ w, Sized M (todo w))
    (hsmall : ioBatchBytes + M ≤ u64Max) (hends : ∀ w, EndsFlushed (todo w))
    (hrun : ReflTransGen Step (start inner now todo) f) (hdone : ∀ w, f.Done w) :
    f.sys.charged = f.moved := by
  have hcoherent := coherent_run hcfg hm hbuild hsized hsmall hrun
  obtain ⟨-, hending⟩ := Lib.Run.invariant_of_run (fun f : Fleet ι => Inv M f ∧ Ending f)
    (fun _ _ h hstep => ⟨inv_step h.1 hstep, ending_step h.1.holds h.2 hstep⟩) hrun
    ⟨(coherent_start hcfg hm hbuild hsized).inv, ending_start hends⟩
  have hconserved := hcoherent.inv.conserved
  rw [ahead_of_done hdone, Nat.add_zero] at hconserved
  have hfree := hcoherent.inv.free_of_done hdone
  have hall := hcoherent.accounts.free hfree
  rcases hending.last with hlast | ⟨w, hnot⟩ | hzero
  · rw [hcoherent.limits.flushed hfree hlast] at hall
    exact (hconserved.trans hall).symm
  · exact absurd (hdone w) hnot
  · omega

end Cap

/-! ## The bytes altogether -/

section Totals

variable {ι : Type*} [Fintype ι] [DecidableEq ι] {now : ℚ} {inner : Inner} {f : Fleet ι}

/-- What has been moved and what is still to be moved does not change altogether, and
neither does what is lost. -/
theorem totals_step {f' : Fleet ι} (hstep : Step f f') :
    f'.moved + ∑ w, movedTotal (f'.todo w) = f.moved + ∑ w, movedTotal (f.todo w) ∧
      f'.unaccounted + ∑ w, lostTotal (f'.todo w) =
        f.unaccounted + ∑ w, lostTotal (f.todo w) := by
  rcases hstep.todo_cases with ⟨htodo, hmoved, hlost⟩ | ⟨w, e, rest, htodo, htodo', hmoved, hlost⟩
  · rw [htodo, hmoved, hlost]
    exact ⟨rfl, rfl⟩
  · have hothers : ∀ v, v ≠ w → f'.todo v = f.todo v := fun v hv => by
      rw [htodo', Function.update_of_ne hv]
    have hrest : f'.todo w = rest := by rw [htodo', Function.update_self]
    have hmove := sum_add_of_ne w fun v hv => congrArg movedTotal (hothers v hv)
    have hlose := sum_add_of_ne w fun v hv => congrArg lostTotal (hothers v hv)
    rw [htodo, hrest, movedTotal_cons] at hmove
    rw [htodo, hrest, lostTotal_cons] at hlose
    omega

theorem totals_run {todo : ι → List Event} (hrun : ReflTransGen Step (start inner now todo) f) :
    f.moved + ∑ w, movedTotal (f.todo w) = ∑ w, movedTotal (todo w) ∧
      f.unaccounted + ∑ w, lostTotal (f.todo w) = ∑ w, lostTotal (todo w) :=
  Lib.Run.invariant_of_run
    (fun f : Fleet ι => f.moved + ∑ w, movedTotal (f.todo w) = ∑ w, movedTotal (todo w) ∧
      f.unaccounted + ∑ w, lostTotal (f.todo w) = ∑ w, lostTotal (todo w))
    (fun _ _ h hstep => ⟨(totals_step hstep).1.trans h.1, (totals_step hstep).2.trans h.2⟩) hrun
    ⟨Nat.zero_add _, Nat.zero_add _⟩

end Totals

end Fleet

end PcapSlim.Limit
