/-
PcapSlim.FleetProgress — that the workers get on.

Nobody is in anybody's way for good if the bucket can hold what a call may have to pay:
less than a batch that was pending, and one operation. Then every worker can be brought
to its end, and waiting for the bucket takes no longer than the bytes do at the rate of
the cap (`exists_done`). It also comes there by itself, in every run in which the clock
goes on and in which what could always get on does get on (`done_of_fair`).

Every step but those of the clock and of a sleep lowers `remaining`. Such steps are
`Idle`; what is in the bucket only grows with them.
-/
import PcapSlim.FleetTheorems

namespace PcapSlim.Limit

open Lib.TokenBucket Relation PcapIo

/-! ## Waiting for the bucket -/

namespace IoBucket

/-- There is nothing to refill for a second time. -/
theorem refill_self {b : IoBucket} {now : ℚ} (h : b.lastRefill = now) : b.refill now = b := by
  unfold refill
  simp [h]

theorem acquireRound_of_le {b : IoBucket} {bytes : Nat} {now : ℚ}
    (h : (bytes : ℚ) ≤ (b.refill now).tokens) : ∃ b', b.acquireRound bytes now = (b', none) := by
  obtain ⟨-, hround⟩ | ⟨-, hround⟩ | ⟨hlt, -⟩ := b.acquireRound_cases bytes now
  · exact ⟨_, hround⟩
  · exact ⟨_, hround⟩
  · exact absurd h (not_le.mpr hlt)

end IoBucket

namespace Metered

variable {rate burst began now : ℚ} {b : IoBucket} {charged : Nat}

/-- What is in the bucket later is what was in it and what flows in until then. -/
theorem refill_later (h : Metered rate burst began b charged now) (hrate : 0 ≤ rate) {later : ℚ}
    (hlater : now ≤ later) :
    (b.refill later).tokens = fill rate burst (b.refill now).tokens (later - now) := by
  have hle : b.tokens ≤ b.burst := h.burst_eq ▸ h.within.le_burst
  have hsum : later - b.lastRefill = now - b.lastRefill + (later - now) := by ring
  rw [IoBucket.refill_eq hle (h.refilled.trans hlater), IoBucket.refill_eq hle h.refilled,
    h.rate_eq, h.burst_eq]
  dsimp only
  rw [fill_fill (mul_nonneg hrate (sub_nonneg.mpr hlater)), hsum]

end Metered

/-- The clock does not run back. -/
theorem Step.now_le {ι : Type*} [DecidableEq ι] {s s' : Sys ι} (h : Step s s') : s.now ≤ s'.now := by
  cases h <;> first | exact le_rfl | assumption

namespace Fleet

variable {ι : Type*}

/-! ## Steps that do nothing -/

/-- The clock goes on, or the holder of the mutex finds too little in the bucket. -/
inductive Idle : Fleet ι → Fleet ι → Prop
  | tick {f : Fleet ι} {now : ℚ} (hnow : f.sys.now ≤ now) :
      Idle f { f with sys := { f.sys with now } }
  | sleep {f : Fleet ι} {h : Held ι} {b b' : IoBucket} {secs : ℚ} (hheld : f.sys.mutex = some h)
      (hio : f.sys.inner.io = some b) (hround : b.acquireRound h.bytes f.sys.now = (b', some secs)) :
      Idle f { f with sys := { f.sys with inner := { f.sys.inner with io := some b' } } }

/-- The same workers later. -/
def later (f : Fleet ι) (now : ℚ) : Fleet ι := { f with sys := { f.sys with now } }

/-- Idling leaves the workers where they are. -/
structure Same (f f' : Fleet ι) : Prop where
  todo : f'.todo = f.todo
  calls : f'.sys.calls = f.sys.calls
  mutex : f'.sys.mutex = f.sys.mutex

theorem Idle.same {f f' : Fleet ι} (h : Idle f f') : Same f f' := by
  cases h <;> exact ⟨rfl, rfl, rfl⟩

theorem Same.trans {f f' f'' : Fleet ι} (h : Same f f') (h' : Same f' f'') : Same f f'' :=
  ⟨h'.todo.trans h.todo, h'.calls.trans h.calls, h'.mutex.trans h.mutex⟩

theorem Same.done_iff {f f' : Fleet ι} (h : Same f f') (w : ι) : f'.Done w ↔ f.Done w := by
  rw [Done, Done, h.todo, h.calls]

/-- What the holder of the mutex would find in the bucket. -/
def stock (f : Fleet ι) : ℚ :=
  match f.sys.inner.io with
  | some b => (b.refill f.sys.now).tokens
  | none => 0

theorem stock_eq {f : Fleet ι} {b : IoBucket} (hio : f.sys.inner.io = some b) :
    f.stock = (b.refill f.sys.now).tokens := by
  rw [stock, hio]

variable {rate burst began : ℚ} {f f' : Fleet ι}

theorem stock_bounds (hrate : 0 ≤ rate) (h : Limit.Inv rate burst began f.sys) :
    0 ≤ f.stock ∧ f.stock ≤ burst := by
  obtain ⟨b, hio, hb⟩ := h.metered
  have hrefill := (hb.refill hrate).within
  rw [stock_eq hio]
  exact ⟨hrefill.nonneg, hrefill.le_burst⟩

/-- While nothing else happens, the bucket fills up. -/
theorem Idle.stock_eq (h : Idle f f') (hrate : 0 ≤ rate) (hinv : Limit.Inv rate burst began f.sys) :
    f.sys.now ≤ f'.sys.now ∧
      f'.stock = fill rate burst f.stock (f'.sys.now - f.sys.now) := by
  obtain ⟨b, hio, hb⟩ := hinv.metered
  cases h with
  | tick hnow =>
    refine ⟨hnow, ?_⟩
    rw [Fleet.stock_eq hio, ← hb.refill_later hrate hnow]
    exact Fleet.stock_eq hio
  | @sleep held b₀ b' secs hheld hio' hround =>
    obtain rfl : b₀ = b := Option.some.inj (hio'.symm.trans hio)
    refine ⟨le_rfl, ?_⟩
    have hb' : b' = b₀.refill f.sys.now := by
      obtain ⟨-, heq⟩ | ⟨-, heq⟩ | ⟨-, heq⟩ := b₀.acquireRound_cases held.bytes f.sys.now
      · cases heq.symm.trans hround
      · cases heq.symm.trans hround
      · exact (Prod.mk.inj (hround.symm.trans heq)).1
    have hlast : b'.lastRefill = f.sys.now := by
      rw [hb', IoBucket.refill_eq (hb.burst_eq ▸ hb.within.le_burst) hb.refilled]
    rw [sub_self, fill_zero (stock_bounds hrate hinv).2, Fleet.stock_eq hio,
      Fleet.stock_eq (show _ = some b' from rfl)]
    dsimp only
    rw [IoBucket.refill_self hlast, hb']

/-- An idle worker whose empty call leaves nothing behind has done nothing. -/
theorem returns_empty_eq [DecidableEq ι] {w : ι} (hidle : f.sys.calls w = none)
    (hlast : (f.sys.returns w (.acquireIo 0)).calls = f.sys.calls →
      (f.sys.returns w (.acquireIo 0)).last = f.sys.last) :
    f.sys.returns w (.acquireIo 0) = { f.sys with now := f.sys.now } := by
  have hsame := update_idle hidle
  have hlast' := hlast hsame
  simp only [Sys.returns] at hlast' ⊢
  rw [hsame, hlast']
  rfl

/-! ## The measure -/

/-- What a worker in the call `call` has before it, in steps. -/
def effort (call : Option Call) (todo : List Event) : Nat :=
  3 * todo.length + if call.isSome then 2 else 0

/-- What all workers have before them. Taking the mutex is a step too. -/
def remaining [Fintype ι] (f : Fleet ι) : Nat :=
  ∑ w, effort (f.sys.calls w) (f.todo w) + if f.sys.mutex.isSome then 0 else 1

section Measure

variable [Fintype ι]

theorem Same.remaining_eq (h : Same f f') : f'.remaining = f.remaining := by
  rw [remaining, remaining, h.todo, h.calls, h.mutex]

variable [DecidableEq ι]

/-- One worker alone gets on. -/
theorem remaining_lt (w : ι) (htodo : ∀ v, v ≠ w → f'.todo v = f.todo v)
    (hcalls : ∀ v, v ≠ w → f'.sys.calls v = f.sys.calls v)
    (hlt : effort (f'.sys.calls w) (f'.todo w) + (if f'.sys.mutex.isSome then 0 else 1) <
      effort (f.sys.calls w) (f.todo w) + if f.sys.mutex.isSome then 0 else 1) :
    f'.remaining < f.remaining := by
  have heffort : ∀ v, v ≠ w →
      effort (f'.sys.calls v) (f'.todo v) = effort (f.sys.calls v) (f.todo v) := fun v hv => by
    rw [hcalls v hv, htodo v hv]
  have hsum := sum_add_of_ne w heffort
  unfold remaining
  omega

/-- An event that needs no call is done with. -/
theorem remaining_lt_of_todo {w : ι} {e : Event} {rest : List Event} (htodo : f.todo w = e :: rest)
    (htodo' : f'.todo = Function.update f.todo w rest) (hcalls : f'.sys.calls = f.sys.calls)
    (hmutex : f'.sys.mutex = f.sys.mutex) : f'.remaining < f.remaining := by
  refine remaining_lt w (fun v hv => by rw [htodo', Function.update_of_ne hv])
    (fun v _ => by rw [hcalls]) ?_
  rw [htodo', Function.update_self, hcalls, hmutex, htodo]
  simp only [effort, List.length_cons]
  omega

/-- Each step makes the measure smaller, or is idle. -/
theorem step_remaining (hholds : ∀ h, f.sys.mutex = some h → f.sys.calls h.worker = some h.call)
    (hstep : Step f f') :
    f'.remaining < f.remaining ∨ (Idle f f' ∧ f'.remaining = f.remaining) := by
  cases hstep with
  | move htodo hidle => exact .inl (remaining_lt_of_todo htodo rfl rfl rfl)
  | lose htodo hidle => exact .inl (remaining_lt_of_todo htodo rfl rfl rfl)
  | cpuTick htodo hidle hfree => exact .inl (remaining_lt_of_todo htodo rfl rfl rfl)
  | callEmpty htodo hidle => exact .inl (remaining_lt_of_todo htodo rfl (update_idle hidle) rfl)
  | @call w c rest htodo hidle hc =>
    refine .inl (remaining_lt w (fun v hv => Function.update_of_ne hv ..)
      (fun v hv => Function.update_of_ne hv ..) ?_)
    simp only [Function.update_self, htodo, hidle, effort, List.length_cons, Option.isSome_some,
      Option.isSome_none]
    simp only [Bool.false_eq_true, if_true, if_false]
    omega
  | @inside s hstep hcalls hlast =>
    cases hstep with
    | tick hnow => exact .inr ⟨.tick hnow, rfl⟩
    | @callEmpty w hidle =>
      have heq := returns_empty_eq hidle hlast
      rw [heq]
      exact .inr ⟨.tick le_rfl, rfl⟩
    | call hidle => exact absurd hcalls (not_inside_call hidle)
    | @collect w c inner hcall hfree henter =>
      refine .inl (remaining_lt w (fun _ _ => rfl) (fun v hv => Function.update_of_ne hv ..) ?_)
      simp [Sys.returns, effort, hcall, hfree]
    | @charge w c inner bytes hcall hfree henter =>
      refine .inl (remaining_lt w (fun _ _ => rfl) (fun _ _ => rfl) ?_)
      simp [hfree]
    | sleep hheld hio hround => exact .inr ⟨.sleep hheld hio hround, rfl⟩
    | @leave h b b' hheld hio hround =>
      refine .inl (remaining_lt h.worker (fun _ _ => rfl) (fun v hv => Function.update_of_ne hv ..) ?_)
      simp [Sys.returns, Sys.pays, effort, hheld, hholds h hheld]

end Measure

/-! ## Getting on -/

section Progress

variable [DecidableEq ι]

/-- With the mutex free, a worker that is not done can get on. -/
theorem exists_step_of_free {w : ι} (hfree : f.sys.mutex = none) (hnot : ¬ f.Done w) :
    ∃ f', Step f f' ∧ ¬ Idle f f' ∧ f'.sys.now = f.sys.now ∧ f'.sys.charged = f.sys.charged := by
  have hbusy : ∀ {f' : Fleet ι} (v : ι), f'.sys.calls v ≠ f.sys.calls v → ¬ Idle f f' :=
    fun v hne hidle => hne (congrFun hidle.same.calls v)
  have htaken : ∀ {f' : Fleet ι} {e : Event} {rest : List Event}, f.todo w = e :: rest →
      f'.todo = Function.update f.todo w rest → ¬ Idle f f' :=
    fun {f' e rest} htodo htodo' hidle => by
      have hsame := congrFun hidle.same.todo w
      rw [htodo', Function.update_self, htodo] at hsame
      exact absurd hsame.symm (List.cons_ne_self e rest)
  cases hcall : f.sys.calls w with
  | some c =>
    cases henter : c.enter f.sys.inner with
    | mk inner bytes =>
      cases bytes with
      | none =>
        have hne : Function.update f.sys.calls w none w ≠ f.sys.calls w := by
          rw [Function.update_self, hcall]
          exact (Option.some_ne_none c).symm
        refine ⟨_, .inside (.collect hcall hfree henter) (fun v hv => ?_)
          (fun hsame => absurd (congrFun hsame w) hne), hbusy w hne, rfl, rfl⟩
        by_cases hvw : v = w
        · rw [hvw]
          exact Function.update_self ..
        · exact (Function.update_of_ne hvw ..).trans hv
      | some bytes =>
        refine ⟨_, .inside (.charge hcall hfree henter) (fun _ hv => hv) (fun _ => rfl),
          fun hidle => ?_, rfl, rfl⟩
        have hmutex := hidle.same.mutex
        rw [hfree] at hmutex
        cases hmutex
  | none =>
    cases htodo : f.todo w with
    | nil => exact absurd ⟨htodo, hcall⟩ hnot
    | cons e rest =>
      cases e with
      | moved n => exact ⟨_, .move htodo hcall, htaken htodo rfl, rfl, rfl⟩
      | unaccounted n => exact ⟨_, .lose htodo hcall, htaken htodo rfl, rfl, rfl⟩
      | cpuTick => exact ⟨_, .cpuTick htodo hcall hfree, htaken htodo rfl, rfl, rfl⟩
      | call c =>
        by_cases hc : c = .acquireIo 0
        · subst hc
          exact ⟨_, .callEmpty htodo hcall, htaken htodo rfl, rfl, rfl⟩
        · exact ⟨_, .call htodo hcall hc, htaken htodo rfl, rfl, rfl⟩

/-- The holder of the mutex can leave when the bucket holds its bytes. -/
theorem exists_leave {h : Held ι} {b : IoBucket} (hheld : f.sys.mutex = some h)
    (hio : f.sys.inner.io = some b) (hcall : f.sys.calls h.worker = some h.call)
    (hready : (h.bytes : ℚ) ≤ f.stock) :
    ∃ f', Step f f' ∧ ¬ Idle f f' ∧ f'.sys.now = f.sys.now ∧
      f'.sys.charged = f.sys.charged + h.bytes := by
  rw [stock_eq hio] at hready
  obtain ⟨b', hround⟩ := IoBucket.acquireRound_of_le hready
  have hne : Function.update f.sys.calls h.worker none h.worker ≠ f.sys.calls h.worker := by
    rw [Function.update_self, hcall]
    exact (Option.some_ne_none h.call).symm
  refine ⟨_, .inside (.leave hheld hio hround) (fun v hv => ?_)
    (fun hsame => absurd (congrFun hsame h.worker) hne),
    fun hidle => hne (congrFun hidle.same.calls h.worker), rfl, rfl⟩
  by_cases hvw : v = h.worker
  · rw [hvw]
    exact Function.update_self ..
  · exact (Function.update_of_ne hvw ..).trans hv

/-- A run in which nobody waits for longer than the bytes take that are charged meanwhile. -/
def Hastens (rate : ℚ) (f f' : Fleet ι) : Prop :=
  ReflTransGen Step f f' ∧ rate * (f'.sys.now - f.sys.now) ≤ f'.sys.charged - f.sys.charged

theorem Hastens.trans {f'' : Fleet ι} (h : Hastens rate f f') (h' : Hastens rate f' f'') :
    Hastens rate f f'' := by
  refine ⟨h.1.trans h'.1, ?_⟩
  calc rate * (f''.sys.now - f.sys.now)
      = rate * (f'.sys.now - f.sys.now) + rate * (f''.sys.now - f'.sys.now) := by ring
    _ ≤ (f'.sys.charged - f.sys.charged) + (f''.sys.charged - f'.sys.charged) :=
      add_le_add h.2 h'.2
    _ = f''.sys.charged - f.sys.charged := by ring

theorem hastens_of_run (hrun : ReflTransGen (Hastens rate) f f') : Hastens rate f f' := by
  induction hrun with
  | refl => exact ⟨.refl, by simp⟩
  | tail _ hlast ih => exact ih.trans hlast

variable [Fintype ι] {M : Nat}

omit [DecidableEq ι] in
/-- What a call has to pay fits into the bucket. -/
theorem Coherent.held_le (h : Coherent M rate burst began f)
    (hfit : (ioBatchBytes + M : ℚ) ≤ burst + 1) {held : Held ι} (hheld : f.sys.mutex = some held) :
    (held.bytes : ℚ) ≤ burst := by
  obtain ⟨-, -, hlt⟩ := h.accounts.held held hheld
  have hcall := (h.inv.bounded held.worker).2 held.call (h.inv.holds held hheld)
  have hle : held.bytes + 1 ≤ ioBatchBytes + M := by omega
  have hle' : (held.bytes : ℚ) + 1 ≤ ioBatchBytes + M := by exact_mod_cast hle
  linarith

/-- As long as somebody is not done, somebody can get on: at once, or when the bucket has
filled up. -/
theorem exists_hastens (hrate : 0 < rate) (hsmall : ioBatchBytes + M ≤ u64Max)
    (hfit : (ioBatchBytes + M : ℚ) ≤ burst + 1) (h : Coherent M rate burst began f)
    (hnot : ¬ ∀ w, f.Done w) : ∃ f', Hastens rate f f' ∧ f'.remaining < f.remaining := by
  have hsmaller : ∀ {f f' : Fleet ι}, Coherent M rate burst began f → Step f f' → ¬ Idle f f' →
      f'.remaining < f.remaining := fun {f f'} hcoherent hstep hbusy =>
    (step_remaining hcoherent.inv.holds hstep).resolve_right fun hidle => hbusy hidle.1
  cases hmutex : f.sys.mutex with
  | none =>
    obtain ⟨w, hw⟩ := not_forall.mp hnot
    obtain ⟨f', hstep, hbusy, hnow, hcharged⟩ := exists_step_of_free hmutex hw
    refine ⟨f', ⟨.single hstep, ?_⟩, hsmaller h hstep hbusy⟩
    rw [hnow, hcharged, sub_self, sub_self, mul_zero]
  | some held =>
    -- wait until all of it has flowed in
    have hwait : f.sys.now ≤ f.sys.now + held.bytes / rate :=
      le_add_of_nonneg_right (div_nonneg (Nat.cast_nonneg _) hrate.le)
    have htick : Step f (f.later (f.sys.now + held.bytes / rate)) :=
      .inside (.tick hwait) (fun _ hv => hv) fun _ => rfl
    have hcoherent := coherent_step hrate.le hsmall h htick
    obtain ⟨b, hio, -⟩ := h.limits.metered
    have hready : (held.bytes : ℚ) ≤ (f.later (f.sys.now + held.bytes / rate)).stock := by
      obtain ⟨-, hstock⟩ := Idle.stock_eq (.tick hwait) hrate.le h.limits
      change (f.later _).stock = fill rate burst f.stock ((f.later _).sys.now - f.sys.now) at hstock
      rw [hstock]
      refine le_fill_of_wait hrate (stock_bounds hrate.le h.limits).1 (h.held_le hfit hmutex) ?_
      rw [later, add_sub_cancel_left]
    obtain ⟨f', hstep, hbusy, hnow, hcharged⟩ :=
      exists_leave (f := f.later (f.sys.now + held.bytes / rate)) hmutex hio
        (h.inv.holds held hmutex) hready
    have hsame : (f.later (f.sys.now + held.bytes / rate)).remaining = f.remaining :=
      (Idle.tick hwait).same.remaining_eq
    refine ⟨f', ⟨.tail (.single htick) hstep, ?_⟩, hsame ▸ hsmaller hcoherent hstep hbusy⟩
    rw [hnow, hcharged]
    change rate * (f.sys.now + held.bytes / rate - f.sys.now) ≤
      ((f.sys.charged + held.bytes : Nat) : ℚ) - f.sys.charged
    rw [add_sub_cancel_left, Nat.cast_add, add_sub_cancel_left, mul_div_cancel₀ _ hrate.ne']

/-- **Nobody is in the way for good**: all workers can be brought to their ends, and no
longer than the bytes take that are still to be charged. -/
theorem exists_done (hrate : 0 < rate) (hsmall : ioBatchBytes + M ≤ u64Max)
    (hfit : (ioBatchBytes + M : ℚ) ≤ burst + 1) (h : Coherent M rate burst began f) :
    ∃ f', Hastens rate f f' ∧ ∀ w, f'.Done w := by
  have hkeeps : ∀ f f' : Fleet ι, Coherent M rate burst began f → Hastens rate f f' →
      Coherent M rate burst began f' := fun f f' hf hrun =>
    Lib.Run.invariant_of_run (Coherent M rate burst began)
      (fun _ _ => coherent_step hrate.le hsmall) hrun.1 hf
  obtain ⟨f', hrun, hdone⟩ := Lib.Run.exists_final wellFounded_lt hkeeps
    (fun f hf => exists_hastens hrate hsmall hfit hf) h
  exact ⟨f', hastens_of_run hrun, hdone⟩

end Progress

/-! ## Fair runs -/

section FairRuns

variable [Fintype ι] [DecidableEq ι] {M : Nat} {run : ℕ → Fleet ι}

omit [Fintype ι] in
theorem Step.now_le (h : Step f f') : f.sys.now ≤ f'.sys.now := by
  rcases h.sys_cases with hsame | hstep
  · rw [hsame]
  · exact hstep.now_le

omit [Fintype ι] [DecidableEq ι] in
/-- While a run only idles from `N` on, the workers stay where they are and the bucket fills
up. -/
theorem idle_from (hrate : 0 ≤ rate) {N : ℕ}
    (hlimits : ∀ i, Limit.Inv rate burst began (run i).sys)
    (hidle : ∀ i, N ≤ i → Idle (run i) (run (i + 1))) :
    ∀ i, N ≤ i → Same (run N) (run i) ∧ (run N).sys.now ≤ (run i).sys.now ∧
      (run i).stock = fill rate burst (run N).stock ((run i).sys.now - (run N).sys.now) := by
  intro i hi
  induction i, hi using Nat.le_induction with
  | base =>
    refine ⟨⟨rfl, rfl, rfl⟩, le_rfl, ?_⟩
    rw [sub_self, fill_zero (stock_bounds hrate (hlimits N)).2]
  | succ i hi ih =>
    obtain ⟨hsame, hle, hstock⟩ := ih
    obtain ⟨hnow, hnext⟩ := (hidle i hi).stock_eq hrate (hlimits i)
    refine ⟨hsame.trans (hidle i hi).same, hle.trans hnow, ?_⟩
    rw [hnext, hstock, fill_fill (mul_nonneg hrate (sub_nonneg.mpr hnow))]
    congr 1
    ring

/-- **Every fair run ends**: if the clock goes on, and what could always get on does get on,
all workers come to their ends. -/
theorem done_of_fair (hrate : 0 < rate) (hsmall : ioBatchBytes + M ≤ u64Max)
    (hfit : (ioBatchBytes + M : ℚ) ≤ burst + 1) (h : Coherent M rate burst began (run 0))
    (hrun : ∀ i, Step (run i) (run (i + 1))) (htime : ∀ t, ∃ i, t ≤ (run i).sys.now)
    (hfair : Lib.Run.Fair Step Idle run) : ∃ N, ∀ i, N ≤ i → ∀ w, (run i).Done w := by
  have hcoherent : ∀ i, Coherent M rate burst began (run i) := by
    intro i
    induction i with
    | zero => exact h
    | succ i ih => exact coherent_step hrate.le hsmall ih (hrun i)
  have hmono : Monotone fun i => (run i).sys.now := monotone_nat_of_le_succ fun i => (hrun i).now_le
  have hsteps : ∀ f f' : Fleet ι, Coherent M rate burst began f → Step f f' →
      Coherent M rate burst began f' ∧
        (f'.remaining < f.remaining ∨ (Idle f f' ∧ f'.remaining = f.remaining)) :=
    fun f f' hf hstep =>
      ⟨coherent_step hrate.le hsmall hf hstep, step_remaining hf.inv.holds hstep⟩
  obtain ⟨N, hdone, hidle⟩ :
      ∃ N, (∀ w, (run N).Done w) ∧ ∀ i, N ≤ i → Idle (run i) (run (i + 1)) := by
    refine Lib.Run.final_of_fair (fun f : Fleet ι => ∀ w, f.Done w) wellFounded_lt hsteps hrun h
      hfair ?_
    intro N hidle hnot
    have hfrom := idle_from hrate.le (fun i => (hcoherent i).limits) hidle
    cases hmutex : (run N).sys.mutex with
    | none =>
      obtain ⟨w, hw⟩ := not_forall.mp hnot
      refine ⟨N, le_rfl, fun i hi => ?_⟩
      have hsame := (hfrom i hi).1
      obtain ⟨f', hstep, hbusy, -⟩ := exists_step_of_free (hsame.mutex.trans hmutex)
        (mt (hsame.done_iff w).mp hw)
      exact ⟨f', hstep, hbusy⟩
    | some held =>
      -- once its bytes have flowed in, the holder can leave, and it stays so
      obtain ⟨j, hj⟩ := htime ((run N).sys.now + held.bytes / rate)
      refine ⟨max N j, le_max_left N j, fun i hi => ?_⟩
      obtain ⟨hsame, -, hstock⟩ := hfrom i ((le_max_left N j).trans hi)
      have hheld := hsame.mutex.trans hmutex
      have hlater := hj.trans (hmono ((le_max_right N j).trans hi))
      obtain ⟨b, hio, -⟩ := (hcoherent i).limits.metered
      have hready : (held.bytes : ℚ) ≤ (run i).stock := by
        rw [hstock]
        refine le_fill_of_wait hrate (stock_bounds hrate.le (hcoherent N).limits).1
          ((hcoherent i).held_le hfit hheld) ?_
        exact le_sub_iff_add_le'.mpr hlater
      obtain ⟨f', hstep, hbusy, -⟩ :=
        exists_leave hheld hio ((hcoherent i).inv.holds held hheld) hready
      exact ⟨f', hstep, hbusy⟩
  refine ⟨N, fun i hi w => ?_⟩
  exact ((idle_from hrate.le (fun i => (hcoherent i).limits) hidle i hi).1.done_iff w).mpr (hdone w)

omit [Fintype ι] in
/-- Workers that are done only let the time go by. -/
theorem idle_of_done (hdone : ∀ w, f.Done w) (hfree : f.sys.mutex = none) (hstep : Step f f') :
    Idle f f' := by
  have hnil : ∀ {w : ι} {e : Event} {rest : List Event}, f.todo w ≠ e :: rest :=
    fun {w e rest} htodo => by
      rw [(hdone w).1] at htodo
      cases htodo
  have hno : ∀ {w : ι} {c : Call}, f.sys.calls w ≠ some c := fun {w c} hcall => by
    rw [(hdone w).2] at hcall
    cases hcall
  cases hstep with
  | move htodo => exact absurd htodo hnil
  | lose htodo => exact absurd htodo hnil
  | cpuTick htodo => exact absurd htodo hnil
  | callEmpty htodo => exact absurd htodo hnil
  | call htodo => exact absurd htodo hnil
  | @inside s hstep hcalls hlast =>
    cases hstep with
    | tick hnow => exact .tick hnow
    | callEmpty hidle =>
      rw [returns_empty_eq hidle hlast]
      exact .tick le_rfl
    | call hidle => exact absurd hcalls (not_inside_call hidle)
    | collect hcall => exact absurd hcall hno
    | charge hcall => exact absurd hcall hno
    | sleep hheld => exact absurd (hfree.symm.trans hheld) (by simp)
    | leave hheld => exact absurd (hfree.symm.trans hheld) (by simp)

/-- There are fair runs. -/
theorem exists_fair (hrate : 0 < rate) (hsmall : ioBatchBytes + M ≤ u64Max)
    (hfit : (ioBatchBytes + M : ℚ) ≤ burst + 1) (h : Coherent M rate burst began f) :
    ∃ run : ℕ → Fleet ι, run 0 = f ∧ (∀ i, Step (run i) (run (i + 1))) ∧
      (∀ t, ∃ i, t ≤ (run i).sys.now) ∧ Lib.Run.Fair Step Idle run := by
  obtain ⟨f', ⟨hrun, -⟩, hdone⟩ := exists_done hrate hsmall hfit h
  have hcoherent := Lib.Run.invariant_of_run (Coherent M rate burst began)
    (fun _ _ => coherent_step hrate.le hsmall) hrun h
  have hfree := hcoherent.inv.free_of_done hdone
  obtain ⟨run, hstart, hsteps, N, hrest⟩ := Lib.Run.exists_run_append
    (fun i : ℕ => f'.later (f'.sys.now + i)) hrun (by simp [later]) fun i =>
      .inside (.tick (by simp [later])) (fun _ hv => hv) fun _ => rfl
  refine ⟨run, hstart, hsteps, fun t => ?_, fun N' hcan => ?_⟩
  · obtain ⟨i, hi⟩ := exists_nat_ge (t - f'.sys.now)
    refine ⟨N + i, ?_⟩
    rw [hrest]
    exact sub_le_iff_le_add'.mp hi
  · obtain ⟨g, hstep, hbusy⟩ := hcan (N + N') (Nat.le_add_left N' N)
    rw [hrest] at hstep hbusy
    exact absurd (idle_of_done (f := f'.later (f'.sys.now + N')) hdone hfree hstep) hbusy

end FairRuns

end Fleet

end PcapSlim.Limit
