/-
PcapSlim.GovernorTheorems — what the CPU cap promises.

The target of the governor stays between the cap and the cap less the strength of the
backoff (`floor`), the load it goes by is at most half a second old, and a tick only
sleeps when the process used more than the floor since the last sample
(`governor_in_band`).

Pauses do not hold the process to its cap: the next sample counts the pause as time in
which nothing was used, so what was used besides is not charged once more. What holds is
that a pause makes up for the sample that it follows, if that is no longer than 50 ms and says
that no more than the whole machine was in use (`Prompt`); the two clocks are not read at
once, so that it can say more. Over a run of such samples the process uses no more than the
cap gives it in the time that has passed and the time it has slept (`cpu_bounded`), at most
twice the cap.
-/
import PcapSlim.Governor
import PcapSlim.LimitTheorems
import Mathlib.Tactic.FieldSimp
import Mathlib.Tactic.Positivity

namespace PcapSlim.Limit

open Relation

theorem clamp_mem {x lo hi : ℚ} (h : lo ≤ hi) : lo ≤ clamp x lo hi ∧ clamp x lo hi ≤ hi :=
  ⟨le_min (le_max_right _ _) h, min_le_right _ _⟩

theorem systemBusyPercent_mem (numCpus : ℚ) (load : Option ℚ) :
    0 ≤ systemBusyPercent numCpus load ∧ systemBusyPercent numCpus load ≤ 100 := by
  cases load with
  | none => simp [systemBusyPercent]
  | some load =>
    simp only [systemBusyPercent]
    split
    · exact clamp_mem (by norm_num)
    · norm_num

namespace Governor

/-! ## The target -/

/-- The cap, of all CPUs if there is none. -/
def hard (g : Governor) : ℚ := g.maxCpuPercent.getD 100

/-- The lowest target, under full load. -/
def floor (g : Governor) : ℚ := g.hard * (1 - g.backoffStrength)

/-- What holds of every governor between two ticks. -/
structure Sound (g : Governor) : Prop where
  hard_pos : 0 < g.hard
  strength_nonneg : 0 ≤ g.backoffStrength
  strength_le : g.backoffStrength ≤ 1
  numCpus_pos : 0 < g.numCpus
  busy_nonneg : 0 ≤ g.systemBusyPercent
  busy_le : g.systemBusyPercent ≤ 100
  refreshed : g.lastTick - g.lastSystemRefresh < 1 / 2

theorem Sound.floor_le_hard {g : Governor} (h : g.Sound) : g.floor ≤ g.hard :=
  mul_le_of_le_one_right h.hard_pos.le (by linarith [h.strength_nonneg])

/-- The target is between the floor and the cap. -/
theorem Sound.target_mem {g : Governor} (h : g.Sound) :
    g.floor ≤ g.effectiveTargetPercent ∧ g.effectiveTargetPercent ≤ g.hard := by
  have hband := h.floor_le_hard
  have hhard := h.hard_pos.le
  have hs0 := h.strength_nonneg
  have hs1 := h.strength_le
  unfold effectiveTargetPercent
  rw [← hard]
  dsimp only
  cases g.backoffAbove with
  | none => exact ⟨hband, le_rfl⟩
  | some threshold =>
    dsimp only
    split
    · exact ⟨hband, le_rfl⟩
    · next hbusy =>
      have hspan : 0 < max (100 - threshold) 1 := lt_max_of_lt_right one_pos
      have hover : 0 ≤ min ((g.systemBusyPercent - threshold) / max (100 - threshold) 1) 1 :=
        le_min (div_nonneg (sub_nonneg.mpr (not_lt.mp hbusy)) hspan.le) zero_le_one
      have hcut : g.backoffStrength *
          min ((g.systemBusyPercent - threshold) / max (100 - threshold) 1) 1 ≤
            g.backoffStrength := mul_le_of_le_one_right hs0 (min_le_right _ _)
      have hcut0 := mul_nonneg hs0 hover
      constructor
      · exact mul_le_mul_of_nonneg_left (by linarith) hhard
      · exact mul_le_of_le_one_right hhard (by linarith)

/-! ## One tick -/

/-- `g'` has the settings of `g`. -/
def SameSettings (g g' : Governor) : Prop :=
  g'.toCpuGovernor = g.toCpuGovernor ∧ g'.numCpus = g.numCpus

/-- What a tick can do: nothing, within a millisecond of the last sample; or sample, and
sleep as long as `pause` says. -/
theorem tick_cases (g : Governor) (r : Reading) :
    (g.wall r < 1 / 1000 ∧ g.tick r = (g, none)) ∨
    ∃ g', 1 / 1000 ≤ g.wall r ∧ g.SameSettings g' ∧ g'.lastTick = r.now ∧
      g'.lastProcessCpuSecs = r.cpuSecs ∧
      (g'.lastSystemRefresh = r.now ∧
          g'.systemBusyPercent = Limit.systemBusyPercent g.numCpus r.load ∨
        r.now - g.lastSystemRefresh < 1 / 2 ∧ g'.lastSystemRefresh = g.lastSystemRefresh ∧
          g'.systemBusyPercent = g.systemBusyPercent) ∧
      g.tick r = (g', pause (g.processPctOfMachine r) g'.effectiveTargetPercent) := by
  unfold tick
  by_cases hwall : g.wall r < 1 / 1000
  · exact .inl ⟨hwall, if_pos hwall⟩
  · rw [if_neg hwall]
    refine .inr ⟨_, not_lt.mp hwall, ?_, rfl, rfl, ?_, rfl⟩
    · unfold refresh
      split <;> exact ⟨rfl, rfl⟩
    · unfold refresh
      split
      · exact .inl ⟨rfl, rfl⟩
      · next hage => exact .inr ⟨(le_max_left _ _).trans_lt (not_le.mp hage), rfl, rfl⟩

theorem pause_eq_some {pct target secs : ℚ} (h : pause pct target = some secs) :
    target < pct ∧ secs = clamp (5 / 100 * ((pct - target) / max target 1)) (1 / 1000) (1 / 2) := by
  unfold pause at h
  split at h
  · next hover => exact ⟨hover, (Option.some.inj h).symm⟩
  · cases h

theorem SameSettings.hard_eq {g g' : Governor} (h : g.SameSettings g') : g'.hard = g.hard := by
  rw [hard, hard, h.1]

theorem SameSettings.floor_eq {g g' : Governor} (h : g.SameSettings g') : g'.floor = g.floor := by
  rw [floor, floor, h.hard_eq, h.1]

/-- A tick keeps the governor sound. -/
theorem Sound.tick {g : Governor} (h : g.Sound) (r : Reading) :
    g.SameSettings (g.tick r).1 ∧ (g.tick r).1.Sound := by
  obtain ⟨-, htick⟩ | ⟨g', -, hset, hlast, -, hload, htick⟩ := g.tick_cases r
  · rw [htick]
    exact ⟨⟨rfl, rfl⟩, h⟩
  · rw [htick]
    have hbusy : 0 ≤ g'.systemBusyPercent ∧ g'.systemBusyPercent ≤ 100 := by
      obtain ⟨-, hbusy⟩ | ⟨-, -, hbusy⟩ := hload <;> rw [hbusy]
      · exact systemBusyPercent_mem _ _
      · exact ⟨h.busy_nonneg, h.busy_le⟩
    refine ⟨hset,
      { hard_pos := by rw [hset.hard_eq]; exact h.hard_pos
        strength_nonneg := by rw [hset.1]; exact h.strength_nonneg
        strength_le := by rw [hset.1]; exact h.strength_le
        numCpus_pos := by rw [hset.2]; exact h.numCpus_pos
        busy_nonneg := hbusy.1
        busy_le := hbusy.2
        refreshed := ?_ }⟩
    obtain ⟨hfresh, -⟩ | ⟨hage, hfresh, -⟩ := hload
    · rw [hlast, hfresh, sub_self]
      norm_num
    · rw [hlast, hfresh]
      exact hage

/-! ## A pause and the sample before it -/

/-- A share of at most the whole machine for at most 50 ms is made up for by the pause, if
the target is at least a tenth of the rest of the machine. -/
theorem pause_pays {pct target secs wall : ℚ} (hpause : pause pct target = some secs)
    (htarget : 100 / 11 ≤ target) (hpct : pct ≤ 100) (hwall : wall ≤ 1 / 20) :
    pct * wall ≤ target * (wall + secs) := by
  obtain ⟨hover, rfl⟩ := pause_eq_some hpause
  have hpos : 0 < target := by linarith
  rw [max_eq_left (show (1 : ℚ) ≤ target by linarith)]
  have hten : (pct - target) / target ≤ 10 := (div_le_iff₀ hpos).mpr (by linarith)
  have hsecs : 5 / 100 * ((pct - target) / target) ≤
      clamp (5 / 100 * ((pct - target) / target)) (1 / 1000) (1 / 2) :=
    le_min (le_max_left _ _) (by linarith)
  have hpaid : 5 / 100 * (pct - target) ≤
      target * clamp (5 / 100 * ((pct - target) / target)) (1 / 1000) (1 / 2) := by
    calc 5 / 100 * (pct - target) = target * (5 / 100 * ((pct - target) / target)) := by
          field_simp
      _ ≤ _ := mul_le_mul_of_nonneg_left hsecs hpos.le
  have hexcess : (pct - target) * wall ≤ (pct - target) * (1 / 20) :=
    mul_le_mul_of_nonneg_left hwall (by linarith)
  linarith

/-- CPU seconds that the cap gives in a second. -/
def budget (g : Governor) : ℚ := g.hard / 100 * g.numCpus

theorem Sound.budget_nonneg {g : Governor} (h : g.Sound) : 0 ≤ g.budget :=
  mul_nonneg (div_nonneg h.hard_pos.le (by norm_num)) h.numCpus_pos.le

/-- A share is CPU time by wall time. -/
theorem cpuDelta_eq {g : Governor} (h : g.Sound) {r : Reading} (hnow : g.lastTick < r.now)
    (hcpu : g.lastProcessCpuSecs ≤ r.cpuSecs) :
    r.cpuSecs - g.lastProcessCpuSecs =
      g.numCpus / 100 * (g.processPctOfMachine r * (r.now - g.lastTick)) := by
  have hcpus := h.numCpus_pos
  have hwall : 0 < r.now - g.lastTick := sub_pos.mpr hnow
  unfold processPctOfMachine wall
  dsimp only
  rw [max_eq_left (sub_nonneg.mpr hcpu), max_eq_left hwall.le]
  field_simp

/-- A tick that is followed by a pause ends a sample of at most 50 ms, in which the process
was seen to use at most 100 % of the machine. -/
def Prompt (g : Governor) (r : Reading) : Prop :=
  (g.tick r).2.isSome → r.now - g.lastTick ≤ 1 / 20 ∧ g.processPctOfMachine r ≤ 100

/-- **What is used between two samples**, at most what the cap gives for the time between
them and for the pause behind them. -/
theorem used_le {g : Governor} (h : g.Sound) (hfloor : 100 / 11 ≤ g.floor) {r : Reading}
    (hnow : g.lastTick ≤ r.now) (hcpu : g.lastProcessCpuSecs ≤ r.cpuSecs) (hprompt : g.Prompt r) :
    (g.tick r).1.lastProcessCpuSecs - g.lastProcessCpuSecs ≤
      g.budget * ((g.tick r).1.lastTick - g.lastTick + (g.tick r).2.getD 0) := by
  have hsound := h.tick r
  unfold Prompt at hprompt
  obtain ⟨-, htick⟩ | ⟨g', hwall, hset, hlast, hsecs, -, htick⟩ := g.tick_cases r
  · rw [htick]
    simp
  · rw [htick] at hsound hprompt ⊢
    have hlt : g.lastTick < r.now := by
      unfold wall at hwall
      by_contra hle
      rw [max_eq_right (by linarith)] at hwall
      norm_num at hwall
    have htarget := hsound.2.target_mem
    rw [hset.hard_eq, hset.floor_eq] at htarget
    have hcpus : 0 ≤ g.numCpus / 100 := div_nonneg h.numCpus_pos.le (by norm_num)
    have hwall0 : 0 ≤ r.now - g.lastTick := sub_nonneg.mpr hnow
    dsimp only at hprompt ⊢
    rw [hsecs, hlast, cpuDelta_eq h hlt hcpu]
    have hpct : g.processPctOfMachine r * (r.now - g.lastTick) ≤ g.hard * (r.now - g.lastTick +
        (pause (g.processPctOfMachine r) g'.effectiveTargetPercent).getD 0) := by
      cases hpause : pause (g.processPctOfMachine r) g'.effectiveTargetPercent with
      | none =>
        have hunder : g.processPctOfMachine r ≤ g'.effectiveTargetPercent := by
          unfold pause at hpause
          split at hpause
          · cases hpause
          · next hover => exact not_lt.mp hover
        simp only [Option.getD_none, add_zero]
        exact mul_le_mul_of_nonneg_right (hunder.trans htarget.2) hwall0
      | some secs =>
        rw [hpause] at hprompt
        obtain ⟨hshort, hwhole⟩ := hprompt rfl
        have hpause0 : 0 ≤ secs := by
          rw [(pause_eq_some hpause).2]
          exact le_trans (by norm_num) (clamp_mem (by norm_num)).1
        calc g.processPctOfMachine r * (r.now - g.lastTick)
            ≤ g'.effectiveTargetPercent * (r.now - g.lastTick + secs) :=
              pause_pays hpause (hfloor.trans htarget.1) hwhole hshort
          _ ≤ g.hard * (r.now - g.lastTick + secs) :=
              mul_le_mul_of_nonneg_right htarget.2 (add_nonneg hwall0 hpause0)
    calc g.numCpus / 100 * (g.processPctOfMachine r * (r.now - g.lastTick))
        ≤ g.numCpus / 100 * (g.hard * (r.now - g.lastTick +
            (pause (g.processPctOfMachine r) g'.effectiveTargetPercent).getD 0)) :=
          mul_le_mul_of_nonneg_left hpct hcpus
      _ = _ := by rw [budget]; ring

end Governor

/-! ## Runs -/

/-- `g` is the governor of limits that `build` returned, on some machine. -/
def LimitConfig.Governs (cfg : LimitConfig) (g : Governor) : Prop :=
  ∃ now inner settings parallelism r, cfg.build now = some inner ∧ inner.cpu = some settings ∧
    g = Governor.start settings parallelism r

/-- What `build` makes of the settings. -/
theorem LimitConfig.build_cpu {cfg : LimitConfig} {now : ℚ} {inner : Inner} {settings : CpuGovernor}
    (hbuild : cfg.build now = some inner) (hcpu : inner.cpu = some settings) :
    0 < settings.maxCpuPercent.getD 100 ∧ 0 ≤ settings.backoffStrength ∧
      settings.backoffStrength ≤ 1 := by
  simp only [LimitConfig.build] at hbuild
  split at hbuild
  · cases hbuild
  · cases hbuild
    simp only [CpuGovernor.new] at hcpu
    split at hcpu
    · cases hcpu
    · cases hcpu
      refine ⟨?_, le_min (le_max_right _ _) zero_le_one, min_le_right _ _⟩
      cases hmax : cfg.maxCpuPercent with
      | none => simp
      | some p =>
        by_cases hp : 0 < p <;> simp [Option.filter, hp]

theorem LimitConfig.Governs.sound {cfg : LimitConfig} {g : Governor} (h : cfg.Governs g) :
    g.Sound := by
  obtain ⟨now, inner, settings, parallelism, r, hbuild, hcpu, rfl⟩ := h
  obtain ⟨hmax, h0, h1⟩ := LimitConfig.build_cpu hbuild hcpu
  exact
    { hard_pos := hmax
      strength_nonneg := h0
      strength_le := h1
      numCpus_pos := by simp only [Governor.start]; exact_mod_cast (parallelism.getD 1).pos
      busy_nonneg := (systemBusyPercent_mem _ _).1
      busy_le := (systemBusyPercent_mem _ _).2
      refreshed := by simp only [Governor.start, sub_self]; norm_num }

/-- For how long a tick sleeps, and after which share. -/
theorem Governor.Sound.sleep_mem {g : Governor} (h : g.Sound) {r : Reading} {secs : ℚ}
    (hsleep : (g.tick r).2 = some secs) :
    g.floor < g.processPctOfMachine r ∧ 1 / 1000 ≤ secs ∧ secs ≤ 1 / 2 := by
  have hsound := h.tick r
  obtain ⟨-, htick⟩ | ⟨g', -, hset, -, -, -, htick⟩ := g.tick_cases r
  · rw [htick] at hsleep
    cases hsleep
  · rw [htick] at hsleep hsound
    obtain ⟨hover, rfl⟩ := pause_eq_some hsleep
    have htarget := hsound.2.target_mem.1
    rw [hset.floor_eq] at htarget
    exact ⟨htarget.trans_lt hover, clamp_mem (by norm_num)⟩

namespace Meter

@[simp] theorem tick_governor (m : Meter) (r : Reading) :
    (m.tick r).governor = (m.governor.tick r).1 := rfl

@[simp] theorem tick_free (m : Meter) (r : Reading) :
    (m.tick r).free = r.now + (m.governor.tick r).2.getD 0 := rfl

@[simp] theorem tick_paused (m : Meter) (r : Reading) :
    (m.tick r).paused = m.paused + (m.governor.tick r).2.getD 0 := rfl

/-- What holds of every state, for the governor that it began with. -/
structure Inv (g : Governor) (m : Meter) : Prop where
  settings : g.SameSettings m.governor
  sound : m.governor.Sound
  lastTick_le : m.governor.lastTick ≤ m.free
  free_le : m.free ≤ m.governor.lastTick + 1 / 2
  paused_le : m.paused ≤ m.free - g.lastTick

theorem inv_start {g : Governor} (h : g.Sound) : Inv g (start g) where
  settings := ⟨rfl, rfl⟩
  sound := h
  lastTick_le := le_rfl
  free_le := by simp only [start]; linarith
  paused_le := by simp [start]

/-- A tick keeps it. -/
theorem Inv.tick {g : Governor} {m : Meter} (h : Inv g m) {r : Reading} (hnow : m.free ≤ r.now) :
    Inv g (m.tick r) := by
  obtain ⟨hset, hsound⟩ := h.sound.tick r
  have hpaused := h.paused_le
  have hsleep : 0 ≤ (m.governor.tick r).2.getD 0 ∧ (m.governor.tick r).2.getD 0 ≤ 1 / 2 := by
    cases hs : (m.governor.tick r).2 with
    | none => simp
    | some secs =>
      obtain ⟨-, hlo, hhi⟩ := h.sound.sleep_mem hs
      exact ⟨le_trans (by norm_num) hlo, hhi⟩
  refine ⟨⟨hset.1.trans h.settings.1, hset.2.trans h.settings.2⟩, hsound, ?_, ?_, ?_⟩
  · obtain ⟨-, htick⟩ | ⟨g', -, -, hlast, -, -, htick⟩ := m.governor.tick_cases r
    · simp only [tick_governor, tick_free, htick, Option.getD_none, add_zero]
      exact h.lastTick_le.trans hnow
    · simp only [tick_governor, tick_free]
      rw [htick] at hsleep ⊢
      rw [hlast]
      linarith [hsleep.1]
  · obtain ⟨hwall, htick⟩ | ⟨g', -, -, hlast, -, -, htick⟩ := m.governor.tick_cases r
    · simp only [tick_governor, tick_free, htick, Option.getD_none, add_zero]
      have := (le_max_left _ _).trans_lt hwall
      linarith
    · simp only [tick_governor, tick_free]
      rw [htick] at hsleep ⊢
      rw [hlast]
      linarith [hsleep.2]
  · simp only [tick_free, tick_paused]
    linarith

/-- What a run of ticks keeps to, for the governor that it began with. -/
structure InBand (g : Governor) (m : Meter) : Prop where
  target : g.floor ≤ m.governor.effectiveTargetPercent ∧ m.governor.effectiveTargetPercent ≤ g.hard
  fresh : m.governor.lastTick - m.governor.lastSystemRefresh < 1 / 2
  paused : m.paused ≤ m.governor.lastTick - g.lastTick + 1 / 2
  sleeps : ∀ r secs, (m.governor.tick r).2 = some secs →
    g.floor < m.governor.processPctOfMachine r ∧ 1 / 1000 ≤ secs ∧ secs ≤ 1 / 2

theorem Inv.inBand {g : Governor} {m : Meter} (h : Inv g m) : InBand g m where
  target := by
    have := h.sound.target_mem
    rwa [h.settings.floor_eq, h.settings.hard_eq] at this
  fresh := h.sound.refreshed
  paused := by linarith [h.paused_le, h.free_le]
  sleeps := fun r secs hsleep => by
    have := h.sound.sleep_mem hsleep
    rwa [h.settings.floor_eq] at this

/-- **The governor keeps to its band** in every run of ticks: the target is between the cap
less the strength of the backoff and the cap, for a load that is not half a second old, and
a tick sleeps between 1 ms and half a second, only when the process used more of the machine
than the lowest target since the last sample. -/
theorem governor_in_band {cfg : LimitConfig} {g : Governor} {m : Meter} (hgoverns : cfg.Governs g)
    (hrun : ReflTransGen Step (start g) m) : InBand g m := by
  refine (Lib.Run.invariant_of_run (Inv g) ?_ hrun (inv_start hgoverns.sound)).inBand
  intro m m' hinv hstep
  cases hstep with
  | tick hnow _ => exact hinv.tick hnow

/-- A cap of 50% on a machine with one CPU, and a process that used all of it for 50 ms. -/
def busyGovernor : Governor :=
  Governor.start { maxCpuPercent := some 50, backoffAbove := none, backoffStrength := 0 } none
    { now := 0, cpuSecs := 0, load := none }

theorem busyGovernor_governs : ({ maxCpuPercent := some 50 } : LimitConfig).Governs busyGovernor :=
  ⟨0, { io := none, cpu := _, ioPending := 0 }, _, none, _, rfl, rfl, rfl⟩

theorem governor_in_band_busyGovernor :
    InBand busyGovernor
      ((start busyGovernor).tick { now := 1 / 20, cpuSecs := 1 / 20, load := none }) :=
  governor_in_band busyGovernor_governs
    (.single (.tick (by decide +kernel) (by decide +kernel)))

/-! ## The CPU time of a run -/

/-- A step whose sample is prompt, if it pauses. -/
inductive PromptStep : Meter → Meter → Prop
  | tick {m : Meter} {r : Reading} (hnow : m.free ≤ r.now)
      (hcpu : m.governor.lastProcessCpuSecs ≤ r.cpuSecs) (hprompt : m.governor.Prompt r) :
      PromptStep m (m.tick r)

/-- CPU seconds that the samples since `g` have seen. -/
def used (g : Governor) (m : Meter) : ℚ := m.governor.lastProcessCpuSecs - g.lastProcessCpuSecs

/-- Seconds between the first sample and the last. -/
def elapsed (g : Governor) (m : Meter) : ℚ := m.governor.lastTick - g.lastTick

/-- A step adds no more to the CPU time than the cap gives for what it adds to the time and
the pauses. -/
theorem used_step {g : Governor} (hfloor : 100 / 11 ≤ g.floor) {m m' : Meter}
    (h : Inv g m ∧ m.used g ≤ g.budget * (m.elapsed g + m.paused)) (hstep : PromptStep m m') :
    Inv g m' ∧ m'.used g ≤ g.budget * (m'.elapsed g + m'.paused) := by
  obtain ⟨hinv, hused⟩ := h
  cases hstep with
  | @tick r hnow hcpu hprompt =>
    refine ⟨hinv.tick hnow, ?_⟩
    have hbudget : m.governor.budget = g.budget := by
      rw [Governor.budget, Governor.budget, hinv.settings.hard_eq, hinv.settings.2]
    have hstep := Governor.used_le hinv.sound (hinv.settings.floor_eq ▸ hfloor)
      (hinv.lastTick_le.trans hnow) hcpu hprompt
    rw [hbudget] at hstep
    simp only [used, elapsed, tick_governor, tick_paused] at hused ⊢
    linarith

/-- **The CPU time of a run**: if every sample that is followed by a pause is no longer than
50 ms and has seen no more than the whole machine in use, and the lowest target is at least
100/11 %, the process has used no more than the cap gives for the time that passed and the time
that it slept, and so at most twice what the cap gives for the time and half a second. -/
theorem cpu_bounded {cfg : LimitConfig} {g : Governor} {m : Meter} (hgoverns : cfg.Governs g)
    (hfloor : 100 / 11 ≤ g.floor) (hrun : ReflTransGen PromptStep (start g) m) :
    m.used g ≤ g.budget * (m.elapsed g + m.paused) ∧
      m.used g ≤ 2 * (g.budget * m.elapsed g) + g.budget / 2 := by
  obtain ⟨hinv, hused⟩ := Lib.Run.invariant_of_run
    (fun m : Meter => Inv g m ∧ m.used g ≤ g.budget * (m.elapsed g + m.paused))
    (fun _ _ => used_step hfloor) hrun
    ⟨inv_start hgoverns.sound, by simp [used, elapsed, start]⟩
  refine ⟨hused, hused.trans ?_⟩
  have hpaused : m.paused ≤ m.elapsed g + 1 / 2 := hinv.inBand.paused
  calc g.budget * (m.elapsed g + m.paused)
      ≤ g.budget * (m.elapsed g + (m.elapsed g + 1 / 2)) :=
        mul_le_mul_of_nonneg_left (by linarith) hgoverns.sound.budget_nonneg
    _ = _ := by ring

theorem promptStep_busyGovernor : PromptStep (start busyGovernor)
    ((start busyGovernor).tick { now := 1 / 20, cpuSecs := 1 / 20, load := none }) :=
  .tick (by decide +kernel) (by decide +kernel) fun _ => by decide +kernel

/-- The bound is reached. -/
theorem cpu_bounded_busyGovernor : ∃ m : Meter,
    ReflTransGen PromptStep (start busyGovernor) m ∧
      m.used busyGovernor ≤ busyGovernor.budget * (m.elapsed busyGovernor + m.paused) ∧
      m.used busyGovernor = 1 / 20 ∧
      busyGovernor.budget * (m.elapsed busyGovernor + m.paused) = 1 / 20 :=
  ⟨_, .single promptStep_busyGovernor,
    (cpu_bounded busyGovernor_governs (by decide +kernel) (.single promptStep_busyGovernor)).1,
    by decide +kernel, by decide +kernel⟩

end Meter

end PcapSlim.Limit
