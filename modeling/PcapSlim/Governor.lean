/-
PcapSlim.Governor — `limit.rs`: the CPU cap and the load backoff.

`CpuGovernor` in `Limit` has the settings; `Governor` adds the fields that `tick`
works on. What `tick` asks the system for is a `Reading`. As in `Limit`, numbers that
the source keeps in `f64` are rational and exact.

`cpu_tick` calls `tick` with the mutex of the limits in hand, and `tick` sleeps with
it, so the ticks of all workers come one after the other. `Meter` is what there is
between two of them, and `Meter.Step` the next one.
-/
import PcapSlim.Limit
import Mathlib.Data.PNat.Basic

namespace PcapSlim.Limit

/-- What the system tells: the time, `process_cpu_secs`, and the load average of the last
minute, if `getloadavg` returns it. -/
structure Reading where
  now : ℚ
  cpuSecs : ℚ
  load : Option ℚ

/-- `f64::clamp`. -/
def clamp (x lo hi : ℚ) : ℚ := min (max x lo) hi

/-- `system_busy_percent`. -/
def systemBusyPercent (numCpus : ℚ) (load : Option ℚ) : ℚ :=
  match load with
  | some load => if 0 < numCpus then clamp (load / numCpus * 100) 0 100 else 0
  | none => 0

/-- `CpuGovernor`, with the settings it is made from. -/
structure Governor extends CpuGovernor where
  numCpus : ℚ
  lastTick : ℚ
  lastProcessCpuSecs : ℚ
  lastSystemRefresh : ℚ
  systemBusyPercent : ℚ

namespace Governor

/-- The rest of `CpuGovernor::new`: `parallelism` is what `available_parallelism` says, and
the clock shows one time to both calls of `Instant::now`. -/
def start (settings : CpuGovernor) (parallelism : Option ℕ+) (r : Reading) : Governor :=
  let numCpus : ℚ := (parallelism.getD 1 : ℕ+)
  { settings with
    numCpus
    lastTick := r.now
    lastProcessCpuSecs := r.cpuSecs
    lastSystemRefresh := r.now
    systemBusyPercent := Limit.systemBusyPercent numCpus r.load }

/-- `effective_target_percent`. -/
def effectiveTargetPercent (g : Governor) : ℚ :=
  let hard := g.maxCpuPercent.getD 100
  match g.backoffAbove with
  | none => hard
  | some threshold =>
      if g.systemBusyPercent < threshold then hard
      else
        let span := max (100 - threshold) 1
        let overBy := (g.systemBusyPercent - threshold) / span
        let reduction := g.backoffStrength * min overBy 1
        hard * (1 - reduction)

/-- The wall time since the last sample. `duration_since` is zero for a later instant. -/
def wall (g : Governor) (r : Reading) : ℚ := max (r.now - g.lastTick) 0

/-- `process_pct_of_machine`: the share of the machine that the process used since then. -/
def processPctOfMachine (g : Governor) (r : Reading) : ℚ :=
  let cpuDelta := max (r.cpuSecs - g.lastProcessCpuSecs) 0
  cpuDelta / g.wall r / g.numCpus * 100

/-- Read the load again, when that was not done for half a second. -/
def refresh (g : Governor) (r : Reading) : Governor :=
  if 1 / 2 ≤ max (r.now - g.lastSystemRefresh) 0 then
    { g with
      systemBusyPercent := Limit.systemBusyPercent g.numCpus r.load
      lastSystemRefresh := r.now }
  else g

/-- How long to sleep with a share of `pct` and a target of `target`. -/
def pause (pct target : ℚ) : Option ℚ :=
  if target < pct then
    let overshoot := (pct - target) / max target 1
    some (clamp (5 / 100 * overshoot) (1 / 1000) (1 / 2))
  else none

/-- `tick`: the governor, and for how long the thread then sleeps. -/
def tick (g : Governor) (r : Reading) : Governor × Option ℚ :=
  if g.wall r < 1 / 1000 then (g, none)
  else
    let sampled := { g.refresh r with lastProcessCpuSecs := r.cpuSecs, lastTick := r.now }
    (sampled, pause (g.processPctOfMachine r) sampled.effectiveTargetPercent)

end Governor

/-- The governor after a tick has returned at the time `free`, with `paused` seconds of
sleep since the start. -/
structure Meter where
  governor : Governor
  free : ℚ
  paused : ℚ

namespace Meter

def start (g : Governor) : Meter := { governor := g, free := g.lastTick, paused := 0 }

/-- The meter after a tick that reads `r`. -/
def tick (m : Meter) (r : Reading) : Meter :=
  let (governor, sleep) := m.governor.tick r
  { governor, free := r.now + sleep.getD 0, paused := m.paused + sleep.getD 0 }

/-- The next tick of any worker: the last one has returned, after the sleep it asked for,
and CPU time does not run back. -/
inductive Step : Meter → Meter → Prop
  | tick {m : Meter} {r : Reading} (hnow : m.free ≤ r.now)
      (hcpu : m.governor.lastProcessCpuSecs ≤ r.cpuSecs) : Step m (m.tick r)

end Meter

end PcapSlim.Limit
