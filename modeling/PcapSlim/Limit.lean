/-
PcapSlim.Limit — `limit.rs`: the I/O cap that the workers share.

Times are rational numbers of seconds, and what the source computes in `f64` is
exact here. `IoBucket::acquire` sleeps between the iterations of its loop, so that
an iteration is a function of its own (`acquireRound`) and reads the clock once.

`Sys` has any number of workers. Each may call `acquire_io` or `flush_io` at any
time; the call then waits for the mutex and keeps it until it returns, also while
it sleeps. Counted beside the state of the program are the bytes of all
`acquire_io` calls that have returned (`accounted`) and the bytes that were taken
out of the bucket (`charged`).

Of `CpuGovernor` there are only the settings, by which `build` tells whether there
is any limit at all: `cpu_tick` takes the same mutex, may sleep, and leaves the I/O
side alone. Its `tick` is in `Governor`.
-/
import PcapSlim.Lib.TokenBucket
import Mathlib.Algebra.Order.Field.Rat
import Mathlib.Logic.Function.Basic

namespace PcapSlim.Limit

open Lib.TokenBucket

/-- `IO_BATCH_BYTES`. -/
def ioBatchBytes : Nat := 256 * 1024

/-- `u64::MAX`. -/
def u64Max : Nat := 2 ^ 64 - 1

/-! ## The token bucket -/

/-- `IoBucket`; `lastRefill` is the time of an `Instant`. -/
structure IoBucket where
  rate : ℚ
  burst : ℚ
  tokens : ℚ
  lastRefill : ℚ
  deriving DecidableEq, Repr

namespace IoBucket

/-- `IoBucket::new`, called at the time `now`. -/
def new (maxMbps now : ℚ) : IoBucket :=
  let rate := maxMbps * 1000000
  let burst := rate * 2
  { rate, burst, tokens := burst, lastRefill := now }

/-- `IoBucket::refill`. `duration_since` is zero for a later instant. -/
def refill (b : IoBucket) (now : ℚ) : IoBucket :=
  let dt := max (now - b.lastRefill) 0
  if 0 < dt then { b with tokens := fill b.rate b.burst b.tokens dt, lastRefill := now } else b

/-- One iteration of the loop of `acquire`, at the time `now`: the bucket, and for
how long the thread then sleeps, `none` if the call returns. The test before the
loop is about `bytes` alone and stands in each iteration here. -/
def acquireRound (b : IoBucket) (bytes : Nat) (now : ℚ) : IoBucket × Option ℚ :=
  let need : ℚ := bytes
  if need ≤ 0 then (b, none)
  else
    let b := b.refill now
    if need ≤ b.tokens then ({ b with tokens := b.tokens - need }, none)
    else
      let deficit := need - b.tokens
      let waitSecs := deficit / b.rate
      (b, some (min waitSecs 1))

end IoBucket

/-- A call of `acquire` that is asleep until `wake` or later, or has returned. -/
inductive Acquire where
  | asleep (bucket : IoBucket) (wake : ℚ)
  | returned (bucket : IoBucket)

/-- `IoBucket::acquire` after some iterations, from the time `start` on. Iteration
`i` finds the time `clock i`. -/
def IoBucket.acquire (b : IoBucket) (bytes : Nat) (start : ℚ) (clock : Nat → ℚ) : Nat → Acquire
  | 0 => .asleep b start
  | k + 1 =>
      match b.acquire bytes start clock k with
      | .returned b => .returned b
      | .asleep b _ =>
          match b.acquireRound bytes (clock k) with
          | (b, none) => .returned b
          | (b, some secs) => .asleep b (clock k + secs)

/-! ## The limits -/

/-- `LimitConfig`. -/
structure LimitConfig where
  maxIoMbps : Option ℚ := none
  maxCpuPercent : Option ℚ := none
  cpuBackoffAbove : Option ℚ := none
  cpuBackoffStrength : ℚ := 0

/-- The settings of a `CpuGovernor`. -/
structure CpuGovernor where
  maxCpuPercent : Option ℚ
  backoffAbove : Option ℚ
  backoffStrength : ℚ

/-- `CpuGovernor::new`. -/
def CpuGovernor.new (maxCpuPercent backoffAbove : Option ℚ) (backoffStrength : ℚ) :
    Option CpuGovernor :=
  if maxCpuPercent.isNone && backoffAbove.isNone then none
  else some { maxCpuPercent, backoffAbove, backoffStrength := min (max backoffStrength 0) 1 }

/-- `Inner`: what the mutex of `ResourceLimits` protects. -/
structure Inner where
  io : Option IoBucket
  cpu : Option CpuGovernor
  ioPending : Nat

/-- `LimitConfig::build`, called at the time `now`. -/
def LimitConfig.build (cfg : LimitConfig) (now : ℚ) : Option Inner :=
  let io := (cfg.maxIoMbps.filter (0 < ·)).map (IoBucket.new · now)
  let cpu := CpuGovernor.new (cfg.maxCpuPercent.filter (0 < ·)) (cfg.cpuBackoffAbove.filter (0 < ·))
    cfg.cpuBackoffStrength
  if io.isNone && cpu.isNone then none else some { io, cpu, ioPending := 0 }

namespace Inner

/-- Empty `io_pending`, and the bytes for which `acquire` is then called, if there
is a bucket. -/
def drain (inner : Inner) : Inner × Option Nat :=
  ({ inner with ioPending := 0 }, inner.io.map fun _ => inner.ioPending)

/-- `ResourceLimits::acquire_io` with the mutex in hand, up to the call of `acquire`. -/
def acquireIo (inner : Inner) (bytes : Nat) : Inner × Option Nat :=
  let inner := { inner with ioPending := min (inner.ioPending + bytes) u64Max }
  if ioBatchBytes ≤ inner.ioPending then inner.drain else (inner, none)

/-- `ResourceLimits::flush_io` with the mutex in hand, up to the call of `acquire`. -/
def flushIo (inner : Inner) : Inner × Option Nat :=
  if 0 < inner.ioPending then inner.drain else (inner, none)

end Inner

/-! ## Workers -/

/-- A call of `acquire_io` or `flush_io`. -/
inductive Call where
  | acquireIo (bytes : Nat)
  | flushIo
  deriving DecidableEq, Repr

namespace Call

/-- The bytes that a call accounts for. -/
def bytes : Call → Nat
  | acquireIo bytes => bytes
  | flushIo => 0

/-- What a call does first once it has the mutex. -/
def enter : Call → Inner → Inner × Option Nat
  | acquireIo bytes, inner => inner.acquireIo bytes
  | flushIo, inner => inner.flushIo

end Call

/-- Who has the mutex while `acquire` runs, and for how many bytes it does. -/
structure Held (ι : Type*) where
  worker : ι
  call : Call
  bytes : Nat

/-- The workers and what they share. `calls` is the call that each worker is in,
`last` the call that was the last to return. -/
structure Sys (ι : Type*) where
  inner : Inner
  mutex : Option (Held ι)
  calls : ι → Option Call
  now : ℚ
  accounted : Nat
  charged : Nat
  last : Option Call

namespace Sys

variable {ι : Type*}

/-- No worker is in a call yet. -/
def start (inner : Inner) (now : ℚ) : Sys ι :=
  { inner, mutex := none, calls := fun _ => none, now, accounted := 0, charged := 0, last := none }

/-- The call that worker `w` is in returns. -/
def returns [DecidableEq ι] (s : Sys ι) (w : ι) (c : Call) : Sys ι :=
  { s with
    calls := Function.update s.calls w none
    accounted := s.accounted + c.bytes
    last := some c }

/-- The holder of the mutex leaves `acquire` with the bucket `b`. -/
def pays (s : Sys ι) (h : Held ι) (b : IoBucket) : Sys ι :=
  { s with
    inner := { s.inner with io := some b }
    mutex := none
    charged := s.charged + h.bytes }

end Sys

variable {ι : Type*} [DecidableEq ι]

/-- One step of the clock or of a worker. A sleep may end at any time. -/
inductive Step : Sys ι → Sys ι → Prop
  | tick {s : Sys ι} {now : ℚ} (hnow : s.now ≤ now) : Step s { s with now }
  -- `acquire_io(0)` returns before it takes the mutex.
  | callEmpty {s : Sys ι} {w : ι} (hidle : s.calls w = none) : Step s (s.returns w (.acquireIo 0))
  | call {s : Sys ι} {w : ι} {c : Call} (hidle : s.calls w = none) (hc : c ≠ .acquireIo 0) :
      Step s { s with calls := Function.update s.calls w (some c) }
  | collect {s : Sys ι} {w : ι} {c : Call} {inner : Inner} (hcall : s.calls w = some c)
      (hfree : s.mutex = none) (henter : c.enter s.inner = (inner, none)) :
      Step s ({ s with inner }.returns w c)
  | charge {s : Sys ι} {w : ι} {c : Call} {inner : Inner} {bytes : Nat} (hcall : s.calls w = some c)
      (hfree : s.mutex = none) (henter : c.enter s.inner = (inner, some bytes)) :
      Step s { s with inner, mutex := some { worker := w, call := c, bytes } }
  | sleep {s : Sys ι} {h : Held ι} {b b' : IoBucket} {secs : ℚ} (hheld : s.mutex = some h)
      (hio : s.inner.io = some b) (hround : b.acquireRound h.bytes s.now = (b', some secs)) :
      Step s { s with inner := { s.inner with io := some b' } }
  | leave {s : Sys ι} {h : Held ι} {b b' : IoBucket} (hheld : s.mutex = some h)
      (hio : s.inner.io = some b) (hround : b.acquireRound h.bytes s.now = (b', none)) :
      Step s ((s.pays h b').returns h.worker h.call)

end PcapSlim.Limit
