/-
PcapSlim.Fleet — the workers of a run, at work on the shared limits.

In `Limit` the workers call `acquire_io` and `flush_io` as they like. Here each worker
has a list of events to go through: it moves bytes, then calls what accounts for them
and waits until the call returns, and so on. `moved` and `unaccounted` count the bytes
of all workers, those that a pass has parsed or written and not what its buffers have read
ahead. A CPU tick waits for the mutex and leaves the I/O side alone, as long as
it may take.
-/
import PcapSlim.Workload

namespace PcapSlim.Limit

open PcapIo

/-- Workers, with the events that each has still before it. -/
structure Fleet (ι : Type*) where
  sys : Sys ι
  todo : ι → List Event
  moved : Nat
  unaccounted : Nat

namespace Fleet

variable {ι : Type*}

/-- No worker has begun. -/
def start (inner : Inner) (now : ℚ) (todo : ι → List Event) : Fleet ι :=
  { sys := Sys.start inner now, todo, moved := 0, unaccounted := 0 }

/-- The next event is that of an idle worker, or something happens inside the limits: the
clock goes on, or a call that was made gets on or returns. -/
inductive Step [DecidableEq ι] : Fleet ι → Fleet ι → Prop
  | move {f : Fleet ι} {w : ι} {bytes : Nat} {rest : List Event}
      (htodo : f.todo w = .moved bytes :: rest) (hidle : f.sys.calls w = none) :
      Step f { f with todo := Function.update f.todo w rest, moved := f.moved + bytes }
  | lose {f : Fleet ι} {w : ι} {bytes : Nat} {rest : List Event}
      (htodo : f.todo w = .unaccounted bytes :: rest) (hidle : f.sys.calls w = none) :
      Step f { f with
        todo := Function.update f.todo w rest
        unaccounted := f.unaccounted + bytes }
  | cpuTick {f : Fleet ι} {w : ι} {rest : List Event} (htodo : f.todo w = .cpuTick :: rest)
      (hidle : f.sys.calls w = none) (hfree : f.sys.mutex = none) :
      Step f { f with todo := Function.update f.todo w rest }
  -- `acquire_io(0)` returns before it takes the mutex.
  | callEmpty {f : Fleet ι} {w : ι} {rest : List Event}
      (htodo : f.todo w = .call (.acquireIo 0) :: rest) (hidle : f.sys.calls w = none) :
      Step f { f with
        sys := f.sys.returns w (.acquireIo 0)
        todo := Function.update f.todo w rest }
  | call {f : Fleet ι} {w : ι} {c : Call} {rest : List Event} (htodo : f.todo w = .call c :: rest)
      (hidle : f.sys.calls w = none) (hc : c ≠ .acquireIo 0) :
      Step f { f with
        sys := { f.sys with calls := Function.update f.sys.calls w (some c) }
        todo := Function.update f.todo w rest }
  | inside {f : Fleet ι} {s : Sys ι} (hstep : Limit.Step f.sys s)
      (hcalls : ∀ w, f.sys.calls w = none → s.calls w = none)
      (hlast : s.calls = f.sys.calls → s.last = f.sys.last) : Step f { f with sys := s }

/-- A worker that has no event before it and is in no call. -/
def Done (f : Fleet ι) (w : ι) : Prop := f.todo w = [] ∧ f.sys.calls w = none

end Fleet

end PcapSlim.Limit
