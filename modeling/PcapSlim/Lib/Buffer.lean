/-
PcapSlim.Lib.Buffer — bounds-checked access to a growable buffer.

A program that indexes its buffers with run-time checks stops when a check
fails. `Checked α` is the outcome of such a program: a value, or the `Fault`
that stopped it. `read`, `write`, `slice` and `sub` are the four checked
operations; each has one lemma that says which value it returns when its check
holds, stated through the total reader `elemAt`, so that a proof about the program
states the bounds once and then rewrites with total functions.

Nothing here depends on what the buffers hold.
-/
import Mathlib.Data.List.Basic

namespace Lib.Buffer

/-! ## Outcomes -/

/-- The check that stopped a program. -/
inductive Fault where
  | index
  | slice
  | underflow
  | assertion
  deriving DecidableEq, Repr

/-- A program that either returns or is stopped by a failed check. -/
abbrev Checked (α : Type) := Except Fault α

section Outcome

variable {ε α β : Type}

@[simp] theorem ok_bind (a : α) (f : α → Except ε β) : (Except.ok a >>= f) = f a := rfl

@[simp] theorem error_bind (e : ε) (f : α → Except ε β) :
    ((Except.error e : Except ε α) >>= f) = .error e := rfl

@[simp] theorem pure_eq_ok (a : α) : (pure a : Except ε α) = .ok a := rfl

/-- A sequence returns exactly when both of its parts do. -/
theorem bind_eq_ok {x : Except ε α} {f : α → Except ε β} {b : β} :
    (x >>= f) = .ok b ↔ ∃ a, x = .ok a ∧ f a = .ok b := by
  cases x with
  | error e => simp
  | ok a => simp

theorem bind_ok (x : Except ε α) : (x >>= fun a => .ok a) = x := by
  cases x <;> rfl

/-- A choice made before a sequence goes on. -/
theorem ite_bind {c : Prop} [Decidable c] (x y : Except ε α) (f : α → Except ε β) :
    ((if c then x else y) >>= f) = if c then x >>= f else y >>= f := by
  split <;> rfl

end Outcome

/-! ## Checked operations -/

section Operations

variable {α : Type}

/-- Element `i`, or an index fault. -/
def read (buf : List α) (i : Nat) : Checked α :=
  match buf[i]? with
  | some a => .ok a
  | none => .error .index

/-- Store `a` at `i`, or an index fault. -/
def write (buf : List α) (i : Nat) (a : α) : Checked (List α) :=
  if i < buf.length then .ok (buf.set i a) else .error .index

/-- The elements from `lo` up to `hi`, or a slice fault. -/
def slice (buf : List α) (lo hi : Nat) : Checked (List α) :=
  if lo ≤ hi ∧ hi ≤ buf.length then .ok ((buf.take hi).drop lo) else .error .slice

/-- Subtraction of unsigned numbers, or an underflow fault. -/
def sub (a b : Nat) : Checked Nat :=
  if b ≤ a then .ok (a - b) else .error .underflow

/-- Element `i`, and the default outside the buffer. -/
def elemAt [Inhabited α] (buf : List α) (i : Nat) : α := buf.getD i default

theorem read_ok [Inhabited α] {buf : List α} {i : Nat} (h : i < buf.length) :
    read buf i = .ok (elemAt buf i) := by
  simp [read, elemAt, h]

/-- A read outside the buffer stops the program. -/
theorem read_fault {buf : List α} {i : Nat} (h : buf.length ≤ i) :
    read buf i = .error .index := by
  simp [read, List.getElem?_eq_none h]

theorem write_ok {buf : List α} {i : Nat} {a : α} (h : i < buf.length) :
    write buf i a = .ok (buf.set i a) := by
  simp [write, h]

theorem slice_ok {buf : List α} {lo hi : Nat} (h : lo ≤ hi) (h' : hi ≤ buf.length) :
    slice buf lo hi = .ok ((buf.take hi).drop lo) := by
  simp [slice, h, h']

theorem sub_ok {a b : Nat} (h : b ≤ a) : sub a b = .ok (a - b) := by
  simp [sub, h]

end Operations

/-! ## The total reader -/

section ElemAt

variable {α : Type} [Inhabited α]

/-- A store is seen at its own index only. -/
theorem elemAt_set {buf : List α} {i j : Nat} {a : α} (h : i < buf.length) :
    elemAt (buf.set i a) j = if i = j then a else elemAt buf j := by
  simp only [elemAt, List.getD_eq_getElem?_getD, List.getElem?_set]
  split
  · simp
  · rfl

theorem elemAt_set_ne {buf : List α} {i j : Nat} {a : α} (h : i ≠ j) :
    elemAt (buf.set i a) j = elemAt buf j := by
  simp [elemAt, List.getD_eq_getElem?_getD, List.getElem?_set_ne h]

theorem elemAt_take {buf : List α} {n i : Nat} (h : i < n) :
    elemAt (buf.take n) i = elemAt buf i := by
  simp [elemAt, List.getD_eq_getElem?_getD, List.getElem?_take_of_lt h]

theorem elemAt_drop {buf : List α} {n i : Nat} :
    elemAt (buf.drop n) i = elemAt buf (n + i) := by
  simp [elemAt, List.getD_eq_getElem?_getD]

theorem elemAt_append_right {xs ys : List α} {i : Nat} (h : xs.length ≤ i) :
    elemAt (xs ++ ys) i = elemAt ys (i - xs.length) := by
  simp [elemAt, List.getD_eq_getElem?_getD, List.getElem?_append_right h]

/-- Reading behind a prefix. -/
theorem elemAt_append_add (pre body : List α) (k : Nat) :
    elemAt (pre ++ body) (pre.length + k) = elemAt body k := by
  rw [elemAt_append_right (by omega), Nat.add_sub_cancel_left]

@[simp] theorem elemAt_cons_zero {a : α} {xs : List α} : elemAt (a :: xs) 0 = a := rfl

@[simp] theorem elemAt_cons_succ {a : α} {xs : List α} {i : Nat} :
    elemAt (a :: xs) (i + 1) = elemAt xs i := by
  simp [elemAt]

/-- Buffers of one length that read alike everywhere are equal. -/
theorem ext_elemAt {xs ys : List α} (hlen : xs.length = ys.length)
    (h : ∀ i < xs.length, elemAt xs i = elemAt ys i) : xs = ys := by
  apply List.ext_getElem hlen
  intro i hx hy
  have := h i hx
  simpa [elemAt, hx, hy] using this

end ElemAt

/-! ## Windows: what is in a buffer between two offsets -/

section Window

variable {α : Type}

theorem length_window {xs : List α} {hi : Nat} (lo : Nat) (h : hi ≤ xs.length) :
    ((xs.take hi).drop lo).length = hi - lo := by
  rw [List.length_drop, List.length_take, Nat.min_eq_left h]

theorem window_eq_nil {lo hi : Nat} (xs : List α) (h : hi ≤ lo) : (xs.take hi).drop lo = [] := by
  rw [List.drop_eq_nil_iff, List.length_take]
  omega

variable [Inhabited α]

theorem window_eq_cons {xs : List α} {lo hi : Nat} (hlt : lo < hi) (h : hi ≤ xs.length) :
    (xs.take hi).drop lo = elemAt xs lo :: (xs.take hi).drop (lo + 1) := by
  have htake : lo < (xs.take hi).length := by rw [List.length_take]; omega
  have hbuf : lo < xs.length := by omega
  rw [List.drop_eq_getElem_cons htake, List.getElem_take]
  simp [elemAt, hbuf]

/-- Buffers that read alike between two offsets have the same bytes there. -/
theorem window_congr {xs ys : List α} {lo hi : Nat} (hx : hi ≤ xs.length) (hy : hi ≤ ys.length)
    (h : ∀ i, lo ≤ i → i < hi → elemAt ys i = elemAt xs i) :
    (ys.take hi).drop lo = (xs.take hi).drop lo := by
  refine ext_elemAt (by rw [length_window lo hy, length_window lo hx]) fun i hi => ?_
  rw [length_window lo hy] at hi
  rw [elemAt_drop, elemAt_drop, elemAt_take (by omega), elemAt_take (by omega),
    h _ (by omega) (by omega)]

end Window

end Lib.Buffer
