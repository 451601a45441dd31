/-
PcapSlim.Lib.Loop — loops that end, without a bound on their rounds.

A loop is given by its body: from a state, a round goes on with a next state,
leaves the loop with a result, or is stopped by a failed check. `Ends body s n r`
is a finished run, as an inductive relation: a loop that goes on forever and one
that is stopped have none. `ends_of_measure` is the rule for termination, from a
measure that every round lowers.

A program in which loops are functions has to bound them. `Ends.bounded_eq` says
that the bound of such a function does not matter when it covers the run; `loopFor`
is the one with a given outcome for the case that the rounds are used up.
-/
import PcapSlim.Lib.Buffer

namespace Lib.Loop

open Lib.Buffer

/-- What a round does that is not stopped. -/
inductive Round (σ ρ : Type) where
  | again (s : σ)
  | leave (r : ρ)
  deriving DecidableEq, Repr

variable {ε σ ρ : Type}

/-- What follows a round: the rest of the loop, or its result. -/
def Round.proceed (rest : σ → Except ε ρ) : Round σ ρ → Except ε ρ
  | .again s => rest s
  | .leave r => .ok r

/-- From `s` the loop leaves with `r`, in its `n`-th round. -/
inductive Ends (body : σ → Except ε (Round σ ρ)) : σ → Nat → ρ → Prop where
  | leave {s : σ} {r : ρ} (h : body s = .ok (.leave r)) : Ends body s 1 r
  | again {s s' : σ} {n : Nat} {r : ρ} (h : body s = .ok (.again s')) (rest : Ends body s' n r) :
      Ends body s (n + 1) r

/-- The loop, for at most `fuel` rounds, and `out` when they are used up. -/
def loopFor (body : σ → Except ε (Round σ ρ)) (out : Except ε ρ) : (fuel : Nat) → σ → Except ε ρ
  | 0, _ => out
  | fuel + 1, s => body s >>= Round.proceed (loopFor body out fuel)

variable {body : σ → Except ε (Round σ ρ)}

/-- A bounded loop with these rounds has the result of the run, if it has rounds
enough. -/
theorem Ends.bounded_eq {F : Nat → σ → Except ε ρ}
    (hF : ∀ fuel s, F (fuel + 1) s = (body s >>= Round.proceed (F fuel))) {s : σ} {n : Nat} {r : ρ}
    (h : Ends body s n r) {fuel : Nat} (hfuel : n ≤ fuel) : F fuel s = .ok r := by
  induction h generalizing fuel with
  | leave hs =>
    obtain ⟨fuel, rfl⟩ := Nat.exists_eq_succ_of_ne_zero (show fuel ≠ 0 by omega)
    rw [hF, hs]
    rfl
  | again hs _ ih =>
    obtain ⟨fuel, rfl⟩ := Nat.exists_eq_succ_of_ne_zero (show fuel ≠ 0 by omega)
    rw [hF, hs]
    exact ih (by omega)

theorem Ends.loopFor_eq {s : σ} {n : Nat} {r : ρ} (h : Ends body s n r) (out : Except ε ρ)
    {fuel : Nat} (hfuel : n ≤ fuel) : loopFor body out fuel s = .ok r :=
  h.bounded_eq (fun _ _ => rfl) hfuel

/-- **Termination.** If every round leaves, or goes on with a smaller measure, the
loop ends wherever it is started, after at most one round more than the measure. -/
theorem ends_of_measure (μ : σ → Nat)
    (hround : ∀ s, (∃ r, body s = .ok (.leave r)) ∨
      ∃ s', body s = .ok (.again s') ∧ μ s' < μ s) (s : σ) :
    ∃ n r, Ends body s n r ∧ n ≤ μ s + 1 := by
  induction hμ : μ s using Nat.strongRecOn generalizing s with
  | ind k ih =>
    rcases hround s with ⟨r, hleave⟩ | ⟨s', hagain, hlt⟩
    · exact ⟨1, r, .leave hleave, by omega⟩
    · obtain ⟨n, r, hends, hn⟩ := ih (μ s') (by omega) s' rfl
      exact ⟨n + 1, r, .again hagain hends, by omega⟩

/-- A bounded loop with more rounds than the measure has the result of the run. -/
theorem bounded_of_measure {F : Nat → σ → Except ε ρ}
    (hF : ∀ fuel s, F (fuel + 1) s = (body s >>= Round.proceed (F fuel))) (μ : σ → Nat)
    (hround : ∀ s, (∃ r, body s = .ok (.leave r)) ∨
      ∃ s', body s = .ok (.again s') ∧ μ s' < μ s) {s : σ} {fuel : Nat} (hfuel : μ s < fuel) :
    ∃ n r, Ends body s n r ∧ F fuel s = .ok r := by
  obtain ⟨n, r, hends, hn⟩ := ends_of_measure μ hround s
  exact ⟨n, r, hends, hends.bounded_eq hF (by omega)⟩

end Lib.Loop
