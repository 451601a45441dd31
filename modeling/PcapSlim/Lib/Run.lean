/-
PcapSlim.Lib.Run — the rules for runs of a step relation.

A run is the reflexive and transitive closure of a step relation. An invariant
is proved for one step and then holds along every run; a simulation is proved
for one step and then every run of the one system is matched by a run of the
other.

A measure that steps make smaller says that a run ends. Some steps may be idle
(a clock that goes on): then only finitely many are not (`eventually_idle`), and
a state that can always make the measure smaller can be brought to its end
(`exists_final`). A fair run, in which what could always get on does get on, comes
to its end by itself (`final_of_fair`).
-/
import Mathlib.Logic.Relation
import Mathlib.Order.WellFounded

namespace Lib.Run

open Relation

variable {S T : Type*} {Step : S → S → Prop} {Step' : T → T → Prop}

/-- What a step preserves, a run preserves. -/
theorem invariant_of_run (Inv : S → Prop) (hstep : ∀ s s', Inv s → Step s s' → Inv s') {s s' : S}
    (hrun : ReflTransGen Step s s') (h : Inv s) : Inv s' := by
  induction hrun with
  | refl => exact h
  | tail _ hlast ih => exact hstep _ _ ih hlast

/-- If each step of one system is matched by a run of another, so is each run. -/
theorem simulation_of_run (Rel : S → T → Prop)
    (hstep : ∀ s s' t, Rel s t → Step s s' → ∃ t', ReflTransGen Step' t t' ∧ Rel s' t') {s s' : S}
    {t : T} (hrun : ReflTransGen Step s s') (h : Rel s t) :
    ∃ t', ReflTransGen Step' t t' ∧ Rel s' t' := by
  induction hrun with
  | refl => exact ⟨t, .refl, h⟩
  | tail _ hlast ih =>
    obtain ⟨t', hrun', hrel⟩ := ih
    obtain ⟨t'', hrun'', hrel'⟩ := hstep _ _ _ hrel hlast
    exact ⟨t'', hrun'.trans hrun'', hrel'⟩

section Measure

variable {M : Type*} {r : M → M → Prop} {μ : S → M} {Inv : S → Prop}

/-- What can make its measure smaller as long as it is not final can become final. -/
theorem exists_final (hwf : WellFounded r) (hinv : ∀ s s', Inv s → Step s s' → Inv s')
    {Final : S → Prop} (hprogress : ∀ s, Inv s → ¬ Final s → ∃ s', Step s s' ∧ r (μ s') (μ s))
    {s : S} (h : Inv s) : ∃ s', ReflTransGen Step s s' ∧ Final s' := by
  generalize hm : μ s = m
  induction m using hwf.induction generalizing s with
  | _ m ih =>
    by_cases hfinal : Final s
    · exact ⟨s, .refl, hfinal⟩
    · obtain ⟨s', hstep, hlt⟩ := hprogress s h hfinal
      obtain ⟨s'', hrun, hfinal'⟩ := ih _ (hm ▸ hlt) (hinv s s' h hstep) rfl
      exact ⟨s'', .head hstep hrun, hfinal'⟩

/-- In an infinite run whose steps are idle or make the measure smaller, all are idle from
some point on. -/
theorem eventually_idle (hwf : WellFounded r) {Idle : S → S → Prop}
    (hstep : ∀ s s', Inv s → Step s s' → Inv s' ∧ (r (μ s') (μ s) ∨ (Idle s s' ∧ μ s' = μ s)))
    {run : ℕ → S} (hrun : ∀ i, Step (run i) (run (i + 1))) (h : Inv (run 0)) :
    ∃ N, ∀ i, N ≤ i → Idle (run i) (run (i + 1)) := by
  have hinv : ∀ i, Inv (run i) := by
    intro i
    induction i with
    | zero => exact h
    | succ i ih => exact (hstep _ _ ih (hrun i)).1
  -- the smallest measure is reached at `N` and does not change any more
  obtain ⟨m, ⟨N, rfl⟩, hmin⟩ := hwf.has_min (Set.range fun i => μ (run i)) ⟨_, 0, rfl⟩
  have hsame : ∀ i, N ≤ i → μ (run i) = μ (run N) := by
    intro i hi
    induction i, hi using Nat.le_induction with
    | base => rfl
    | succ i hi ih =>
      rcases (hstep _ _ (hinv i) (hrun i)).2 with hlt | ⟨-, heq⟩
      · rw [ih] at hlt
        exact absurd hlt (hmin _ ⟨i + 1, rfl⟩)
      · exact heq.trans ih
  refine ⟨N, fun i hi => ?_⟩
  rcases (hstep _ _ (hinv i) (hrun i)).2 with hlt | ⟨hidle, -⟩
  · rw [hsame i hi] at hlt
    exact absurd hlt (hmin _ ⟨i + 1, rfl⟩)
  · exact hidle

/-- What from some point on could always get on does get on, if not necessarily there. -/
def Fair (Step Idle : S → S → Prop) (run : ℕ → S) : Prop :=
  ∀ N, (∀ i, N ≤ i → ∃ s', Step (run i) s' ∧ ¬ Idle (run i) s') →
    ∃ i, N ≤ i ∧ ¬ Idle (run i) (run (i + 1))

/-- A fair run becomes final, if idling before that does not go on without something else
becoming possible for good. -/
theorem final_of_fair (Final : S → Prop) (hwf : WellFounded r) {Idle : S → S → Prop}
    (hstep : ∀ s s', Inv s → Step s s' → Inv s' ∧ (r (μ s') (μ s) ∨ (Idle s s' ∧ μ s' = μ s)))
    {run : ℕ → S} (hrun : ∀ i, Step (run i) (run (i + 1))) (h : Inv (run 0))
    (hfair : Fair Step Idle run)
    (henabled : ∀ N, (∀ i, N ≤ i → Idle (run i) (run (i + 1))) → ¬ Final (run N) →
      ∃ N', N ≤ N' ∧ ∀ i, N' ≤ i → ∃ s', Step (run i) s' ∧ ¬ Idle (run i) s') :
    ∃ N, Final (run N) ∧ ∀ i, N ≤ i → Idle (run i) (run (i + 1)) := by
  obtain ⟨N, hidle⟩ := eventually_idle hwf hstep hrun h
  refine ⟨N, ?_, hidle⟩
  by_contra hnot
  obtain ⟨N', hle, hcan⟩ := henabled N hidle hnot
  obtain ⟨i, hi, hbusy⟩ := hfair N' hcan
  exact hbusy (hidle i (hle.trans hi))

end Measure

/-- A run that goes on for ever from where another one ends. -/
theorem exists_run_append (rest : ℕ → S) {s s' : S} (hrun : ReflTransGen Step s s')
    (hzero : rest 0 = s') (hrest : ∀ i, Step (rest i) (rest (i + 1))) :
    ∃ run : ℕ → S, run 0 = s ∧ (∀ i, Step (run i) (run (i + 1))) ∧
      ∃ N, ∀ i, run (N + i) = rest i := by
  induction hrun using ReflTransGen.head_induction_on with
  | refl => exact ⟨rest, hzero, hrest, 0, fun i => by rw [Nat.zero_add]⟩
  | @head a b hfirst _ ih =>
    obtain ⟨run, hstart, hall, N, hN⟩ := ih
    refine ⟨fun i => Nat.casesOn i a run, rfl, fun i => ?_, N + 1, fun i => ?_⟩
    · cases i with
      | zero =>
        change Step a (run 0)
        rwa [hstart]
      | succ i => exact hall i
    · rw [Nat.add_right_comm]
      exact hN i

end Lib.Run
