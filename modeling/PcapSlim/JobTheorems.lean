/-
PcapSlim.JobTheorems — what the I/O cap means for the files that the workers take.

The event lists of the passes put into `Fleet`, for any number of workers with any files:
what they parse and write at any moment (`jobs_capped`) and in all (`jobs_finished`), and
that they come to their ends (`jobs_can_finish`, `jobs_finish`) if two seconds' worth of the
cap are enough for less than a batch and one operation. The 4 MiB that a `BufReader` may
read ahead of each of them are not bounded by the cap, and not counted.
-/
import PcapSlim.FleetProgress
import Mathlib.Data.Fintype.BigOperators

namespace PcapSlim.Limit.Fleet

open Relation PcapIo

/-! ## Two workers with one file

One checks the file of `cutOffCapture`, the other slims it, under a cap of 1 MB/s. -/

/-- The jobs of the worker that only checks, and of the other one. -/
def twoJobs (checkOnly : Bool) : List Job :=
  [{ build := .release, path := "a.pcap", input := cutOffCapture.bytes, checkOnly }]

theorem oneMbps_cfg : ({ maxIoMbps := some 1 } : LimitConfig).maxIoMbps = some 1 := rfl

/-- What `build` makes of 1 MB/s. -/
def oneMbps : Inner := { io := some (IoBucket.new 1 0), cpu := none, ioPending := 0 }

theorem twoJobs_fit : ∀ w, ∀ job ∈ twoJobs w, FileFits writeBatchCap job.input := by
  intro w job hjob
  obtain rfl := List.mem_singleton.mp hjob
  intro r hr
  rw [completeRecords_file] at hr
  obtain rfl := List.mem_singleton.mp hr
  decide

theorem twoJobs_return : ∀ w, ∀ job ∈ twoJobs w,
    ∃ out stats, slimPcap job.build job.path job.input = .ok (out, stats) := by
  intro w job hjob
  obtain rfl := List.mem_singleton.mp hjob
  have hok : (slimPcap .release "a.pcap" cutOffCapture.bytes).isOk = true := by decide +kernel
  dsimp only
  cases hpass : slimPcap .release "a.pcap" cutOffCapture.bytes with
  | ok found => exact ⟨found.1, found.2, rfl⟩
  | error failure =>
    rw [hpass] at hok
    cases hok

theorem twoJobs_coherent :
    Coherent writeBatchCap (IoBucket.new 1 0).rate (IoBucket.new 1 0).burst 0
      (start oneMbps 0 fun w => jobEvents (twoJobs w)) :=
  coherent_start oneMbps_cfg one_pos rfl fun w =>
    sized_jobEvents le_rfl (twoJobs_fit w)

/-- They can come to their ends. -/
theorem twoJobs_done : ∃ f, ReflTransGen Step (start oneMbps 0 fun w => jobEvents (twoJobs w)) f ∧
    ∀ w, f.Done w := by
  obtain ⟨f, ⟨hrun, -⟩, hdone⟩ := exists_done (rate_pos one_pos 0) (by decide)
    (by norm_num [IoBucket.new, ioBatchBytes, writeBatchCap]) twoJobs_coherent
  exact ⟨f, hrun, hdone⟩

/-! ## Any workers with any files -/

section Jobs

variable {ι : Type*} {cfg : LimitConfig} {m now : ℚ} {inner : Inner} {f : Fleet ι} {M : Nat}
  {jobs : ι → List Job}

/-- A bound on the operations that leaves room below `u64::MAX`. -/
theorem sized_jobs (hM : writeBatchCap ≤ M) (hfits : ∀ w, ∀ job ∈ jobs w, FileFits M job.input) :
    (∀ w, Sized (min M (2 ^ 32 + 16)) (jobEvents (jobs w))) ∧
      ioBatchBytes + min M (2 ^ 32 + 16) ≤ u64Max ∧
      ((min M (2 ^ 32 + 16) : Nat) : ℚ) ≤ M := by
  have hcap : writeBatchCap ≤ min M (2 ^ 32 + 16) := le_min hM (by decide)
  have hsmall : ioBatchBytes + (2 ^ 32 + 16) ≤ u64Max := by decide
  refine ⟨fun w => sized_jobEvents hcap fun job hjob r hr => ?_, ?_, ?_⟩
  · exact le_min (hfits w job hjob r hr) (fileFits_max job.input r hr)
  · exact (Nat.add_le_add_left (min_le_right _ _) _).trans hsmall
  · exact Nat.cast_le.mpr (min_le_left _ _)

/-- Less than a batch and one operation fit into the bucket. -/
theorem room_of_cap {K : Nat} (hle : (K : ℚ) ≤ M)
    (hroom : (ioBatchBytes + M : ℚ) ≤ 2000000 * m + 1) :
    (ioBatchBytes + K : ℚ) ≤ (IoBucket.new m now).burst + 1 := by
  rw [burst_new]
  linarith

variable [Fintype ι] [DecidableEq ι]

/-- **The I/O cap, at any moment**: whatever files the workers take and however they get in
each other's way, what they have parsed and written is at most the cap for the time that
has passed and two seconds more, but for one batch and one operation of each worker. -/
theorem jobs_capped (hcfg : cfg.maxIoMbps = some m) (hm : 0 < m)
    (hbuild : cfg.build now = some inner) (hM : writeBatchCap ≤ M)
    (hfits : ∀ w, ∀ job ∈ jobs w, FileFits M job.input)
    (hrun : ReflTransGen Step (start inner now fun w => jobEvents (jobs w)) f) :
    (f.moved : ℚ) ≤ 1000000 * m * (2 + (f.sys.now - now)) + ioBatchBytes - 1 +
      Fintype.card ι * M := by
  obtain ⟨hsized, hsmall, hle⟩ := sized_jobs hM hfits
  have hcard : (Fintype.card ι : ℚ) * (min M (2 ^ 32 + 16) : Nat) ≤ Fintype.card ι * M :=
    mul_le_mul_of_nonneg_left hle (Nat.cast_nonneg _)
  have hmoved := moved_le hcfg hm hbuild hsized hsmall hrun
  linarith

theorem jobs_capped_twoJobs : ∃ f : Fleet Bool,
    ReflTransGen Step (start oneMbps 0 fun w => jobEvents (twoJobs w)) f ∧ (∀ w, f.Done w) ∧
      (f.moved : ℚ) ≤ 1000000 * 1 * (2 + (f.sys.now - 0)) + ioBatchBytes - 1 +
        Fintype.card Bool * writeBatchCap := by
  obtain ⟨f, hrun, hdone⟩ := twoJobs_done
  exact ⟨f, hrun, hdone,
    jobs_capped oneMbps_cfg one_pos rfl le_rfl twoJobs_fit hrun⟩

/-- **The I/O cap, at the end**: files on which the pass returns are moved to the last byte,
what is behind their last records aside they are all charged for, and no run of the
workers does that in less time than the cap allows. -/
theorem jobs_finished (hcfg : cfg.maxIoMbps = some m) (hm : 0 < m)
    (hbuild : cfg.build now = some inner)
    (hreturns : ∀ w, ∀ job ∈ jobs w,
      ∃ out stats, slimPcap job.build job.path job.input = .ok (out, stats))
    (hrun : ReflTransGen Step (start inner now fun w => jobEvents (jobs w)) f)
    (hdone : ∀ w, f.Done w) :
    f.moved + f.unaccounted = ∑ w, ((jobs w).map Job.traffic).sum ∧
      f.unaccounted ≤ 15 * ∑ w, (jobs w).length ∧ f.sys.charged = f.moved ∧
      (f.moved : ℚ) ≤ 1000000 * m * (2 + (f.sys.now - now)) := by
  have hsettled := fun w => settled_jobEvents (hreturns w)
  obtain ⟨hmoved, hlost⟩ := totals_run hrun
  have hnil : ∀ w, f.todo w = [] := fun w => (hdone w).1
  simp only [hnil, movedTotal_nil, lostTotal_nil, Finset.sum_const_zero, Nat.add_zero]
    at hmoved hlost
  have hsized : ∀ w, Sized (2 ^ 32 + 16) (jobEvents (jobs w)) := fun w =>
    sized_jobEvents (by decide) fun job _ => fileFits_max job.input
  have hcharged : f.sys.charged = f.moved :=
    charged_of_done hcfg hm hbuild hsized (by decide) (fun w => (hsettled w).2.2) hrun hdone
  refine ⟨?_, ?_, hcharged, ?_⟩
  · rw [hmoved, hlost, ← Finset.sum_add_distrib]
    exact Finset.sum_congr rfl fun w _ => (hsettled w).1
  · rw [hlost, Finset.mul_sum]
    exact Finset.sum_le_sum fun w _ => (hsettled w).2.1
  · rw [← hcharged, ← burst_add_rate]
    exact (coherent_run hcfg hm hbuild hsized (by decide) hrun).charged_le (rate_pos hm now).le

theorem jobs_finished_twoJobs : ∃ f : Fleet Bool,
    ReflTransGen Step (start oneMbps 0 fun w => jobEvents (twoJobs w)) f ∧
      f.moved + f.unaccounted = 622 ∧ f.unaccounted ≤ 30 ∧ f.sys.charged = f.moved ∧
      (f.moved : ℚ) ≤ 1000000 * 1 * (2 + (f.sys.now - 0)) := by
  obtain ⟨f, hrun, hdone⟩ := twoJobs_done
  obtain ⟨hall, hlost, hcap⟩ :=
    jobs_finished oneMbps_cfg one_pos rfl twoJobs_return hrun hdone
  have htraffic : ((twoJobs true).map Job.traffic).sum + ((twoJobs false).map Job.traffic).sum =
      622 := by decide +kernel
  rw [Fintype.sum_bool] at hall hlost
  exact ⟨f, hrun, hall.trans htraffic, hlost, hcap⟩

/-- No more is charged at the end than the events move. -/
theorem charged_le_of_done {rate burst began : ℚ} {todo : ι → List Event}
    (hcoherent : Coherent M rate burst began f) (hrun : ReflTransGen Step (start inner now todo) f)
    (hdone : ∀ w, f.Done w) : f.sys.charged ≤ ∑ w, movedTotal (todo w) := by
  have hconserved := hcoherent.inv.conserved
  have hfree := hcoherent.accounts.free (hcoherent.inv.free_of_done hdone)
  have htotal := (totals_run hrun).1
  rw [ahead_of_done hdone] at hconserved
  omega

/-- **From wherever they are, the workers can come to their ends**, and it takes no longer than
the bytes that are still to be charged do at the rate of the cap. -/
theorem jobs_can_finish (hcfg : cfg.maxIoMbps = some m) (hm : 0 < m)
    (hbuild : cfg.build now = some inner) (hM : writeBatchCap ≤ M)
    (hfits : ∀ w, ∀ job ∈ jobs w, FileFits M job.input)
    (hroom : (ioBatchBytes + M : ℚ) ≤ 2000000 * m + 1)
    (hrun : ReflTransGen Step (start inner now fun w => jobEvents (jobs w)) f) :
    ∃ f', ReflTransGen Step f f' ∧ (∀ w, f'.Done w) ∧
      1000000 * m * (f'.sys.now - f.sys.now) ≤
        ∑ w, (movedTotal (jobEvents (jobs w)) : ℚ) - f.sys.charged := by
  obtain ⟨hsized, hsmall, hle⟩ := sized_jobs hM hfits
  have hcoherent := coherent_run hcfg hm hbuild hsized hsmall hrun
  obtain ⟨f', ⟨hrun', htime⟩, hdone⟩ :=
    exists_done (rate_pos hm now) hsmall (room_of_cap hle hroom) hcoherent
  have hcoherent' := coherent_run hcfg hm hbuild hsized hsmall (hrun.trans hrun')
  have hcharged : (f'.sys.charged : ℚ) ≤ ∑ w, (movedTotal (jobEvents (jobs w)) : ℚ) := by
    exact_mod_cast charged_le_of_done hcoherent' (hrun.trans hrun') hdone
  rw [rate_new] at htime
  exact ⟨f', hrun', hdone, by linarith⟩

theorem jobs_can_finish_twoJobs : ∃ f' : Fleet Bool,
    ReflTransGen Step (start oneMbps 0 fun w => jobEvents (twoJobs w)) f' ∧ (∀ w, f'.Done w) ∧
      1000000 * 1 * (f'.sys.now - 0) ≤
        ∑ w, (movedTotal (jobEvents (twoJobs w)) : ℚ) - (0 : Nat) :=
  jobs_can_finish oneMbps_cfg one_pos rfl le_rfl twoJobs_fit
    (by norm_num [ioBatchBytes, writeBatchCap]) .refl

/-- **Left alone, the workers come to their ends**: in every run in which the clock goes on, and
in which what could always get on does get on, all of them are done at some time and for
good. -/
theorem jobs_finish (hcfg : cfg.maxIoMbps = some m) (hm : 0 < m)
    (hbuild : cfg.build now = some inner) (hM : writeBatchCap ≤ M)
    (hfits : ∀ w, ∀ job ∈ jobs w, FileFits M job.input)
    (hroom : (ioBatchBytes + M : ℚ) ≤ 2000000 * m + 1) {run : ℕ → Fleet ι}
    (hstart : run 0 = start inner now fun w => jobEvents (jobs w))
    (hrun : ∀ i, Step (run i) (run (i + 1))) (htime : ∀ t, ∃ i, t ≤ (run i).sys.now)
    (hfair : Lib.Run.Fair Step Idle run) : ∃ N, ∀ i, N ≤ i → ∀ w, (run i).Done w := by
  obtain ⟨hsized, hsmall, hle⟩ := sized_jobs hM hfits
  have hcoherent := coherent_start hcfg hm hbuild hsized
  rw [← hstart] at hcoherent
  exact done_of_fair (rate_pos hm now) hsmall (room_of_cap hle hroom) hcoherent hrun htime hfair

theorem jobs_finish_twoJobs : ∃ (run : ℕ → Fleet Bool) (N : ℕ),
    run 0 = start oneMbps 0 (fun w => jobEvents (twoJobs w)) ∧
      ∀ i, N ≤ i → ∀ w, (run i).Done w := by
  obtain ⟨run, hstart, hrun, htime, hfair⟩ := exists_fair (rate_pos one_pos 0) (by decide)
    (by norm_num [IoBucket.new, ioBatchBytes, writeBatchCap]) twoJobs_coherent
  obtain ⟨N, hdone⟩ := jobs_finish oneMbps_cfg one_pos rfl le_rfl
    twoJobs_fit (by norm_num [ioBatchBytes, writeBatchCap]) hstart hrun htime hfair
  exact ⟨run, N, hstart, hdone⟩

end Jobs

end PcapSlim.Limit.Fleet
