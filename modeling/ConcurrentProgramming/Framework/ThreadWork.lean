import Mathlib.Algebra.BigOperators.Group.Finset.Basic
import Mathlib.Algebra.Order.Group.Multiset
import Mathlib.Data.Multiset.MapFold

/-! # Work That Is Left to Threads

    * `sum_update`: a sum over all threads after one thread has moved, for a measure of
      the work that is left.
    * `Service`: a queue of jobs and the threads that take them.  A thread may take any
      job of the queue, and runs one job at a time.
    * `Service.pending`: the jobs that are not finished.  Taking a job does not change
      them, finishing one removes it: every job is done once.
-/

namespace ThreadWork

open Finset

universe u v w

/-! ## Section 1: Sums over all threads -/

theorem sum_update {ι : Type u} {α : Type v} {β : Type w} [DecidableEq ι] [AddCommMonoid β]
    {s : Finset ι} (f : α → β) (g : ι → α) {i : ι} (hi : i ∈ s) (a : α) :
    ∑ j ∈ s, f (Function.update g i a j) + f (g i) = ∑ j ∈ s, f (g j) + f a := by
  have hrest : ∑ j ∈ s.erase i, f (Function.update g i a j) = ∑ j ∈ s.erase i, f (g j) := by
    refine sum_congr rfl fun j hj => ?_
    rw [Function.update_of_ne (ne_of_mem_erase hj)]
  rw [← sum_erase_add s _ hi, ← sum_erase_add s (fun j => f (g j)) hi, hrest,
    Function.update_self, add_right_comm]

/-! ## Section 2: A queue of jobs -/

/-- The jobs in the queue, and what each thread is running. -/
structure Service (J : Type u) where
  queue   : List J
  running : ℕ → Option J

namespace Service

variable {J : Type u}

def empty : Service J := ⟨[], fun _ => none⟩

def post (s : Service J) (j : J) : Service J := { s with queue := s.queue ++ [j] }

/-- Thread `i` takes the job at position `k` of the queue. -/
def take (s : Service J) (i k : ℕ) : Option (Service J) :=
  match s.running i, s.queue[k]? with
  | none, some j => some ⟨s.queue.eraseIdx k, Function.update s.running i (some j)⟩
  | _, _ => none

/-- Thread `i` is done with its job. -/
def finish (s : Service J) (i : ℕ) : Option (J × Service J) :=
  (s.running i).map fun j => (j, { s with running := Function.update s.running i none })

/-- The job of a thread, if it has one. -/
def jobs (running : Option J) : Multiset J := running.elim 0 fun j => {j}

@[simp] theorem jobs_none : jobs (none : Option J) = 0 := rfl

@[simp] theorem jobs_some (j : J) : jobs (some j) = {j} := rfl

/-- The jobs that the threads below `n` have to finish. -/
def pending (n : ℕ) (s : Service J) : Multiset J :=
  s.queue + ∑ i ∈ range n, jobs (s.running i)

variable {s s' : Service J} {n i k : ℕ} {j : J}

@[simp] theorem pending_empty : (empty : Service J).pending n = 0 := by
  simp [pending, empty]

@[simp] theorem pending_post : (s.post j).pending n = s.pending n + {j} := by
  rw [pending, post, ← Multiset.coe_add, Multiset.coe_singleton, add_right_comm, pending]

theorem pending_take (hi : i < n) (h : s.take i k = some s') : s'.pending n = s.pending n := by
  unfold take at h
  split at h
  · next j hrunning hj =>
    cases h
    obtain ⟨hk, rfl⟩ := List.getElem?_eq_some_iff.mp hj
    -- The queue loses the job that the thread gains.
    have hsum := sum_update jobs s.running (mem_range.mpr hi) (some s.queue[k])
    rw [hrunning, jobs_none, add_zero, jobs_some] at hsum
    have hqueue : (s.queue : Multiset J) = {s.queue[k]} + s.queue.eraseIdx k :=
      (Multiset.coe_eq_coe.mpr (List.getElem_cons_eraseIdx_perm hk)).symm
    simp only [pending, hqueue, hsum]
    ac_rfl
  · cases h

theorem pending_finish (hi : i < n) (h : s.finish i = some (j, s')) :
    s.pending n = s'.pending n + {j} := by
  obtain ⟨j', hrunning, hj⟩ := Option.map_eq_some_iff.mp h
  cases hj
  have hsum := sum_update jobs s.running (mem_range.mpr hi) none
  rw [hrunning, jobs_none, add_zero, jobs_some] at hsum
  simp only [pending, ← hsum]
  ac_rfl

end Service

end ThreadWork
