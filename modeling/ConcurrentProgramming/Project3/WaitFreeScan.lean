import ConcurrentProgramming.Project3.WFSnapshot
import Mathlib.Data.Fintype.Card
import Mathlib.Tactic.Ring

/-! # `scan` Is Wait-Free (`WFSnapshot.cc`)

    The loop of `scan` has no counter: it is left when two collects agree, or
    when a thread is seen moving for the second time.  The other threads may
    change all registers between any two steps of the scan, so here the scan
    reads an arbitrary sequence of tables.

    Each iteration that does not return marks one more thread in `moved`.  Hence
    there are at most `n + 1` iterations, with `n + 2` collects
    (`scan_wait_free`).
-/

namespace Project3

variable {n : ℕ}

/-! ## Section 1: A scan on its own -/

/-- The next step compares the two collects: it ends an iteration of the loop. -/
def Scan.compares (f : Scan n) : Bool :=
  match f.point with
  | .old_collect _ => false
  | .new_collect i => decide (n ≤ i)

/-- A scan after `m` steps, and how many iterations of its loop have ended.
    `tables m` is what the other threads have made of `a_table` before step `m`. -/
def scan_after (now : ℕ) (tables : ℕ → Collection n) : ℕ → ScanStep n × ℕ
  | 0 => (.running (Scan.new now), 0)
  | m + 1 =>
      match scan_after now tables m with
      | (.running f, iterations) =>
          (f.next (tables m), if f.compares then iterations + 1 else iterations)
      | (.returned snap, iterations) => (.returned snap, iterations)

/-- The two ways out of the loop: the collects agree, or a thread has moved twice. -/
def Scan.leaves (f : Scan n) (snap : Fin n → T) : Prop :=
  (first_moved f.old_copy f.new_copy = none ∧ snap = values f.new_copy) ∨
  ∃ j, first_moved f.old_copy f.new_copy = some j ∧ f.moved j = true ∧
    snap = (f.old_copy j).snap

/-! ## Section 2: Every iteration marks a thread -/

/-- The threads that have not been seen moving. -/
def unmoved (moved : Fin n → Bool) : Finset (Fin n) :=
  Finset.univ.filter fun j => moved j = false

theorem unmoved_update {moved : Fin n → Bool} {j : Fin n} (h : moved j = false) :
    (unmoved (Function.update moved j true)).card + 1 = (unmoved moved).card := by
  have herase : unmoved (Function.update moved j true) = (unmoved moved).erase j := by
    ext u
    by_cases hu : u = j
    · subst hu
      simp [unmoved]
    · simp [unmoved, hu]
  rw [herase]
  exact Finset.card_erase_add_one (by simp [unmoved, h])

/-- How the comparison of two collects ends. -/
theorem compare_copies_cases (old_copy new_copy : Collection n) (moved : Fin n → Bool) :
    (∃ snap, compare_copies old_copy new_copy moved = .returned snap ∧
      ((first_moved old_copy new_copy = none ∧ snap = values new_copy) ∨
        ∃ j, first_moved old_copy new_copy = some j ∧ moved j = true ∧
          snap = (old_copy j).snap)) ∨
    ∃ j, moved j = false ∧
      compare_copies old_copy new_copy moved = .again (Function.update moved j true) := by
  unfold compare_copies
  cases hfirst : first_moved old_copy new_copy with
  | none => exact .inl ⟨_, rfl, .inl ⟨rfl, rfl⟩⟩
  | some j =>
    cases hj : moved j with
    | true => exact .inl ⟨_, by simp [hj], .inr ⟨j, rfl, hj, rfl⟩⟩
    | false => exact .inr ⟨j, hj, by simp [hj]⟩

/-- A running scan after `m` steps.  A collect takes `n + 1` steps: one for each
    register, and one to go on. -/
structure RoundInv (m : ℕ) (f : Scan n) (iterations : ℕ) : Prop where
  rounds : iterations + (unmoved f.moved).card = n
  steps  : match f.point with
    | .old_collect i => i ≤ n ∧ iterations = 0 ∧ m = i
    | .new_collect i => i ≤ n ∧ m = (n + 1) * (iterations + 1) + i

theorem round_inv_new (now : ℕ) : RoundInv 0 (Scan.new now : Scan n) 0 := by
  refine ⟨?_, Nat.zero_le n, rfl, rfl⟩
  simp [unmoved, Scan.new]

/-- One step of a running scan: it goes on, or it leaves the loop. -/
theorem RoundInv.next {m iterations : ℕ} {f : Scan n} (h : RoundInv m f iterations)
    (table : Collection n) :
    (∃ f', f.next table = .running f' ∧
      RoundInv (m + 1) f' (if f.compares then iterations + 1 else iterations)) ∨
    ∃ snap, f.next table = .returned snap ∧ f.compares = true ∧ f.leaves snap := by
  obtain ⟨point, old_copy, new_copy, moved, start⟩ := f
  obtain ⟨hrounds, hsteps⟩ := h
  cases point with
  | old_collect i =>
    left
    obtain ⟨hi, hzero, hm⟩ := hsteps
    by_cases hlt : i < n
    · exact ⟨_, dif_pos hlt, hrounds, hlt, hzero, congrArg Nat.succ hm⟩
    · -- All registers of the first collect are read.
      refine ⟨_, dif_neg hlt, hrounds, Nat.zero_le n, ?_⟩
      show m + 1 = (n + 1) * (iterations + 1) + 0
      rw [hzero, hm]
      omega
  | new_collect i =>
    obtain ⟨hi, hm⟩ := hsteps
    by_cases hlt : i < n
    · left
      have hcompares : (⟨.new_collect i, old_copy, new_copy, moved, start⟩ : Scan n).compares =
          false := decide_eq_false (by omega)
      refine ⟨_, dif_pos hlt, ?_⟩
      rw [hcompares]
      exact ⟨hrounds, hlt, congrArg Nat.succ hm⟩
    · have hcompares : (⟨.new_collect i, old_copy, new_copy, moved, start⟩ : Scan n).compares =
          true := decide_eq_true (by omega)
      rw [hcompares]
      rcases compare_copies_cases old_copy new_copy moved with
        ⟨snap, hcompare, hleaves⟩ | ⟨j, hj, hcompare⟩
      · right
        refine ⟨snap, (dif_neg hlt).trans ?_, rfl, hleaves⟩
        rw [hcompare]
      · left
        have hcard := unmoved_update hj
        refine ⟨⟨.new_collect 0, new_copy, new_copy, Function.update moved j true, start⟩,
          (dif_neg hlt).trans ?_, ?_, Nat.zero_le n, ?_⟩
        · rw [hcompare]
        · show iterations + 1 + (unmoved (Function.update moved j true)).card = n
          have hrounds : iterations + (unmoved moved).card = n := hrounds
          omega
        · show m + 1 = (n + 1) * (iterations + 1 + 1) + 0
          have hi' : i = n := by omega
          rw [hm, hi']
          ring

/-! ## Section 3: The bound -/

/-- A scan after `m` steps: it runs, or it has left the loop at one of them. -/
theorem scan_after_cases (now : ℕ) (tables : ℕ → Collection n) (m : ℕ) :
    (∃ f k, scan_after now tables m = (.running f, k) ∧ RoundInv m f k) ∨
    ∃ m' f k snap, m' < m ∧ scan_after now tables m' = (.running f, k) ∧ RoundInv m' f k ∧
      scan_after now tables (m' + 1) = (.returned snap, k + 1) ∧ f.leaves snap := by
  induction m with
  | zero => exact .inl ⟨_, 0, rfl, round_inv_new now⟩
  | succ m ih =>
    rcases ih with ⟨f, k, hrun, hinv⟩ | ⟨m', f, k, snap, hlt, hrest⟩
    · have hnext : scan_after now tables (m + 1) =
          (f.next (tables m), if f.compares then k + 1 else k) := by
        rw [scan_after, hrun]
      rcases hinv.next (tables m) with ⟨f', hf', hinv'⟩ | ⟨snap, hsnap, hcompares, hleaves⟩
      · exact .inl ⟨f', _, by rw [hnext, hf'], hinv'⟩
      · refine .inr ⟨m, f, k, snap, Nat.lt_succ_self m, hrun, hinv, ?_, hleaves⟩
        rw [hnext, hsnap, if_pos hcompares]
    · exact .inr ⟨m', f, k, snap, Nat.lt_succ_of_lt hlt, hrest⟩

/-- **`scan` is wait-free.**  Whatever tables it reads, `scan` returns within
    `(n + 2) * (n + 1)` steps, at the end of one of the first `n + 1` iterations
    of its loop and through one of the two returns. -/
theorem scan_wait_free (now : ℕ) (tables : ℕ → Collection n) :
    ∃ m f k snap, m < (n + 2) * (n + 1) ∧ scan_after now tables m = (.running f, k) ∧
      scan_after now tables (m + 1) = (.returned snap, k + 1) ∧ k + 1 ≤ n + 1 ∧
      f.leaves snap := by
  rcases scan_after_cases now tables ((n + 2) * (n + 1)) with
    ⟨f, k, -, hinv⟩ | ⟨m, f, k, snap, hlt, hrun, hinv, hreturned, hleaves⟩
  · -- Still running, it would have ended more iterations than there are threads.
    exfalso
    have hrounds := hinv.rounds
    have hsteps := hinv.steps
    have hsplit : (n + 2) * (n + 1) = (n + 1) * (n + 1) + (n + 1) := by ring
    have hk : (n + 1) * (k + 1) ≤ (n + 1) * (n + 1) := Nat.mul_le_mul_left _ (by omega)
    cases hp : f.point with
    | old_collect i =>
      rw [hp] at hsteps
      obtain ⟨hi, -, hm⟩ := hsteps
      omega
    | new_collect i =>
      rw [hp] at hsteps
      obtain ⟨hi, hm⟩ := hsteps
      omega
  · have hrounds := hinv.rounds
    exact ⟨m, f, k, snap, hlt, hrun, hreturned, by omega, hleaves⟩

end Project3
