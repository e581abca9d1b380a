import ConcurrentProgramming.Framework.CInt
import Mathlib.Algebra.Order.Group.Unbundled.Int
import Mathlib.Algebra.Group.Nat.Defs
import Mathlib.Data.Nat.Notation

/-! # Counting Primes in a Range (`prime_mt.cpp`, `prime_cond.cpp`)

    Ten threads split a range: thread `tid` counts the primes from its `start` up to,
    not including, its `end`; the last thread goes up to `range_end`.  The two
    programs have this text in common.

    Values of type `int` are those of `CInt.lean`.  The test `i <= sqrt(n)` is
    `i * i ≤ n`.
-/

namespace Lab04

open CInt

abbrev NUM_THREAD : ℕ := 10

/-- The loop of `IsPrime`, from `i` on; `k` is a bound for the rounds that are left. -/
def is_prime_loop (n : ℤ) : ℕ → ℤ → Bool
  | 0, _ => true
  | k + 1, i =>
      if i * i ≤ n then
        if n.tmod i = 0 then false else is_prime_loop n k (i + 1)
      else true

/-- `IsPrime`. -/
def is_prime (n : ℤ) : Bool := if n < 2 then false else is_prime_loop n n.toNat 2

/-- The loop of `ThreadFunc` that counts; `k` is a bound for the rounds that are left. -/
def count_loop (stop : ℤ) : ℕ → ℤ → ℕ → ℕ
  | 0, _, cnt_prime => cnt_prime
  | k + 1, i, cnt_prime =>
      if i < stop then count_loop stop k (i + 1) (if is_prime i then cnt_prime + 1 else cnt_prime)
      else cnt_prime

def count_primes (start stop : ℤ) : ℕ := count_loop stop (stop - start).toNat start 0

/-- The quotient `(range_end - range_start) / NUM_THREAD`. -/
def piece (range_start range_end : ℤ) : ℤ := (to_int (range_end - range_start)).tdiv NUM_THREAD

def piece_start (range_start range_end : ℤ) (tid : ℕ) : ℤ :=
  to_int (range_start + piece range_start range_end * tid)

def piece_end (range_start range_end : ℤ) (tid : ℕ) : ℤ :=
  if tid = NUM_THREAD - 1 then to_int (range_end + 1)
  else to_int (range_start + piece range_start range_end * (tid + 1))

/-- What thread `tid` stores in `thread_ret[tid]`. -/
def thread_result (range : ℤ × ℤ) (tid : ℕ) : ℤ :=
  to_int (count_primes (piece_start range.1 range.2 tid) (piece_end range.1 range.2 tid))

/-- The sum that `main` collects. -/
def collected (range : ℤ × ℤ) : ℕ → ℤ
  | 0 => 0
  | i + 1 => to_int (collected range i + thread_result range i)

/-! ## The counts are not negative -/

/-- The primes that are counted are at least two and smaller than `stop`. -/
theorem count_loop_le (stop : ℤ) (k : ℕ) (i : ℤ) (cnt : ℕ) :
    count_loop stop k i cnt ≤ cnt + (stop - max i 2).toNat := by
  induction k generalizing i cnt with
  | zero => exact Nat.le_add_right _ _
  | succ k ih =>
    rw [count_loop]
    split
    · next hlt =>
      have hle := ih (i + 1) (if is_prime i then cnt + 1 else cnt)
      by_cases hprime : is_prime i = true
      · have htwo : 2 ≤ i := by
          by_contra hsmall
          rw [is_prime, if_pos (not_le.mp hsmall)] at hprime
          cases hprime
        rw [if_pos hprime] at hle ⊢
        omega
      · rw [if_neg hprime] at hle ⊢
        omega
    · exact Nat.le_add_right _ _

/-- A count is stored as it is. -/
theorem thread_result_eq (range : ℤ × ℤ) (tid : ℕ) : thread_result range tid =
    count_primes (piece_start range.1 range.2 tid) (piece_end range.1 range.2 tid) := by
  have hstop : piece_end range.1 range.2 tid ≤ INT_MAX := by
    unfold piece_end
    split <;> exact to_int_le _
  have hle := count_loop_le (piece_end range.1 range.2 tid)
    (piece_end range.1 range.2 tid - piece_start range.1 range.2 tid).toNat
    (piece_start range.1 range.2 tid) 0
  change count_primes _ _ ≤ _ at hle
  unfold thread_result
  generalize count_primes _ _ = cnt at hle ⊢
  unfold INT_MAX at hstop
  exact to_int_of_nonneg (by omega) (by omega)

/-- No count is `-1`. -/
theorem thread_result_nonneg (range : ℤ × ℤ) (tid : ℕ) : 0 ≤ thread_result range tid := by
  rw [thread_result_eq]
  exact Int.natCast_nonneg _

end Lab04
