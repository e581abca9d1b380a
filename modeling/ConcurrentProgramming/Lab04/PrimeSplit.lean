import ConcurrentProgramming.Lab04.PrimeCount
import Mathlib.Algebra.BigOperators.Ring.Finset
import Mathlib.Algebra.Order.BigOperators.Group.Finset
import Mathlib.Data.Nat.Prime.Basic

/-! # The Pieces of a Range

    Trial division up to the square root is primality, so a thread counts the primes
    of its piece.  The pieces of a range that is not empty are one behind the other,
    each begins where the one before ends, and the last one takes what the division
    by the number of threads leaves over.  The quotient is rounded towards zero: for
    an empty range all pieces are empty, too.
-/

namespace Lab04

open CInt Finset

/-! ## Section 1: Trial division -/

/-- The loop finds a divisor from `i` on whose square is at most `n`, if there is
    one. -/
theorem is_prime_loop_iff {n : ℤ} {k : ℕ} {i : ℤ} (hi : 2 ≤ i) (hk : n < i + k) :
    is_prime_loop n k i = true ↔ ∀ e, i ≤ e → e * e ≤ n → ¬ e ∣ n := by
  induction k generalizing i with
  | zero =>
    -- All the numbers with a small enough square have been tried.
    refine iff_of_true rfl fun e he hsq => ?_
    have hsq' : e * 2 ≤ e * e := Int.mul_le_mul_of_nonneg_left (by omega) (by omega)
    omega
  | succ k ih =>
    rw [is_prime_loop]
    split
    · next hsq =>
      split
      · next hmod =>
        refine iff_of_false (by simp) fun h => h i le_rfl hsq ?_
        exact Int.dvd_of_tmod_eq_zero hmod
      · next hmod =>
        rw [ih (by omega) (by omega)]
        -- The rest of the loop tries all but `i`, which is no divisor.
        constructor
        · intro h e he hesq hdvd
          rcases eq_or_lt_of_le he with rfl | hlt
          · exact hmod (Int.tmod_eq_zero_of_dvd hdvd)
          · exact h e hlt hesq hdvd
        · exact fun h e he => h e (by omega)
    · next hsq =>
      -- The squares of larger numbers are larger.
      refine iff_of_true rfl fun e he hesq => ?_
      have hsq' : i * i ≤ e * e := Int.mul_le_mul he he (by omega) (by omega)
      omega

theorem is_prime_iff (n : ℤ) : is_prime n = true ↔ n.toNat.Prime := by
  unfold is_prime
  split
  · next hsmall =>
    refine iff_of_false (by simp) fun h => ?_
    have := h.two_le
    omega
  · next hsmall =>
    obtain ⟨m, rfl⟩ := Int.eq_ofNat_of_zero_le (by omega : 0 ≤ n)
    rw [is_prime_loop_iff le_rfl (by omega), Int.toNat_natCast, Nat.prime_def_le_sqrt]
    constructor
    · intro h
      refine ⟨by omega, fun e he hsq hdvd => h e (by omega) ?_ (Int.natCast_dvd_natCast.mpr hdvd)⟩
      exact_mod_cast Nat.le_sqrt.mp hsq
    · rintro ⟨-, h⟩ e he hsq hdvd
      obtain ⟨d, rfl⟩ := Int.eq_ofNat_of_zero_le (by omega : 0 ≤ e)
      have hle : d ≤ m.sqrt := Nat.le_sqrt.mpr (by exact_mod_cast hsq)
      exact h d (by omega) hle (Int.natCast_dvd_natCast.mp hdvd)

/-! ## Section 2: The primes of an interval -/

/-- The primes from `start` up to, not including, `stop`. -/
def primes (start stop : ℤ) : Finset ℕ :=
  (range stop.toNat).filter fun p => start ≤ p ∧ p.Prime

theorem mem_primes {start stop : ℤ} {p : ℕ} :
    p ∈ primes start stop ↔ start ≤ p ∧ p < stop ∧ p.Prime := by
  rw [primes, mem_filter, mem_range, Int.lt_toNat]
  tauto

theorem primes_of_le {start stop : ℤ} (h : stop ≤ start) : primes start stop = ∅ := by
  refine eq_empty_of_forall_notMem fun p hp => ?_
  obtain ⟨hstart, hstop, -⟩ := mem_primes.mp hp
  omega

theorem card_primes_add {a b c : ℤ} (hab : a ≤ b) (hbc : b ≤ c) :
    (primes a b).card + (primes b c).card = (primes a c).card := by
  have hdisjoint : Disjoint (primes a b) (primes b c) := by
    refine disjoint_left.mpr fun p hp hp' => ?_
    obtain ⟨-, hlt, -⟩ := mem_primes.mp hp
    obtain ⟨hle, -⟩ := mem_primes.mp hp'
    omega
  have hunion : primes a b ∪ primes b c = primes a c := by
    ext p
    rw [mem_union, mem_primes, mem_primes, mem_primes]
    constructor
    · rintro (⟨ha, hb, hp⟩ | ⟨hb, hc, hp⟩)
      · exact ⟨ha, by omega, hp⟩
      · exact ⟨by omega, hc, hp⟩
    · rintro ⟨ha, hc, hp⟩
      by_cases hb : (p : ℤ) < b
      · exact .inl ⟨ha, hb, hp⟩
      · exact .inr ⟨by omega, hc, hp⟩
  rw [← card_union_of_disjoint hdisjoint, hunion]

/-- Neighbouring intervals make up the whole. -/
theorem sum_card_primes {cut : ℕ → ℤ} {n : ℕ} (hcut : ∀ i < n, cut i ≤ cut (i + 1)) :
    ∑ i ∈ range n, (primes (cut i) (cut (i + 1))).card = (primes (cut 0) (cut n)).card ∧
      cut 0 ≤ cut n := by
  induction n with
  | zero => simp [primes_of_le le_rfl]
  | succ n ih =>
    obtain ⟨hsum, hle⟩ := ih fun i hi => hcut i (by omega)
    have hlast := hcut n (by omega)
    rw [sum_range_succ, hsum, card_primes_add hle hlast]
    exact ⟨rfl, hle.trans hlast⟩

theorem card_primes_singleton (i : ℤ) :
    (primes i (i + 1)).card = if is_prime i = true then 1 else 0 := by
  have hmem : ∀ p, p ∈ primes i (i + 1) ↔ (p : ℤ) = i ∧ p.Prime := by
    intro p
    rw [mem_primes, ← and_assoc]
    exact and_congr_left fun _ => by omega
  split
  · next hprime =>
    have hi := (is_prime_iff i).mp hprime
    have hpos := hi.two_le
    refine card_eq_one.mpr ⟨i.toNat, ?_⟩
    ext p
    rw [hmem, mem_singleton]
    constructor
    · rintro ⟨rfl, -⟩
      rfl
    · rintro rfl
      exact ⟨by omega, hi⟩
  · next hprime =>
    refine card_eq_zero.mpr (eq_empty_of_forall_notMem fun p hp => hprime ?_)
    obtain ⟨rfl, hprime'⟩ := (hmem p).mp hp
    exact (is_prime_iff p).mpr hprime'

theorem count_loop_eq {stop : ℤ} {k : ℕ} {i : ℤ} {cnt : ℕ} (hk : stop ≤ i + k) :
    count_loop stop k i cnt = cnt + (primes i stop).card := by
  induction k generalizing i cnt with
  | zero => rw [count_loop, primes_of_le (by omega), card_empty, Nat.add_zero]
  | succ k ih =>
    rw [count_loop]
    split
    · next hlt =>
      -- The interval is `i` and what is behind it.
      rw [ih (by omega), ← card_primes_add (by omega : i ≤ i + 1) (by omega : i + 1 ≤ stop),
        card_primes_singleton]
      split <;> omega
    · next hge => rw [primes_of_le (by omega), card_empty, Nat.add_zero]

theorem count_primes_eq (start stop : ℤ) : count_primes start stop = (primes start stop).card := by
  rw [count_primes, count_loop_eq (by omega), Nat.zero_add]

/-! ## Section 3: The pieces -/

/-- The number of primes from `range_start` to `range_end`, both included. -/
def prime_count (range_start range_end : ℤ) : ℕ := (primes range_start (range_end + 1)).card

theorem prime_count_eq (range_start range_end : ℤ) :
    prime_count range_start range_end = count_primes range_start (range_end + 1) :=
  (count_primes_eq _ _).symm

/-- A range for which no computation of a thread leaves the type `int`. -/
structure RangeOk (range_start range_end : ℤ) : Prop where
  start   : is_int range_start
  stop    : is_int range_end
  width   : is_int (range_end - range_start)
  not_max : range_end < INT_MAX

/-- Piece `i` begins at the cut `i` and ends at the cut `i + 1`. -/
def cut (range_start range_end : ℤ) (i : ℕ) : ℤ :=
  if i = NUM_THREAD then range_end + 1 else range_start + piece range_start range_end * i

section

variable {range_start range_end : ℤ}

/-- The quotient is rounded towards zero. -/
theorem piece_bounds (h : RangeOk range_start range_end) :
    (range_start ≤ range_end → 0 ≤ piece range_start range_end ∧
      range_start + piece range_start range_end * 10 ≤ range_end) ∧
    (range_end < range_start → piece range_start range_end ≤ 0 ∧
      range_end ≤ range_start + piece range_start range_end * 10) := by
  rw [piece, to_int_eq h.width.1 h.width.2]
  constructor
  · intro hle
    rw [Int.tdiv_eq_ediv_of_nonneg (by omega)]
    simp only [NUM_THREAD]
    omega
  · intro hlt
    have hneg : (range_end - range_start).tdiv NUM_THREAD =
        -((range_start - range_end) / NUM_THREAD) := by
      rw [← Int.tdiv_eq_ediv_of_nonneg (by omega), ← Int.neg_tdiv, Int.neg_sub]
    rw [hneg]
    simp only [NUM_THREAD]
    omega

/-- All cuts but the last one are between the ends of the range. -/
theorem cut_bounds (h : RangeOk range_start range_end) {i : ℕ} (hi : i ≤ NUM_THREAD) :
    min range_start range_end ≤ range_start + piece range_start range_end * i ∧
      range_start + piece range_start range_end * i ≤ max range_start range_end := by
  obtain ⟨hup, hdown⟩ := piece_bounds h
  unfold NUM_THREAD at hi
  generalize piece range_start range_end = p at hup hdown
  by_cases hle : range_start ≤ range_end
  · obtain ⟨hp, hlast⟩ := hup hle
    have hlow : p * 0 ≤ p * i := Int.mul_le_mul_of_nonneg_left (by omega) hp
    have hhigh : p * i ≤ p * 10 := Int.mul_le_mul_of_nonneg_left (by omega) hp
    omega
  · obtain ⟨hp, hlast⟩ := hdown (by omega)
    have hlow : p * 10 ≤ p * i := Int.mul_le_mul_of_nonpos_left hp (by omega)
    have hhigh : p * i ≤ p * 0 := Int.mul_le_mul_of_nonpos_left hp (by omega)
    omega

/-- No addition overflows. -/
theorem to_int_cut (h : RangeOk range_start range_end) {i : ℕ} (hi : i ≤ NUM_THREAD) :
    to_int (range_start + piece range_start range_end * i) =
      range_start + piece range_start range_end * i := by
  have hbounds := cut_bounds h hi
  have hstart := h.start
  have hstop := h.stop
  unfold is_int at hstart hstop
  exact to_int_eq (by omega) (by omega)

theorem piece_start_eq (h : RangeOk range_start range_end) {tid : ℕ} (htid : tid < NUM_THREAD) :
    piece_start range_start range_end tid = cut range_start range_end tid := by
  rw [piece_start, to_int_cut h htid.le, cut, if_neg htid.ne]

theorem piece_end_eq (h : RangeOk range_start range_end) {tid : ℕ} (htid : tid < NUM_THREAD) :
    piece_end range_start range_end tid = cut range_start range_end (tid + 1) := by
  unfold piece_end cut
  by_cases hlast : tid = NUM_THREAD - 1
  · have hstop := h.stop
    have hmax := h.not_max
    unfold is_int at hstop
    rw [if_pos hlast, if_pos (by omega), to_int_eq (by omega) (by omega)]
  · rw [if_neg hlast, if_neg (by omega)]
    exact_mod_cast to_int_cut h htid

/-- The pieces have all primes of the range, and none twice. -/
theorem sum_pieces (h : RangeOk range_start range_end) :
    ∑ tid ∈ range NUM_THREAD, (primes (cut range_start range_end tid)
      (cut range_start range_end (tid + 1))).card = prime_count range_start range_end := by
  obtain ⟨hup, hdown⟩ := piece_bounds h
  rw [prime_count]
  by_cases hle : range_start ≤ range_end
  · obtain ⟨hp, hlast⟩ := hup hle
    -- The last cut is behind `range_end`, all others are not.
    have hcut : ∀ i < NUM_THREAD,
        cut range_start range_end i ≤ cut range_start range_end (i + 1) := by
      intro i hi
      have hbounds := cut_bounds h hi.le
      rw [cut, cut, if_neg hi.ne]
      split
      · omega
      · push_cast
        rw [Int.mul_add, Int.mul_one]
        omega
    obtain ⟨hsum, -⟩ := sum_card_primes hcut
    rw [hsum]
    simp [cut]
  · obtain ⟨hp, hlast⟩ := hdown (by omega)
    -- The cuts go down, and the last piece is empty, too.
    rw [primes_of_le (by omega), card_empty]
    refine sum_eq_zero fun tid htid => ?_
    have htid := mem_range.mp htid
    rw [primes_of_le, card_empty]
    rw [cut, cut, if_neg htid.ne]
    split
    · next hnine =>
      obtain rfl : tid = 9 := Nat.succ.inj hnine
      push_cast
      omega
    · push_cast
      rw [Int.mul_add, Int.mul_one]
      omega

theorem sum_thread_result (h : RangeOk range_start range_end) :
    ∑ tid ∈ range NUM_THREAD, thread_result (range_start, range_end) tid =
      prime_count range_start range_end := by
  rw [← sum_pieces h, Nat.cast_sum]
  refine sum_congr rfl fun tid htid => ?_
  have htid := mem_range.mp htid
  rw [thread_result_eq, count_primes_eq, piece_start_eq h htid, piece_end_eq h htid]

/-- The sum of `main` does not overflow. -/
theorem collected_eq (h : RangeOk range_start range_end) :
    collected (range_start, range_end) NUM_THREAD = prime_count range_start range_end := by
  have hcount : (prime_count range_start range_end : ℤ) ≤ INT_MAX := by
    have hle := count_loop_le (range_end + 1) (range_end + 1 - range_start).toNat range_start 0
    have hmax := h.not_max
    rw [prime_count_eq, count_primes]
    unfold INT_MAX at *
    omega
  -- No sum on the way is above the whole one, as no count is negative.
  have hsofar : ∀ i ≤ NUM_THREAD, collected (range_start, range_end) i =
      ∑ tid ∈ range i, thread_result (range_start, range_end) tid := by
    intro i hi
    induction i with
    | zero => rfl
    | succ i ih =>
      rw [collected, ih (by omega), ← sum_range_succ]
      have hnonneg := sum_nonneg fun tid (_ : tid ∈ range (i + 1)) =>
        thread_result_nonneg (range_start, range_end) tid
      have hle := sum_le_sum_of_subset_of_nonneg (range_subset_range.mpr hi)
        fun tid _ _ => thread_result_nonneg (range_start, range_end) tid
      rw [sum_thread_result h] at hle
      exact to_int_eq (le_trans (by decide) hnonneg) (hle.trans hcount)
  rw [hsofar _ le_rfl, sum_thread_result h]

end

end Lab04
