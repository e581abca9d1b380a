import ConcurrentProgramming.Lab04.PrimeMt

/-! # A Thread Pool That Counts Primes (`new.cpp`)

    `main` reads ranges and posts a call of `ThreadFunc` for each of them to `io`, which
    has four threads.  `ThreadFunc` counts the primes of the whole range and posts a
    call of `print_result` to `printing_io`, which has one thread.  An `io_service`
    is assumed to run every handler once, in any order.

    `ThreadFunc` counts up to, not including, `range_end`, and `prime_mt.cpp` counts
    `range_end`, too.  The two programs agree unless `range_end` is a prime
    (`pool_count_agrees`).

    The state keeps, for the statements only, the calls that have been posted to `io`.
-/

namespace Lab07

open LTS CInt ThreadWork Lab04

abbrev NUM_THREAD_IN_POOL : ℕ := 4

/-! ## Section 1: Main and the two services -/

/-- A call of `ThreadFunc`. -/
structure ThreadFunc where
  range_start      : ℤ
  range_end        : ℤ
  execution_number : ℤ
  deriving DecidableEq, Repr

/-- A call of `print_result`. -/
structure PrintResult where
  range_start      : ℤ
  range_end        : ℤ
  execution_number : ℤ
  cnt_prime        : ℕ
  deriving DecidableEq, Repr

/-- What `ThreadFunc` posts. -/
def ThreadFunc.run (t : ThreadFunc) : PrintResult :=
  ⟨t.range_start, t.range_end, t.execution_number, count_primes t.range_start t.range_end⟩

/-- Where `main` is. -/
inductive MainPoint where
  /-- At `scanf`. -/
  | read
  /-- At `threadpool.join_all()`. -/
  | join_pool
  /-- At `printing_threadpool.join_all()`. -/
  | join_printer
  | ended
  deriving DecidableEq, Repr

structure State where
  main             : MainPoint
  execution_number : ℤ
  io               : Service ThreadFunc
  printing_io      : Service PrintResult
  printed          : List PrintResult
  posted           : List ThreadFunc

namespace State

def start : State := ⟨.read, 0, .empty, .empty, [], []⟩

/-- One step of `main`; `input` is what `scanf` would read. -/
def main_step (s : State) (input : ℤ × ℤ) : Option State :=
  match s.main with
  | .read =>
      if input.1 = -1 then some { s with main := .join_pool }
      else
        let t : ThreadFunc := ⟨input.1, input.2, to_int (s.execution_number + 1)⟩
        some { s with
          execution_number := to_int (s.execution_number + 1)
          io := s.io.post t
          posted := s.posted ++ [t] }
  | .join_pool =>
      -- After `delete work`, a thread's `run` returns when no call is left.
      if s.io.pending NUM_THREAD_IN_POOL = 0 then some { s with main := .join_printer } else none
  | .join_printer =>
      if s.printing_io.pending 1 = 0 then some { s with main := .ended } else none
  | .ended => none

/-- A thread of the pool takes a call. -/
def pool_take (s : State) (tid k : ℕ) : Option State :=
  (s.io.take tid k).map fun io => { s with io := io }

/-- A thread of the pool executes its call. -/
def pool_run (s : State) (tid : ℕ) : Option State :=
  (s.io.finish tid).map fun x =>
    { s with io := x.2, printing_io := s.printing_io.post x.1.run }

/-- The printing thread takes a call. -/
def printer_take (s : State) (k : ℕ) : Option State :=
  (s.printing_io.take 0 k).map fun io => { s with printing_io := io }

/-- The printing thread executes its call: one line is printed. -/
def printer_run (s : State) : Option State :=
  (s.printing_io.finish 0).map fun x =>
    { s with printing_io := x.2, printed := s.printed ++ [x.1] }

end State

inductive Label where
  | main (input : ℤ × ℤ)
  | pool_take (tid k : ℕ)
  | pool_run (tid : ℕ)
  | printer_take (k : ℕ)
  | printer_run

/-- `main`, the four threads of the pool, and the printing thread. -/
def thread_pool : System State Label where
  init := fun s => s = State.start
  step := fun s l s' =>
    match l with
    | .main input => is_int input.1 ∧ is_int input.2 ∧ s.main_step input = some s'
    | .pool_take tid k => tid < NUM_THREAD_IN_POOL ∧ s.pool_take tid k = some s'
    | .pool_run tid => tid < NUM_THREAD_IN_POOL ∧ s.pool_run tid = some s'
    | .printer_take k => s.printer_take k = some s'
    | .printer_run => s.printer_run = some s'

/-! ## Section 2: Every range is counted and printed once -/

/-- The calls of `print_result` that have been posted. -/
def State.results (s : State) : Multiset PrintResult := s.printing_io.pending 1 + s.printed

structure PoolInv (s : State) : Prop where
  /-- A call is pending, or its result has been posted, but not both. -/
  once   : (s.posted : Multiset ThreadFunc).map ThreadFunc.run =
    (s.io.pending NUM_THREAD_IN_POOL).map ThreadFunc.run + s.results
  joined : s.main = .join_printer ∨ s.main = .ended → s.io.pending NUM_THREAD_IN_POOL = 0
  ended  : s.main = .ended → s.printing_io.pending 1 = 0

namespace PoolInv

variable {s s' : State}

theorem of_start : PoolInv State.start where
  once := by simp [State.start, State.results]
  joined := by simp [State.start]
  ended := by simp [State.start]

theorem main_step (h : PoolInv s) {input : ℤ × ℤ} (hstep : s.main_step input = some s') :
    PoolInv s' := by
  unfold State.main_step at hstep
  split at hstep
  · next hmain =>
    split at hstep <;> cases hstep
    · exact ⟨h.once, by simp, by simp⟩
    · refine ⟨?_, by simp [hmain], by simp [hmain]⟩
      -- The new call is posted and pending.
      have honce := h.once
      simp only [Service.pending_post, ← Multiset.coe_add, Multiset.map_add]
      rw [honce, State.results, State.results]
      simp only [Multiset.coe_singleton]
      ac_rfl
  · next hmain =>
    split at hstep
    · next hpending =>
      cases hstep
      exact ⟨h.once, fun _ => hpending, by simp⟩
    · cases hstep
  · next hmain =>
    split at hstep
    · next hpending =>
      cases hstep
      exact ⟨h.once, fun _ => h.joined (.inl hmain), fun _ => hpending⟩
    · cases hstep
  · cases hstep

theorem pool_take (h : PoolInv s) {tid k : ℕ} (htid : tid < NUM_THREAD_IN_POOL)
    (hstep : s.pool_take tid k = some s') : PoolInv s' := by
  obtain ⟨io, hio, rfl⟩ := Option.map_eq_some_iff.mp hstep
  have hpending := Service.pending_take htid hio
  refine ⟨?_, ?_, h.ended⟩
  · simp only [hpending]
    exact h.once
  · simp only [hpending]
    exact h.joined

/-- One call less is pending, and its result is there. -/
theorem pool_run (h : PoolInv s) {tid : ℕ} (htid : tid < NUM_THREAD_IN_POOL)
    (hstep : s.pool_run tid = some s') : PoolInv s' := by
  obtain ⟨⟨t, io⟩, hio, rfl⟩ := Option.map_eq_some_iff.mp hstep
  have hpending := Service.pending_finish htid hio
  -- `main` has not joined the pool.
  have hmain : ¬ (s.main = .join_printer ∨ s.main = .ended) := by
    intro hjoined
    have hempty := h.joined hjoined
    rw [hpending] at hempty
    simp at hempty
  refine ⟨?_, fun hjoined => absurd hjoined hmain, fun hended => absurd (.inr hended) hmain⟩
  have honce := h.once
  rw [hpending, Multiset.map_add, Multiset.map_singleton] at honce
  simp only [State.results, Service.pending_post]
  rw [honce, State.results]
  ac_rfl

theorem printer_take (h : PoolInv s) {k : ℕ} (hstep : s.printer_take k = some s') :
    PoolInv s' := by
  obtain ⟨io, hio, rfl⟩ := Option.map_eq_some_iff.mp hstep
  have hpending := Service.pending_take Nat.zero_lt_one hio
  refine ⟨?_, h.joined, ?_⟩
  · simp only [State.results, hpending]
    exact h.once
  · simp only [hpending]
    exact h.ended

theorem printer_run (h : PoolInv s) (hstep : s.printer_run = some s') : PoolInv s' := by
  obtain ⟨⟨r, io⟩, hio, rfl⟩ := Option.map_eq_some_iff.mp hstep
  have hpending := Service.pending_finish Nat.zero_lt_one hio
  refine ⟨?_, h.joined, ?_⟩
  · have honce := h.once
    rw [State.results, hpending] at honce
    simp only [State.results, ← Multiset.coe_add, Multiset.coe_singleton]
    rw [honce]
    ac_rfl
  · intro hended
    have hempty := h.ended hended
    rw [hpending] at hempty
    simp at hempty

end PoolInv

theorem pool_inv_reachable {s : State} (h : Reachable thread_pool s) : PoolInv s := by
  apply h.invariant
  · intro s hinit
    rw [hinit]
    exact .of_start
  · intro s l s' _ hinv hstep
    cases l with
    | main input => exact hinv.main_step hstep.2.2
    | pool_take tid k => exact hinv.pool_take hstep.1 hstep.2
    | pool_run tid => exact hinv.pool_run hstep.1 hstep.2
    | printer_take k => exact hinv.printer_take hstep
    | printer_run => exact hinv.printer_run hstep

/-- At the end one line has been printed for every range. -/
theorem all_printed {s : State} (h : Reachable thread_pool s) (hended : s.main = .ended) :
    s.printed.Perm (s.posted.map ThreadFunc.run) := by
  have hinv := pool_inv_reachable h
  have honce := hinv.once
  rw [hinv.joined (.inr hended), State.results, hinv.ended hended] at honce
  rw [← Multiset.coe_eq_coe, ← Multiset.map_coe, honce]
  simp

/-- The count that is posted for a range is that of `ThreadFunc`. -/
theorem result_counted {s : State} (h : Reachable thread_pool s) {r : PrintResult}
    (hr : r ∈ s.results) : r.cnt_prime = count_primes r.range_start r.range_end := by
  have honce := (pool_inv_reachable h).once
  have hmem : r ∈ (s.posted : Multiset ThreadFunc).map ThreadFunc.run := by
    rw [honce]
    exact Multiset.mem_add.mpr (.inr hr)
  obtain ⟨t, -, rfl⟩ := Multiset.mem_map.mp hmem
  rfl

/-! ## Section 3: The two programs -/

/-- `new.cpp` posts the count for the range. -/
def pool_posts (range_start range_end : ℤ) (cnt_prime : ℕ) : Prop :=
  ∃ s execution_number, Reachable thread_pool s ∧
    ⟨range_start, range_end, execution_number, cnt_prime⟩ ∈ s.results

/-- `prime_mt.cpp` prints the count for the range. -/
def mt_prints (range_start range_end cnt_prime : ℤ) : Prop :=
  ∃ s, ∃ k : ℕ, Reachable prime_mt s ∧ s.ranges[k]? = some (range_start, range_end) ∧
    s.printed[k]? = some cnt_prime

/-- A range is posted, thread 0 takes it and counts. -/
theorem pool_posts_count {range_start range_end : ℤ} (hstart : is_int range_start)
    (hend : is_int range_end) (hgo : range_start ≠ -1) :
    pool_posts range_start range_end (count_primes range_start range_end) := by
  let t : ThreadFunc := ⟨range_start, range_end, 1⟩
  have hread : thread_pool.step .start (.main (range_start, range_end))
      ⟨.read, 1, ⟨[t], fun _ => none⟩, .empty, [], [t]⟩ := ⟨hstart, hend, if_neg hgo⟩
  have htake : thread_pool.step ⟨.read, 1, ⟨[t], fun _ => none⟩, .empty, [], [t]⟩ (.pool_take 0 0)
      ⟨.read, 1, ⟨[], Function.update (fun _ => none) 0 (some t)⟩, .empty, [], [t]⟩ :=
    ⟨by decide, rfl⟩
  have hrun : thread_pool.step
      ⟨.read, 1, ⟨[], Function.update (fun _ => none) 0 (some t)⟩, .empty, [], [t]⟩ (.pool_run 0)
      ⟨.read, 1, ⟨[], Function.update (Function.update (fun _ => none) 0 (some t)) 0 none⟩,
        Service.empty.post t.run, [], [t]⟩ := ⟨by decide, rfl⟩
  refine ⟨_, 1, (((Reachable.init rfl).step hread).step htake).step hrun, ?_⟩
  simp [State.results, ThreadFunc.run, t]

theorem pool_posts_iff {range_start range_end : ℤ} (hstart : is_int range_start)
    (hend : is_int range_end) (hgo : range_start ≠ -1) {cnt_prime : ℕ} :
    pool_posts range_start range_end cnt_prime ↔
      cnt_prime = count_primes range_start range_end := by
  constructor
  · rintro ⟨s, n, hs, hr⟩
    exact result_counted hs hr
  · rintro rfl
    exact pool_posts_count hstart hend hgo

theorem mt_prints_iff {range_start range_end : ℤ} (h : RangeOk range_start range_end)
    (hgo : range_start ≠ -1) {cnt_prime : ℤ} :
    mt_prints range_start range_end cnt_prime ↔ cnt_prime = prime_count range_start range_end := by
  constructor
  · rintro ⟨s, k, hs, hrange, hprinted⟩
    rw [printed_collected hs hrange hprinted, collected_eq h]
  · rintro rfl
    obtain ⟨s, hs, hmain, hranges⟩ := prime_mt_prints h.start h.stop hgo
    have hlt : 0 < s.printed.length := by
      rw [printed_length hs hmain, hranges]
      exact Nat.zero_lt_one
    have hprinted := List.getElem?_eq_getElem hlt
    refine ⟨s, 0, hs, by rw [hranges]; rfl, ?_⟩
    rw [hprinted, printed_collected hs (by rw [hranges]; rfl) hprinted, collected_eq h]

/-- The two counts differ at the end of the range. -/
theorem prime_count_last (range_start range_end : ℤ) :
    prime_count range_start range_end = count_primes range_start range_end +
      if range_start ≤ range_end ∧ range_end.toNat.Prime then 1 else 0 := by
  rw [prime_count, count_primes_eq]
  by_cases hle : range_start ≤ range_end
  · -- What `prime_mt.cpp` counts in addition is the interval of `range_end` alone.
    rw [← card_primes_add hle (by omega : range_end ≤ range_end + 1), card_primes_singleton]
    simp only [hle, true_and, is_prime_iff]
  · rw [primes_of_le (by omega), primes_of_le (by omega), if_neg fun h => hle h.1, Nat.add_zero]

/-- **The thread pool and `prime_mt.cpp`.**  For every range both programs come to a
    count, and the counts are the same exactly if `range_end` is not a prime of the
    range. -/
theorem pool_count_agrees {range_start range_end : ℤ} (h : RangeOk range_start range_end)
    (hgo : range_start ≠ -1) :
    (∃ cnt_prime, pool_posts range_start range_end cnt_prime) ∧
    (∃ cnt_prime, mt_prints range_start range_end cnt_prime) ∧
    ∀ cnt_prime cnt_prime', pool_posts range_start range_end cnt_prime →
      mt_prints range_start range_end cnt_prime' →
      (cnt_prime = cnt_prime' ↔ ¬ (range_start ≤ range_end ∧ range_end.toNat.Prime)) := by
  refine ⟨⟨_, (pool_posts_iff h.start h.stop hgo).mpr rfl⟩, ⟨_, (mt_prints_iff h hgo).mpr rfl⟩, ?_⟩
  intro cnt_prime cnt_prime' hpost hprint
  rw [(pool_posts_iff h.start h.stop hgo).mp hpost, (mt_prints_iff h hgo).mp hprint,
    Int.natCast_inj, prime_count_last]
  split
  · next hlast => exact iff_of_false (by omega) (not_not.mpr hlast)
  · next hlast => exact iff_of_true (Nat.add_zero _).symm hlast

theorem pool_count_agrees_two_four :
    pool_posts 2 4 2 ∧ mt_prints 2 4 2 ∧ ¬ ((2 : ℤ) ≤ 4 ∧ Nat.Prime (4 : ℤ).toNat) := by
  have hrange : RangeOk 2 4 := ⟨by decide, by decide, by decide, by decide⟩
  have hpost : pool_posts 2 4 2 := (pool_posts_iff hrange.start hrange.stop (by decide)).mpr rfl
  have hprint : mt_prints 2 4 2 := by
    refine (mt_prints_iff hrange (by decide)).mpr ?_
    rw [prime_count_eq]
    rfl
  obtain ⟨-, -, hagrees⟩ := pool_count_agrees hrange (by decide)
  exact ⟨hpost, hprint, (hagrees 2 2 hpost hprint).mp rfl⟩

/-- For the range from 2 to 3 the pool does not count the 3. -/
theorem pool_misses_range_end : RangeOk 2 3 ∧ (2 : ℤ) ≠ -1 ∧
    (∀ cnt_prime, pool_posts 2 3 cnt_prime ↔ cnt_prime = 1) ∧
    (∀ cnt_prime, mt_prints 2 3 cnt_prime ↔ cnt_prime = 2) := by
  have hrange : RangeOk 2 3 := ⟨by decide, by decide, by decide, by decide⟩
  refine ⟨hrange, by decide, fun cnt_prime => ?_, fun cnt_prime => ?_⟩
  · exact pool_posts_iff hrange.start hrange.stop (by decide)
  · rw [mt_prints_iff hrange (by decide), prime_count_eq]
    rfl

end Lab07
