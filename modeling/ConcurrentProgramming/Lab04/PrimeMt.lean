import ConcurrentProgramming.Framework.ThreadWork
import ConcurrentProgramming.Framework.Transition
import ConcurrentProgramming.Lab04.PrimeSplit

/-! # Ten New Threads for Every Range (`prime_mt.cpp`)

    `main` reads a range, creates ten threads, joins them, and prints the sum of
    their counts.  One step is the input of a range, a `pthread_create`, a
    `pthread_join`, one addition to the sum, the counting of a thread, or its store to
    `thread_ret`.  Threads are assumed to be created.

    The threads read `range_start` and `range_end` without a lock.  This is sound:
    `main` reads the next range after the last join.  The state keeps, for the
    statements only, the ranges that have been read.
-/

namespace Lab04

open LTS CInt ThreadWork

/-! ## Section 1: Main and the threads -/

/-- Where `main` is. -/
inductive MtPoint where
  /-- At `scanf`. -/
  | read
  /-- At `pthread_create`. -/
  | create (i : ℕ)
  /-- At `pthread_join`. -/
  | join (i : ℕ)
  /-- At `cnt_prime += thread_ret[i]`. -/
  | collect (i : ℕ) (cnt_prime : ℤ)
  | ended
  deriving DecidableEq, Repr

/-- Where a thread is in `ThreadFunc`. -/
inductive MtWorker where
  | unborn
  /-- Before the range is split and the primes are counted. -/
  | count
  /-- At `thread_ret[tid] = cnt_prime`. -/
  | store (cnt_prime : ℕ)
  | returned
  deriving DecidableEq, Repr

structure MtState where
  range_start : ℤ
  range_end   : ℤ
  thread_ret  : ℕ → ℤ
  main        : MtPoint
  worker      : ℕ → MtWorker
  printed     : List ℤ
  ranges      : List (ℤ × ℤ)

/-- The next round of a loop over all threads, or its end. -/
def mt_next (i : ℕ) (again : ℕ → MtPoint) (after : MtPoint) : MtPoint :=
  if i + 1 < NUM_THREAD then again (i + 1) else after

namespace MtState

def start : MtState where
  range_start := 0
  range_end := 0
  thread_ret := fun _ => 0
  main := .read
  worker := fun _ => .unborn
  printed := []
  ranges := []

def range (s : MtState) : ℤ × ℤ := (s.range_start, s.range_end)

/-- One step of `main`; `input` is what `scanf` would read. -/
def main_step (s : MtState) (input : ℤ × ℤ) : Option MtState :=
  match s.main with
  | .read =>
      if input.1 = -1 then some { s with range_start := -1, main := .ended }
      else some { s with
        range_start := input.1
        range_end := input.2
        main := .create 0
        ranges := s.ranges ++ [input] }
  | .create i =>
      -- A thread gets its number only, and reads the range when it runs.
      some { s with
        main := mt_next i .create (.join 0)
        worker := Function.update s.worker i .count }
  | .join i =>
      if s.worker i = .returned then some { s with main := mt_next i .join (.collect 0 0) }
      else none
  | .collect i cnt_prime =>
      -- `cnt_prime` of `main` is an `int`, that of a thread is a `long`.
      let sum := to_int (cnt_prime + s.thread_ret i)
      if i + 1 < NUM_THREAD then some { s with main := .collect (i + 1) sum }
      else some { s with main := .read, printed := s.printed ++ [sum] }
  | .ended => none

/-- One step of thread `tid`. -/
def worker_step (s : MtState) (tid : ℕ) : Option MtState :=
  match s.worker tid with
  | .unborn => none
  | .count =>
      let cnt_prime := count_primes (piece_start s.range_start s.range_end tid)
        (piece_end s.range_start s.range_end tid)
      some { s with worker := Function.update s.worker tid (.store cnt_prime) }
  | .store cnt_prime =>
      some { s with
        worker := Function.update s.worker tid .returned
        thread_ret := Function.update s.thread_ret tid (to_int cnt_prime) }
  | .returned => none

end MtState

inductive MtLabel where
  | main (input : ℤ × ℤ)
  | worker (tid : ℕ)

/-- `main` and its threads, with any ranges as input. -/
def prime_mt : System MtState MtLabel where
  init := fun s => s = MtState.start
  step := fun s l s' =>
    match l with
    | .main input => is_int input.1 ∧ is_int input.2 ∧ s.main_step input = some s'
    | .worker tid => s.worker_step tid = some s'

/-! ## Section 2: The invariant -/

namespace MtPoint

/-- The threads below this number have been created for the range. -/
def created : MtPoint → ℕ
  | .read => 0
  | .create i => i
  | .join _ => NUM_THREAD
  | .collect _ _ => NUM_THREAD
  | .ended => 0

/-- The threads below this number have been joined. -/
def joined : MtPoint → ℕ
  | .join i => i
  | .collect _ _ => NUM_THREAD
  | _ => 0

/-- A range has been read and its sum has not been printed. -/
def in_round : MtPoint → Bool
  | .read => false
  | .ended => false
  | _ => true

/-- The loops run over the threads, and `cnt_prime` is the sum so far. -/
def loop_ok (range : ℤ × ℤ) : MtPoint → Prop
  | .create i => i < NUM_THREAD
  | .join i => i < NUM_THREAD
  | .collect i cnt_prime => i < NUM_THREAD ∧ cnt_prime = collected range i
  | _ => True

end MtPoint

/-- A thread that was created for the range stores the count of its piece. -/
def MtWorker.ok (range : ℤ × ℤ) (ret : ℤ) (tid : ℕ) : MtWorker → Prop
  | .unborn => False
  | .count => True
  | .store cnt_prime => to_int cnt_prime = thread_result range tid
  | .returned => ret = thread_result range tid

structure MtInv (s : MtState) : Prop where
  loop    : s.main.loop_ok s.range
  active  : ∀ i < s.main.created, (s.worker i).ok s.range (s.thread_ret i) i
  idle    : ∀ i, s.main.created ≤ i → s.worker i = .unborn ∨ s.worker i = .returned
  joined  : ∀ i < s.main.joined, s.worker i = .returned
  printed : ∃ done, s.printed = done.map (fun range => collected range NUM_THREAD) ∧
    s.ranges = if s.main.in_round then done ++ [s.range] else done

/-- Both ends of a loop step of `main`. -/
theorem mt_next_ind {P : MtPoint → Prop} {i : ℕ} {again : ℕ → MtPoint} {after : MtPoint}
    (hagain : i + 1 < NUM_THREAD → P (again (i + 1))) (hafter : NUM_THREAD ≤ i + 1 → P after) :
    P (mt_next i again after) := by
  unfold mt_next
  split
  · next hlt => exact hagain hlt
  · next hge => exact hafter (Nat.not_lt.mp hge)

namespace MtInv

variable {s s' : MtState}

/-- `main` is at a point where no thread works for it. -/
theorem of_idle (hloop : s.main.loop_ok s.range) (hcreated : s.main.created = 0)
    (hjoined : s.main.joined = 0) (hidle : ∀ i, s.worker i = .unborn ∨ s.worker i = .returned)
    (hprinted : ∃ done, s.printed = done.map (fun range => collected range NUM_THREAD) ∧
      s.ranges = if s.main.in_round then done ++ [s.range] else done) : MtInv s where
  loop := hloop
  active := by
    intro i hi
    rw [hcreated] at hi
    exact absurd hi (Nat.not_lt_zero i)
  idle := fun i _ => hidle i
  joined := by
    intro i hi
    rw [hjoined] at hi
    exact absurd hi (Nat.not_lt_zero i)
  printed := hprinted

theorem of_start : MtInv MtState.start :=
  of_idle trivial rfl rfl (fun _ => .inl rfl) ⟨[], rfl, rfl⟩

theorem all_idle (h : MtInv s) (hmain : s.main = .read) (i : ℕ) :
    s.worker i = .unborn ∨ s.worker i = .returned := by
  apply h.idle i
  rw [hmain]
  exact Nat.zero_le i

/-- All threads are idle: a range may be read. -/
theorem read (h : MtInv s) (hmain : s.main = .read) (input : ℤ × ℤ) :
    MtInv { s with
      range_start := input.1
      range_end := input.2
      main := .create 0
      ranges := s.ranges ++ [input] } := by
  obtain ⟨done, hprinted, hranges⟩ := h.printed
  rw [hmain] at hranges
  refine of_idle (Nat.zero_lt_succ _) rfl rfl (h.all_idle hmain) ⟨done, hprinted, ?_⟩
  show s.ranges ++ [input] = done ++ [input]
  rw [hranges]
  rfl

theorem finish (h : MtInv s) (hmain : s.main = .read) :
    MtInv { s with range_start := -1, main := .ended } := by
  obtain ⟨done, hprinted, hranges⟩ := h.printed
  rw [hmain] at hranges
  exact of_idle trivial rfl rfl (h.all_idle hmain) ⟨done, hprinted, hranges⟩

theorem create (h : MtInv s) {i : ℕ} (hmain : s.main = .create i) :
    MtInv { s with
      main := mt_next i .create (.join 0)
      worker := Function.update s.worker i .count } := by
  obtain ⟨hloop, hactive, hidle, -, done, hprinted, hranges⟩ := h
  rw [hmain] at hloop hactive hidle hranges
  -- In both cases the threads up to `i` have been created and none has been joined.
  have hnext : (mt_next i .create (.join 0)).loop_ok s.range ∧
      (mt_next i .create (.join 0)).created = i + 1 ∧
      (mt_next i .create (.join 0)).joined = 0 ∧
      (mt_next i .create (.join 0)).in_round = true := by
    apply mt_next_ind (P := fun pt => pt.loop_ok s.range ∧ pt.created = i + 1 ∧ pt.joined = 0 ∧
      pt.in_round = true)
    · exact fun hlt => ⟨hlt, rfl, rfl, rfl⟩
    · exact fun hge => ⟨Nat.zero_lt_succ _, Nat.le_antisymm hge hloop, rfl, rfl⟩
  obtain ⟨hloop', hcreated, hjoined, hround⟩ := hnext
  refine ⟨hloop', ?_, ?_, ?_, done, hprinted, ?_⟩
  · intro j hj
    simp only [hcreated] at hj
    by_cases heq : j = i
    · subst heq
      simp [MtWorker.ok]
    · simp only [Function.update_of_ne heq]
      exact hactive j (show j < i by omega)
  · intro j hj
    simp only [hcreated] at hj
    simp only [Function.update_of_ne (show j ≠ i by omega)]
    exact hidle j (show i ≤ j by omega)
  · intro j hj
    simp only [hjoined] at hj
    omega
  · rw [hranges]
    simp only [hround]
    rfl

theorem join (h : MtInv s) {i : ℕ} (hmain : s.main = .join i) (hworker : s.worker i = .returned) :
    MtInv { s with main := mt_next i .join (.collect 0 0) } := by
  obtain ⟨hloop, hactive, hidle, hjoined, done, hprinted, hranges⟩ := h
  rw [hmain] at hloop hactive hidle hjoined hranges
  have hnext : (mt_next i .join (.collect 0 0)).loop_ok s.range ∧
      (mt_next i .join (.collect 0 0)).created = NUM_THREAD ∧
      (mt_next i .join (.collect 0 0)).joined = i + 1 ∧
      (mt_next i .join (.collect 0 0)).in_round = true := by
    apply mt_next_ind (P := fun pt => pt.loop_ok s.range ∧ pt.created = NUM_THREAD ∧
      pt.joined = i + 1 ∧ pt.in_round = true)
    · exact fun hlt => ⟨hlt, rfl, rfl, rfl⟩
    · exact fun hge => ⟨⟨Nat.zero_lt_succ _, rfl⟩, rfl, Nat.le_antisymm hge hloop, rfl⟩
  obtain ⟨hloop', hcreated, hjoined', hround⟩ := hnext
  refine ⟨hloop', ?_, ?_, ?_, done, hprinted, ?_⟩
  · simp only [hcreated]
    exact hactive
  · simp only [hcreated]
    exact hidle
  · intro j hj
    simp only [hjoined'] at hj
    by_cases heq : j = i
    · rw [heq]
      exact hworker
    · exact hjoined j (show j < i by omega)
  · rw [hranges]
    simp only [hround]
    rfl

/-- One more count is added; it is that of a thread that has returned. -/
theorem added (h : MtInv s) {i : ℕ} {cnt_prime : ℤ} (hmain : s.main = .collect i cnt_prime) :
    i < NUM_THREAD ∧ to_int (cnt_prime + s.thread_ret i) = collected s.range (i + 1) := by
  obtain ⟨hloop, hactive, -, hjoined, -⟩ := h
  rw [hmain] at hloop hactive hjoined
  obtain ⟨hi, hcnt⟩ := hloop
  have hok := hactive i hi
  rw [hjoined i hi] at hok
  refine ⟨hi, ?_⟩
  rw [hcnt, collected, show s.thread_ret i = thread_result s.range i from hok]

theorem collect (h : MtInv s) {i : ℕ} {cnt_prime : ℤ} (hmain : s.main = .collect i cnt_prime)
    (hi : i + 1 < NUM_THREAD) :
    MtInv { s with main := .collect (i + 1) (to_int (cnt_prime + s.thread_ret i)) } := by
  obtain ⟨-, hsum⟩ := h.added hmain
  obtain ⟨-, hactive, hidle, hjoined, hprinted⟩ := h
  rw [hmain] at hactive hidle hjoined hprinted
  exact ⟨⟨hi, hsum⟩, hactive, hidle, hjoined, hprinted⟩

theorem print (h : MtInv s) {i : ℕ} {cnt_prime : ℤ} (hmain : s.main = .collect i cnt_prime)
    (hi : ¬ i + 1 < NUM_THREAD) :
    MtInv { s with
      main := .read
      printed := s.printed ++ [to_int (cnt_prime + s.thread_ret i)] } := by
  obtain ⟨hlt, hsum⟩ := h.added hmain
  obtain ⟨-, -, hidle, hjoined, done, hprinted, hranges⟩ := h
  rw [hmain] at hidle hjoined hranges
  refine of_idle trivial rfl rfl ?_ ⟨done ++ [s.range], ?_, ?_⟩
  · intro j
    by_cases hj : j < NUM_THREAD
    · exact .inr (hjoined j hj)
    · exact hidle j (Nat.not_lt.mp hj)
  · -- The last thread's count makes the sum complete.
    obtain rfl : i = 9 := by
      unfold NUM_THREAD at hi hlt
      omega
    show s.printed ++ _ = _
    rw [hsum, hprinted, List.map_append]
    rfl
  · exact hranges

theorem main_step (h : MtInv s) {input : ℤ × ℤ} (hstep : s.main_step input = some s') :
    MtInv s' := by
  unfold MtState.main_step at hstep
  split at hstep
  · next hmain =>
    split at hstep <;> cases hstep
    · exact h.finish hmain
    · exact h.read hmain input
  · next i hmain =>
    cases hstep
    exact h.create hmain
  · next i hmain =>
    split at hstep
    · next hworker =>
      cases hstep
      exact h.join hmain hworker
    · cases hstep
  · next i cnt_prime hmain =>
    simp only at hstep
    split at hstep <;> cases hstep
    · next hi => exact h.collect hmain hi
    · next hi => exact h.print hmain hi
  · cases hstep

/-- A thread that works was created for the range, and has not been joined. -/
theorem working (h : MtInv s) {tid : ℕ} (hborn : s.worker tid ≠ .unborn)
    (hwork : s.worker tid ≠ .returned) : tid < s.main.created ∧ s.main.joined ≤ tid := by
  constructor
  · by_contra hge
    rcases h.idle tid (Nat.not_lt.mp hge) with hidle | hidle
    · exact hborn hidle
    · exact hwork hidle
  · by_contra hlt
    exact hwork (h.joined tid (Nat.not_le.mp hlt))

/-- Thread `tid` goes on to `pt`. -/
theorem move (h : MtInv s) {tid : ℕ} (pt : MtWorker) (ret : ℤ)
    (hborn : s.worker tid ≠ .unborn) (hwork : s.worker tid ≠ .returned)
    (hok : pt.ok s.range ret tid) :
    MtInv { s with
      worker := Function.update s.worker tid pt
      thread_ret := Function.update s.thread_ret tid ret } := by
  obtain ⟨hcreated, hjoined⟩ := h.working hborn hwork
  refine ⟨h.loop, ?_, ?_, ?_, h.printed⟩
  · intro i hi
    by_cases heq : i = tid
    · subst heq
      simp only [Function.update_self]
      exact hok
    · simp only [Function.update_of_ne heq]
      exact h.active i hi
  · intro i hi
    change s.main.created ≤ i at hi
    simp only [Function.update_of_ne (show i ≠ tid by omega)]
    exact h.idle i hi
  · intro i hi
    change i < s.main.joined at hi
    simp only [Function.update_of_ne (show i ≠ tid by omega)]
    exact h.joined i hi

theorem worker_step (h : MtInv s) {tid : ℕ} (hstep : s.worker_step tid = some s') :
    MtInv s' := by
  unfold MtState.worker_step at hstep
  split at hstep
  · cases hstep
  · next hworker =>
    cases hstep
    have hmove := h.move (.store (count_primes (piece_start s.range_start s.range_end tid)
      (piece_end s.range_start s.range_end tid))) (s.thread_ret tid)
      (by simp [hworker]) (by simp [hworker]) rfl
    rwa [Function.update_eq_self] at hmove
  · next cnt_prime hworker =>
    cases hstep
    refine h.move .returned (to_int cnt_prime) (by simp [hworker]) (by simp [hworker]) ?_
    have hok := h.active tid (h.working (by simp [hworker]) (by simp [hworker])).1
    rw [hworker, MtWorker.ok] at hok
    rw [MtWorker.ok]
    exact hok
  · cases hstep

end MtInv

theorem mt_inv_reachable {s : MtState} (h : Reachable prime_mt s) : MtInv s := by
  apply h.invariant
  · intro s hinit
    rw [hinit]
    exact .of_start
  · intro s l s' _ hinv hstep
    cases l with
    | main input => exact hinv.main_step hstep.2.2
    | worker tid => exact hinv.worker_step hstep

/-! ## Section 3: Every round ends -/

/-- `main` does not wait for ever: whenever it is in a join, the thread is done or
    can go on. -/
theorem prime_mt_not_stuck {s : MtState} (h : Reachable prime_mt s) (hmain : s.main ≠ .ended) :
    ∃ l s', prime_mt.step s l s' := by
  have hinv := mt_inv_reachable h
  have hgo : (s.main_step (0, 0)).isSome → ∃ l s', prime_mt.step s l s' := by
    intro hsome
    obtain ⟨s', hs'⟩ := Option.isSome_iff_exists.mp hsome
    exact ⟨.main (0, 0), s', by decide, by decide, hs'⟩
  have hwork : ∀ tid, (s.worker_step tid).isSome → ∃ l s', prime_mt.step s l s' := by
    intro tid hsome
    obtain ⟨s', hs'⟩ := Option.isSome_iff_exists.mp hsome
    exact ⟨.worker tid, s', hs'⟩
  cases hpoint : s.main with
  | read => exact hgo (by simp [MtState.main_step, hpoint])
  | create i => exact hgo (by simp [MtState.main_step, hpoint])
  | join i =>
    have hi := hinv.loop
    have hok := hinv.active i
    rw [hpoint] at hi hok
    have hok := hok hi
    -- The thread was created for this range: it runs or it has returned.
    cases hworker : s.worker i with
    | unborn =>
      rw [hworker] at hok
      exact absurd hok id
    | count => exact hwork i (by simp [MtState.worker_step, hworker])
    | store cnt_prime => exact hwork i (by simp [MtState.worker_step, hworker])
    | returned => exact hgo (by simp [MtState.main_step, hpoint, hworker])
  | collect i cnt_prime =>
    apply hgo
    simp only [MtState.main_step, hpoint]
    split <;> rfl
  | ended => exact absurd hpoint hmain

/-- The steps a thread has before it. -/
def MtWorker.left : MtWorker → ℕ
  | .count => 2
  | .store _ => 1
  | _ => 0

/-- The steps `main` has before it in the round, with those of the threads it is
    going to create. -/
def MtPoint.left : MtPoint → ℕ
  | .create i => (NUM_THREAD - i) * 3 + NUM_THREAD * 2
  | .join i => (NUM_THREAD - i) + NUM_THREAD
  | .collect i _ => NUM_THREAD - i
  | _ => 0

/-- The steps to the end of the round. -/
def MtState.left (s : MtState) : ℕ :=
  s.main.left + ∑ i ∈ Finset.range NUM_THREAD, (s.worker i).left

theorem left_create {i : ℕ} (hi : i < NUM_THREAD) :
    (mt_next i .create (.join 0)).left + 3 = (MtPoint.create i).left ∧
      (mt_next i .create (.join 0)).in_round = true := by
  apply mt_next_ind (P := fun pt => pt.left + 3 = (MtPoint.create i).left ∧ pt.in_round = true)
  all_goals
    intro hnext
    refine ⟨?_, rfl⟩
    simp only [MtPoint.left]
    omega

theorem left_join {i : ℕ} (hi : i < NUM_THREAD) :
    (mt_next i .join (.collect 0 0)).left + 1 = (MtPoint.join i).left ∧
      (mt_next i .join (.collect 0 0)).in_round = true := by
  apply mt_next_ind (P := fun pt => pt.left + 1 = (MtPoint.join i).left ∧ pt.in_round = true)
  all_goals
    intro hnext
    refine ⟨?_, rfl⟩
    simp only [MtPoint.left]
    omega

namespace MtInv

variable {s s' : MtState}

/-- A step of `main` inside of a round is one step less to its end. -/
theorem left_main (h : MtInv s) (hround : s.main.in_round = true) {input : ℤ × ℤ}
    (hstep : s.main_step input = some s') : s'.left + 1 = s.left ∧ s'.ranges = s.ranges ∧
      (s'.main.in_round = true ∨ s'.main = .read) := by
  have hloop := h.loop
  unfold MtState.main_step at hstep
  split at hstep
  · next hmain => simp [hmain, MtPoint.in_round] at hround
  · next i hmain =>
    cases hstep
    rw [hmain] at hloop
    -- The new thread was idle and has two steps before it.
    have hsum := sum_update MtWorker.left s.worker (Finset.mem_range.mpr hloop) .count
    have hidle : (s.worker i).left = 0 := by
      rcases h.idle i (by rw [hmain]; exact Nat.le_refl i) with hw | hw <;> rw [hw] <;> rfl
    obtain ⟨hnext, hround'⟩ := left_create hloop
    change _ = _ + 2 at hsum
    refine ⟨?_, rfl, .inl hround'⟩
    simp only [MtState.left, hmain]
    omega
  · next i hmain =>
    rw [hmain] at hloop
    split at hstep <;> cases hstep
    obtain ⟨hnext, hround'⟩ := left_join hloop
    refine ⟨?_, rfl, .inl hround'⟩
    simp only [MtState.left, hmain]
    omega
  · next i cnt_prime hmain =>
    rw [hmain] at hloop
    have hi := hloop.1
    simp only at hstep
    split at hstep <;> cases hstep
    · refine ⟨?_, rfl, .inl rfl⟩
      simp only [MtState.left, hmain, MtPoint.left]
      omega
    · refine ⟨?_, rfl, .inr rfl⟩
      simp only [MtState.left, hmain, MtPoint.left]
      omega
  · cases hstep

theorem created_le (h : MtInv s) : s.main.created ≤ NUM_THREAD := by
  have hloop := h.loop
  cases hmain : s.main <;> rw [hmain] at hloop
  · exact Nat.zero_le _
  · exact Nat.le_of_lt hloop
  · exact Nat.le_refl _
  · exact Nat.le_refl _
  · exact Nat.zero_le _

theorem left_move (h : MtInv s) {tid : ℕ} (pt : MtWorker) (ret : ℕ → ℤ)
    (hborn : s.worker tid ≠ .unborn) (hwork : s.worker tid ≠ .returned)
    (hpt : pt.left + 1 = (s.worker tid).left) :
    MtState.left { s with
      worker := Function.update s.worker tid pt
      thread_ret := ret } + 1 = s.left := by
  have htid := Nat.lt_of_lt_of_le (h.working hborn hwork).1 h.created_le
  have hsum := sum_update MtWorker.left s.worker (Finset.mem_range.mpr htid) pt
  simp only [MtState.left]
  omega

theorem left_worker (h : MtInv s) {tid : ℕ} (hstep : s.worker_step tid = some s') :
    s'.left + 1 = s.left ∧ s'.ranges = s.ranges ∧ s'.main = s.main := by
  unfold MtState.worker_step at hstep
  split at hstep
  · cases hstep
  · next hworker =>
    cases hstep
    refine ⟨h.left_move _ s.thread_ret (by simp [hworker]) (by simp [hworker]) ?_, rfl, rfl⟩
    rw [hworker]
    rfl
  · next cnt_prime hworker =>
    cases hstep
    exact ⟨h.left_move _ _ (by simp [hworker]) (by simp [hworker]) (by rw [hworker]; rfl), rfl, rfl⟩
  · cases hstep

theorem round_step (h : MtInv s) (hround : s.main.in_round = true) {l : MtLabel}
    (hstep : prime_mt.step s l s') : s'.left + 1 = s.left ∧ s'.ranges = s.ranges ∧
      (s'.main.in_round = true ∨ s'.main = .read) := by
  cases l with
  | main input => exact h.left_main hround hstep.2.2
  | worker tid =>
    obtain ⟨hleft, hranges, hmain⟩ := h.left_worker hstep
    exact ⟨hleft, hranges, .inl (hmain ▸ hround)⟩

end MtInv

/-- A round ends, whatever the order of the steps: its steps are counted down, and
    there is always a next one. -/
theorem round_ends {s : MtState} (h : Reachable prime_mt s) (hround : s.main.in_round = true) :
    ∃ s', Reachable prime_mt s' ∧ s'.main = .read ∧ s'.ranges = s.ranges := by
  induction hn : s.left using Nat.strong_induction_on generalizing s with
  | _ n ih =>
    have hmain : s.main ≠ .ended := by
      intro hended
      rw [hended] at hround
      cases hround
    obtain ⟨l, s', hstep⟩ := prime_mt_not_stuck h hmain
    obtain ⟨hleft, hranges, hmain | hmain⟩ := (mt_inv_reachable h).round_step hround hstep
    · obtain ⟨s'', hs'', hread, hranges'⟩ := ih s'.left (by omega) (h.step hstep) hmain rfl
      exact ⟨s'', hs'', hread, hranges'.trans hranges⟩
    · exact ⟨s', h.step hstep, hmain, hranges⟩

/-! ## Section 4: What is printed -/

theorem printed_collected {s : MtState} (h : Reachable prime_mt s) {k : ℕ} {range : ℤ × ℤ}
    {cnt_prime : ℤ} (hrange : s.ranges[k]? = some range)
    (hprinted : s.printed[k]? = some cnt_prime) : cnt_prime = collected range NUM_THREAD := by
  obtain ⟨done, hmap, hranges⟩ := (mt_inv_reachable h).printed
  rw [hmap, List.getElem?_map, Option.map_eq_some_iff] at hprinted
  obtain ⟨range', hdone, rfl⟩ := hprinted
  -- The sums that have been printed are those of the first ranges.
  have hsame : s.ranges[k]? = some range' := by
    rw [hranges]
    split
    · exact List.getElem?_append_left (List.getElem?_eq_some_iff.mp hdone).1 ▸ hdone
    · exact hdone
  rw [Option.some.inj (hrange.symm.trans hsame)]

/-- When `main` reads, the sums of all ranges so far have been printed. -/
theorem printed_length {s : MtState} (h : Reachable prime_mt s) (hmain : s.main = .read) :
    s.printed.length = s.ranges.length := by
  obtain ⟨done, hmap, hranges⟩ := (mt_inv_reachable h).printed
  rw [hmain] at hranges
  rw [hmap, List.length_map, hranges]
  rfl

/-- For every range there is a run that prints its sum. -/
theorem prime_mt_prints {range_start range_end : ℤ} (hstart : is_int range_start)
    (hend : is_int range_end) (hgo : range_start ≠ -1) :
    ∃ s, Reachable prime_mt s ∧ s.main = .read ∧ s.ranges = [(range_start, range_end)] := by
  have hread : prime_mt.step .start (.main (range_start, range_end))
      ⟨range_start, range_end, fun _ => 0, .create 0, fun _ => .unborn, [],
        [(range_start, range_end)]⟩ := ⟨hstart, hend, if_neg hgo⟩
  have hfirst := (Reachable.init rfl : Reachable prime_mt _).step hread
  exact round_ends hfirst rfl

/-- **Splitting the range loses no prime and counts none twice.**  The counts of the
    ten threads add up to the number of primes in the range, and this is what `main`
    has printed for the range when it reads the next one. -/
theorem prime_mt_counts {range_start range_end : ℤ} (h : RangeOk range_start range_end) :
    ∑ tid ∈ Finset.range NUM_THREAD, thread_result (range_start, range_end) tid =
      prime_count range_start range_end ∧
    ∀ s, Reachable prime_mt s → s.main = .read → ∀ k : ℕ,
      s.ranges[k]? = some (range_start, range_end) →
      s.printed[k]? = some (prime_count range_start range_end : ℤ) := by
  refine ⟨sum_thread_result h, ?_⟩
  intro s hs hmain k hk
  have hlt : k < s.printed.length := by
    rw [printed_length hs hmain]
    exact (List.getElem?_eq_some_iff.mp hk).1
  have hprinted := List.getElem?_eq_getElem hlt
  rw [hprinted, printed_collected hs hk hprinted, collected_eq h]

theorem prime_mt_counts_two_three : prime_count 2 3 = 2 ∧
    ∃ s, Reachable prime_mt s ∧ s.printed[0]? = some (prime_count 2 3 : ℤ) := by
  have hrange : RangeOk 2 3 := ⟨by decide, by decide, by decide, by decide⟩
  obtain ⟨-, hprinted⟩ := prime_mt_counts hrange
  obtain ⟨s, hs, hmain, hranges⟩ := prime_mt_prints hrange.start hrange.stop (by decide)
  refine ⟨?_, s, hs, hprinted s hs hmain 0 (by rw [hranges]; rfl)⟩
  rw [prime_count_eq]
  rfl

end Lab04
