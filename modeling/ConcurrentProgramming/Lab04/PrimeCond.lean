import ConcurrentProgramming.Framework.Transition
import ConcurrentProgramming.Lab04.PrimeCount
import Mathlib.Logic.Function.Basic

/-! # A Pool of Sleeping Threads (`prime_cond.cpp`)

    `main` creates ten threads, which sleep on a condition variable.  For every range
    it sets `thread_ret[i]` to `-1`, wakes all threads by a broadcast, and spins until
    every thread has stored its count.  A thread stores its count inside of the
    critical section in which it goes to sleep again.

    One step is a mutex or condition call, an access to `thread_ret` or to
    `finished`, the input of a range, or the counting of a thread.
    `pthread_cond_wait` returns only after a broadcast.  An unlock or a wait without
    the mutex is undefined and has no result.

    The state keeps, for the statements only, the ranges that have been read.
-/

namespace Lab04

open LTS CInt

/-! ## Section 1: Main and the threads -/

/-- Where `main` is; `last` is set for the broadcast after `finished = 1`. -/
inductive MainPoint where
  /-- At `pthread_create`. -/
  | create (i : ℕ)
  /-- At `scanf`. -/
  | read
  /-- At `thread_ret[i] = -1`. -/
  | reset (i : ℕ)
  /-- At `finished = 1`. -/
  | finish
  /-- At `pthread_mutex_lock(&mutex)`. -/
  | lock (last : Bool)
  /-- At `pthread_cond_broadcast(&cond)`. -/
  | broadcast (last : Bool)
  /-- At `pthread_mutex_unlock(&mutex)`. -/
  | unlock (last : Bool)
  /-- At `while (thread_ret[i] == -1)`. -/
  | spin (i : ℕ)
  /-- At `cnt_prime += thread_ret[i]`. -/
  | collect (i : ℕ) (cnt_prime : ℤ)
  /-- At `pthread_join`. -/
  | join (i : ℕ)
  | ended
  deriving DecidableEq, Repr

/-- Where a thread is in `ThreadFunc`. -/
inductive WorkerPoint where
  /-- The thread has not been created. -/
  | unborn
  /-- At the first `pthread_mutex_lock(&mutex)`. -/
  | first_lock
  /-- At `pthread_cond_wait`, with the mutex. -/
  | wait
  | asleep
  /-- Woken up, waiting for the mutex. -/
  | woken
  /-- At `pthread_mutex_unlock(&mutex)`. -/
  | unlock
  /-- At `while (!finished)`. -/
  | test
  /-- Before the range is split and the primes are counted. -/
  | count
  /-- At `pthread_mutex_lock(&mutex)` after the count. -/
  | lock (cnt_prime : ℕ)
  /-- At `thread_ret[tid] = cnt_prime`. -/
  | store (cnt_prime : ℕ)
  | returned
  deriving DecidableEq, Repr

inductive Owner where
  | main
  | worker (tid : ℕ)
  deriving DecidableEq, Repr

structure Pool where
  range_start : ℤ
  range_end   : ℤ
  finished    : Bool
  mutex       : Option Owner
  thread_ret  : ℕ → ℤ
  main        : MainPoint
  worker      : ℕ → WorkerPoint
  printed     : List ℤ
  ranges      : List (ℤ × ℤ)

/-! ## Section 2: The steps -/

/-- `pthread_cond_broadcast` for one thread: without a sleeper it has no effect. -/
def WorkerPoint.signal : WorkerPoint → WorkerPoint
  | .asleep => .woken
  | pt => pt

/-- The next round of a loop over all threads, or its end. -/
def loop_next (i : ℕ) (again : ℕ → MainPoint) (after : MainPoint) : MainPoint :=
  if i + 1 < NUM_THREAD then again (i + 1) else after

namespace Pool

/-- The state before `main` creates the threads. -/
def start : Pool where
  range_start := 0
  range_end := 0
  finished := false
  mutex := none
  thread_ret := fun _ => 0
  main := .create 0
  worker := fun _ => .unborn
  printed := []
  ranges := []

def go (s : Pool) (pt : MainPoint) : Pool := { s with main := pt }

/-- One step of `main`; `input` is what `scanf` would read. -/
def main_step (s : Pool) (input : ℤ × ℤ) : Option Pool :=
  match s.main with
  | .create i =>
      some { s.go (loop_next i .create .read) with
        worker := Function.update s.worker i .first_lock }
  | .read =>
      if input.1 = -1 then some { s.go .finish with range_start := -1 }
      else some { s.go (.reset 0) with
        range_start := input.1
        range_end := input.2
        ranges := s.ranges ++ [input] }
  | .reset i =>
      some { s.go (loop_next i .reset (.lock false)) with
        thread_ret := Function.update s.thread_ret i (-1) }
  | .finish => some { s.go (.lock true) with finished := true }
  | .lock last =>
      if s.mutex = none then some { s.go (.broadcast last) with mutex := some .main } else none
  | .broadcast last =>
      some { s.go (.unlock last) with worker := fun i => (s.worker i).signal }
  | .unlock last =>
      if s.mutex = some .main then
        some { s.go (if last then .join 0 else .spin 0) with mutex := none }
      else none
  | .spin i =>
      some (if s.thread_ret i = -1 then s else s.go (loop_next i .spin (.collect 0 0)))
  | .collect i cnt_prime =>
      let sum := to_int (cnt_prime + s.thread_ret i)
      if i + 1 < NUM_THREAD then some (s.go (.collect (i + 1) sum))
      else some { s.go .read with printed := s.printed ++ [sum] }
  | .join i => if s.worker i = .returned then some (s.go (loop_next i .join .ended)) else none
  | .ended => none

/-- One step of thread `tid`: where it goes on, the mutex and `thread_ret[tid]`. -/
def worker_move (s : Pool) (tid : ℕ) : Option (WorkerPoint × Option Owner × ℤ) :=
  match s.worker tid with
  | .unborn => none
  | .first_lock =>
      if s.mutex = none then some (.wait, some (.worker tid), s.thread_ret tid) else none
  | .wait =>
      if s.mutex = some (.worker tid) then some (.asleep, none, s.thread_ret tid) else none
  | .asleep => none
  | .woken =>
      if s.mutex = none then some (.unlock, some (.worker tid), s.thread_ret tid) else none
  | .unlock =>
      if s.mutex = some (.worker tid) then some (.test, none, s.thread_ret tid) else none
  | .test => some (if s.finished then .returned else .count, s.mutex, s.thread_ret tid)
  | .count =>
      let cnt_prime := count_primes (piece_start s.range_start s.range_end tid)
        (piece_end s.range_start s.range_end tid)
      some (.lock cnt_prime, s.mutex, s.thread_ret tid)
  | .lock cnt_prime =>
      if s.mutex = none then some (.store cnt_prime, some (.worker tid), s.thread_ret tid)
      else none
  | .store cnt_prime => some (.wait, s.mutex, to_int cnt_prime)
  | .returned => none

/-- The state after a step of thread `tid`. -/
def moved (s : Pool) (tid : ℕ) (pt : WorkerPoint) (mutex : Option Owner) (ret : ℤ) : Pool :=
  { s with
    worker := Function.update s.worker tid pt
    mutex := mutex
    thread_ret := Function.update s.thread_ret tid ret }

end Pool

inductive Label where
  | main (input : ℤ × ℤ)
  | worker (tid : ℕ)

/-- `main` and ten threads, with any ranges as input. -/
def prime_pool : System Pool Label where
  init := fun s => s = Pool.start
  step := fun s l s' =>
    match l with
    | .main input => is_int input.1 ∧ is_int input.2 ∧ s.main_step input = some s'
    | .worker tid => ∃ pt mutex ret, s.worker_move tid = some (pt, mutex, ret) ∧
        s' = s.moved tid pt mutex ret

/-- `main` spins on `thread_ret[i]`, which is `-1`, and thread `i` sleeps. -/
def lost_round (s : Pool) (i : ℕ) : Prop :=
  s.main = .spin i ∧ s.thread_ret i = -1 ∧ s.worker i = .asleep

/-- The thread has come to its first `pthread_cond_wait`. -/
def WorkerPoint.started : WorkerPoint → Bool
  | .unborn => false
  | .first_lock => false
  | _ => true

/-- `main` makes its broadcast for a range only when all threads have come to their
    first `pthread_cond_wait`. -/
def ready (s : Pool) (l : Label) : Prop :=
  match l with
  | .main _ => s.main = .broadcast false → ∀ i < NUM_THREAD, (s.worker i).started = true
  | .worker _ => True

instance (s : Pool) (l : Label) : Decidable (ready s l) :=
  match l with
  | .main _ => inferInstanceAs
      (Decidable (s.main = .broadcast false → ∀ i < NUM_THREAD, (s.worker i).started = true))
  | .worker _ => isTrue trivial

end Lab04
