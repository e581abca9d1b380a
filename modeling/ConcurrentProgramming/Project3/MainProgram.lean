import ConcurrentProgramming.Project3.SplitRegisters

/-! # The Program of Project 3 (`main.cc`)

    Every thread updates its own register with 1, 2, 3, … and counts its updates,
    until `main` has slept and sets `end`.  Then `main` joins the threads one after the
    other, adds up their counts and prints the sum.

    The registers are those of `SplitRegisters.lean`: every load and every store of a
    word is a step.  `main` may sleep as long as it likes, and a thread that was not
    yet created is one that has not yet taken a step.
-/

namespace Project3.Program

open LTS

variable {n : ℕ}

/-- Where a thread is in `thread_func`. -/
inductive ThreadPoint where
  /-- At `while (end == false)`. -/
  | test
  /-- In `ss->update(value, tid)`. -/
  | update
  /-- At `num_of_update[tid]++`. -/
  | count
  | returned
  deriving DecidableEq, Repr

/-- Where `main` is after it has created the threads. -/
inductive MainPoint where
  | sleep
  /-- At `pthread_join(threads[i], nullptr)`; after the last one at the output. -/
  | join (i : ℕ)
  | returned
  deriving DecidableEq, Repr

/-- The snapshot object, the variables of the threads, and those of `main`.  The
    variable `end` is called `stop`. -/
structure State (n : ℕ) where
  ss                : Split.SnapshotState n
  value             : Fin n → T
  num_of_update     : Fin n → T
  thread            : Fin n → ThreadPoint
  stop              : Bool
  main              : MainPoint
  sum_of_update_num : T
  output            : Option String

namespace State

/-- `main` before it sleeps: `new WFSnapshot_t(num_of_threads, 0)`, and counts that
    `calloc` has set to zero. -/
def start (n : ℕ) : State n :=
  ⟨.start n 0, fun _ => 0, fun _ => 0, fun _ => .test, false, .sleep, 0, none⟩

def set_thread (s : State n) (tid : Fin n) (pt : ThreadPoint) : State n :=
  { s with thread := Function.update s.thread tid pt }

/-- The call `ss->update(++value, tid)`. -/
def call_update (s : State n) (tid : Fin n) : State n :=
  { s.set_thread tid .update with
    ss := s.ss.set_caller tid.val
      (.update (s.value tid + 1) tid (.new s.ss.history.now))
    value := Function.update s.value tid (s.value tid + 1) }

/-- The snapshot object after a step of thread `tid`; if its update has returned, the
    thread goes on to count it. -/
def set_object (s : State n) (tid : Fin n) (ss : Split.SnapshotState n) : State n :=
  { s with
    ss := ss
    thread :=
      if (ss.caller tid.val).is_idle then Function.update s.thread tid .count else s.thread }

/-- One step of `thread_func`. -/
def run_thread (s : State n) (tid : Fin n) : Option (State n) :=
  match s.thread tid with
  | .test => if s.stop then some (s.set_thread tid .returned) else some (s.call_update tid)
  | .update => (s.ss.run tid.val).map (s.set_object tid)
  | .count => some { s.set_thread tid .test with
      num_of_update := Function.update s.num_of_update tid (s.num_of_update tid + 1) }
  | .returned => none

/-- `std::cout << "update : " << sum_of_update_num << std::endl`. -/
def line (sum_of_update_num : T) : String :=
  "update : " ++ toString sum_of_update_num.toInt ++ "\n"

/-- One step of `main`; a join waits until the thread has returned. -/
def run_main (s : State n) : Option (State n) :=
  match s.main with
  | .sleep => some { s with
      stop := true
      main := .join 0 }
  | .join i =>
      if h : i < n then
        if s.thread ⟨i, h⟩ = .returned then
          some { s with
            sum_of_update_num := s.sum_of_update_num + s.num_of_update ⟨i, h⟩
            main := .join (i + 1) }
        else none
      else some { s with
        output := some (line s.sum_of_update_num)
        main := .returned }
  | .returned => none

/-- One step: of the thread with the given number, or of `main`. -/
def perform (s : State n) : Option (Fin n) → Option (State n)
  | some tid => s.run_thread tid
  | none => s.run_main

end State

/-- The runs of `main.cc` with `n` threads. -/
def executions (n : ℕ) : System (State n) (Option (Fin n)) where
  init := fun s => s = .start n
  step := fun s l s' => s.perform l = some s'

end Project3.Program
