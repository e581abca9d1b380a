import ConcurrentProgramming.Framework.Transition
import Mathlib.Data.Nat.Notation
import Mathlib.Logic.Function.Basic

/-! # The CLH Lock (`prac_CLH_lock.cpp`)

    A queue lock.  `*tail` is the node of the thread that came last.  `lock`
    allocates a node, puts it into `*tail` by an atomic swap and spins on the
    node that was there before, that of its predecessor, until it is false.
    `unlock` frees the node of the predecessor and then sets its own node to
    false.  So a node is freed by another thread than the one that allocated it.

    A step of a thread is one access to a node, to `*tail` or to `cnt_global`.
    `nodes[tid]` is accessed by thread `tid` alone and is kept with its local
    variables.  `calloc` may return any address that is not allocated, also one
    that was freed before.  An access to a node that is not allocated is undefined
    and has no result.

    The state keeps, for the statements only, the order of the swaps and the order
    in which `lock` returned.
-/

namespace Lab10

open LTS

abbrev NULL : ℕ := 0

/-- Where a thread is in `Work`. -/
inductive Point where
  /-- At `my_node = calloc(..)` in `lock`. -/
  | calloc
  /-- At `*my_node = true`. -/
  | set_true
  /-- At `my_pred = __sync_lock_test_and_set(tail, my_node)`. -/
  | swap
  /-- At `while (*my_pred == true)`. -/
  | spin
  /-- At the load of `cnt_global++`. -/
  | load_count
  /-- At the store of `cnt_global++`. -/
  | store_count (count : BitVec 32)
  /-- At `free(my_pred)` in `unlock`. -/
  | free_pred
  /-- At `my_pred = nullptr`. -/
  | clear_pred
  /-- At `*my_node = false`. -/
  | release
  /-- `Work` has returned. -/
  | returned
  deriving DecidableEq, Repr

/-- `nodes[tid]` and the loop counter of `Work`. -/
structure Thread where
  my_node : ℕ
  my_pred : ℕ
  i       : ℕ
  point   : Point
  deriving DecidableEq, Repr

structure ClhState where
  /-- The allocated nodes. -/
  mem        : ℕ → Option Bool
  /-- The pointer `*tail`. -/
  tail       : ℕ
  thread     : ℕ → Thread
  cnt_global : BitVec 32
  printed    : Option (BitVec 32)
  swaps      : List ℕ
  entered    : List ℕ

/-- The test `i < NUM_WORK` of the loop in `Work`. -/
def loop_point (num_work i : ℕ) : Point := if i < num_work then .calloc else .returned

namespace ClhState

def set_thread (s : ClhState) (tid : ℕ) (th : Thread) : ClhState :=
  { s with thread := Function.update s.thread tid th }

/-- `*a = value`. -/
def write (s : ClhState) (a : ℕ) (value : Bool) : Option ClhState :=
  (s.mem a).map fun _ => { s with mem := Function.update s.mem a (some value) }

/-- One step of thread `tid`; `fresh` is the address that `calloc` returns. -/
def run (num_work : ℕ) (s : ClhState) (tid fresh : ℕ) : Option ClhState :=
  let th := s.thread tid
  match th.point with
  | .calloc =>
      if fresh ≠ NULL ∧ s.mem fresh = none then
        some { s.set_thread tid { th with my_node := fresh, point := .set_true } with
          mem := Function.update s.mem fresh (some false) }
      else none
  | .set_true =>
      (s.write th.my_node true).map fun s' => s'.set_thread tid { th with point := .swap }
  | .swap =>
      some { s.set_thread tid { th with my_pred := s.tail, point := .spin } with
        tail := th.my_node
        swaps := s.swaps ++ [tid] }
  | .spin => (s.mem th.my_pred).map fun value =>
      if value then s
      else { s.set_thread tid { th with point := .load_count } with entered := s.entered ++ [tid] }
  | .load_count => some (s.set_thread tid { th with point := .store_count s.cnt_global })
  | .store_count count =>
      some { s.set_thread tid { th with point := .free_pred } with cnt_global := count + 1 }
  | .free_pred => (s.mem th.my_pred).map fun _ =>
      { s.set_thread tid { th with point := .clear_pred } with
        mem := Function.update s.mem th.my_pred none }
  | .clear_pred => some (s.set_thread tid { th with my_pred := NULL, point := .release })
  | .release => (s.write th.my_node false).map fun s' =>
      s'.set_thread tid { th with i := th.i + 1, point := loop_point num_work (th.i + 1) }
  | .returned => none

/-- `main` has joined all threads: it prints the counter and frees the last node. -/
def finish (s : ClhState) : ClhState :=
  { s with
    mem := Function.update s.mem s.tail none
    printed := some s.cnt_global }

end ClhState

/-- The lock before the threads start; `main` has allocated the node `a`. -/
def initial (num_thread num_work a : ℕ) : ClhState where
  mem := Function.update (fun _ => none) a (some false)
  tail := a
  thread := fun tid =>
    ⟨NULL, NULL, 0, if tid < num_thread then loop_point num_work 0 else .returned⟩
  cnt_global := 0
  printed := none
  swaps := []
  entered := []

inductive Label where
  | thread (tid fresh : ℕ)
  | main

/-- `num_thread` threads that lock and unlock `num_work` times each. -/
def clh (num_thread num_work : ℕ) : System ClhState Label where
  init := fun s => ∃ a, a ≠ NULL ∧ s = initial num_thread num_work a
  step := fun s l s' =>
    match l with
    | .thread tid fresh => s.run num_work tid fresh = some s'
    | .main => s.printed = none ∧ (∀ tid, (s.thread tid).point = .returned) ∧
        s.mem s.tail ≠ none ∧ s' = s.finish

end Lab10
