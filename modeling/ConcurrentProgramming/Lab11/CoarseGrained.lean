import ConcurrentProgramming.Framework.Transition
import ConcurrentProgramming.Lab11.NodeHeap

/-! # The Coarse-Grained List (`coarse_grained.cpp`)

    A sorted list behind one giant lock.  Unlike in the other two lists,
    `list_add` does not look for its key first: it always links a node, and always
    returns `true`.  `list_remove` removes the first node with its key.

    `malloc` is called before the mutex is locked, and `free` after it is
    unlocked.  The nodes of this list have no mutex; the field `mutex` of `Node`
    is not used.

    A thread executes its part of the workload, `thread_work[tid]`, one operation
    after another.  The state keeps, for the statements only, the results that
    `ThreadFunc` throws away.
-/

namespace Lab11.Coarse

open LTS

/-- Where a call is.  `prev` and `curr` are the local variables of the source;
    `list_contains` does without `prev`. -/
inductive Point where
  /-- At `malloc` in `list_add`. -/
  | malloc
  /-- At `pthread_mutex_lock(&mutex)`. -/
  | lock
  /-- At `prev = head; curr = head->next`. -/
  | load_first
  /-- At `while (curr->key < key)`. -/
  | test (prev curr : ℕ)
  /-- At `prev = curr; curr = curr->next`. -/
  | advance (curr : ℕ)
  /-- At `prev->next = node`. -/
  | link (prev curr : ℕ)
  /-- At `node->next = curr`. -/
  | set_next (prev curr : ℕ)
  /-- At the comparison of `curr->key` with `key` after the loop. -/
  | check (prev curr : ℕ)
  /-- At the load of `prev->next = curr->next`. -/
  | load_next (prev curr : ℕ)
  /-- At the store of `prev->next = curr->next`. -/
  | unlink (prev curr : ℕ) (next : Option ℕ)
  /-- At `pthread_mutex_unlock(&mutex)`; `garbage` is the node to be freed. -/
  | unlock (garbage : Option ℕ) (result : Bool)
  /-- At `free(curr)`. -/
  | free (a : ℕ) (result : Bool)
  | finished (result : Bool)
  deriving DecidableEq, Repr

/-- A call in progress; `node` is the local variable of `list_add`. -/
structure Call where
  op    : Operation
  node  : ℕ
  point : Point
  deriving DecidableEq, Repr

structure ListState where
  heap     : Heap
  /-- The giant lock. -/
  mutex    : Option ℕ
  thread   : ℕ → Option Call
  /-- The loop variable `i` of `ThreadFunc`. -/
  i        : ℕ → ℕ
  returned : ℕ → List Bool

namespace ListState

/-- Thread `p` goes on at `pt`, with the memory `h`. -/
def go (s : ListState) (p : ℕ) (c : Call) (h : Lab11.Heap) (pt : Point) : ListState :=
  { s with
    heap := h
    thread := Function.update s.thread p (some { c with point := pt }) }

/-- Where a call begins: only `list_add` allocates a node. -/
def first_point (op : Operation) : Point :=
  match op with
  | .add _ => .malloc
  | .remove _ => .lock
  | .contains _ => .lock

/-- Thread `p` calls an operation. -/
def start (s : ListState) (p : ℕ) (op : Operation) : ListState :=
  { s with
    thread := Function.update s.thread p (some ⟨op, head, first_point op⟩)
    i := Function.update s.i p (s.i p + 1) }

/-- The call of thread `p` returns. -/
def return_call (s : ListState) (p : ℕ) (result : Bool) : ListState :=
  { s with
    thread := Function.update s.thread p none
    returned := Function.update s.returned p (s.returned p ++ [result]) }

/-- Where a call goes on after the loop. -/
def after_loop (op : Operation) (prev curr : ℕ) : Point :=
  match op with
  | .add _ => .link prev curr
  | .remove _ => .check prev curr
  | .contains _ => .check prev curr

/-- Where `list_remove` and `list_contains` go on after the comparison with
    `curr->key`. -/
def after_check (op : Operation) (prev curr : ℕ) (found : Bool) : Point :=
  match op with
  | .remove _ => if found then .load_next prev curr else .unlock none false
  | _ => .unlock none found

/-- Where a call goes on after the unlock. -/
def after_unlock (garbage : Option ℕ) (result : Bool) : Point :=
  match garbage with
  | some a => .free a result
  | none => .finished result

/-- One step of thread `p` inside the call `c`; `fresh` is the address that
    `malloc` returns. -/
def run (s : ListState) (p : ℕ) (c : Call) (fresh : ℕ) : Option ListState :=
  match c.point with
  | .malloc => (s.heap.malloc fresh c.op.key).map fun h => s.go p { c with node := fresh } h .lock
  | .lock =>
      if s.mutex = none then some { s.go p c s.heap .load_first with mutex := some p } else none
  | .load_first => (s.heap.next head).map fun curr => s.go p c s.heap (.test head curr)
  | .test prev curr => (s.heap curr).map fun n =>
      s.go p c s.heap (if n.key < c.op.key then .advance curr else after_loop c.op prev curr)
  | .advance curr => (s.heap.next curr).map fun next => s.go p c s.heap (.test curr next)
  | .link prev curr => (s.heap.store_next prev (some c.node)).map fun h =>
      s.go p c h (.set_next prev curr)
  | .set_next _ curr => (s.heap.store_next c.node (some curr)).map fun h =>
      s.go p c h (.unlock none true)
  | .check prev curr => (s.heap curr).map fun n =>
      s.go p c s.heap (after_check c.op prev curr (n.key = c.op.key))
  | .load_next prev curr => (s.heap curr).map fun n =>
      s.go p c s.heap (.unlink prev curr n.next)
  | .unlink prev curr next => (s.heap.store_next prev next).map fun h =>
      s.go p c h (.unlock (some curr) true)
  | .unlock garbage result =>
      if s.mutex = some p then
        some { s.go p c s.heap (after_unlock garbage result) with mutex := none }
      else none
  | .free a result => (s.heap.free a).map fun h => s.go p c h (.finished result)
  | .finished result => some (s.return_call p result)

end ListState

inductive ThreadStep where
  | call
  | run (fresh : ℕ)
  deriving DecidableEq, Repr

/-- The list before the first call. -/
def initial : ListState := ⟨list_init, none, fun _ => none, fun _ => 0, fun _ => []⟩

/-- The threads below `n` execute the operations of `thread_work` in order. -/
def list_threads (n : ℕ) (thread_work : ℕ → List Operation) :
    System ListState (ℕ × ThreadStep) where
  init := fun s => s = initial
  step := fun s (p, l) s' =>
    match l with
    | .call => p < n ∧ s.thread p = none ∧
        ∃ op, (thread_work p)[s.i p]? = some op ∧ s' = s.start p op
    | .run fresh => ∃ c, s.thread p = some c ∧ s.run p c fresh = some s'

/-- The threads have executed everything. -/
def ListState.finished (s : ListState) (n : ℕ) (thread_work : ℕ → List Operation) : Prop :=
  ∀ p < n, s.thread p = none ∧ s.i p = (thread_work p).length

end Lab11.Coarse
