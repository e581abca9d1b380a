import ConcurrentProgramming.Framework.Transition
import ConcurrentProgramming.Lab11.NodeHeap

/-! # The Fine-Grained List (`fine_grained.cpp`)

    A sorted list in which every node has its own mutex.  An operation walks
    hand over hand: it holds the mutexes of two neighbours, releases the first
    one and locks the next node.

    A step of a thread locks or unlocks one mutex, or makes one access to a
    pointer or a key.  `malloc` may return any address that is not allocated, also
    one that was freed before.  The state keeps, for the statements only, the
    history of calls and returns.
-/

namespace Lab11.Fine

open LTS CInt Linearizability

/-- Where a call is.  `prev` and `curr` are the local variables of the source,
    and `result` is the value that will be returned. -/
inductive Point where
  /-- At `malloc` in `list_add`. -/
  | malloc
  /-- At `pthread_mutex_lock(&prev->mutex)` with `prev = head`. -/
  | lock_head
  /-- At `curr = head->next`. -/
  | load_first
  /-- At `pthread_mutex_lock(&curr->mutex)`. -/
  | lock_curr (prev curr : ℕ)
  /-- At `while (curr->key < key)`. -/
  | test (prev curr : ℕ)
  /-- At `pthread_mutex_unlock(&prev->mutex)` in the loop. -/
  | unlock_prev (prev curr : ℕ)
  /-- At `prev = curr; curr = curr->next`. -/
  | advance (curr : ℕ)
  /-- At the comparison of `curr->key` with `key` after the loop. -/
  | check (prev curr : ℕ)
  /-- At `prev->next = node`. -/
  | link (prev curr : ℕ)
  /-- At `node->next = curr`. -/
  | set_next (prev curr : ℕ)
  /-- At the load of `prev->next = curr->next`. -/
  | load_next (prev curr : ℕ)
  /-- At the store of `prev->next = curr->next`. -/
  | unlink (prev curr : ℕ) (next : Option ℕ)
  /-- At the last `pthread_mutex_unlock(&prev->mutex)`. -/
  | unlock_both (prev curr : ℕ) (result : Bool)
  /-- At the last `pthread_mutex_unlock(&curr->mutex)`. -/
  | unlock_curr (curr : ℕ) (result : Bool)
  /-- At `free(node)` or `free(curr)`. -/
  | free (a : ℕ) (result : Bool)
  | finished (result : Bool)
  deriving DecidableEq, Repr

/-- A call in progress; `node` is the local variable of `list_add`. -/
structure Call where
  id    : ℕ
  op    : Operation
  node  : ℕ
  point : Point
  deriving DecidableEq, Repr

structure ListState where
  heap    : Heap
  thread  : ℕ → Option Call
  calls   : ℕ
  history : List (Event Operation Bool)

namespace ListState

/-- Thread `p` goes on at `pt`, with the memory `h`. -/
def go (s : ListState) (p : ℕ) (c : Call) (h : Lab11.Heap) (pt : Point) : ListState :=
  { s with
    heap := h
    thread := Function.update s.thread p (some { c with point := pt }) }

/-- Where a call begins: only `list_add` allocates a node. -/
def first_point (op : Operation) : Point :=
  match op with
  | .add _ => .malloc
  | .remove _ => .lock_head
  | .contains _ => .lock_head

/-- Thread `p` calls an operation. -/
def start (s : ListState) (p : ℕ) (op : Operation) : ListState :=
  { s with
    thread := Function.update s.thread p (some ⟨s.calls, op, head, first_point op⟩)
    calls := s.calls + 1
    history := s.history ++ [.call s.calls op] }

/-- The call of thread `p` returns. -/
def return_call (s : ListState) (p : ℕ) (c : Call) (result : Bool) : ListState :=
  { s with
    thread := Function.update s.thread p none
    history := s.history ++ [.ret c.id result] }

/-- Where a call goes on after the comparison with `curr->key`. -/
def after_check (op : Operation) (prev curr : ℕ) (found : Bool) : Point :=
  match op with
  | .add _ => if found then .unlock_both prev curr false else .link prev curr
  | .remove _ => if found then .load_next prev curr else .unlock_both prev curr false
  | .contains _ => .unlock_both prev curr found

/-- Where a call goes on after the last unlock: `list_add` frees the node that
    it did not link, `list_remove` the node that it unlinked. -/
def after_unlock (c : Call) (curr : ℕ) (result : Bool) : Point :=
  match c.op, result with
  | .add _, false => .free c.node false
  | .remove _, true => .free curr true
  | _, result => .finished result

/-- One step of thread `p` inside the call `c`; `fresh` is the address that
    `malloc` returns. -/
def run (s : ListState) (p : ℕ) (c : Call) (fresh : ℕ) : Option ListState :=
  match c.point with
  | .malloc => (s.heap.malloc fresh c.op.key).map fun h =>
      s.go p { c with node := fresh } h .lock_head
  | .lock_head => (s.heap.lock p head).map fun h => s.go p c h .load_first
  | .load_first => (s.heap.next head).map fun curr => s.go p c s.heap (.lock_curr head curr)
  | .lock_curr prev curr => (s.heap.lock p curr).map fun h => s.go p c h (.test prev curr)
  | .test prev curr => (s.heap curr).map fun n =>
      s.go p c s.heap (if n.key < c.op.key then .unlock_prev prev curr else .check prev curr)
  | .unlock_prev prev curr => (s.heap.unlock p prev).map fun h => s.go p c h (.advance curr)
  | .advance curr => (s.heap.next curr).map fun next => s.go p c s.heap (.lock_curr curr next)
  | .check prev curr => (s.heap curr).map fun n =>
      s.go p c s.heap (after_check c.op prev curr (n.key = c.op.key))
  | .link prev curr => (s.heap.store_next prev (some c.node)).map fun h =>
      s.go p c h (.set_next prev curr)
  | .set_next prev curr => (s.heap.store_next c.node (some curr)).map fun h =>
      s.go p c h (.unlock_both prev curr true)
  | .load_next prev curr => (s.heap curr).map fun n =>
      s.go p c s.heap (.unlink prev curr n.next)
  | .unlink prev curr next => (s.heap.store_next prev next).map fun h =>
      s.go p c h (.unlock_both prev curr true)
  | .unlock_both prev curr result => (s.heap.unlock p prev).map fun h =>
      s.go p c h (.unlock_curr curr result)
  | .unlock_curr curr result => (s.heap.unlock p curr).map fun h =>
      s.go p c h (after_unlock c curr result)
  | .free a result => (s.heap.free a).map fun h => s.go p c h (.finished result)
  | .finished result => some (s.return_call p c result)

end ListState

inductive ThreadStep where
  | call (op : Operation)
  | run (fresh : ℕ)
  deriving DecidableEq, Repr

/-- The list before the first call. -/
def initial : ListState := ⟨list_init, fun _ => none, 0, []⟩

/-- Any number of threads that call operations with keys below `INT_MAX`. -/
def list_threads : System ListState (ℕ × ThreadStep) where
  init := fun s => s = initial
  step := fun s (p, l) s' =>
    match l with
    | .call op => s.thread p = none ∧ op.in_range ∧ s' = s.start p op
    | .run fresh => ∃ c, s.thread p = some c ∧ s.run p c fresh = some s'

end Lab11.Fine
