import ConcurrentProgramming.Framework.Transition
import ConcurrentProgramming.Lab11.NodeHeap

/-! # The Optimistic List (`optimistic.cpp`)

    An operation walks through the list without locks, locks the two nodes it has
    found, and calls `list_validate` to see whether they are still neighbours.  If
    they are not, it unlocks them and starts again.

    The loop of `list_add` has no `break` behind the insertion, unlike that of
    `list_remove`: after linking its node, `list_add` goes through the loop again.
    It leaves the loop only if it finds its key in the list, and then it returns
    `false`.

    A step of a thread locks or unlocks one mutex, or makes one access to a
    pointer.  Nodes are never freed.  The state keeps, for the statements only,
    the history of calls and returns and how often each call has linked its node.
-/

namespace Lab11.Optimistic

open LTS CInt Linearizability

/-- Where a call is.  `prev`, `curr` and `it` are the local variables of the
    source. -/
inductive Point where
  /-- At `malloc` in `list_add`. -/
  | malloc
  /-- At `prev = head; curr = head->next`. -/
  | load_first
  /-- At `while (curr->key < key)`. -/
  | test (prev curr : ℕ)
  /-- At `prev = curr; curr = curr->next`. -/
  | advance (curr : ℕ)
  /-- At `pthread_mutex_lock(&prev->mutex)`. -/
  | lock_prev (prev curr : ℕ)
  /-- At `pthread_mutex_lock(&curr->mutex)`. -/
  | lock_curr (prev curr : ℕ)
  /-- In the loop of `list_validate(prev, curr)`. -/
  | validate (prev curr it : ℕ)
  /-- At the comparison of `curr->key` with `key`. -/
  | check (prev curr : ℕ)
  /-- At `node->next = curr`. -/
  | set_next (prev curr : ℕ)
  /-- At `prev->next = node`. -/
  | link (prev curr : ℕ)
  /-- At the load of `prev->next = curr->next`. -/
  | load_next (prev curr : ℕ)
  /-- At the store of `prev->next = curr->next`. -/
  | unlink (prev curr : ℕ) (next : Option ℕ)
  /-- At `pthread_mutex_unlock(&prev->mutex)`; without a `result` the loop goes
      on. -/
  | unlock_prev (prev curr : ℕ) (result : Option Bool)
  /-- At `pthread_mutex_unlock(&curr->mutex)`. -/
  | unlock_curr (curr : ℕ) (result : Option Bool)
  | finished (result : Bool)
  deriving DecidableEq, Repr

/-- A call in progress; `node` is the local variable of `list_add`. -/
structure Call where
  id    : ℕ
  op    : Operation
  node  : ℕ
  point : Point
  deriving DecidableEq, Repr

structure ListState where
  heap    : Heap
  thread  : ℕ → Option Call
  calls   : ℕ
  history : List (Event Operation Bool)
  /-- How often `prev->next = node` was executed in a call. -/
  links   : ℕ → ℕ

namespace ListState

/-- Thread `p` goes on at `pt`, with the memory `h`. -/
def go (s : ListState) (p : ℕ) (c : Call) (h : Lab11.Heap) (pt : Point) : ListState :=
  { s with
    heap := h
    thread := Function.update s.thread p (some { c with point := pt }) }

/-- Where a call begins: only `list_add` allocates a node. -/
def first_point (op : Operation) : Point :=
  match op with
  | .add _ => .malloc
  | .remove _ => .load_first
  | .contains _ => .load_first

/-- Thread `p` calls an operation. -/
def start (s : ListState) (p : ℕ) (op : Operation) : ListState :=
  { s with
    thread := Function.update s.thread p (some ⟨s.calls, op, head, first_point op⟩)
    calls := s.calls + 1
    history := s.history ++ [.call s.calls op] }

/-- The call of thread `p` returns. -/
def return_call (s : ListState) (p : ℕ) (c : Call) (result : Bool) : ListState :=
  { s with
    thread := Function.update s.thread p none
    history := s.history ++ [.ret c.id result] }

/-- One round of the loop of `list_validate(prev, curr)` with the variable `it`. -/
def list_validate (h : Lab11.Heap) (prev curr it : ℕ) : Option Point :=
  match h it, h prev with
  | some i, some n =>
      if i.key ≤ n.key then
        if it = prev then
          some (if i.next = some curr then .check prev curr else .unlock_prev prev curr none)
        else i.next.map (.validate prev curr)
      else some (.unlock_prev prev curr none)
  | _, _ => none

/-- Where a call goes on after the comparison with `curr->key`. -/
def after_check (op : Operation) (prev curr : ℕ) (found : Bool) : Point :=
  match op with
  | .add _ => if found then .unlock_prev prev curr (some false) else .set_next prev curr
  | .remove _ => if found then .load_next prev curr else .unlock_prev prev curr (some false)
  | .contains _ => .unlock_prev prev curr (some found)

/-- Where a call goes on after the last unlock. -/
def after_unlock (result : Option Bool) : Point :=
  match result with
  | some r => .finished r
  | none => .load_first

/-- One step of thread `p` inside the call `c`; `fresh` is the address that
    `malloc` returns. -/
def run (s : ListState) (p : ℕ) (c : Call) (fresh : ℕ) : Option ListState :=
  match c.point with
  | .malloc => (s.heap.malloc fresh c.op.key).map fun h =>
      s.go p { c with node := fresh } h .load_first
  | .load_first => (s.heap.next head).map fun curr => s.go p c s.heap (.test head curr)
  | .test prev curr => (s.heap curr).map fun n =>
      s.go p c s.heap (if n.key < c.op.key then .advance curr else .lock_prev prev curr)
  | .advance curr => (s.heap.next curr).map fun next => s.go p c s.heap (.test curr next)
  | .lock_prev prev curr => (s.heap.lock p prev).map fun h => s.go p c h (.lock_curr prev curr)
  | .lock_curr prev curr => (s.heap.lock p curr).map fun h =>
      s.go p c h (.validate prev curr head)
  | .validate prev curr it => (list_validate s.heap prev curr it).map fun pt => s.go p c s.heap pt
  | .check prev curr => (s.heap curr).map fun n =>
      s.go p c s.heap (after_check c.op prev curr (n.key = c.op.key))
  | .set_next prev curr => (s.heap.store_next c.node (some curr)).map fun h =>
      s.go p c h (.link prev curr)
  | .link prev curr => (s.heap.store_next prev (some c.node)).map fun h =>
      { s.go p c h (.unlock_prev prev curr none) with
        links := Function.update s.links c.id (s.links c.id + 1) }
  | .load_next prev curr => (s.heap curr).map fun n =>
      s.go p c s.heap (.unlink prev curr n.next)
  | .unlink prev curr next => (s.heap.store_next prev next).map fun h =>
      s.go p c h (.unlock_prev prev curr (some true))
  | .unlock_prev prev curr result => (s.heap.unlock p prev).map fun h =>
      s.go p c h (.unlock_curr curr result)
  | .unlock_curr curr result => (s.heap.unlock p curr).map fun h =>
      s.go p c h (after_unlock result)
  | .finished result => some (s.return_call p c result)

end ListState

inductive ThreadStep where
  | call (op : Operation)
  | run (fresh : ℕ)
  deriving DecidableEq, Repr

/-- The list before the first call. -/
def initial : ListState := ⟨list_init, fun _ => none, 0, [], fun _ => 0⟩

/-- Any number of threads that call operations with keys below `INT_MAX`. -/
def list_threads : System ListState (ℕ × ThreadStep) where
  init := fun s => s = initial
  step := fun s (p, l) s' =>
    match l with
    | .call op => s.thread p = none ∧ op.in_range ∧ s' = s.start p op
    | .run fresh => ∃ c, s.thread p = some c ∧ s.run p c fresh = some s'

/-- In its next step the call leaves `list_validate` with `true`. -/
def Call.validates (c : Call) (h : Heap) : Bool :=
  match c.point with
  | .validate prev curr it => it = prev ∧ h.next prev = some curr
  | _ => false

/-- The call that moves has not linked its node yet, or `list_validate` does not
    let it pass once more. -/
def links_once (s : ListState) (l : ℕ × ThreadStep) : Prop :=
  ∀ c, s.thread l.1 = some c → 0 < s.links c.id → c.validates s.heap = false

end Lab11.Optimistic
