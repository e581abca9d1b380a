import ConcurrentProgramming.Framework.CInt
import ConcurrentProgramming.Framework.Transition
import ConcurrentProgramming.Framework.Linearizability
import Mathlib.Logic.Function.Basic
import Mathlib.Algebra.Group.Nat.Defs
import Mathlib.Algebra.Group.Int.Defs

/-! # Two Bounded Queues (`concurrent_queue_giant.cpp`, `concurrent_queue.cpp`)

    The first queue takes one lock for every operation.  The second one has no
    lock: an operation takes a ticket, waits for its turn at the slot
    `ticket % QUEUE_SIZE`, and passes the slot on by increasing its `flag`.

    A step of the ticket queue is the fetch-and-add, one load of `flag` in the
    spin condition, one load or store of `key`, the load or the store of
    `flag++`, or the return of a call.  The state keeps, for the statements only,
    the history of calls and returns.
-/

namespace Lab13

open LTS CInt Linearizability

abbrev QUEUE_SIZE : ℕ := 1024

inductive Operation where
  | enqueue (key : ℤ)
  | dequeue
  deriving DecidableEq, Repr

/-! ## Section 1: The queue with a giant lock -/

/-- The shared variables; `front` and `rear` are `uint64_t`. -/
structure GiantQueue where
  queue : ℕ → ℤ
  front : ℕ
  rear  : ℕ

namespace GiantQueue

def init_queue : GiantQueue := ⟨fun _ => 0, 0, 0⟩

/-- The critical section of `enqueue`; `none` if the queue is full and the loop
    goes on. -/
def enqueue (q : GiantQueue) (key : ℤ) : Option GiantQueue :=
  if q.rear ≥ (q.front + QUEUE_SIZE) % 2 ^ 64 then none
  else some { q with
    queue := Function.update q.queue (q.rear % QUEUE_SIZE) key
    rear := (q.rear + 1) % 2 ^ 64 }

/-- The critical section of `dequeue`; `none` if the queue is empty. -/
def dequeue (q : GiantQueue) : Option (ℤ × GiantQueue) :=
  if q.rear = q.front then none
  else some (q.queue (q.front % QUEUE_SIZE), { q with front := (q.front + 1) % 2 ^ 64 })

end GiantQueue

/-- The runs of critical sections.  `enqueue` returns nothing. -/
def giant : Object GiantQueue Operation (Option ℤ) where
  init := .init_queue
  step := fun q op result q' =>
    match op with
    | .enqueue key => result = none ∧ q.enqueue key = some q'
    | .dequeue => ∃ ret_key, result = some ret_key ∧ q.dequeue = some (ret_key, q')

/-! ## Section 2: The ticket queue -/

structure QueueNode where
  key  : ℤ
  flag : ℤ

/-- `int idx = ticket % QUEUE_SIZE`. -/
def idx (ticket : ℤ) : ℤ := Int.tmod ticket QUEUE_SIZE

/-- `int round = ticket / QUEUE_SIZE`. -/
def round (ticket : ℤ) : ℤ := Int.tdiv ticket QUEUE_SIZE

/-- Where a call is. -/
inductive Point where
  | take_ticket
  /-- At the load of `queue[idx].flag & 1`. -/
  | load_parity (ticket : ℤ)
  /-- At the second load of `queue[idx].flag`. -/
  | load_round (ticket : ℤ)
  /-- At the store or at the load of `queue[idx].key`. -/
  | access_key (ticket : ℤ)
  /-- At `queue[idx].key = 0` in `dequeue`. -/
  | clear_key (ticket ret_key : ℤ)
  /-- At the load of `queue[idx].flag++`. -/
  | load_flag (ticket : ℤ) (result : Option ℤ)
  /-- At the store of `queue[idx].flag++`. -/
  | store_flag (ticket : ℤ) (result : Option ℤ) (flag : ℤ)
  | finished (result : Option ℤ)
  deriving DecidableEq, Repr

structure Call where
  id    : ℕ
  op    : Operation
  point : Point
  deriving DecidableEq, Repr

/-- The shared variables, the threads, and the history. -/
structure TicketQueue where
  queue   : ℤ → QueueNode
  front   : ℕ
  rear    : ℕ
  thread  : ℕ → Option Call
  calls   : ℕ
  history : List (Event Operation (Option ℤ))

namespace TicketQueue

/-- Thread `p` goes on at `pt`. -/
def go (s : TicketQueue) (p : ℕ) (c : Call) (pt : Point) : TicketQueue :=
  { s with thread := Function.update s.thread p (some { c with point := pt }) }

def set_node (s : TicketQueue) (i : ℤ) (node : QueueNode) : TicketQueue :=
  { s with queue := Function.update s.queue i node }

/-- Thread `p` calls an operation. -/
def start (s : TicketQueue) (p : ℕ) (op : Operation) : TicketQueue :=
  { s with
    thread := Function.update s.thread p (some ⟨s.calls, op, .take_ticket⟩)
    calls := s.calls + 1
    history := s.history ++ [.call s.calls op] }

/-- The call of thread `p` returns. -/
def return_call (s : TicketQueue) (p : ℕ) (c : Call) (result : Option ℤ) : TicketQueue :=
  { s with
    thread := Function.update s.thread p none
    history := s.history ++ [.ret c.id result] }

/-- `__sync_fetch_and_add(&rear, 1)` in `enqueue`, `&front` in `dequeue`. -/
def take_ticket (s : TicketQueue) (p : ℕ) (c : Call) : TicketQueue :=
  match c.op with
  | .enqueue _ =>
      { s.go p c (.load_parity (to_int s.rear)) with rear := (s.rear + 1) % 2 ^ 64 }
  | .dequeue =>
      { s.go p c (.load_parity (to_int s.front)) with front := (s.front + 1) % 2 ^ 64 }

/-- Is `(flag & 1) == 1` in `enqueue`, `(flag & 1) == 0` in `dequeue`? -/
def wrong_parity (op : Operation) (flag : ℤ) : Bool :=
  match op with
  | .enqueue _ => flag % 2 = 1
  | .dequeue => flag % 2 = 0

/-- The value that `flag` is compared with. -/
def wanted (op : Operation) (ticket : ℤ) : ℤ :=
  match op with
  | .enqueue _ => to_int (round ticket * 2)
  | .dequeue => to_int (to_int (round ticket * 2) + 1)

/-- One step of thread `p` inside the call `c`. -/
def run (s : TicketQueue) (p : ℕ) (c : Call) : TicketQueue :=
  match c.point with
  | .take_ticket => s.take_ticket p c
  | .load_parity t =>
      if wrong_parity c.op (s.queue (idx t)).flag then s.go p c (.load_parity t)
      else s.go p c (.load_round t)
  | .load_round t =>
      if (s.queue (idx t)).flag ≠ wanted c.op t then s.go p c (.load_parity t)
      else s.go p c (.access_key t)
  | .access_key t =>
      match c.op with
      | .enqueue key =>
          (s.set_node (idx t) { s.queue (idx t) with key := key }).go p c (.load_flag t none)
      | .dequeue => s.go p c (.clear_key t (s.queue (idx t)).key)
  | .clear_key t ret_key =>
      (s.set_node (idx t) { s.queue (idx t) with key := 0 }).go p c (.load_flag t (some ret_key))
  | .load_flag t result => s.go p c (.store_flag t result (s.queue (idx t)).flag)
  | .store_flag t result flag =>
      (s.set_node (idx t) { s.queue (idx t) with flag := to_int (flag + 1) }).go p c
        (.finished result)
  | .finished result => s.return_call p c result

end TicketQueue

inductive ThreadStep where
  | call (op : Operation)
  | run
  deriving DecidableEq, Repr

/-- Any number of threads that call `enqueue` and `dequeue`. -/
def ticket_threads : System TicketQueue (ℕ × ThreadStep) where
  init := fun s => s = ⟨fun _ => ⟨0, 0⟩, 0, 0, fun _ => none, 0, []⟩
  step := fun s (p, l) s' =>
    match l with
    | .call op => s.thread p = none ∧ s' = s.start p op
    | .run => ∃ c, s.thread p = some c ∧ s' = s.run p c

/-- The enqueues that were started. -/
def TicketQueue.enqueues (s : TicketQueue) : ℕ :=
  s.history.countP fun e => match e with
    | .call _ (.enqueue _) => true
    | _ => false

/-- The dequeues that were started. -/
def TicketQueue.dequeues (s : TicketQueue) : ℕ :=
  s.history.countP fun e => match e with
    | .call _ .dequeue => true
    | _ => false

end Lab13
