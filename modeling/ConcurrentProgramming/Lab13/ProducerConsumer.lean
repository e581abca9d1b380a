import ConcurrentProgramming.Framework.ClientHistory
import ConcurrentProgramming.Lab13.ConcurrentQueue

/-! # The Producers and the Consumers (`ProducerFunc`, `ConsumerFunc`, `main`)

    The two files have the same test program around different queues.  Every
    producer enqueues its own range of keys, the consumers mark the keys that they
    dequeue, and `main` checks at the end that every key is marked.

    `QueueCode` is what the program needs of a queue; `ticket_code` and
    `giant_code` are the two queues.  The program is a state machine over the
    queue, the local variables of the threads, the array and the position of
    `main`.  The trace of calls and returns is kept for the statements only.
-/

namespace Lab13

open LTS CInt Linearizability

/-! ## Section 1: The queue of a file -/

/-- A queue, with the calls that are going on. -/
structure QueueCode where
  State      : Type
  init_queue : State
  /-- Thread `p` calls `enqueue` or `dequeue`. -/
  call       : State → ℕ → Operation → State
  /-- One step in the call of thread `p`, and the result if the call returns. -/
  run        : State → ℕ → Option (State × Option (Option ℤ))

/-- The result with which the call returns in its next step. -/
def Point.returns : Point → Option (Option ℤ)
  | .finished result => some result
  | _ => none

/-- The queue of `concurrent_queue.cpp`. -/
def ticket_code : QueueCode where
  State := TicketQueue
  init_queue := ⟨fun _ => ⟨0, 0⟩, 0, 0, fun _ => none, 0, []⟩
  call := TicketQueue.start
  run := fun s p => (s.thread p).map fun c => (s.run p c, c.point.returns)

/-- A call of a function of `concurrent_queue_giant.cpp`. -/
structure GiantCall where
  op     : Operation
  /-- What the call returns, when it has left the loop. -/
  result : Option (Option ℤ)
  deriving DecidableEq, Repr

structure GiantThreads where
  shared : GiantQueue
  thread : ℕ → Option GiantCall

namespace GiantThreads

/-- The critical section of an operation; `none` if the loop goes on. -/
def attempt (q : GiantQueue) (op : Operation) : Option (GiantQueue × Option ℤ) :=
  match op with
  | .enqueue key => (q.enqueue key).map fun q' => (q', none)
  | .dequeue => q.dequeue.map fun d => (d.2, some d.1)

def run (s : GiantThreads) (p : ℕ) : Option (GiantThreads × Option (Option ℤ)) :=
  (s.thread p).map fun c =>
    match c.result with
    | some result => ({ s with thread := Function.update s.thread p none }, some result)
    | none =>
      match attempt s.shared c.op with
      | none => (s, none)
      | some (q, result) =>
          (⟨q, Function.update s.thread p (some { c with result := some result })⟩, none)

end GiantThreads

/-- The queue of `concurrent_queue_giant.cpp`. -/
def giant_code : QueueCode where
  State := GiantThreads
  init_queue := ⟨.init_queue, fun _ => none⟩
  call := fun s p op => { s with thread := Function.update s.thread p (some ⟨op, none⟩) }
  run := GiantThreads.run

inductive SourceFile where
  | concurrent_queue
  | concurrent_queue_giant
  deriving DecidableEq, Repr

def SourceFile.code : SourceFile → QueueCode
  | .concurrent_queue => ticket_code
  | .concurrent_queue_giant => giant_code

/-! ## Section 2: Threads that use the queue -/

def Operation.is_enqueue : Operation → Bool
  | .enqueue _ => true
  | .dequeue => false

def Operation.is_dequeue : Operation → Bool
  | .enqueue _ => false
  | .dequeue => true

/-- The queue, the ids of the calls that are going on, and the trace. -/
structure ClientState (code : QueueCode) where
  queue : code.State
  busy  : ℕ → Option ℕ
  calls : ℕ
  trace : List (ℕ × Event Operation (Option ℤ))

namespace ClientState

variable {code : QueueCode}

def call (c : ClientState code) (p : ℕ) (op : Operation) : ClientState code where
  queue := code.call c.queue p op
  busy := Function.update c.busy p (some c.calls)
  calls := c.calls + 1
  trace := c.trace ++ [(p, .call c.calls op)]

/-- The call `id` of thread `p` returns `result`. -/
def return_call (c : ClientState code) (p id : ℕ) (result : Option ℤ) (queue : code.State) :
    ClientState code where
  queue := queue
  busy := Function.update c.busy p none
  calls := c.calls
  trace := c.trace ++ [(p, .ret id result)]

def run (c : ClientState code) (p : ℕ) : Option (ClientState code × Option (Option ℤ)) :=
  match c.busy p, code.run c.queue p with
  | some _, some (queue, none) => some ({ c with queue := queue }, none)
  | some id, some (queue, some result) => some (c.return_call p id result queue, some result)
  | _, _ => none

/-- The enqueues that were started. -/
def enqueues (c : ClientState code) : ℕ :=
  (c.trace.map Prod.snd).countP (Event.is_call Operation.is_enqueue)

/-- The dequeues that were started. -/
def dequeues (c : ClientState code) : ℕ :=
  (c.trace.map Prod.snd).countP (Event.is_call Operation.is_dequeue)

end ClientState

/-- Any number of threads that call the functions of the file. -/
def client_threads (code : QueueCode) : System (ClientState code) (ℕ × ThreadStep) where
  init := fun c => c = ⟨code.init_queue, fun _ => none, 0, []⟩
  step := fun c (p, l) c' =>
    match l with
    | .call op => c.busy p = none ∧ c' = c.call p op
    | .run => ∃ result, c.run p = some (c', result)

/-! ## Section 3: The program -/

/-- The `#define`s that both files have. -/
structure Workload where
  NUM_PRODUCER             : ℕ
  NUM_ENQUEUE_PER_PRODUCER : ℕ

namespace Workload

def NUM_CONSUMER (w : Workload) : ℕ := w.NUM_PRODUCER

def NUM_THREADS (w : Workload) : ℕ := w.NUM_PRODUCER + w.NUM_CONSUMER

def NUM_DEQUEUE_PER_CONSUMER (w : Workload) : ℕ := w.NUM_ENQUEUE_PER_PRODUCER

/-- The size of `flag_verification`. -/
def keys (w : Workload) : ℕ := w.NUM_PRODUCER * w.NUM_ENQUEUE_PER_PRODUCER

end Workload

/-- Where a thread is. -/
inductive WorkerPoint where
  | unborn
  /-- At the test of the loop. -/
  | loop
  /-- In `enqueue` or `dequeue`. -/
  | inside
  /-- At `flag_verification[key_dequeue] = true`. -/
  | mark (key_dequeue : ℤ)
  | returned
  deriving DecidableEq, Repr

structure WorkerState where
  i           : ℕ
  key_enqueue : ℤ
  point       : WorkerPoint
  deriving DecidableEq, Repr

/-- Where `main` is. -/
inductive MainPoint where
  | create (i : ℕ)
  | join (i : ℕ)
  | verify (i : ℕ)
  | ended
  deriving DecidableEq, Repr

inductive Verdict where
  /-- `CORRECT!` -/
  | correct
  /-- `INCORRECT!` -/
  | incorrect
  deriving DecidableEq, Repr

structure Program (code : QueueCode) where
  clients           : ClientState code
  worker            : ℕ → WorkerState
  flag_verification : ℤ → Bool
  /-- Has an element outside `flag_verification` been written? -/
  out_of_bounds     : Bool
  main              : MainPoint
  printed           : Option Verdict

inductive Actor where
  | main
  | thread (tid : ℕ)
  deriving DecidableEq, Repr

namespace Program

variable {code : QueueCode}

def set_worker (s : Program code) (tid : ℕ) (t : WorkerState) : Program code :=
  { s with worker := Function.update s.worker tid t }

/-- A step of a producer; `none` if it has no step. -/
def ProducerFunc (w : Workload) (s : Program code) (tid : ℕ) : Option (Program code) :=
  let t := s.worker tid
  match t.point with
  | .loop =>
      if t.i < w.NUM_ENQUEUE_PER_PRODUCER then
        some { s.set_worker tid { t with point := .inside } with
          clients := s.clients.call tid (.enqueue t.key_enqueue) }
      else some (s.set_worker tid { t with point := .returned })
  | .inside =>
      (s.clients.run tid).map fun step =>
        match step.2 with
        | none => { s with clients := step.1 }
        | some _ =>
            { s.set_worker tid ⟨t.i + 1, to_int (t.key_enqueue + 1), .loop⟩ with
              clients := step.1 }
  | _ => none

/-- A step of a consumer. -/
def ConsumerFunc (w : Workload) (s : Program code) (tid : ℕ) : Option (Program code) :=
  let t := s.worker tid
  match t.point with
  | .loop =>
      if t.i < w.NUM_DEQUEUE_PER_CONSUMER then
        some { s.set_worker tid { t with point := .inside } with
          clients := s.clients.call tid .dequeue }
      else some (s.set_worker tid { t with point := .returned })
  | .inside =>
      (s.clients.run tid).bind fun step =>
        match step.2 with
        | none => some { s with clients := step.1 }
        | some (some key_dequeue) =>
            some { s.set_worker tid { t with point := .mark key_dequeue } with clients := step.1 }
        -- `dequeue` returns an `int`.
        | some none => none
  | .mark key_dequeue =>
      some { s.set_worker tid { t with i := t.i + 1, point := .loop } with
        flag_verification := Function.update s.flag_verification key_dequeue true
        out_of_bounds := s.out_of_bounds || !(0 ≤ key_dequeue ∧ key_dequeue < w.keys) }
  | _ => none

/-- A new thread. -/
def start_worker (w : Workload) (tid : ℕ) : WorkerState :=
  if tid < w.NUM_PRODUCER then ⟨0, to_int (w.NUM_ENQUEUE_PER_PRODUCER * tid), .loop⟩
  else ⟨0, 0, .loop⟩

def main_step (w : Workload) (s : Program code) : Option (Program code) :=
  match s.main with
  | .create i =>
      if i < w.NUM_THREADS then
        some { s.set_worker i (start_worker w i) with main := .create (i + 1) }
      else some { s with main := .join 0 }
  | .join i =>
      if i < w.NUM_THREADS then
        if (s.worker i).point = .returned then some { s with main := .join (i + 1) } else none
      else some { s with main := .verify 0 }
  | .verify i =>
      if i < w.keys then
        if s.flag_verification i = false then
          some { s with printed := some .incorrect, main := .ended }
        else some { s with main := .verify (i + 1) }
      else some { s with printed := some .correct, main := .ended }
  | .ended => none

def next (w : Workload) (s : Program code) : Actor → Option (Program code)
  | .main => s.main_step w
  | .thread tid => if tid < w.NUM_PRODUCER then s.ProducerFunc w tid else s.ConsumerFunc w tid

/-- The state in which `main` starts. -/
def initial : Program code where
  clients := ⟨code.init_queue, fun _ => none, 0, []⟩
  worker := fun _ => ⟨0, 0, .unborn⟩
  flag_verification := fun _ => false
  out_of_bounds := false
  main := .create 0
  printed := none

end Program

/-- The runs of the program. -/
def executions (code : QueueCode) (w : Workload) : System (Program code) Actor where
  init := fun s => s = .initial
  step := fun s a s' => s.next w a = some s'

/-- The keys that the consumers have received so far. -/
def received (T : List (ℕ × Event Operation (Option ℤ))) : List ℤ :=
  T.filterMap fun e => match e.2 with
    | .ret _ result => result
    | .call _ _ => none

/-- The keys that thread `tid` has received so far. -/
def received_by (tid : ℕ) (T : List (ℕ × Event Operation (Option ℤ))) : List ℤ :=
  received (T.filter fun e => e.1 = tid)

end Lab13
