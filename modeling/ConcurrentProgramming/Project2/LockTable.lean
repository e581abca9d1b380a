import ConcurrentProgramming.Project2.DirectedGraph
import Mathlib.Logic.Function.Basic

/-! # The Reader-Writer Lock Table (`rw_lock_table.cc`)

    One lock per record.  Each record has a queue of requests in arrival order,
    a status and a reader count; the wait-for graph is shared by all records.

    A call that has to sleep is cut at `pthread_cond_wait`: `rdlock` and
    `wrlock` run up to the first wait or to the return, `rdlock_awake` and
    `wrlock_awake` run from the return of a wait to the next wait or to the
    return of the call.  Everything between two such points happens inside
    `global_mutex` and is one call here.

    Every `assert` of the source is modelled, with the text of its expression.
-/

namespace Project2

/-! ## Section 1: Data -/

/-- `phase_t`. -/
inductive phase_t where
  | INVALID | READ | FIRST_WRITE | SECOND_WRITE | COMMIT
  deriving DecidableEq, Repr

/-- `wait_q_elem_t`: a thread id and the phase it requests the lock in. -/
structure wait_q_elem_t where
  tid : ℕ
  current_phase : phase_t
  deriving DecidableEq, Repr

/-- `rw_lock_status_t`. -/
inductive rw_lock_status_t where
  | RW_INVALID | RW_UNLOCK | RW_READER_LOCK | RW_WRITER_LOCK
  deriving DecidableEq, Repr

/-- A condition variable that at most one thread, its owner, waits on. -/
inductive CondVar where
  /-- The owner is not inside `pthread_cond_wait`. -/
  | idle
  /-- The owner sleeps and was not signalled since it went to sleep. -/
  | waiting
  /-- The owner sleeps and was signalled since. -/
  | signalled
  deriving DecidableEq, Repr

/-- `rw_lock_table`.  Arrays are total functions; only record ids below `R` and
    thread ids below `N` are ever used. -/
structure rw_lock_table where
  table : ℕ → rw_lock_status_t
  readers_count : ℕ → UInt32
  record_wait_queues : ℕ → List wait_q_elem_t
  cond_var : ℕ → CondVar
  wait_for_graph : directed_graph

/-- How far a call got: it returned, or it sleeps in `pthread_cond_wait`. -/
inductive CallResult where
  | returned (acquired : Bool)
  | asleep
  deriving DecidableEq, Repr

namespace rw_lock_table

/-- The constructor, for `N` thread ids. -/
def init (N : ℕ) : rw_lock_table where
  table := fun _ => .RW_UNLOCK
  readers_count := fun _ => 0
  record_wait_queues := fun _ => []
  cond_var := fun _ => .idle
  wait_for_graph := directed_graph.empty N

/-- The queue of a record is replaced. -/
def set_queue (lt : rw_lock_table) (record_id : ℕ) (q : List wait_q_elem_t) : rw_lock_table :=
  { lt with record_wait_queues := Function.update lt.record_wait_queues record_id q }

/-- `table[record_id] = status`. -/
def set_status (lt : rw_lock_table) (record_id : ℕ) (status : rw_lock_status_t) : rw_lock_table :=
  { lt with table := Function.update lt.table record_id status }

/-- `pthread_cond_signal(&cond_var[tid])`: without a sleeper it has no effect. -/
def signal (lt : rw_lock_table) (tid : ℕ) : rw_lock_table :=
  { lt with
    cond_var := Function.update lt.cond_var tid
      (if lt.cond_var tid = .waiting then .signalled else lt.cond_var tid) }

/-- Entering `pthread_cond_wait(&cond_var[tid], ..)`. -/
def cond_wait (lt : rw_lock_table) (tid : ℕ) : rw_lock_table :=
  { lt with cond_var := Function.update lt.cond_var tid .waiting }

/-- Returning from `pthread_cond_wait(&cond_var[tid], ..)`. -/
def cond_return (lt : rw_lock_table) (tid : ℕ) : rw_lock_table :=
  { lt with cond_var := Function.update lt.cond_var tid .idle }

/-! ## Section 2: Looking ahead in a queue -/

/-- The loop of `find_ahead_writer`: the last writer before `tid`, and whether
    `tid` was found. -/
def find_ahead_writer_loop (tid : ℕ) :
    List wait_q_elem_t → (ahead_writer_tid : ℕ) → Except Failure (ℕ × Bool)
  | [], ahead_writer_tid => .ok (ahead_writer_tid, false)
  | e :: es, ahead_writer_tid =>
    if e.tid = tid then .ok (ahead_writer_tid, true)
    else do
      assert (e.current_phase ≠ .INVALID) .find_ahead_writer "iter->current_phase != INVALID"
      find_ahead_writer_loop tid es
        (if e.current_phase ≠ .READ then e.tid else ahead_writer_tid)

/-- `find_ahead_writer`: zero if there is no writer ahead. -/
def find_ahead_writer (lt : rw_lock_table) (tid record_id : ℕ) : Except Failure ℕ := do
  let (ahead_writer_tid, i_am_found) ←
    find_ahead_writer_loop tid (lt.record_wait_queues record_id) 0
  assert (i_am_found = true) .find_ahead_writer "i_am_found"
  assert (tid ≠ ahead_writer_tid) .find_ahead_writer "tid != ahead_writer_tid"
  return ahead_writer_tid

/-- The loop of `find_ahead_reader_or_writer`. -/
def find_ahead_reader_or_writer_loop (tid : ℕ) :
    List wait_q_elem_t → (ahead_tid : ℕ) → Except Failure (ℕ × Bool)
  | [], ahead_tid => .ok (ahead_tid, false)
  | e :: es, ahead_tid =>
    if e.tid = tid then .ok (ahead_tid, true)
    else do
      assert (e.current_phase ≠ .INVALID) .find_ahead_reader_or_writer
        "iter->current_phase != INVALID"
      find_ahead_reader_or_writer_loop tid es e.tid

/-- `find_ahead_reader_or_writer`: zero if nobody is ahead. -/
def find_ahead_reader_or_writer (lt : rw_lock_table) (tid record_id : ℕ) :
    Except Failure ℕ := do
  let (ahead_tid, i_am_found) ←
    find_ahead_reader_or_writer_loop tid (lt.record_wait_queues record_id) 0
  assert (i_am_found = true) .find_ahead_reader_or_writer "i_am_found"
  assert (tid ≠ ahead_tid) .find_ahead_reader_or_writer "tid != ahead_tid"
  return ahead_tid

/-! ## Section 3: Edges -/

/-- `wait_for_graph->add_edge(src, dst)`; the callers ignore its result. -/
def add_edge (lt : rw_lock_table) (src dst : ℕ) : Except Failure rw_lock_table := do
  let (_, g) ← lt.wait_for_graph.add_edge src dst
  return { lt with wait_for_graph := g }

/-- `wait_for_graph->remove_edge(src, dst)`; the callers ignore its result. -/
def remove_edge (lt : rw_lock_table) (src dst : ℕ) : Except Failure rw_lock_table := do
  let (_, g) ← lt.wait_for_graph.remove_edge src dst
  return { lt with wait_for_graph := g }

/-- The loop of `wrlock` over the readers right ahead, nearest first. -/
def add_reader_edges (tid : ℕ) :
    List wait_q_elem_t → rw_lock_table → Except Failure rw_lock_table
  | [], lt => .ok lt
  | e :: ahead, lt =>
    if e.current_phase = .READ then do
      let lt ← lt.add_edge tid e.tid
      add_reader_edges tid ahead lt
    else .ok lt

/-- The loop of `wrlock_clear_abort` over the readers right ahead, nearest first. -/
def remove_reader_edges (tid : ℕ) :
    List wait_q_elem_t → rw_lock_table → Except Failure rw_lock_table
  | [], lt => .ok lt
  | e :: ahead, lt =>
    if e.current_phase = .READ then do
      let lt ← lt.remove_edge tid e.tid
      remove_reader_edges tid ahead lt
    else .ok lt

/-- `wait_for_graph->get_cycle(tid)`. -/
def get_cycle (lt : rw_lock_table) (tid : ℕ) : Except Failure (List ℕ) :=
  match lt.wait_for_graph.get_cycle tid with
  | some cycle_member => .ok cycle_member
  | none => .error (.no_return .get_cycle)

/-- `is_deadlock_exist`: the answer and the members of the cycle. -/
def is_deadlock_exist (lt : rw_lock_table) (tid : ℕ) : Except Failure (Bool × List ℕ) := do
  let cycle_member ← lt.get_cycle tid
  return (decide (cycle_member.length ≠ 0), cycle_member)

/-! ## Section 4: Aborting a request -/

/-- The part the two abort functions share: find the cycle again and wake
    `cycle_member[1]`, the thread that waits for the victim. -/
def wake_cycle_member (lt : rw_lock_table) (tid : ℕ) (function : SourceFunction) :
    Except Failure rw_lock_table := do
  let cycle_member ← lt.get_cycle tid
  assert (cycle_member.length ≠ 0) function "cycle_member.size() != 0"
  assert (cycle_member.head? = some tid) function "cycle_member[0] == tid"
  match cycle_member with
  | _ :: waiter :: _ => return lt.signal waiter
  | _ => throw (.out_of_range function "cycle_member[1]")

/-- `rdlock_clear_abort`. -/
def rdlock_clear_abort (lt : rw_lock_table) (tid record_id : ℕ) :
    Except Failure rw_lock_table := do
  let q := lt.record_wait_queues record_id
  assert (q.length ≠ 0) .rdlock_clear_abort "record_wait_queues[record_id].size() != 0"
  let lt ← lt.wake_cycle_member tid .rdlock_clear_abort
  let myself := q.findIdx (fun e => e.tid = tid)
  assert (myself ≠ q.length) .rdlock_clear_abort "myself != record_wait_queues[record_id].end()"
  assert (myself = q.length - 1) .rdlock_clear_abort
    "myself == record_wait_queues[record_id].end() - 1"
  let lt ←
    match (q.reverse.drop 1).dropWhile (fun e => e.current_phase = .READ) with
    | ahead_writer :: _ => do
      assert (ahead_writer.current_phase ≠ .READ) .rdlock_clear_abort
        "ahead_writer->current_phase != READ"
      lt.remove_edge tid ahead_writer.tid
    | [] => pure lt
  return lt.set_queue record_id (q.eraseIdx myself)

/-- The edges `wrlock_clear_abort` removes; `ahead` lists the queue before the
    victim, nearest first. -/
def wrlock_clear_edges (lt : rw_lock_table) (tid : ℕ) (ahead : List wait_q_elem_t) :
    Except Failure rw_lock_table :=
  match ahead with
  | [] => throw (.out_of_range .wrlock_clear_abort "(ahead - 1)->current_phase")
  | right_ahead :: _ =>
    if right_ahead.current_phase = .READ then remove_reader_edges tid ahead lt
    else lt.remove_edge tid right_ahead.tid

/-- `wrlock_clear_abort`. -/
def wrlock_clear_abort (lt : rw_lock_table) (tid record_id : ℕ) :
    Except Failure rw_lock_table := do
  let q := lt.record_wait_queues record_id
  assert (q.length ≠ 0) .wrlock_clear_abort "record_wait_queues[record_id].size() != 0"
  let lt ← lt.wake_cycle_member tid .wrlock_clear_abort
  match q.reverse with
  | [] => throw (.out_of_range .wrlock_clear_abort "myself->tid")
  | elem :: ahead => do
    let myself := q.length - 1
    assert (elem.tid = tid) .wrlock_clear_abort "myself->tid == tid"
    assert (myself ≠ q.length) .wrlock_clear_abort
      "myself != record_wait_queues[record_id].end()"
    assert (myself = q.length - 1) .wrlock_clear_abort
      "myself == record_wait_queues[record_id].end() - 1"
    assert (q.length ≥ 2) .wrlock_clear_abort "record_wait_queues[record_id].size() >= 2"
    let lt ← lt.wrlock_clear_edges tid ahead
    return lt.set_queue record_id (q.eraseIdx myself)

/-! ## Section 5: Locking -/

/-- The end of `rdlock`: count the reader and set the status. -/
def rdlock_acquire (lt : rw_lock_table) (record_id : ℕ) : rw_lock_table :=
  { lt with
    readers_count := Function.update lt.readers_count record_id (lt.readers_count record_id + 1)
    table := Function.update lt.table record_id .RW_READER_LOCK }

/-- `rdlock`, up to the first `pthread_cond_wait` or to the return. -/
def rdlock (lt : rw_lock_table) (tid record_id : ℕ) :
    Except Failure (CallResult × rw_lock_table) := do
  let lt := lt.set_queue record_id (lt.record_wait_queues record_id ++ [⟨tid, .READ⟩])
  let size := (lt.record_wait_queues record_id).length
  assert (size ≥ 1) .rdlock "record_wait_queues[record_id].size() >= 1"
  if size = 1 then
    return (.returned true, lt.rdlock_acquire record_id)
  else do
    assert (size > 1) .rdlock "record_wait_queues[record_id].size() > 1"
    let ahead_writer_tid ← lt.find_ahead_writer tid record_id
    if ahead_writer_tid ≠ 0 then do
      let lt ← lt.add_edge tid ahead_writer_tid
      let (deadlock, _) ← lt.is_deadlock_exist tid
      if deadlock then do
        let lt ← lt.rdlock_clear_abort tid record_id
        return (.returned false, lt)
      else
        return (.asleep, lt.cond_wait tid)
    else
      return (.returned true, lt.rdlock_acquire record_id)

/-- `rdlock` after a wake-up: back to sleep while a writer is ahead. -/
def rdlock_awake (lt : rw_lock_table) (tid record_id : ℕ) :
    Except Failure (CallResult × rw_lock_table) := do
  let lt := lt.cond_return tid
  let ahead_writer_tid ← lt.find_ahead_writer tid record_id
  if ahead_writer_tid ≠ 0 then
    return (.asleep, lt.cond_wait tid)
  else
    return (.returned true, lt.rdlock_acquire record_id)

/-- The end of `wrlock`: the checks of the grant, then the status. -/
def wrlock_acquire (lt : rw_lock_table) (tid record_id : ℕ) : Except Failure rw_lock_table := do
  assert (lt.table record_id ≠ .RW_INVALID) .wrlock "table[record_id] != RW_INVALID"
  assert (lt.table record_id ≠ .RW_WRITER_LOCK) .wrlock "table[record_id] != RW_WRITER_LOCK"
  assert (lt.readers_count record_id = 0) .wrlock "readers_count[record_id] == 0"
  match lt.record_wait_queues record_id with
  | [] => throw (.out_of_range .wrlock "record_wait_queues[record_id][0].tid")
  | front :: _ => do
    assert (front.tid = tid) .wrlock "record_wait_queues[record_id][0].tid == tid"
    return lt.set_status record_id .RW_WRITER_LOCK

/-- The edges `wrlock` adds for the request at the back of the queue. -/
def wrlock_edges (lt : rw_lock_table) (tid record_id : ℕ) : Except Failure rw_lock_table :=
  match (lt.record_wait_queues record_id).reverse with
  | [] => throw (.out_of_range .wrlock "myself->tid")
  | myself :: ahead => do
    assert (myself.tid = tid) .wrlock "myself->tid == tid"
    match ahead with
    | [] => throw (.out_of_range .wrlock "(ahead - 1)->current_phase")
    | right_ahead :: _ =>
      if right_ahead.current_phase = .READ then add_reader_edges tid ahead lt
      else lt.add_edge tid right_ahead.tid

/-- `wrlock`, up to the first `pthread_cond_wait` or to the return. -/
def wrlock (lt : rw_lock_table) (tid : ℕ) (phase : phase_t) (record_id : ℕ) :
    Except Failure (CallResult × rw_lock_table) := do
  assert (phase = .FIRST_WRITE ∨ phase = .SECOND_WRITE) .wrlock
    "phase == FIRST_WRITE || phase == SECOND_WRITE"
  let lt := lt.set_queue record_id (lt.record_wait_queues record_id ++ [⟨tid, phase⟩])
  match lt.record_wait_queues record_id with
  | [] => throw (.out_of_range .wrlock "record_wait_queues[record_id][0].tid")
  | front :: _ =>
    if front.tid = tid then do
      let lt ← lt.wrlock_acquire tid record_id
      return (.returned true, lt)
    else do
      assert ((lt.record_wait_queues record_id).length > 1) .wrlock
        "record_wait_queues[record_id].size() > 1"
      let lt ← lt.wrlock_edges tid record_id
      let (deadlock, _) ← lt.is_deadlock_exist tid
      if deadlock then do
        let lt ← lt.wrlock_clear_abort tid record_id
        return (.returned false, lt)
      else
        return (.asleep, lt.cond_wait tid)

/-- `wrlock` after a wake-up: back to sleep while anybody is ahead. -/
def wrlock_awake (lt : rw_lock_table) (tid record_id : ℕ) :
    Except Failure (CallResult × rw_lock_table) := do
  let lt := lt.cond_return tid
  let ahead_tid ← lt.find_ahead_reader_or_writer tid record_id
  if ahead_tid ≠ 0 then
    return (.asleep, lt.cond_wait tid)
  else do
    let lt ← lt.wrlock_acquire tid record_id
    return (.returned true, lt)

/-! ## Section 6: Unlocking -/

/-- The search loop of `rd_unlock`: the position of `tid`; no writer may be met. -/
def rd_unlock_find (tid : ℕ) : List wait_q_elem_t → (iter : ℕ) → Except Failure ℕ
  | [], iter => .ok iter
  | e :: es, iter => do
    assert (e.current_phase = .READ) .rd_unlock "iter->current_phase == READ"
    if e.tid = tid then .ok iter else rd_unlock_find tid es (iter + 1)

/-- A reader follows: find the next writer and remove its edge to `tid`. -/
def rd_unlock_next_writer (lt : rw_lock_table) (tid : ℕ) (rest : List wait_q_elem_t) :
    Except Failure rw_lock_table :=
  match rest.dropWhile (fun e => e.current_phase = .READ) with
  | [] => .ok lt
  | follower :: _ => do
    assert (follower.current_phase ≠ .READ) .rd_unlock "follower->current_phase != READ"
    lt.remove_edge follower.tid tid

/-- `readers_count[record_id]--`. -/
def count_down (lt : rw_lock_table) (record_id : ℕ) : rw_lock_table :=
  { lt with
    readers_count := Function.update lt.readers_count record_id (lt.readers_count record_id - 1) }

/-- The two cases of `rd_unlock`, for the reader at position `iter` with the
    followers behind it. -/
def rd_unlock_leave (lt : rw_lock_table) (tid record_id iter : ℕ)
    (followers : List wait_q_elem_t) : Except Failure rw_lock_table :=
  if iter = 0 then
    -- Case1. I am top of a queue
    match followers with
    | [] => return lt.set_status record_id .RW_UNLOCK
    | follower :: rest =>
      if follower.current_phase ≠ .READ then do
        let lt ← lt.remove_edge follower.tid tid
        return (lt.set_status record_id .RW_UNLOCK).signal follower.tid
      else do
        assert (follower.current_phase = .READ) .rd_unlock "follower->current_phase == READ"
        lt.rd_unlock_next_writer tid rest
  else
    -- Case2. I am not the top of a queue.
    match followers with
    | [] => return lt
    | follower :: rest =>
      if follower.current_phase ≠ .READ then lt.remove_edge follower.tid tid
      else do
        assert (follower.current_phase = .READ) .rd_unlock "follower->current_phase == READ"
        lt.rd_unlock_next_writer tid rest

/-- `rd_unlock`. -/
def rd_unlock (lt : rw_lock_table) (tid record_id : ℕ) : Except Failure rw_lock_table := do
  let q := lt.record_wait_queues record_id
  assert (lt.readers_count record_id > 0) .rd_unlock "readers_count[record_id] > 0"
  assert (q.length > 0) .rd_unlock "record_wait_queues[record_id].size() > 0"
  let iter ← rd_unlock_find tid q 0
  assert (iter ≠ q.length) .rd_unlock "iter != record_wait_queues[record_id].end()"
  let lt ← lt.rd_unlock_leave tid record_id iter (q.drop (iter + 1))
  let lt := lt.count_down record_id
  return lt.set_queue record_id (q.eraseIdx iter)

/-- The loop of `wr_unlock`: every reader before the next writer is woken. -/
def wake_readers (tid : ℕ) : List wait_q_elem_t → rw_lock_table → Except Failure rw_lock_table
  | [], lt => .ok lt
  | follower :: rest, lt =>
    if follower.current_phase = .READ then do
      let lt ← lt.remove_edge follower.tid tid
      wake_readers tid rest (lt.signal follower.tid)
    else .ok lt

/-- The edges `wr_unlock` removes and the threads it wakes. -/
def wr_unlock_leave (lt : rw_lock_table) (tid : ℕ) (followers : List wait_q_elem_t) :
    Except Failure rw_lock_table :=
  match followers with
  | [] => return lt
  | follower :: rest => do
    let lt ← lt.remove_edge follower.tid tid
    let lt := lt.signal follower.tid
    if follower.current_phase = .READ then wake_readers tid rest lt
    else return lt

/-- `wr_unlock`. -/
def wr_unlock (lt : rw_lock_table) (tid record_id : ℕ) : Except Failure rw_lock_table :=
  match lt.record_wait_queues record_id with
  | [] => throw (.out_of_range .wr_unlock "top->tid")
  | top :: followers => do
    assert (top.tid = tid) .wr_unlock "top->tid == tid"
    let lt ← lt.wr_unlock_leave tid followers
    return (lt.set_queue record_id followers).set_status record_id .RW_UNLOCK

/-- `unlock`: dispatch on the status of the record. -/
def unlock (lt : rw_lock_table) (tid record_id : ℕ) : Except Failure rw_lock_table :=
  match lt.table record_id with
  | .RW_READER_LOCK => lt.rd_unlock tid record_id
  | .RW_WRITER_LOCK => lt.wr_unlock tid record_id
  | _ => throw (.assertion .unlock "false")

end rw_lock_table

end Project2
