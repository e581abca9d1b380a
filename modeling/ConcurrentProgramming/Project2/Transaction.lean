import ConcurrentProgramming.Project2.LockTable
import ConcurrentProgramming.Framework.Transition
import Mathlib.Algebra.Group.Nat.Defs

/-! # Transactions (`transaction.cc`)

    Worker threads run transactions over shared records: read record `i`, add
    `i + 1` to record `j`, subtract `i` from record `k`, commit.  A lock request
    that is refused rolls the transaction back.

    One step of a thread is either one critical section of `global_mutex`, up to
    its end or to `pthread_cond_wait`, or one access to `records[]` or to
    `global_execution_order` outside the mutex, together with the local
    computation that follows it.  A failed `assert` aborts the program, so it has
    no successor state.
-/

namespace Project2

open LTS

/-! ## Section 1: Data -/

/-- `log_t`, without the pointer to the vector that `is_deadlock_exist` fills
    and the unused `is_done`. -/
structure log_t where
  tid           : ℕ
  current_phase : phase_t
  commit_id     : ℕ
  i             : ℕ
  j             : ℕ
  k             : ℕ
  value_of_i    : BitVec 64
  value_of_j    : BitVec 64
  value_of_k    : BitVec 64
  deriving DecidableEq, Repr

/-- A line of a log file. -/
structure LogLine where
  commit_id  : ℕ
  i          : ℕ
  j          : ℕ
  k          : ℕ
  value_of_i : BitVec 64
  value_of_j : BitVec 64
  value_of_k : BitVec 64
  deriving DecidableEq, Repr

/-- Where a thread is in `transaction()`. -/
inductive Point where
  /-- At `while (global_execution_order <= E)`. -/
  | loop_head
  /-- Before the critical section that calls `read_record`. -/
  | read_lock
  /-- Asleep in `rdlock`. -/
  | read_wait
  /-- At `log.value_of_i = records[log.i]`. -/
  | read_i
  | first_lock
  | first_wait
  /-- At `old_value = records[log.j]`. -/
  | old_j
  /-- At `log.value_of_j = records[log.j] += log.value_of_i + 1`: the load of
      the sum, its store, and the value of the assignment. -/
  | load_j
  | store_j
  | result_j
  | second_lock
  | second_wait
  /-- At `old_value = records[log.k]`. -/
  | old_k
  /-- At `log.value_of_k = records[log.k] -= log.value_of_i`. -/
  | load_k
  | store_k
  | result_k
  /-- Before the critical section that commits. -/
  | commit
  /-- The thread function has returned. -/
  | terminated
  /-- The thread has called `exit(1)` because of an overflow. -/
  | exited
  deriving DecidableEq, Repr

/-- The local variables of a thread; `loaded` is the operand that a compound
    assignment has loaded. -/
structure Thread where
  point        : Point
  log          : log_t
  old_value    : BitVec 64
  target_value : BitVec 64
  loaded       : BitVec 64
  deriving DecidableEq, Repr

/-- The command line: `N = thread_num + 1`, and thread ids start from one. -/
structure Config where
  thread_num : ℕ
  R          : ℕ
  E          : ℕ

def Config.N (cfg : Config) : ℕ := cfg.thread_num + 1

/-- The whole program.  `committed` records the log lines of all files in the
    order in which they were written. -/
structure Program where
  lt                     : rw_lock_table
  records                : ℕ → BitVec 64
  global_execution_order : ℕ
  thread                 : ℕ → Thread
  log_file               : ℕ → List LogLine
  committed              : List LogLine
  exited                 : Bool

/-! ## Section 2: Rolling back -/

/-- What the functions called inside a critical section change. -/
structure Shared where
  lt      : rw_lock_table
  records : ℕ → BitVec 64

namespace Shared

/-- `records[r] = v`. -/
def write (sh : Shared) (r : ℕ) (v : BitVec 64) : Shared :=
  { sh with records := Function.update sh.records r v }

/-- `lock_table->unlock(tid, r)`; the callers ignore its result. -/
def unlock (sh : Shared) (tid r : ℕ) : Except Failure Shared := do
  let lt ← sh.lt.unlock tid r
  return { sh with lt := lt }

/-- Unlocking, unless the lock is the one whose request was refused. -/
def unlock_unless (sh : Shared) (log : log_t) (refused : phase_t) (r : ℕ) :
    Except Failure Shared :=
  if log.current_phase = refused then .ok sh else sh.unlock log.tid r

def rollback_commit (sh : Shared) (log : log_t) : Except Failure Shared :=
  .ok (sh.write log.k (sh.records log.k + log.value_of_i))

def rollback_second_write (sh : Shared) (log : log_t) : Except Failure Shared := do
  let sh ← sh.unlock_unless log .SECOND_WRITE log.k
  return sh.write log.j (sh.records log.j - (log.value_of_i + 1))

def rollback_first_write (sh : Shared) (log : log_t) : Except Failure Shared :=
  sh.unlock_unless log .FIRST_WRITE log.j

def rollback_read (sh : Shared) (log : log_t) : Except Failure Shared :=
  sh.unlock_unless log .READ log.i

/-- `rollback`: the cases of the switch fall through. -/
def rollback (sh : Shared) (log : log_t) : Except Failure Shared :=
  match log.current_phase with
  | .COMMIT => do
    let sh ← sh.rollback_commit log
    let sh ← sh.rollback_second_write log
    let sh ← sh.rollback_first_write log
    sh.rollback_read log
  | .SECOND_WRITE => do
    let sh ← sh.rollback_second_write log
    let sh ← sh.rollback_first_write log
    sh.rollback_read log
  | .FIRST_WRITE => do
    let sh ← sh.rollback_first_write log
    sh.rollback_read log
  | .READ => sh.rollback_read log
  | .INVALID => throw (.assertion .rollback "false")

/-- `release_locks`. -/
def release_locks (sh : Shared) (log : log_t) : Except Failure Shared := do
  let sh ← sh.unlock log.tid log.i
  let sh ← sh.unlock log.tid log.j
  sh.unlock log.tid log.k

end Shared

/-! ## Section 3: The steps of a thread -/

namespace Program

def shared (s : Program) : Shared := ⟨s.lt, s.records⟩

def set_thread (s : Program) (tid : ℕ) (th : Thread) : Program :=
  { s with thread := Function.update s.thread tid th }

/-- Thread `tid` goes on at point `p`, with the shared state `sh`. -/
def resume (s : Program) (tid : ℕ) (sh : Project2.Shared) (p : Point) : Program :=
  { s with
    lt := sh.lt
    records := sh.records
    thread := Function.update s.thread tid { s.thread tid with point := p } }

/-- The start of a transaction: `log` is cleared and the record ids are chosen. -/
def begin_transaction (s : Program) (tid i j k : ℕ) : Program :=
  s.set_thread tid { s.thread tid with
    point := .read_lock
    log := ⟨tid, .READ, 0, i, j, k, 0, 0, 0⟩ }

/-- A critical section that calls a lock function: on success the thread goes on
    at `acquired`, a sleeping thread is at `asleep`, and a refused request is
    rolled back inside the same critical section. -/
def lock_section (s : Program) (tid : ℕ) (call : Except Failure (CallResult × rw_lock_table))
    (acquired asleep : Point) : Except Failure Program := do
  let (result, lt) ← call
  match result with
  | .returned true => return s.resume tid ⟨lt, s.records⟩ acquired
  | .asleep => return s.resume tid ⟨lt, s.records⟩ asleep
  | .returned false => do
    let sh ← Shared.rollback ⟨lt, s.records⟩ (s.thread tid).log
    return s.resume tid sh .loop_head

/-- `log.value_of_i = records[log.i]`, and the phase of the next request. -/
def read_i (s : Program) (tid : ℕ) : Program :=
  let th := s.thread tid
  s.set_thread tid { th with
    point := .first_lock
    log := { th.log with
      value_of_i := s.records th.log.i
      current_phase := .FIRST_WRITE } }

/-- `old_value = records[r]; target_value = ..`. -/
def read_old (s : Program) (tid r : ℕ) (target_value : BitVec 64) (p : Point) : Program :=
  s.set_thread tid { s.thread tid with
    point := p
    old_value := s.records r
    target_value := target_value }

/-- The load of a compound assignment to `records[r]`. -/
def load (s : Program) (tid r : ℕ) (p : Point) : Program :=
  s.set_thread tid { s.thread tid with
    point := p
    loaded := s.records r }

/-- The store of a compound assignment to `records[r]`. -/
def store (s : Program) (tid r : ℕ) (v : BitVec 64) (p : Point) : Program :=
  { s.set_thread tid { s.thread tid with point := p } with
    records := Function.update s.records r v }

/-- `exit(1)`. -/
def exit (s : Program) (tid : ℕ) (log : log_t) : Program :=
  { s.set_thread tid { s.thread tid with
      point := .exited
      log := log } with
    exited := true }

/-- The value of the first assignment and the overflow check after it. -/
def result_j (s : Program) (tid : ℕ) : Program :=
  let th := s.thread tid
  let log : log_t := { th.log with value_of_j := s.records th.log.j }
  if 0 < th.old_value.toInt ∧ 0 < th.target_value.toInt ∧ log.value_of_j.toInt < 0 then
    s.exit tid log
  else
    s.set_thread tid { th with
      point := .second_lock
      log := { log with current_phase := .SECOND_WRITE } }

/-- The value of the second assignment and the overflow check after it. -/
def result_k (s : Program) (tid : ℕ) : Program :=
  let th := s.thread tid
  let log : log_t := { th.log with value_of_k := s.records th.log.k }
  if th.old_value.toInt < 0 ∧ th.target_value.toInt < 0 ∧ 0 < log.value_of_k.toInt then
    s.exit tid log
  else
    s.set_thread tid { th with
      point := .commit
      log := { log with current_phase := .COMMIT } }

/-- The line that `transaction()` appends to the log file. -/
def line (log : log_t) : LogLine :=
  ⟨log.commit_id, log.i, log.j, log.k, log.value_of_i, log.value_of_j, log.value_of_k⟩

/-- The critical section of the commit. -/
def commit (s : Program) (cfg : Config) (tid : ℕ) : Except Failure Program := do
  let commit_id := (s.global_execution_order + 1) % 2 ^ 64
  let log : log_t := { (s.thread tid).log with commit_id := commit_id }
  if commit_id > cfg.E then do
    let sh ← s.shared.rollback log
    return { s.resume tid sh .terminated with
      global_execution_order := commit_id }
  else do
    let sh ← s.shared.release_locks log
    return { s.resume tid sh .loop_head with
      global_execution_order := commit_id
      log_file := Function.update s.log_file tid (s.log_file tid ++ [line log])
      committed := s.committed ++ [line log] }

end Program

/-! ## Section 4: The program -/

/-- The record ids that the loops over `rand() % R` can end with. -/
structure DistinctIds (R i j k : ℕ) : Prop where
  i_lt : i < R
  j_lt : j < R
  k_lt : k < R
  i_ne_j : i ≠ j
  k_ne_i : k ≠ i
  k_ne_j : k ≠ j

/-- One step of thread `tid` from a given point; `i`, `j` and `k` are the ids
    chosen if a transaction starts. -/
def step_at (cfg : Config) (s : Program) (tid i j k : ℕ) (s' : Program) : Point → Prop
  | .loop_head =>
      (s.global_execution_order ≤ cfg.E ∧ DistinctIds cfg.R i j k ∧
        s' = s.begin_transaction tid i j k) ∨
      (cfg.E < s.global_execution_order ∧ s' = s.resume tid s.shared .terminated)
  | .read_lock =>
      s.lock_section tid (s.lt.rdlock tid (s.thread tid).log.i) .read_i .read_wait = .ok s'
  | .read_wait =>
      s.lock_section tid (s.lt.rdlock_awake tid (s.thread tid).log.i) .read_i .read_wait = .ok s'
  | .read_i => s' = s.read_i tid
  | .first_lock =>
      s.lock_section tid (s.lt.wrlock tid .FIRST_WRITE (s.thread tid).log.j)
        .old_j .first_wait = .ok s'
  | .first_wait =>
      s.lock_section tid (s.lt.wrlock_awake tid (s.thread tid).log.j) .old_j .first_wait = .ok s'
  | .old_j =>
      s' = s.read_old tid (s.thread tid).log.j ((s.thread tid).log.value_of_i + 1) .load_j
  | .load_j => s' = s.load tid (s.thread tid).log.j .store_j
  | .store_j =>
      s' = s.store tid (s.thread tid).log.j
        ((s.thread tid).loaded + ((s.thread tid).log.value_of_i + 1)) .result_j
  | .result_j => s' = s.result_j tid
  | .second_lock =>
      s.lock_section tid (s.lt.wrlock tid .SECOND_WRITE (s.thread tid).log.k)
        .old_k .second_wait = .ok s'
  | .second_wait =>
      s.lock_section tid (s.lt.wrlock_awake tid (s.thread tid).log.k) .old_k .second_wait = .ok s'
  | .old_k => s' = s.read_old tid (s.thread tid).log.k (- (s.thread tid).log.value_of_i) .load_k
  | .load_k => s' = s.load tid (s.thread tid).log.k .store_k
  | .store_k =>
      s' = s.store tid (s.thread tid).log.k
        ((s.thread tid).loaded - (s.thread tid).log.value_of_i) .result_k
  | .result_k => s' = s.result_k tid
  | .commit => s.commit cfg tid = .ok s'
  | .terminated => False
  | .exited => False

/-- One step of thread `tid`. -/
def thread_step (cfg : Config) (s : Program) (tid i j k : ℕ) (s' : Program) : Prop :=
  step_at cfg s tid i j k s' (s.thread tid).point

/-- A thread at the start of `transaction()`. -/
def Thread.initial : Thread := ⟨.loop_head, ⟨0, .INVALID, 0, 0, 0, 0, 0, 0, 0⟩, 0, 0, 0⟩

/-- The program: `main` sets every record to 100 and starts the threads
    `1, .., thread_num`, which run until all have returned or one calls `exit`. -/
def transactions (cfg : Config) : System Program (ℕ × ℕ × ℕ × ℕ) where
  init := fun s =>
    s.lt = rw_lock_table.init cfg.N ∧ (∀ r, s.records r = 100) ∧
    s.global_execution_order = 0 ∧ (∀ t, s.thread t = Thread.initial) ∧
    (∀ t, s.log_file t = []) ∧ s.committed = [] ∧ s.exited = false
  step := fun s (tid, i, j, k) s' =>
    s.exited = false ∧ 1 ≤ tid ∧ tid < cfg.N ∧ thread_step cfg s tid i j k s'

/-! ## Section 5: Computed steps

    The step relation as a function, for runs on given record ids.
-/

instance (R i j k : ℕ) : Decidable (DistinctIds R i j k) :=
  decidable_of_iff (i < R ∧ j < R ∧ k < R ∧ i ≠ j ∧ k ≠ i ∧ k ≠ j)
    ⟨fun h => ⟨h.1, h.2.1, h.2.2.1, h.2.2.2.1, h.2.2.2.2.1, h.2.2.2.2.2⟩,
      fun h => ⟨h.i_lt, h.j_lt, h.k_lt, h.i_ne_j, h.k_ne_i, h.k_ne_j⟩⟩

/-- The step of thread `tid` from a given point, if it has one. -/
def Program.move (cfg : Config) (s : Program) (tid i j k : ℕ) : Point → Option Program
  | .loop_head =>
      if s.global_execution_order ≤ cfg.E then
        if DistinctIds cfg.R i j k then some (s.begin_transaction tid i j k) else none
      else some (s.resume tid s.shared .terminated)
  | .read_lock =>
      (s.lock_section tid (s.lt.rdlock tid (s.thread tid).log.i) .read_i .read_wait).toOption
  | .read_wait =>
      (s.lock_section tid (s.lt.rdlock_awake tid (s.thread tid).log.i)
        .read_i .read_wait).toOption
  | .read_i => some (s.read_i tid)
  | .first_lock =>
      (s.lock_section tid (s.lt.wrlock tid .FIRST_WRITE (s.thread tid).log.j)
        .old_j .first_wait).toOption
  | .first_wait =>
      (s.lock_section tid (s.lt.wrlock_awake tid (s.thread tid).log.j)
        .old_j .first_wait).toOption
  | .old_j =>
      some (s.read_old tid (s.thread tid).log.j ((s.thread tid).log.value_of_i + 1) .load_j)
  | .load_j => some (s.load tid (s.thread tid).log.j .store_j)
  | .store_j =>
      some (s.store tid (s.thread tid).log.j
        ((s.thread tid).loaded + ((s.thread tid).log.value_of_i + 1)) .result_j)
  | .result_j => some (s.result_j tid)
  | .second_lock =>
      (s.lock_section tid (s.lt.wrlock tid .SECOND_WRITE (s.thread tid).log.k)
        .old_k .second_wait).toOption
  | .second_wait =>
      (s.lock_section tid (s.lt.wrlock_awake tid (s.thread tid).log.k)
        .old_k .second_wait).toOption
  | .old_k =>
      some (s.read_old tid (s.thread tid).log.k (- (s.thread tid).log.value_of_i) .load_k)
  | .load_k => some (s.load tid (s.thread tid).log.k .store_k)
  | .store_k =>
      some (s.store tid (s.thread tid).log.k
        ((s.thread tid).loaded - (s.thread tid).log.value_of_i) .result_k)
  | .result_k => some (s.result_k tid)
  | .commit => (s.commit cfg tid).toOption
  | .terminated => none
  | .exited => none

theorem step_at_of_move {cfg : Config} {s s' : Program} {tid i j k : ℕ} {p : Point}
    (h : s.move cfg tid i j k p = some s') : step_at cfg s tid i j k s' p := by
  -- A critical section that runs through has the result of the relation.
  have hok : ∀ {x : Except Failure Program}, x.toOption = some s' → x = .ok s' := by
    intro x hx
    cases x with
    | error e => cases hx
    | ok a => exact congrArg Except.ok (Option.some.inj hx)
  cases p with
  | loop_head =>
    simp only [Program.move] at h
    split at h
    · next hE =>
      split at h
      · next hids => exact .inl ⟨hE, hids, (Option.some.inj h).symm⟩
      · cases h
    · next hE => exact .inr ⟨Nat.lt_of_not_le hE, (Option.some.inj h).symm⟩
  | read_lock | read_wait | first_lock | first_wait | second_lock | second_wait | commit =>
    exact hok h
  | terminated | exited => cases h
  | read_i | old_j | load_j | store_j | result_j | old_k | load_k | store_k | result_k =>
    exact (Option.some.inj h).symm

/-- The step with a given label, if there is one. -/
def Program.next (cfg : Config) (s : Program) : ℕ × ℕ × ℕ × ℕ → Option Program
  | (tid, i, j, k) =>
      if s.exited = false ∧ 1 ≤ tid ∧ tid < cfg.N then
        s.move cfg tid i j k (s.thread tid).point
      else none

theorem step_of_next {cfg : Config} {s s' : Program} {l : ℕ × ℕ × ℕ × ℕ}
    (h : s.next cfg l = some s') : (transactions cfg).step s l s' := by
  obtain ⟨tid, i, j, k⟩ := l
  simp only [Program.next] at h
  split at h
  · next hok => exact ⟨hok.1, hok.2.1, hok.2.2, step_at_of_move h⟩
  · cases h

end Project2
