import ConcurrentProgramming.Project2.LockProperties
import ConcurrentProgramming.Project2.Serializability

/-! # Rolling Back (`transaction.cc`)

    A transaction is rolled back when one of its lock requests is refused, or
    when its commit comes too late.

    * `first_request_never_refused`: the first request of a transaction is never
      refused, so nothing is ever rolled back in phase `READ`.  A thread without
      any entry has no incoming edge, and a new entry at the back of a queue
      gets none.
    * `rollback_leaves_no_trace`: a rolled back transaction leaves the records it
      has written as it found them, and its entries and edges are gone.

    For the second result an observer notes, for each transaction, the value of
    each record just before the transaction wrote it.
-/

namespace Project2

open LTS LockQueue Clients

/-! ## Section 1: Calls of `rollback` -/

/-- The lock call that the critical section of thread `tid` makes. -/
def Program.lock_call (s : Program) (tid : ℕ) :
    Option (Except Failure (CallResult × rw_lock_table)) :=
  let log := (s.thread tid).log
  match (s.thread tid).point with
  | .read_lock => some (s.lt.rdlock tid log.i)
  | .read_wait => some (s.lt.rdlock_awake tid log.i)
  | .first_lock => some (s.lt.wrlock tid .FIRST_WRITE log.j)
  | .first_wait => some (s.lt.wrlock_awake tid log.j)
  | .second_lock => some (s.lt.wrlock tid .SECOND_WRITE log.k)
  | .second_wait => some (s.lt.wrlock_awake tid log.k)
  | _ => none

/-- The next step of thread `tid` calls `rollback`. -/
def Program.rolls_back (s : Program) (cfg : Config) (tid : ℕ) : Prop :=
  (∃ lt, s.lock_call tid = some (.ok (.returned false, lt))) ∨
  ((s.thread tid).point = .commit ∧ cfg.E < (s.global_execution_order + 1) % 2 ^ 64)

section calls
variable {cfg : Config} {s s' : Program} {tid i j k : ℕ}

/-- A step with a lock call is the critical section around it. -/
theorem thread_step.lock_section {call : Except Failure (CallResult × rw_lock_table)}
    (hstep : thread_step cfg s tid i j k s') (hcall : s.lock_call tid = some call) :
    (s.thread tid).point.can_abort ∧
      ∃ acquired asleep, s.lock_section tid call acquired asleep = .ok s' := by
  unfold thread_step at hstep
  unfold Program.lock_call at hcall
  cases hp : (s.thread tid).point <;> rw [hp] at hstep hcall <;> cases hcall <;>
    exact ⟨rfl, _, _, hstep⟩

/-- A call that was refused has only sent a signal. -/
theorem signal_of_refused {lt lt' : rw_lock_table} {e : wait_q_elem_t} {r : ℕ}
    {call : Except Failure (CallResult × rw_lock_table)}
    (hspec : rw_lock_table.RequestSpec lt e r call) (hcall : call = .ok (.returned false, lt')) :
    ∃ w, lt' = lt.signal w := by
  obtain ⟨w, -, hrefused⟩ := hspec.refuse ((returned_false_iff hspec).mp ⟨lt', hcall⟩)
  rw [hcall] at hrefused
  cases hrefused
  exact ⟨w, rfl⟩

/-- The clients that the threads are, and the requests that a running thread may make. -/
theorem linked.clients {lt : rw_lock_table} {state : ℕ → CallState}
    {holds : ℕ → List (phase_t × ℕ)} (h : linked cfg lt state holds) :
    ∃ c, Reachable (lock_clients cfg.N cfg.R) c ∧ c.lt = lt ∧ c.state = state ∧
      ∀ t r, 1 ≤ t ∧ t < cfg.N → r < cfg.R → state t = .running →
        (∀ phase, (phase, r) ∉ holds t) → Clients.MayRequest cfg.N cfg.R c t r := by
  obtain ⟨c, hc, rfl, rfl, hgranted⟩ := h
  refine ⟨c, hc, rfl, rfl, ?_⟩
  intro t r ht hr hrun hfree
  exact linked.may_request hc hgranted ht hr hrun hfree

theorem LinkInv.ids (h : LinkInv cfg s) (tid : ℕ) (h₁ : (s.thread tid).point ≠ .loop_head)
    (h₂ : (s.thread tid).point ≠ .terminated) :
    DistinctIds cfg.R (s.thread tid).log.i (s.thread tid).log.j (s.thread tid).log.k :=
  (h.log tid (by simp [Thread.idle, h₁, h₂])).ids

/-- The same for the calls of a transaction.  A call that has slept is never refused. -/
theorem LinkInv.signal_of_refused (h : LinkInv cfg s) (ht : 1 ≤ tid ∧ tid < cfg.N)
    {lt : rw_lock_table} (hcall : s.lock_call tid = some (.ok (.returned false, lt))) :
    ∃ w, lt = s.lt.signal w := by
  obtain ⟨c, hc, hlt, hstate, hrequest⟩ := h.link.clients
  have hinv := lock_inv_reachable hc
  replace hstate := congrFun hstate tid
  unfold Program.lock_call at hcall
  rw [← hlt] at hcall ⊢
  cases hp : (s.thread tid).point <;> simp only [hp, Option.some.injEq, reduceCtorEq] at hcall
  case read_lock =>
    have hids := h.ids tid (by simp [hp]) (by simp [hp])
    have hreq := hrequest tid _ ht hids.i_lt (by simp [Thread.call_state, hp])
      (by simp [Thread.holds, hp])
    exact Project2.signal_of_refused (hinv.rdlock_spec hreq) hcall
  case first_lock =>
    have hids := h.ids tid (by simp [hp]) (by simp [hp])
    have hreq := hrequest tid _ ht hids.j_lt (by simp [Thread.call_state, hp])
      (by simp [Thread.holds, hp, hids.i_ne_j.symm])
    exact Project2.signal_of_refused (hinv.wrlock_spec hreq (.inl rfl)) hcall
  case second_lock =>
    have hids := h.ids tid (by simp [hp]) (by simp [hp])
    have hreq := hrequest tid _ ht hids.k_lt (by simp [Thread.call_state, hp])
      (by simp [Thread.holds, hp, hids.k_ne_i, hids.k_ne_j])
    exact Project2.signal_of_refused (hinv.wrlock_spec hreq (.inr rfl)) hcall
  case read_wait | first_wait | second_wait =>
    rw [Thread.call_state, hp] at hstate
    exact absurd hcall (hinv.awake_not_refused hstate lt)

end calls

/-! ## Section 2: Threads without entries -/

/-- Both ends of an edge have entries. -/
theorem LockInv.entries_of_edge {N R : ℕ} {c : Clients} (h : LockInv N R c) {t u : ℕ}
    (hedge : c.lt.wait_for_graph.edge t u) :
    ∃ r, t ∈ (c.lt.record_wait_queues r).map wait_q_elem_t.tid ∧
      u ∈ (c.lt.record_wait_queues r).map wait_q_elem_t.tid := by
  obtain ⟨r, hr⟩ := (h.graph.edge_iff t u).mp hedge
  refine ⟨r, ?_, mem_edges_of hr⟩
  by_contra ht
  rw [waits_on_not_mem (by simpa using ht)] at hr
  simp at hr

/-- A request of a client without entries closes no cycle: nobody waits for it. -/
theorem LockInv.no_cycle_of_no_entry {N R : ℕ} {c : Clients} (h : LockInv N R c)
    {e : wait_q_elem_t} {r : ℕ} (hreq : MayRequest N R c e.tid r)
    (hnone : ∀ r', e.tid ∉ (c.lt.record_wait_queues r').map wait_q_elem_t.tid) :
    ¬ Relation.TransGen (c.lt.enqueued e r).wait_for_graph.edge e.tid e.tid := by
  intro hloop
  obtain ⟨t, -, hlast⟩ := Relation.TransGen.tail'_iff.mp hloop
  obtain ⟨r', hr'⟩ := (h.graph.edge_enqueued_iff hreq.running t e.tid).mp hlast
  by_cases ht : t = e.tid
  · rw [ht] at hr'
    exact not_mem_waits_on_self
      (by simpa using arrive_nodup h.graph.mgr.nodup hreq.no_entry r') e.tid hr'
  · -- The arrows of the others are those from before the request.
    rw [waits_on_arrive ht] at hr'
    exact hnone r' (mem_edges_of hr')

/-- A running thread that holds nothing has no entries. -/
theorem linked.no_entry {cfg : Config} {lt : rw_lock_table} {state : ℕ → CallState}
    {holds : ℕ → List (phase_t × ℕ)} (h : linked cfg lt state holds) {t : ℕ}
    (hrun : state t = .running) (hholds : holds t = []) (r : ℕ) :
    t ∉ (lt.record_wait_queues r).map wait_q_elem_t.tid := by
  obtain ⟨c, hc, rfl, rfl, hgranted⟩ := h
  intro hmem
  obtain ⟨e, he, rfl⟩ := List.mem_map.mp hmem
  have hg : e ∈ c.granted r :=
    ((lock_inv_reachable hc).holder.granted_iff r e).mpr
      ⟨he, by simp [Clients.waiting_running hrun]⟩
  rw [hgranted, hholds] at hg
  simp at hg

/-! ## Section 3: The first request -/

section first
variable {cfg : Config} {s : Program} {tid : ℕ}

/-- The search finds no cycle, and the request is granted or sleeps. -/
theorem LinkInv.read_lock_ok (h : LinkInv cfg s) (ht : 1 ≤ tid ∧ tid < cfg.N)
    (hp : (s.thread tid).point = .read_lock) :
    (s.lt.enqueued ⟨tid, .READ⟩ (s.thread tid).log.i).is_deadlock_exist tid = .ok (false, []) ∧
      ∃ result lt, s.lt.rdlock tid (s.thread tid).log.i = .ok (result, lt) ∧
        result ≠ .returned false := by
  obtain ⟨c, hc, hlt, -, hrequest⟩ := h.link.clients
  have hinv := lock_inv_reachable hc
  have hids := h.ids tid (by simp [hp]) (by simp [hp])
  have hrun : (s.thread tid).call_state = .running := by simp [Thread.call_state, hp]
  have hholds : (s.thread tid).holds = [] := by simp [Thread.holds, hp]
  have hreq := hrequest tid _ ht hids.i_lt hrun (by simp [hholds])
  have hnone := h.link.no_entry hrun hholds
  rw [← hlt] at hnone ⊢
  have hcycle := hinv.no_cycle_of_no_entry (e := ⟨tid, .READ⟩) hreq hnone
  have hspec := hinv.rdlock_spec hreq
  obtain ⟨cycle, hget, hnil⟩ := (hinv.graph.request_ok hreq (.inl rfl)).get_cycle
  rw [hnil.mpr hcycle] at hget
  constructor
  · rw [rw_lock_table.is_deadlock_exist_eq hget]
    rfl
  · by_cases hedges :
        edges_of (c.lt.record_wait_queues (s.thread tid).log.i ++ [⟨tid, .READ⟩]) tid = []
    · exact ⟨_, _, hspec.grant hedges, by simp⟩
    · exact ⟨_, _, hspec.sleep hedges hcycle, by simp⟩

/-- A request that has slept is granted or sleeps again. -/
theorem LinkInv.read_wait_ok (h : LinkInv cfg s) (hp : (s.thread tid).point = .read_wait) :
    ∃ result lt, s.lt.rdlock_awake tid (s.thread tid).log.i = .ok (result, lt) ∧
      result ≠ .returned false := by
  obtain ⟨c, hc, hlt, hstate, -⟩ := h.link.clients
  replace hstate := congrFun hstate tid
  rw [Thread.call_state, hp] at hstate
  have hspec := (lock_inv_reachable hc).awake_spec hstate
  rw [← hlt]
  by_cases hedges : edges_of (c.lt.record_wait_queues (s.thread tid).log.i) tid = []
  · exact ⟨_, _, hspec.grant hedges, by simp⟩
  · exact ⟨_, _, hspec.sleep hedges, by simp⟩

/-- In phase `READ` the critical section of a thread is one of the two. -/
theorem LinkInv.lock_call_read (h : LinkInv cfg s)
    (hphase : (s.thread tid).log.current_phase = .READ)
    {call : Except Failure (CallResult × rw_lock_table)} (hcall : s.lock_call tid = some call) :
    ((s.thread tid).point = .read_lock ∧ call = s.lt.rdlock tid (s.thread tid).log.i) ∨
      ((s.thread tid).point = .read_wait ∧ call = s.lt.rdlock_awake tid (s.thread tid).log.i) := by
  have hlog : ¬ (s.thread tid).idle → (s.thread tid).point ≠ .exited →
      (s.thread tid).point.phase = .READ := by
    intro hbusy hexited
    rw [← (h.log tid hbusy).phase hexited, hphase]
  unfold Program.lock_call at hcall
  cases hp : (s.thread tid).point <;> simp only [hp, Option.some.injEq, reduceCtorEq] at hcall
  case read_lock => exact .inl ⟨rfl, hcall.symm⟩
  case read_wait => exact .inr ⟨rfl, hcall.symm⟩
  all_goals simp [Thread.idle, hp, Point.phase] at hlog

end first

/-- **The first request of a transaction is never refused.**  The search of
    `rdlock`, whose success alone leads to `rdlock_clear_abort`, finds no cycle;
    the call is granted or sleeps, and is granted later.  So `rollback` is never
    called in phase `READ`. -/
theorem first_request_never_refused {cfg : Config} {s : Program}
    (h : Reachable (transactions cfg) s) {tid : ℕ} (ht : 1 ≤ tid ∧ tid < cfg.N) :
    ((s.thread tid).point = .read_lock →
      (s.lt.enqueued ⟨tid, .READ⟩ (s.thread tid).log.i).is_deadlock_exist tid = .ok (false, []) ∧
      ∃ result lt, s.lt.rdlock tid (s.thread tid).log.i = .ok (result, lt) ∧
        result ≠ .returned false) ∧
    ((s.thread tid).point = .read_wait →
      ∃ result lt, s.lt.rdlock_awake tid (s.thread tid).log.i = .ok (result, lt) ∧
        result ≠ .returned false) ∧
    (s.rolls_back cfg tid → (s.thread tid).log.current_phase ≠ .READ) := by
  have hlink := link_inv_reachable h
  refine ⟨fun hp => hlink.read_lock_ok ht hp, fun hp => hlink.read_wait_ok hp, ?_⟩
  intro hroll hphase
  rcases hroll with ⟨lt, hcall⟩ | ⟨hp, -⟩
  · rcases hlink.lock_call_read hphase hcall with ⟨hp, hrefused⟩ | ⟨hp, hrefused⟩
    · -- The call that `rollback` follows has returned false, but this one cannot.
      obtain ⟨-, result, lt', hok, hne⟩ := hlink.read_lock_ok ht hp
      rw [← hrefused] at hok
      cases hok
      exact hne rfl
    · obtain ⟨result, lt', hok, hne⟩ := hlink.read_wait_ok hp
      rw [← hrefused] at hok
      cases hok
      exact hne rfl
  · -- The commit comes after the writes.
    have hcommit := (hlink.log tid (by simp [Thread.idle, hp])).phase (by simp [hp])
    rw [hphase, hp] at hcommit
    cases hcommit

/-- Thread 2 asks to read record 1, which thread 1 has locked to write: the search for a
    cycle finds none, and the request sleeps. -/
theorem first_request_behind_writer :
    ∃ s : Program, (s.thread 2).point = .read_lock ∧ (s.thread 2).log.i = 1 ∧
      s.lt.record_wait_queues 1 = [⟨1, .FIRST_WRITE⟩] ∧
      (s.lt.enqueued ⟨2, .READ⟩ (s.thread 2).log.i).is_deadlock_exist 2 = .ok (false, []) ∧
      ∃ result lt, s.lt.rdlock 2 (s.thread 2).log.i = .ok (result, lt) ∧
        result ≠ .returned false := by
  obtain ⟨s, hreach, h⟩ := reachable_run duo_config
    (List.replicate 4 duo_first ++ [duo_second])
    (fun s => decide ((s.thread 2).point = .read_lock ∧ (s.thread 2).log.i = 1 ∧
      s.lt.record_wait_queues 1 = [⟨1, .FIRST_WRITE⟩]))
    (by decide +kernel)
  obtain ⟨hp, hi, hqueue⟩ := of_decide_eq_true h
  exact ⟨s, hp, hi, hqueue, (first_request_never_refused hreach ⟨by decide, by decide⟩).1 hp⟩

/-! ## Section 4: The values before the writes -/

/-- What the observer notes at a step of thread `tid`, whose transaction has
    found the values `before`. -/
def Program.note (s : Program) (tid : ℕ) (before : ℕ → Option (BitVec 64)) :
    ℕ → Option (BitVec 64) :=
  let log := (s.thread tid).log
  match (s.thread tid).point with
  -- A new transaction has written nothing.
  | .loop_head => fun _ => none
  | .store_j => Function.update before log.j (some (s.records log.j))
  | .store_k => Function.update before log.k (some (s.records log.k))
  | _ => before

/-- The program, and for each thread the records that its transaction has
    written, with the value just before the write. -/
structure Traced where
  program : Program
  before  : ℕ → ℕ → Option (BitVec 64)

def trace (cfg : Config) : System Traced (ℕ × ℕ × ℕ × ℕ) where
  init := fun w => (transactions cfg).init w.program ∧ w.before = fun _ _ => none
  step := fun w l w' =>
    (transactions cfg).step w.program l w'.program ∧
      w'.before = Function.update w.before l.1 (w.program.note l.1 (w.before l.1))

/-- The observer has noted the committed values of the dirty records. -/
def noted (S : ℕ → BitVec 64) (th : Thread) (before : ℕ → Option (BitVec 64)) : Prop :=
  ∀ r, before r = if r ∈ th.dirty then some (S r) else none

section noted
variable {cfg : Config} {S : ℕ → BitVec 64} {s s' : Program} {tid i j k : ℕ}
  {before : ℕ → Option (BitVec 64)}

theorem noted.congr {th th' : Thread} (h : noted S th before) (hdirty : th'.dirty = th.dirty) :
    noted S th' before := by
  intro r
  rw [hdirty]
  exact h r

/-- One more record is written. -/
theorem noted.store {th th' : Thread} (h : noted S th before) {r : ℕ} {v : BitVec 64}
    (hv : v = S r) (hdirty : ∀ x, x ∈ th'.dirty ↔ x = r ∨ x ∈ th.dirty) :
    noted S th' (Function.update before r (some v)) := by
  intro x
  by_cases hx : x = r
  · subst hx
    rw [Function.update_self, if_pos ((hdirty x).mpr (.inl rfl)), hv]
  · rw [Function.update_of_ne hx, h x]
    simp [hdirty, hx]

/-- A step of a thread, for its own notes.  The committed records may only
    change when the transaction ends. -/
theorem noted.own_step (hdata : DataInv cfg S s)
    (h : ¬ (s.thread tid).idle → noted S (s.thread tid) before)
    (hstep : thread_step cfg s tid i j k s') (hbusy : ¬ (s'.thread tid).idle) :
    noted S (s'.thread tid) (s.note tid before) := by
  unfold thread_step at hstep
  unfold Program.note
  have hheld := fun r p => hdata.read_committed tid r p
  cases hp : (s.thread tid).point with
  | loop_head =>
    rw [hp] at hstep
    rcases hstep with ⟨-, -, rfl⟩ | ⟨-, rfl⟩
    · intro r
      simp [Program.begin_transaction, Program.set_thread, Thread.dirty]
    · exact absurd (.inr (by simp [Program.resume])) hbusy
  | read_lock | read_wait | first_lock | first_wait | second_lock | second_wait =>
    rw [hp] at hstep
    have hnow := h (by simp [Thread.idle, hp])
    rcases Program.lock_section_cases hstep with ⟨lt, -, rfl⟩ | ⟨lt, -, rfl⟩ | ⟨lt, sh, -, -, rfl⟩
    · exact hnow.congr (by simp [Program.resume, Thread.dirty, hp])
    · exact hnow.congr (by simp [Program.resume, Thread.dirty, hp])
    · exact absurd (.inl (by simp [Program.resume])) hbusy
  | read_i =>
    rw [hp] at hstep
    subst hstep
    exact (h (by simp [Thread.idle, hp])).congr
      (by simp [Program.read_i, Program.set_thread, Thread.dirty, hp])
  | old_j | old_k =>
    rw [hp] at hstep
    subst hstep
    exact (h (by simp [Thread.idle, hp])).congr
      (by simp [Program.read_old, Program.set_thread, Thread.dirty, hp])
  | load_j | load_k =>
    rw [hp] at hstep
    subst hstep
    exact (h (by simp [Thread.idle, hp])).congr
      (by simp [Program.load, Program.set_thread, Thread.dirty, hp])
  | store_j =>
    rw [hp] at hstep
    subst hstep
    -- The record is locked and not dirty, so its value is the committed one.
    refine (h (by simp [Thread.idle, hp])).store (hheld _ .FIRST_WRITE ?_ ?_) ?_
    · simp [Thread.holds, hp]
    · simp [Thread.dirty, hp]
    · simp [Program.store, Program.set_thread, Thread.dirty, hp]
  | store_k =>
    rw [hp] at hstep
    subst hstep
    have hids := hdata.link.ids tid (by simp [hp]) (by simp [hp])
    refine (h (by simp [Thread.idle, hp])).store (hheld _ .SECOND_WRITE ?_ ?_) ?_
    · simp [Thread.holds, hp]
    · simp [Thread.dirty, hp, hids.k_ne_j]
    · simp [Program.store, Program.set_thread, Thread.dirty, hp, or_comm]
  | result_j =>
    rw [hp] at hstep
    have hphase := (hdata.link.log tid (by simp [Thread.idle, hp])).phase (by simp [hp])
    rw [hp] at hphase
    subst hstep
    apply (h (by simp [Thread.idle, hp])).congr
    unfold Program.result_j
    dsimp only
    split <;> simp [Program.exit, Program.set_thread, Thread.dirty, hp, hphase, Point.phase]
  | result_k =>
    rw [hp] at hstep
    have hphase := (hdata.link.log tid (by simp [Thread.idle, hp])).phase (by simp [hp])
    rw [hp] at hphase
    subst hstep
    apply (h (by simp [Thread.idle, hp])).congr
    unfold Program.result_k
    dsimp only
    split <;> simp [Program.exit, Program.set_thread, Thread.dirty, hp, hphase, Point.phase]
  | commit =>
    rw [hp] at hstep
    rcases Program.commit_cases hstep with ⟨-, sh, -, rfl⟩ | ⟨-, sh, -, rfl⟩
    · exact absurd (.inr (by simp [Program.resume])) hbusy
    · exact absurd (.inl (by simp [Program.resume])) hbusy
  | terminated | exited =>
    rw [hp] at hstep
    exact absurd hstep id

end noted

/-- The notes of the running transactions, where the committed records are
    those of the replay. -/
structure TraceInv (cfg : Config) (w : Traced) : Prop where
  data  : DataInv cfg (replay_records initial_records w.program.committed) w.program
  notes : ∀ t, ¬ (w.program.thread t).idle →
    noted (replay_records initial_records w.program.committed) (w.program.thread t) (w.before t)

theorem trace_inv_init {cfg : Config} {w : Traced} (h : (trace cfg).init w) :
    TraceInv cfg w := by
  refine ⟨(history_inv_init h.1).data, ?_⟩
  intro t hbusy
  obtain ⟨⟨-, -, -, hthread, -⟩, -⟩ := h
  rw [hthread] at hbusy
  exact absurd (.inl rfl) hbusy

theorem TraceInv.step {cfg : Config} {w w' : Traced} (h : TraceInv cfg w) {tid i j k : ℕ}
    (ht : 1 ≤ tid ∧ tid < cfg.N) (hstep : thread_step cfg w.program tid i j k w'.program)
    (hbefore : w'.before =
      Function.update w.before tid (w.program.note tid (w.before tid))) : TraceInv cfg w' := by
  obtain ⟨hdata, th, hthread⟩ := h.data.replay_step ht hstep
  refine ⟨hdata, ?_⟩
  intro t hbusy
  rw [hbefore]
  by_cases htt : t = tid
  · subst htt
    rw [Function.update_self]
    have hown := noted.own_step h.data (h.notes t) hstep hbusy
    rcases committed_cases hstep with hsame | ⟨-, hidle, -⟩
    · rwa [hsame]
    · exact absurd hidle hbusy
  · -- The records that another thread has written are locked, so they are not committed.
    have hother : w'.program.thread t = w.program.thread t := by
      rw [hthread, Function.update_of_ne htt]
    rw [Function.update_of_ne htt]
    rw [hother] at hbusy ⊢
    intro r
    rw [h.notes t hbusy r]
    by_cases hr : r ∈ (w.program.thread t).dirty
    · obtain ⟨p, -, hheld⟩ := Thread.writes_of_dirty hr
      rw [if_pos hr, if_pos hr, committed_frame h.data hstep htt (p, r) hheld]
    · rw [if_neg hr, if_neg hr]

theorem trace_inv_reachable {cfg : Config} {w : Traced} (h : Reachable (trace cfg) w) :
    TraceInv cfg w := by
  apply h.invariant
  · intro w hinit
    exact trace_inv_init hinit
  · intro w l w' _ hinv hstep
    obtain ⟨tid, i, j, k⟩ := l
    obtain ⟨⟨-, hpos, hlt, hstep⟩, hbefore⟩ := hstep
    exact hinv.step ⟨hpos, hlt⟩ hstep hbefore

/-! ## Section 5: What is left after a rollback -/

/-- The entries of all threads but `tid`, in their order, are the same. -/
def keeps_others (tid : ℕ) (lt lt' : rw_lock_table) : Prop :=
  ∀ r, (lt'.record_wait_queues r).filter (fun e => e.tid ≠ tid) =
    (lt.record_wait_queues r).filter (fun e => e.tid ≠ tid)

section undo
variable {sh sh' : Shared} {log : log_t}

theorem keeps_others.trans {tid : ℕ} {lt₁ lt₂ lt₃ : rw_lock_table}
    (h₁ : keeps_others tid lt₁ lt₂) (h₂ : keeps_others tid lt₂ lt₃) : keeps_others tid lt₁ lt₃ :=
  fun r => (h₂ r).trans (h₁ r)

theorem Shared.unlock_unless_others {refused : phase_t} {r : ℕ}
    (h : sh.unlock_unless log refused r = .ok sh') : keeps_others log.tid sh.lt sh'.lt := by
  unfold Shared.unlock_unless at h
  split at h
  · cases h
    exact fun _ => rfl
  · exact rw_lock_table.unlock_keeps_others (Shared.unlock_eq h).1

theorem Shared.rollback_second_write_others (h : sh.rollback_second_write log = .ok sh') :
    keeps_others log.tid sh.lt sh'.lt := by
  obtain ⟨sh₁, h₁, hret⟩ := bind_eq_ok h
  cases hret
  have hunlock := Shared.unlock_unless_others h₁
  exact hunlock

/-- The last two cases of the switch. -/
theorem Shared.rollback_locks_others
    (h : (do let sh ← sh.rollback_first_write log; sh.rollback_read log) = .ok sh') :
    keeps_others log.tid sh.lt sh'.lt := by
  obtain ⟨sh₁, h₁, h₂⟩ := bind_eq_ok h
  exact (Shared.unlock_unless_others h₁).trans (Shared.unlock_unless_others h₂)

theorem Shared.rollback_others (h : sh.rollback log = .ok sh') :
    keeps_others log.tid sh.lt sh'.lt := by
  unfold Shared.rollback at h
  cases hphase : log.current_phase <;> rw [hphase] at h
  case INVALID => cases h
  case READ => exact Shared.unlock_unless_others h
  case FIRST_WRITE => exact Shared.rollback_locks_others h
  case SECOND_WRITE =>
    obtain ⟨sh₁, h₁, h₂⟩ := bind_eq_ok h
    exact (Shared.rollback_second_write_others h₁).trans (Shared.rollback_locks_others h₂)
  case COMMIT =>
    -- `rollback_commit` only writes a record.
    obtain ⟨sh₀, h₀, h⟩ := bind_eq_ok h
    have hlt : sh₀.lt = sh.lt := by
      cases h₀
      rfl
    obtain ⟨sh₁, h₁, h₂⟩ := bind_eq_ok h
    rw [← hlt]
    have hsecond := Shared.rollback_second_write_others h₁
    have hlocks := Shared.rollback_locks_others h₂
    exact hsecond.trans hlocks

end undo

/-- What a step that calls `rollback` does. -/
theorem LinkInv.rollback_step {cfg : Config} {s s' : Program} (h : LinkInv cfg s)
    {tid i j k : ℕ} (ht : 1 ≤ tid ∧ tid < cfg.N) (hstep : thread_step cfg s tid i j k s')
    (hroll : s.rolls_back cfg tid) :
    (s.thread tid).point.can_abort ∧ keeps_others tid s.lt s'.lt ∧
      s'.records = undone s.records (s.thread tid).log ∧
      ∃ th, th.idle ∧ s'.thread = Function.update s.thread tid th := by
  rcases hroll with ⟨lt, hcall⟩ | ⟨hp, hlate⟩
  · obtain ⟨w, rfl⟩ := h.signal_of_refused ht hcall
    obtain ⟨hp, acquired, asleep, hsection⟩ := hstep.lock_section hcall
    have htid : (s.thread tid).log.tid = tid := by
      apply (h.log tid ?_).tid
      rintro (hpt | hpt) <;> simp [hpt, Point.can_abort] at hp
    rcases Program.lock_section_cases hsection with ⟨_, hc, -⟩ | ⟨_, hc, -⟩ | ⟨lt, sh, hc, hsh, rfl⟩
    · cases hc
    · cases hc
    · cases hc
      have hothers := Shared.rollback_others hsh
      rw [htid] at hothers
      have hrecords := Shared.rollback_records hsh
      refine ⟨hp, hothers, hrecords, _, ?_, rfl⟩
      exact .inl rfl
  · unfold thread_step at hstep
    rw [hp] at hstep
    have htid := (h.log tid (by simp [Thread.idle, hp])).tid
    rcases Program.commit_cases hstep with ⟨-, sh, hsh, rfl⟩ | ⟨hle, -⟩
    · have hothers := Shared.rollback_others hsh
      have hrecords := Shared.rollback_records hsh
      refine ⟨by rw [hp]; rfl, ?_, hrecords, _, .inr rfl, rfl⟩
      intro r
      have hr := hothers r
      simp only [htid] at hr
      exact hr
    · omega

/-- What a step of thread `tid` that rolls its transaction back leaves. -/
structure RolledBack (w w' : Traced) (tid : ℕ) : Prop where
  /-- A record that the transaction has written is as it was before the write. -/
  restored  : ∀ r v, w.before tid r = some v → w'.program.records r = v
  untouched : ∀ r, w.before tid r = none → w'.program.records r = w.program.records r
  no_entry  : ∀ r, ∀ e ∈ w'.program.lt.record_wait_queues r, e.tid ≠ tid
  no_edge   : ∀ u, ¬ w'.program.lt.wait_for_graph.edge tid u ∧
    ¬ w'.program.lt.wait_for_graph.edge u tid
  /-- The other entries stay, in their order. -/
  order     : ∀ r, w'.program.lt.record_wait_queues r =
    (w.program.lt.record_wait_queues r).filter (fun e => e.tid ≠ tid)
  /-- What was granted to others stays granted, and the status word says so. -/
  granted   : ∀ u, u ≠ tid → ∀ p r, (p, r) ∈ (w.program.thread u).holds →
    (p, r) ∈ (w'.program.thread u).holds ∧ ⟨u, p⟩ ∈ w'.program.lt.record_wait_queues r ∧
      w'.program.lt.table r = if p = .READ then .RW_READER_LOCK else .RW_WRITER_LOCK

/-- The queue entry and the status word of a held lock. -/
theorem linked.held_entry {cfg : Config} {lt : rw_lock_table} {state : ℕ → CallState}
    {holds : ℕ → List (phase_t × ℕ)} (h : linked cfg lt state holds) {t r : ℕ} {p : phase_t}
    (hheld : (p, r) ∈ holds t) :
    ⟨t, p⟩ ∈ lt.record_wait_queues r ∧
      lt.table r = if p = .READ then .RW_READER_LOCK else .RW_WRITER_LOCK := by
  obtain ⟨c, hc, rfl, rfl, hgranted⟩ := h
  have hinv := lock_inv_reachable hc
  have hg : ⟨t, p⟩ ∈ c.granted r := (hgranted r ⟨t, p⟩).mpr hheld
  refine ⟨((hinv.holder.granted_iff r _).mp hg).1, ?_⟩
  by_cases hread : p = .READ
  · rw [if_pos hread]
    exact (hinv.holder.status r).reader ⟨_, hg, is_writer_eq_false.mpr hread⟩
  · rw [if_neg hread]
    exact (hinv.holder.status r).writer.mpr ⟨_, hg, is_writer_eq_true.mpr hread⟩

theorem linked.no_edge {cfg : Config} {lt : rw_lock_table} {state : ℕ → CallState}
    {holds : ℕ → List (phase_t × ℕ)} (h : linked cfg lt state holds) {t : ℕ}
    (hnone : ∀ r, t ∉ (lt.record_wait_queues r).map wait_q_elem_t.tid) (u : ℕ) :
    ¬ lt.wait_for_graph.edge t u ∧ ¬ lt.wait_for_graph.edge u t := by
  obtain ⟨c, hc, rfl, -⟩ := h
  have hinv := lock_inv_reachable hc
  constructor
  · intro hedge
    obtain ⟨r, ht, -⟩ := hinv.entries_of_edge hedge
    exact hnone r ht
  · intro hedge
    obtain ⟨r, -, ht⟩ := hinv.entries_of_edge hedge
    exact hnone r ht

section rollback
variable {cfg : Config} {w w' : Traced} {tid i j k : ℕ}

/-- The records after a rollback: where the observer has noted a value, that value. -/
theorem TraceInv.undone_records (h : TraceInv cfg w) (hp : (w.program.thread tid).point.can_abort)
    (r : ℕ) : undone w.program.records (w.program.thread tid).log r =
      (w.before tid r).getD (w.program.records r) := by
  have hbusy : ¬ (w.program.thread tid).idle := by
    rintro (hpt | hpt) <;> simp [hpt, Point.can_abort] at hp
  have hlog := h.data.link.log tid hbusy
  have hphase := hlog.phase (fun hpt => by simp [hpt, Point.can_abort] at hp)
  rw [undone_eq (h.data.thread tid) hlog.ids hphase hp, h.notes tid hbusy r]
  by_cases hr : r ∈ (w.program.thread tid).dirty
  · rw [if_pos hr, if_pos hr]
    rfl
  · rw [if_neg hr, if_neg hr]
    rfl

theorem TraceInv.rolled_back (h : TraceInv cfg w) (ht : 1 ≤ tid ∧ tid < cfg.N)
    (hstep : thread_step cfg w.program tid i j k w'.program)
    (hroll : w.program.rolls_back cfg tid) : Project2.RolledBack w w' tid := by
  obtain ⟨hp, hothers, hrecords, th, hidle, hthread⟩ := h.data.link.rollback_step ht hstep hroll
  have hlink := h.data.link.step ht hstep
  have hundone := h.undone_records hp
  have hself : w'.program.thread tid = th := by rw [hthread, Function.update_self]
  have hrun : (w'.program.thread tid).call_state = .running := by
    rw [hself]
    rcases hidle with hpt | hpt <;> simp [Thread.call_state, hpt]
  have hholds : (w'.program.thread tid).holds = [] := by
    rw [hself]
    rcases hidle with hpt | hpt <;> simp [Thread.holds, hpt]
  have hnone := hlink.link.no_entry hrun hholds
  have hentry : ∀ r, ∀ e ∈ w'.program.lt.record_wait_queues r, e.tid ≠ tid := by
    rintro r e he rfl
    exact hnone r (List.mem_map_of_mem he)
  refine ⟨?_, ?_, hentry, hlink.link.no_edge hnone, ?_, ?_⟩
  · intro r v hv
    rw [hrecords, hundone, hv]
    rfl
  · intro r hv
    rw [hrecords, hundone, hv]
    rfl
  · -- The thread has no entry left, so filtering the new queue changes nothing.
    intro r
    rw [← hothers r, eq_comm, List.filter_eq_self]
    intro e he
    simpa using hentry r e he
  · intro u hu p r hheld
    have hsame : w'.program.thread u = w.program.thread u := by
      rw [hthread, Function.update_of_ne hu]
    rw [← hsame] at hheld
    exact ⟨hheld, hlink.link.held_entry hheld⟩

/-- A step of a thread changes only records that its transaction has written. -/
theorem TraceInv.records_step (h : TraceInv cfg w) (ht : 1 ≤ tid ∧ tid < cfg.N)
    (hstep : thread_step cfg w.program tid i j k w'.program) (r : ℕ)
    (hnone : w.program.note tid (w.before tid) r = none) :
    w'.program.records r = w.program.records r := by
  by_cases hroll : w.program.rolls_back cfg tid
  · obtain ⟨hp, -, hrecords, -⟩ := h.data.link.rollback_step ht hstep hroll
    have hbefore : w.before tid r = none := by
      unfold Program.note at hnone
      cases hpt : (w.program.thread tid).point <;> simp only [hpt, Point.can_abort] at hp hnone <;>
        first | exact hnone | cases hp
    rw [hrecords, h.undone_records hp, hbefore]
    rfl
  · unfold thread_step at hstep
    unfold Program.note at hnone
    have hgranted := fun lt hcall => hroll (.inl ⟨lt, hcall⟩)
    unfold Program.lock_call at hgranted
    cases hpt : (w.program.thread tid).point <;> simp only [hpt] at hstep hnone hgranted
    case loop_head =>
      rcases hstep with ⟨-, -, hs⟩ | ⟨-, hs⟩ <;> rw [hs] <;> rfl
    case read_lock | read_wait | first_lock | first_wait | second_lock | second_wait =>
      rcases Program.lock_section_cases hstep with ⟨lt, -, hs⟩ | ⟨lt, -, hs⟩ | ⟨lt, sh, hc, -⟩
      · rw [hs]
        rfl
      · rw [hs]
        rfl
      · exact absurd (congrArg some hc) (hgranted lt)
    case store_j | store_k =>
      rw [hstep]
      refine Function.update_of_ne ?_ _ _
      rintro rfl
      rw [Function.update_self] at hnone
      cases hnone
    case result_j =>
      rw [hstep]
      unfold Program.result_j
      dsimp only
      split <;> rfl
    case result_k =>
      rw [hstep]
      unfold Program.result_k
      dsimp only
      split <;> rfl
    case commit =>
      rcases Program.commit_cases hstep with ⟨hlate, -⟩ | ⟨-, sh, hsh, hs⟩
      · exact absurd (.inr ⟨hpt, hlate⟩) hroll
      · rw [hs]
        exact congrFun (Shared.release_locks_records hsh) r
    case terminated | exited => exact absurd hstep id
    all_goals
      rw [hstep]
      rfl

end rollback

/-- **A rollback leaves no trace.**  A thread changes only records that its
    transaction has written since it began; and when it calls `rollback`, these
    have their values from before the writes, its entries and edges are gone, and
    the entries and locks of all others are as before. -/
theorem rollback_leaves_no_trace {cfg : Config} {w w' : Traced} (h : Reachable (trace cfg) w)
    {tid i j k : ℕ} (hstep : (trace cfg).step w (tid, i, j, k) w') :
    (∀ r, w'.before tid r = none → w'.program.records r = w.program.records r) ∧
    (w.program.rolls_back cfg tid → RolledBack w w' tid) := by
  have hinv := trace_inv_reachable h
  obtain ⟨⟨-, hpos, hlt, hmove⟩, hbefore⟩ := hstep
  constructor
  · intro r hnone
    rw [hbefore, Function.update_self] at hnone
    exact hinv.records_step ⟨hpos, hlt⟩ hmove r hnone
  · intro hroll
    exact hinv.rolled_back ⟨hpos, hlt⟩ hmove hroll

/-- The step with a given label, and what the observer notes. -/
def Traced.next (cfg : Config) (w : Traced) (l : ℕ × ℕ × ℕ × ℕ) : Option Traced :=
  (w.program.next cfg l).map fun s' =>
    ⟨s', Function.update w.before l.1 (w.program.note l.1 (w.before l.1))⟩

theorem trace_step_of_next {cfg : Config} {w w' : Traced} {l : ℕ × ℕ × ℕ × ℕ}
    (h : w.next cfg l = some w') : (trace cfg).step w l w' := by
  obtain ⟨s', hs', rfl⟩ := Option.map_eq_some_iff.mp h
  exact ⟨step_of_next hs', rfl⟩

/-- After two commits, thread 2 reads record 0, and thread 1 goes through a third
    transaction, for which it is too late. -/
def late_commit : List (ℕ × ℕ × ℕ × ℕ) :=
  two_commits ++ List.replicate 2 (2, 0, 1, 2) ++ List.replicate 13 duo_first

/-- A transaction that is too late to commit has written two records; they get their old
    values back, and the other thread keeps its lock. -/
theorem rollback_late_commit :
    ∃ w w' : Traced, Reachable (trace duo_config) w ∧ (w.program.thread 1).point = .commit ∧
      w.program.records 1 = 504 ∧ w.before 1 1 = some 201 ∧ w.before 1 2 = some (-201) ∧
      (phase_t.READ, 0) ∈ (w.program.thread 2).holds ∧ RolledBack w w' 1 := by
  obtain ⟨w, hreach, h⟩ : ∃ w, Reachable (trace duo_config) w ∧ _ :=
    Reachable.exec_any (fun _ _ _ => trace_step_of_next)
      (s := ⟨Program.start duo_config, fun _ _ => none⟩)
      ⟨⟨rfl, fun _ => rfl, rfl, fun _ => rfl, fun _ => rfl, rfl, rfl⟩, rfl⟩ late_commit
      (fun w => decide ((w.program.thread 1).point = .commit ∧
        duo_config.E < (w.program.global_execution_order + 1) % 2 ^ 64 ∧
        w.program.records 1 = 504 ∧ w.before 1 1 = some 201 ∧ w.before 1 2 = some (-201) ∧
        (phase_t.READ, 0) ∈ (w.program.thread 2).holds ∧ (w.next duo_config duo_first).isSome))
      (by decide +kernel)
  obtain ⟨hp, hlate, hrecord, hone, htwo, hheld, hnext⟩ := of_decide_eq_true h
  obtain ⟨w', hw'⟩ := Option.isSome_iff_exists.mp hnext
  have hlast := rollback_leaves_no_trace hreach (trace_step_of_next hw')
  exact ⟨w, w', hreach, hp, hrecord, hone, htwo, hheld, hlast.2 (.inr ⟨hp, hlate⟩)⟩

end Project2
