import ConcurrentProgramming.Project2.UnlockSpec

/-! # Clients of the Lock Table

    Any number of threads call `rdlock`, `wrlock` and `unlock` of one table in
    any order.  A call runs inside `global_mutex`, so it is one step up to its
    return or to `pthread_cond_wait`; a sleeping client may wake up at any time,
    signalled or not.  The clients obey the calling rules: a client requests a
    record only while it has no entry in its queue, makes no call while it
    sleeps, and unlocks only what it was granted.

    The table is shown to be an implementation of the abstract lock manager
    (`clients_simulation`), and one invariant (`LockInv`) ties its queues,
    graph, status words, counts and condition variables together.
-/

namespace Project2

open LTS LockQueue

/-! ## Section 1: The system -/

/-- Where a client is: outside the table, or asleep inside `rdlock` (phase
    `READ`) or `wrlock` (the other phases). -/
inductive CallState where
  | running
  | asleep (phase : phase_t) (record_id : ℕ)
  deriving DecidableEq, Repr

/-- The record a client sleeps for. -/
def CallState.waits_for : CallState → Option ℕ
  | .running => none
  | .asleep _ record_id => some record_id

/-- The table, the clients, and the requests granted and not yet released. -/
structure Clients where
  lt      : rw_lock_table
  state   : ℕ → CallState
  granted : ℕ → List wait_q_elem_t

inductive ClientCall where
  | rdlock (record_id : ℕ)
  | wrlock (phase : phase_t) (record_id : ℕ)
  /-- `pthread_cond_wait` returns, whether or not it was signalled. -/
  | awake
  | unlock (record_id : ℕ)
  deriving DecidableEq, Repr

namespace Clients

/-- The state after a part of a lock call for `e` on `record_id` has ended with `result`. -/
def after_call (s : Clients) (e : wait_q_elem_t) (record_id : ℕ) (result : CallResult)
    (lt : rw_lock_table) : Clients where
  lt := lt
  state := Function.update s.state e.tid
    (match result with
    | .asleep => .asleep e.current_phase record_id
    | .returned _ => .running)
  granted :=
    if result = .returned true then
      Function.update s.granted record_id (s.granted record_id ++ [e])
    else s.granted

/-- The state after `tid` has unlocked `record_id`. -/
def after_unlock (s : Clients) (tid record_id : ℕ) (lt : rw_lock_table) : Clients where
  lt := lt
  state := s.state
  granted := Function.update s.granted record_id
    ((s.granted record_id).filter (fun e => e.tid ≠ tid))

/-- The calling rule of the two lock functions. -/
structure MayRequest (N R : ℕ) (s : Clients) (tid record_id : ℕ) : Prop where
  pos       : 1 ≤ tid
  lt_N      : tid < N
  lt_R      : record_id < R
  running   : s.state tid = .running
  no_entry  : tid ∉ (s.lt.record_wait_queues record_id).map wait_q_elem_t.tid

theorem MayRequest.update_running {N R : ℕ} {s : Clients} {tid r : ℕ}
    (h : MayRequest N R s tid r) : Function.update s.state tid .running = s.state := by
  rw [← h.running, Function.update_eq_self]

/-- The calling rule of `unlock`. -/
structure MayUnlock (s : Clients) (tid record_id : ℕ) : Prop where
  running : s.state tid = .running
  holds   : tid ∈ (s.granted record_id).map wait_q_elem_t.tid

/-- The part of a lock call that runs after a wake-up. -/
def awake_call (lt : rw_lock_table) (tid : ℕ) (phase : phase_t) (record_id : ℕ) :
    Except Failure (CallResult × rw_lock_table) :=
  if phase = .READ then lt.rdlock_awake tid record_id else lt.wrlock_awake tid record_id

end Clients

open Clients

/-- The clients of a table for `N` thread ids and `R` records. -/
def lock_clients (N R : ℕ) : System Clients (ℕ × ClientCall) where
  init := fun s =>
    s.lt = rw_lock_table.init N ∧ (∀ t, s.state t = .running) ∧ (∀ r, s.granted r = [])
  step := fun s (tid, call) s' =>
    match call with
    | .rdlock r => MayRequest N R s tid r ∧
        ∃ result lt, s.lt.rdlock tid r = .ok (result, lt) ∧
          s' = s.after_call ⟨tid, .READ⟩ r result lt
    | .wrlock phase r => MayRequest N R s tid r ∧
        (phase = .FIRST_WRITE ∨ phase = .SECOND_WRITE) ∧
        ∃ result lt, s.lt.wrlock tid phase r = .ok (result, lt) ∧
          s' = s.after_call ⟨tid, phase⟩ r result lt
    | .awake => ∃ phase r, s.state tid = .asleep phase r ∧
        ∃ result lt, awake_call s.lt tid phase r = .ok (result, lt) ∧
          s' = s.after_call ⟨tid, phase⟩ r result lt
    | .unlock r => MayUnlock s tid r ∧
        ∃ lt, s.lt.unlock tid r = .ok lt ∧ s' = s.after_unlock tid r lt

/-! ## Section 2: The invariant -/

namespace Clients

/-- The abstract lock manager a table implements. -/
def abs (s : Clients) : Manager wait_q_elem_t ℕ ℕ where
  queue := s.lt.record_wait_queues
  waiting := fun t => (s.state t).waits_for

@[simp] theorem abs_queue (s : Clients) : s.abs.queue = s.lt.record_wait_queues := rfl

/-- The arrows that the queues dictate for a client. -/
def out_edges (s : Clients) (t : ℕ) : List ℕ :=
  match (s.state t).waits_for with
  | none => []
  | some r => edges_of (s.lt.record_wait_queues r) t

end Clients

/-- Queues and graph. -/
structure GraphInv (N R : ℕ) (s : Clients) : Prop where
  mgr      : ManagerInv wait_q_elem_t.tid is_writer s.abs
  entry    : ∀ r, ∀ e ∈ s.lt.record_wait_queues r, 1 ≤ e.tid ∧ e.tid < N ∧ r < R ∧
    (e.current_phase = .READ ∨ e.current_phase = .FIRST_WRITE ∨ e.current_phase = .SECOND_WRITE)
  sleeper  : ∀ t phase r, s.state t = .asleep phase r → ⟨t, phase⟩ ∈ s.lt.record_wait_queues r
  nodes_eq : s.lt.wait_for_graph.number_of_nodes = N
  edges    : ∀ t, s.lt.wait_for_graph.nodes t = (s.out_edges t).map unit_edge

/-- Condition variables. -/
structure SleepInv (s : Clients) : Prop where
  idle    : ∀ t, s.lt.cond_var t = .idle ↔ s.state t = .running
  wake_up : ∀ t r, s.lt.cond_var t = .waiting → (s.state t).waits_for = some r →
    edges_of (s.lt.record_wait_queues r) t ≠ []

/-- The readers among granted requests. -/
def readers (held : List wait_q_elem_t) : List wait_q_elem_t :=
  held.filter (fun e => !is_writer e)

/-- The status word and the count of a record on which `held` is granted.  The
    status may still be `RW_READER_LOCK` when the last reader has left. -/
structure StatusOk (status : rw_lock_status_t) (count : UInt32) (held : List wait_q_elem_t) :
    Prop where
  valid  : status ≠ .RW_INVALID
  writer : status = .RW_WRITER_LOCK ↔ ∃ e ∈ held, is_writer e = true
  reader : (∃ e ∈ held, is_writer e = false) → status = .RW_READER_LOCK
  count  : count.toNat = (readers held).length % 2 ^ 32

/-- Granted requests, status words and counts. -/
structure HolderInv (s : Clients) : Prop where
  granted_iff : ∀ r e, e ∈ s.granted r ↔ granted wait_q_elem_t.tid s.abs r e
  nodup       : ∀ r, ((s.granted r).map wait_q_elem_t.tid).Nodup
  status      : ∀ r, StatusOk (s.lt.table r) (s.lt.readers_count r) (s.granted r)

/-- The invariant of the lock table. -/
structure LockInv (N R : ℕ) (s : Clients) : Prop where
  graph  : GraphInv N R s
  sleep  : SleepInv s
  holder : HolderInv s

/-! ## Section 3: The stored graph is the graph of the queues -/

theorem edge_iff_mem {g : directed_graph} {x : ℕ} {dests : List ℕ}
    (h : g.nodes x = dests.map unit_edge) (y : ℕ) : g.edge x y ↔ y ∈ dests := by
  simp [directed_graph.edge, h, unit_edge]

/-- A graph whose edges come from queues of known threads can be searched. -/
theorem well_formed_of_waits {g : directed_graph} (queue : ℕ → List wait_q_elem_t)
    (hedge : ∀ x y, g.edge x y → waits wait_q_elem_t.tid is_writer queue x y)
    (hnd : ∀ r, ((queue r).map wait_q_elem_t.tid).Nodup)
    (hlt : ∀ r, ∀ e ∈ queue r, e.tid < g.number_of_nodes) : g.WellFormed := by
  have hmem : ∀ r t, t ∈ (queue r).map wait_q_elem_t.tid → t < g.number_of_nodes := by
    intro r t ht
    obtain ⟨e, he, rfl⟩ := List.mem_map.mp ht
    exact hlt r e he
  refine ⟨?_, ?_, ?_⟩
  · intro x y hxy
    obtain ⟨r, hr⟩ := hedge x y hxy
    apply hmem r
    by_contra hx
    rw [waits_on_not_mem (by simpa using hx)] at hr
    simp at hr
  · intro x y hxy
    obtain ⟨r, hr⟩ := hedge x y hxy
    exact hmem r y (mem_edges_of hr)
  · intro x hx
    obtain ⟨r, hr⟩ := hedge x x hx
    exact not_mem_waits_on_self (by simpa using hnd r) x hr

namespace GraphInv

variable {N R : ℕ} {s : Clients}

/-- The arrows of a client are the arrows of its entries on all records. -/
theorem mem_out_edges (h : GraphInv N R s) (t u : ℕ) :
    u ∈ s.out_edges t ↔ waits wait_q_elem_t.tid is_writer s.lt.record_wait_queues t u := by
  unfold Clients.out_edges
  cases hw : (s.state t).waits_for with
  | none =>
    constructor
    · intro hu
      simp at hu
    · intro h
      obtain ⟨r, hr⟩ := h
      have hclear := h.mgr.clear t r (by simp [Clients.abs, hw])
      simp only [Clients.abs] at hclear
      simp [hclear] at hr
  | some r =>
    constructor
    · intro hu
      exact ⟨r, hu⟩
    · intro h
      obtain ⟨r', hr'⟩ := h
      by_cases hrr : r' = r
      · subst hrr
        exact hr'
      · have hclear := h.mgr.clear t r' (by simp [Clients.abs, hw, Ne.symm hrr])
        simp only [Clients.abs] at hclear
        simp [hclear] at hr'

theorem edge_iff (h : GraphInv N R s) (t u : ℕ) :
    s.lt.wait_for_graph.edge t u ↔
      waits wait_q_elem_t.tid is_writer s.lt.record_wait_queues t u := by
  rw [edge_iff_mem (h.edges t), h.mem_out_edges]

theorem queue_ok (h : GraphInv N R s) (r : ℕ) :
    rw_lock_table.QueueOk N (s.lt.record_wait_queues r) := by
  refine ⟨h.mgr.nodup r, ?_, ?_, ?_⟩
  · intro e he
    exact (h.entry r e he).1
  · intro e he
    exact (h.entry r e he).2.1
  · intro e he
    rcases (h.entry r e he).2.2.2 with hp | hp | hp <;> simp [hp]

/-- A running client stores no edge. -/
theorem nodes_running (h : GraphInv N R s) {t : ℕ} (ht : s.state t = .running) :
    s.lt.wait_for_graph.nodes t = [] := by
  rw [h.edges t]
  simp [Clients.out_edges, ht, CallState.waits_for]

/-- With a new request appended, the stored edges are still those of the queues. -/
theorem edge_enqueued_iff (h : GraphInv N R s) {e : wait_q_elem_t} {r : ℕ}
    (hrun : s.state e.tid = .running) (t u : ℕ) :
    (s.lt.enqueued e r).wait_for_graph.edge t u ↔
      waits wait_q_elem_t.tid is_writer (arrive s.lt.record_wait_queues r e) t u := by
  by_cases ht : t = e.tid
  · subst ht
    have hnodes : (s.lt.enqueued e r).wait_for_graph.nodes e.tid =
        (edges_of (s.lt.record_wait_queues r ++ [e]) e.tid).map unit_edge := by
      simp [rw_lock_table.enqueued]
    rw [edge_iff_mem hnodes]
    constructor
    · intro hu
      refine ⟨r, ?_⟩
      rw [arrive_self]
      exact hu
    · intro h
      obtain ⟨r', hr'⟩ := h
      by_cases hrr : r' = r
      · subst hrr
        rw [arrive_self] at hr'
        exact hr'
      · -- The client runs, so it has no arrow on another record.
        have hclear := h.mgr.clear e.tid r' (by simp [Clients.abs, hrun, CallState.waits_for])
        simp only [Clients.abs] at hclear
        rw [arrive_ne _ _ hrr] at hr'
        simp [hclear] at hr'
  · have hnodes : (s.lt.enqueued e r).wait_for_graph.nodes t = (s.out_edges t).map unit_edge := by
      rw [← h.edges t]
      exact directed_graph.set_edges_ne _ _ ht
    rw [edge_iff_mem hnodes, h.mem_out_edges]
    unfold waits
    simp only [waits_on_arrive ht]

/-- What `rdlock` and `wrlock` rely on holds for every permitted request. -/
theorem request_ok (h : GraphInv N R s) {tid r : ℕ} (hreq : MayRequest N R s tid r)
    {phase : phase_t} (hphase : phase = .READ ∨ phase = .FIRST_WRITE ∨ phase = .SECOND_WRITE) :
    rw_lock_table.RequestOk N s.lt ⟨tid, phase⟩ r := by
  have hnd := arrive_nodup (e := (⟨tid, phase⟩ : wait_q_elem_t)) h.mgr.nodup hreq.no_entry
  have hq := h.queue_ok r
  have hmem : ∀ e ∈ s.lt.record_wait_queues r ++ [⟨tid, phase⟩],
      e ∈ s.lt.record_wait_queues r ∨ e = ⟨tid, phase⟩ := by
    intro e he
    simpa using he
  refine ⟨h.nodes_eq, h.nodes_running hreq.running, ⟨?_, ?_, ?_, ?_⟩, ?_⟩
  · have := hnd r
    rwa [arrive_self] at this
  · intro e he
    rcases hmem e he with he | rfl
    · exact hq.pos e he
    · exact hreq.pos
  · intro e he
    rcases hmem e he with he | rfl
    · exact hq.lt e he
    · exact hreq.lt_N
  · intro e he
    rcases hmem e he with he | rfl
    · exact hq.phase e he
    · rcases hphase with hp | hp | hp <;> simp [hp]
  · apply well_formed_of_waits (arrive s.lt.record_wait_queues r ⟨tid, phase⟩)
    · intro x y hxy
      exact (h.edge_enqueued_iff hreq.running x y).mp hxy
    · exact hnd
    · intro r' e he
      rw [directed_graph.set_edges_number, h.nodes_eq]
      by_cases hr : r' = r
      · subst hr
        rw [arrive_self] at he
        rcases hmem e he with he | rfl
        · exact (h.entry r' e he).2.1
        · exact hreq.lt_N
      · rw [arrive_ne _ _ hr] at he
        exact (h.entry r' e he).2.1

end GraphInv

/-! ## Section 4: What a step can do -/

/-- The phases in which a lock is requested. -/
def request_phase (phase : phase_t) : Prop :=
  phase = .READ ∨ phase = .FIRST_WRITE ∨ phase = .SECOND_WRITE

/-- The seven ways in which a step changes the state. -/
inductive ClientMove (N R : ℕ) (s : Clients) : Clients → Prop where
  /-- A request is granted on arrival. -/
  | enter (e : wait_q_elem_t) (r : ℕ) (hreq : MayRequest N R s e.tid r)
      (hphase : request_phase e.current_phase)
      (hedges : edges_of (s.lt.record_wait_queues r ++ [e]) e.tid = []) :
      ClientMove N R s (s.after_call e r (.returned true)
        ((s.lt.set_queue r (s.lt.record_wait_queues r ++ [e])).acquire e r))
  /-- A request has to wait. -/
  | wait (e : wait_q_elem_t) (r : ℕ) (hreq : MayRequest N R s e.tid r)
      (hphase : request_phase e.current_phase)
      (hedges : edges_of (s.lt.record_wait_queues r ++ [e]) e.tid ≠ [])
      (hcycle : ¬ Relation.TransGen (s.lt.enqueued e r).wait_for_graph.edge e.tid e.tid) :
      ClientMove N R s (s.after_call e r .asleep ((s.lt.enqueued e r).cond_wait e.tid))
  /-- A request is refused. -/
  | refuse (e : wait_q_elem_t) (r w : ℕ) (hreq : MayRequest N R s e.tid r)
      (hphase : request_phase e.current_phase)
      (hcycle : Relation.TransGen (s.lt.enqueued e r).wait_for_graph.edge e.tid e.tid)
      (hw : (s.lt.enqueued e r).wait_for_graph.edge w e.tid) :
      ClientMove N R s (s.after_call e r (.returned false) (s.lt.signal w))
  /-- A woken client is granted. -/
  | grant (e : wait_q_elem_t) (r : ℕ) (hstate : s.state e.tid = .asleep e.current_phase r)
      (hedges : edges_of (s.lt.record_wait_queues r) e.tid = []) :
      ClientMove N R s (s.after_call e r (.returned true)
        ((s.lt.cond_return e.tid).acquire e r))
  /-- A woken client goes back to sleep. -/
  | resleep (e : wait_q_elem_t) (r : ℕ) (hstate : s.state e.tid = .asleep e.current_phase r)
      (hedges : edges_of (s.lt.record_wait_queues r) e.tid ≠ []) :
      ClientMove N R s (s.after_call e r .asleep (s.lt.cond_wait e.tid))
  /-- A writer leaves. -/
  | wr_release (d : wait_q_elem_t) (r : ℕ) (behind : List wait_q_elem_t)
      (hstate : s.state d.tid = .running) (hgranted : d ∈ s.granted r)
      (hwrite : is_writer d = true) (hq : s.lt.record_wait_queues r = d :: behind) :
      ClientMove N R s (s.after_unlock d.tid r (s.lt.wr_released r d.tid behind))
  /-- A reader leaves. -/
  | rd_release (d : wait_q_elem_t) (r : ℕ) (front behind : List wait_q_elem_t)
      (hstate : s.state d.tid = .running) (hgranted : d ∈ s.granted r)
      (hread : is_writer d = false)
      (hq : s.lt.record_wait_queues r = front ++ d :: behind)
      (hcount : s.lt.readers_count r > 0) :
      ClientMove N R s (s.after_unlock d.tid r (s.lt.rd_released r d.tid front behind))

/-- The result of a lock call for a permitted request is one of three moves. -/
theorem move_of_request {N R : ℕ} {s : Clients} {e : wait_q_elem_t} {r : ℕ}
    (hreq : MayRequest N R s e.tid r) (hphase : request_phase e.current_phase)
    {call : Except Failure (CallResult × rw_lock_table)}
    (hspec : rw_lock_table.RequestSpec s.lt e r call) :
    ∃ result lt, call = .ok (result, lt) ∧ ClientMove N R s (s.after_call e r result lt) := by
  by_cases hcycle : Relation.TransGen (s.lt.enqueued e r).wait_for_graph.edge e.tid e.tid
  · obtain ⟨w, hw, hcall⟩ := hspec.refuse hcycle
    exact ⟨_, _, hcall, .refuse e r w hreq hphase hcycle hw⟩
  · by_cases hedges : edges_of (s.lt.record_wait_queues r ++ [e]) e.tid = []
    · exact ⟨_, _, hspec.grant hedges, .enter e r hreq hphase hedges⟩
    · exact ⟨_, _, hspec.sleep hedges hcycle, .wait e r hreq hphase hedges hcycle⟩

/-- The result of the rest of a lock call is one of two moves. -/
theorem move_of_awake {N R : ℕ} {s : Clients} {e : wait_q_elem_t} {r : ℕ}
    (hstate : s.state e.tid = .asleep e.current_phase r)
    {call : Except Failure (CallResult × rw_lock_table)}
    (hspec : rw_lock_table.AwakeSpec s.lt e r call) :
    ∃ result lt, call = .ok (result, lt) ∧ ClientMove N R s (s.after_call e r result lt) := by
  by_cases hedges : edges_of (s.lt.record_wait_queues r) e.tid = []
  · exact ⟨_, _, hspec.grant hedges, .grant e r hstate hedges⟩
  · exact ⟨_, _, hspec.sleep hedges, .resleep e r hstate hedges⟩

/-- Without holders the checks of a writer's grant pass. -/
theorem HolderInv.grant_ok {s : Clients} (h : HolderInv s) {r : ℕ} (hnone : s.granted r = []) :
    rw_lock_table.GrantOk s.lt r := by
  have hstatus := h.status r
  refine ⟨hstatus.valid, ?_, ?_⟩
  · intro hw
    obtain ⟨e, he, -⟩ := hstatus.writer.mp hw
    simp [hnone] at he
  · have hcount := hstatus.count
    simp only [readers, hnone, List.filter_nil, List.length_nil] at hcount
    exact UInt32.toNat_inj.mp (by simpa using hcount)

/-- Nobody holds a record whose queue is empty. -/
theorem HolderInv.granted_nil {s : Clients} (h : HolderInv s) {r : ℕ}
    (hq : s.lt.record_wait_queues r = []) : s.granted r = [] := by
  apply List.eq_nil_iff_forall_not_mem.mpr
  intro e he
  have hmem := ((h.granted_iff r e).mp he).1
  simp [Clients.abs, hq] at hmem

/-- Nobody holds a record while a writer at the front of its queue waits. -/
theorem LockInv.granted_nil {N R : ℕ} {s : Clients} (h : LockInv N R s) {e : wait_q_elem_t}
    {r : ℕ} (hstate : s.state e.tid = .asleep e.current_phase r) (hwrite : is_writer e = true)
    (hedges : edges_of (s.lt.record_wait_queues r) e.tid = []) : s.granted r = [] := by
  obtain ⟨front, behind, hq⟩ := List.append_of_mem (h.graph.sleeper _ _ _ hstate)
  have hfront : front = [] := by
    rw [hq, edges_of_split (hq ▸ h.graph.mgr.nodup r), hwrite] at hedges
    simpa [blockers_excl_eq_nil] using hedges
  subst hfront
  apply List.eq_nil_iff_forall_not_mem.mpr
  intro x hx
  obtain ⟨hmem, hwait⟩ := (h.holder.granted_iff r x).mp hx
  have hne : x ≠ e := by
    intro heq
    subst heq
    exact hwait (by simp [Clients.abs, hstate, CallState.waits_for])
  have hbehind : x ∈ behind := by
    have hmem' : x ∈ s.lt.record_wait_queues r := hmem
    rw [hq] at hmem'
    simpa [hne] using hmem'
  -- The writer would be ahead of a granted entry.
  obtain ⟨l₁, l₂, hl⟩ := List.append_of_mem hbehind
  have hsplit : s.abs.queue r = (e :: l₁) ++ x :: l₂ := by
    show s.lt.record_wait_queues r = _
    rw [hq, hl]
    rfl
  have hahead := granted_front h.graph.mgr hsplit hwait
  cases hxw : is_writer x with
  | true => simpa using hahead.1 hxw
  | false =>
    have := hahead.2 hxw e (by simp)
    simp [hwrite] at this

/-- What an unlock relies on holds for every granted request of a running client. -/
theorem LockInv.unlock_ok {N R : ℕ} {s : Clients} (h : LockInv N R s) {d : wait_q_elem_t}
    {r : ℕ} {front behind : List wait_q_elem_t} (hstate : s.state d.tid = .running)
    (hq : s.lt.record_wait_queues r = front ++ d :: behind) :
    rw_lock_table.UnlockOk N s.lt r front d behind := by
  have hnd := h.graph.mgr.nodup r
  have hclear := h.graph.mgr.clear d.tid r (by simp [Clients.abs, hstate, CallState.waits_for])
  simp only [Clients.abs, hq] at hnd hclear
  rw [waits_on_split hnd] at hclear
  refine ⟨h.graph.nodes_eq, hq, hq ▸ h.graph.queue_ok r, hclear, ?_⟩
  intro e he
  -- A follower that points to `d` must be waiting for this record.
  have hpoints : d.tid ∈ edges_of (front ++ d :: behind) e.tid :=
    (mem_waits_on_iff hnd e.tid).mpr (List.mem_map_of_mem he)
  have hwait : (s.state e.tid).waits_for = some r := by
    by_contra hne
    have hnone := h.graph.mgr.clear e.tid r hne
    simp only [Clients.abs, hq] at hnone
    rw [edges_of, hnone] at hpoints
    simp at hpoints
  rw [h.graph.edges e.tid]
  simp only [Clients.out_edges, hwait, hq]

/-- `rd_unlock` returns only if the count was positive. -/
theorem readers_count_pos_of_rd_unlock {lt lt' : rw_lock_table} {tid r : ℕ}
    (h : lt.rd_unlock tid r = .ok lt') : lt.readers_count r > 0 := by
  by_contra hzero
  rw [rw_lock_table.rd_unlock, assert, if_neg hzero] at h
  cases h

/-- `unlock` of a granted request dispatches to the routine for its mode. -/
theorem LockInv.unlock_dispatch {N R : ℕ} {s : Clients} (h : LockInv N R s)
    {d : wait_q_elem_t} {r : ℕ} (hgranted : d ∈ s.granted r) :
    s.lt.unlock d.tid r =
      if is_writer d then s.lt.wr_unlock d.tid r else s.lt.rd_unlock d.tid r := by
  cases hw : is_writer d with
  | true =>
    have htable := (h.holder.status r).writer.mpr ⟨d, hgranted, hw⟩
    simp [rw_lock_table.unlock, htable]
  | false =>
    have htable := (h.holder.status r).reader ⟨d, hgranted, hw⟩
    simp [rw_lock_table.unlock, htable]

/-- An unlock that returns: a writer leaves from the front, a reader from behind
    other readers. -/
theorem LockInv.unlock_cases {N R : ℕ} {s : Clients} (h : LockInv N R s) {d : wait_q_elem_t}
    {r : ℕ} (hstate : s.state d.tid = .running) (hgranted : d ∈ s.granted r) {lt : rw_lock_table}
    (hcall : s.lt.unlock d.tid r = .ok lt) :
    (∃ behind, is_writer d = true ∧ s.lt.record_wait_queues r = d :: behind ∧
      lt = s.lt.wr_released r d.tid behind) ∨
    ∃ front behind, is_writer d = false ∧ s.lt.record_wait_queues r = front ++ d :: behind ∧
      s.lt.readers_count r > 0 ∧ lt = s.lt.rd_released r d.tid front behind := by
  obtain ⟨hmem, hwait⟩ := (h.holder.granted_iff r d).mp hgranted
  obtain ⟨front, behind, hq⟩ := List.append_of_mem hmem
  have hok := h.unlock_ok hstate hq
  rw [h.unlock_dispatch hgranted] at hcall
  cases hw : is_writer d with
  | true =>
    have hfront : front = [] := (granted_front h.graph.mgr hq hwait).1 hw
    subst hfront
    rw [if_pos hw, rw_lock_table.wr_unlock_eq hok hw] at hcall
    cases hcall
    exact .inl ⟨behind, rfl, hq, rfl⟩
  | false =>
    rw [hw, if_neg (by simp)] at hcall
    have hcount := readers_count_pos_of_rd_unlock hcall
    rw [rw_lock_table.rd_unlock_eq hok hw hcount] at hcall
    cases hcall
    exact .inr ⟨front, behind, rfl, hq, hcount, rfl⟩

/-- An unlock that returns is one of two moves. -/
theorem LockInv.move_of_unlock {N R : ℕ} {s : Clients} (h : LockInv N R s) {tid r : ℕ}
    (hmay : MayUnlock s tid r) {lt : rw_lock_table} (hcall : s.lt.unlock tid r = .ok lt) :
    ClientMove N R s (s.after_unlock tid r lt) := by
  obtain ⟨d, hgranted, rfl⟩ := List.mem_map.mp hmay.holds
  rcases h.unlock_cases hmay.running hgranted hcall with
    ⟨behind, hw, hq, rfl⟩ | ⟨front, behind, hw, hq, hcount, rfl⟩
  · exact .wr_release d r behind hmay.running hgranted hw hq
  · exact .rd_release d r front behind hmay.running hgranted hw hq hcount

/-- The specification of the two lock calls, for a permitted request. -/
theorem LockInv.rdlock_spec {N R : ℕ} {s : Clients} (h : LockInv N R s) {tid r : ℕ}
    (hreq : MayRequest N R s tid r) :
    rw_lock_table.RequestSpec s.lt ⟨tid, .READ⟩ r (s.lt.rdlock tid r) :=
  rw_lock_table.rdlock_spec (h.graph.request_ok hreq (.inl rfl))

theorem LockInv.wrlock_spec {N R : ℕ} {s : Clients} (h : LockInv N R s) {tid r : ℕ}
    (hreq : MayRequest N R s tid r) {phase : phase_t}
    (hphase : phase = .FIRST_WRITE ∨ phase = .SECOND_WRITE) :
    rw_lock_table.RequestSpec s.lt ⟨tid, phase⟩ r (s.lt.wrlock tid phase r) :=
  rw_lock_table.wrlock_spec (h.graph.request_ok hreq (.inr hphase)) hphase
    (fun hq => h.holder.grant_ok (h.holder.granted_nil hq))

/-- The specification of the rest of a lock call, for a sleeping client. -/
theorem LockInv.awake_spec {N R : ℕ} {s : Clients} (h : LockInv N R s) {tid r : ℕ}
    {phase : phase_t} (hstate : s.state tid = .asleep phase r) :
    rw_lock_table.AwakeSpec s.lt ⟨tid, phase⟩ r (awake_call s.lt tid phase r) := by
  have hmem := h.graph.sleeper tid phase r hstate
  by_cases hphase : phase = .READ
  · subst hphase
    rw [awake_call, if_pos rfl]
    exact rw_lock_table.rdlock_awake_spec (h.graph.queue_ok r) hmem
  · have hwrite : is_writer ⟨tid, phase⟩ = true := is_writer_eq_true.mpr hphase
    rw [awake_call, if_neg hphase]
    exact rw_lock_table.wrlock_awake_spec (h.graph.queue_ok r) hmem hwrite
      (fun hedges => h.holder.grant_ok (h.granted_nil hstate hwrite hedges))

/-- **Every step is one of the seven moves.** -/
theorem LockInv.move_of_step {N R : ℕ} {s s' : Clients} (h : LockInv N R s)
    {tid : ℕ} {call : ClientCall} (hstep : (lock_clients N R).step s (tid, call) s') :
    ClientMove N R s s' := by
  cases call with
  | rdlock r =>
    obtain ⟨hreq, result, lt, hcall, rfl⟩ := hstep
    obtain ⟨result', lt', hcall', hmove⟩ :=
      move_of_request (e := ⟨tid, .READ⟩) hreq (.inl rfl) (h.rdlock_spec hreq)
    rw [hcall] at hcall'
    cases hcall'
    exact hmove
  | wrlock phase r =>
    obtain ⟨hreq, hphase, result, lt, hcall, rfl⟩ := hstep
    obtain ⟨result', lt', hcall', hmove⟩ :=
      move_of_request (e := ⟨tid, phase⟩) hreq (.inr hphase) (h.wrlock_spec hreq hphase)
    rw [hcall] at hcall'
    cases hcall'
    exact hmove
  | awake =>
    obtain ⟨phase, r, hstate, result, lt, hcall, rfl⟩ := hstep
    obtain ⟨result', lt', hcall', hmove⟩ :=
      move_of_awake (e := ⟨tid, phase⟩) hstate (h.awake_spec hstate)
    rw [hcall] at hcall'
    cases hcall'
    exact hmove
  | unlock r =>
    obtain ⟨hmay, lt, hcall, rfl⟩ := hstep
    exact h.move_of_unlock hmay hcall

/-! ## Section 5: The table implements the abstract manager -/

namespace rw_lock_table

@[simp] theorem acquire_queues (lt : rw_lock_table) (e : wait_q_elem_t) (r : ℕ) :
    (lt.acquire e r).record_wait_queues = lt.record_wait_queues := by
  unfold acquire
  split <;> rfl

@[simp] theorem acquire_graph (lt : rw_lock_table) (e : wait_q_elem_t) (r : ℕ) :
    (lt.acquire e r).wait_for_graph = lt.wait_for_graph := by
  unfold acquire
  split <;> rfl

@[simp] theorem acquire_cond_var (lt : rw_lock_table) (e : wait_q_elem_t) (r : ℕ) :
    (lt.acquire e r).cond_var = lt.cond_var := by
  unfold acquire
  split <;> rfl

theorem set_queue_append (lt : rw_lock_table) (r : ℕ) (e : wait_q_elem_t) :
    (lt.set_queue r (lt.record_wait_queues r ++ [e])).record_wait_queues =
      arrive lt.record_wait_queues r e := rfl

theorem signal_all_eq (lt : rw_lock_table) (ts : List ℕ) :
    lt.signal_all ts = { lt with cond_var := (lt.signal_all ts).cond_var } := by
  induction ts generalizing lt with
  | nil => rfl
  | cons t ts ih =>
    show (lt.signal t).signal_all ts = _
    rw [ih]
    rfl

@[simp] theorem wr_released_queues (lt : rw_lock_table) (r tid : ℕ) (behind : List wait_q_elem_t) :
    (lt.wr_released r tid behind).record_wait_queues =
      Function.update lt.record_wait_queues r behind := by
  unfold wr_released
  dsimp only
  rw [signal_all_eq]
  rfl

@[simp] theorem rd_released_queues (lt : rw_lock_table) (r tid : ℕ)
    (front behind : List wait_q_elem_t) :
    (lt.rd_released r tid front behind).record_wait_queues =
      Function.update lt.record_wait_queues r (front ++ behind) := by
  unfold rd_released
  dsimp only
  split
  · rw [signal_all_eq]
    rfl
  · rfl

@[simp] theorem wr_released_graph (lt : rw_lock_table) (r tid : ℕ) (behind : List wait_q_elem_t) :
    (lt.wr_released r tid behind).wait_for_graph =
      (lt.drop_edges ((blockers is_writer true behind).map wait_q_elem_t.tid)
        tid).wait_for_graph := by
  unfold wr_released
  dsimp only
  rw [signal_all_eq]
  rfl

@[simp] theorem rd_released_graph (lt : rw_lock_table) (r tid : ℕ)
    (front behind : List wait_q_elem_t) :
    (lt.rd_released r tid front behind).wait_for_graph =
      (lt.drop_edges ((blockers is_writer false behind).map wait_q_elem_t.tid)
        tid).wait_for_graph := by
  unfold rd_released
  dsimp only
  split
  · rw [signal_all_eq]
    rfl
  · rfl

end rw_lock_table

/-- A departure from the middle of a queue. -/
theorem update_eq_depart {queue : ℕ → List wait_q_elem_t} {r : ℕ} {d : wait_q_elem_t}
    (front : List wait_q_elem_t) {behind : List wait_q_elem_t} (hq : queue r = front ++ d :: behind)
    (hnd : ((queue r).map wait_q_elem_t.tid).Nodup) :
    Function.update queue r (front ++ behind) = depart wait_q_elem_t.tid queue r d.tid := by
  rw [depart, hq, filter_owner_split (hq ▸ hnd)]

/-- The abstract manager after a part of a lock call. -/
theorem Clients.abs_after_call (s : Clients) (e : wait_q_elem_t) (r : ℕ) (result : CallResult)
    (lt : rw_lock_table) :
    (s.after_call e r result lt).abs =
      ⟨lt.record_wait_queues, Function.update s.abs.waiting e.tid
        (match result with
        | .asleep => some r
        | .returned _ => none)⟩ := by
  unfold Clients.abs Clients.after_call
  congr 1
  funext t
  by_cases ht : t = e.tid
  · subst ht
    cases result <;> simp [CallState.waits_for]
  · simp [ht]

theorem Clients.waiting_running {s : Clients} {t : ℕ} (h : s.state t = .running) :
    s.abs.waiting t = none := by
  simp [Clients.abs, h, CallState.waits_for]

theorem Clients.waiting_asleep {s : Clients} {t r : ℕ} {phase : phase_t}
    (h : s.state t = .asleep phase r) : s.abs.waiting t = some r := by
  simp [Clients.abs, h, CallState.waits_for]

section refinement
variable {N R : ℕ} {s : Clients}

theorem LockInv.abs_enter {e : wait_q_elem_t} {r : ℕ} (hreq : MayRequest N R s e.tid r)
    (hedges : edges_of (s.lt.record_wait_queues r ++ [e]) e.tid = []) :
    (manager wait_q_elem_t.tid is_writer).step s.abs (.enter e r)
      (s.after_call e r (.returned true)
        ((s.lt.set_queue r (s.lt.record_wait_queues r ++ [e])).acquire e r)).abs := by
  have hrun := Clients.waiting_running hreq.running
  refine ⟨hrun, hreq.no_entry, ?_, ?_⟩
  · rw [arrive_self]
    exact List.map_eq_nil_iff.mp hedges
  · rw [Clients.abs_after_call, ← hrun, Function.update_eq_self, rw_lock_table.acquire_queues]
    rfl

theorem LockInv.abs_wait (h : LockInv N R s) {e : wait_q_elem_t} {r : ℕ}
    (hreq : MayRequest N R s e.tid r)
    (hcycle : ¬ Relation.TransGen (s.lt.enqueued e r).wait_for_graph.edge e.tid e.tid) :
    (manager wait_q_elem_t.tid is_writer).step s.abs (.wait e r)
      (s.after_call e r .asleep ((s.lt.enqueued e r).cond_wait e.tid)).abs := by
  refine ⟨Clients.waiting_running hreq.running, hreq.no_entry, ?_, ?_⟩
  · intro hloop
    apply hcycle
    exact Relation.TransGen.mono
      (fun x y hxy => (h.graph.edge_enqueued_iff hreq.running x y).mpr hxy) _ _ hloop
  · rw [Clients.abs_after_call]
    rfl

theorem LockInv.abs_grant {e : wait_q_elem_t} {r : ℕ}
    (hstate : s.state e.tid = .asleep e.current_phase r)
    (hedges : edges_of (s.lt.record_wait_queues r) e.tid = []) :
    (manager wait_q_elem_t.tid is_writer).step s.abs (.grant e.tid r)
      (s.after_call e r (.returned true) ((s.lt.cond_return e.tid).acquire e r)).abs := by
  refine ⟨Clients.waiting_asleep hstate, List.map_eq_nil_iff.mp hedges, ?_⟩
  rw [Clients.abs_after_call, rw_lock_table.acquire_queues]
  rfl

/-- A refused request leaves the manager alone. -/
theorem LockInv.abs_refuse {e : wait_q_elem_t} {r : ℕ} (hreq : MayRequest N R s e.tid r)
    (w : ℕ) : (s.after_call e r (.returned false) (s.lt.signal w)).abs = s.abs := by
  rw [Clients.abs_after_call, ← Clients.waiting_running hreq.running, Function.update_eq_self]
  rfl

/-- So does a client that goes back to sleep. -/
theorem LockInv.abs_resleep {e : wait_q_elem_t} {r : ℕ}
    (hstate : s.state e.tid = .asleep e.current_phase r) :
    (s.after_call e r .asleep (s.lt.cond_wait e.tid)).abs = s.abs := by
  rw [Clients.abs_after_call, ← Clients.waiting_asleep hstate, Function.update_eq_self]
  rfl

theorem LockInv.abs_release {d : wait_q_elem_t} {r : ℕ} {front behind : List wait_q_elem_t}
    (hstate : s.state d.tid = .running)
    (hq : s.lt.record_wait_queues r = front ++ d :: behind) {lt : rw_lock_table}
    (hlt : lt.record_wait_queues = depart wait_q_elem_t.tid s.lt.record_wait_queues r d.tid) :
    (manager wait_q_elem_t.tid is_writer).step s.abs (.release d.tid r)
      (s.after_unlock d.tid r lt).abs := by
  refine ⟨Clients.waiting_running hstate, ?_, ?_⟩
  · show d.tid ∈ (s.lt.record_wait_queues r).map wait_q_elem_t.tid
    simp [hq]
  · simp only [Clients.abs, Clients.after_unlock, hlt]

/-- The queues after an unlock. -/
theorem LockInv.wr_queues (h : LockInv N R s) {d : wait_q_elem_t} {r : ℕ}
    {behind : List wait_q_elem_t} (hq : s.lt.record_wait_queues r = d :: behind) :
    (s.lt.wr_released r d.tid behind).record_wait_queues =
      depart wait_q_elem_t.tid s.lt.record_wait_queues r d.tid := by
  have hdep := update_eq_depart [] hq (h.graph.mgr.nodup r)
  rw [rw_lock_table.wr_released_queues, ← hdep]
  rfl

theorem LockInv.rd_queues (h : LockInv N R s) {d : wait_q_elem_t} {r : ℕ}
    {front behind : List wait_q_elem_t}
    (hq : s.lt.record_wait_queues r = front ++ d :: behind) :
    (s.lt.rd_released r d.tid front behind).record_wait_queues =
      depart wait_q_elem_t.tid s.lt.record_wait_queues r d.tid := by
  rw [rw_lock_table.rd_released_queues, ← update_eq_depart front hq (h.graph.mgr.nodup r)]

/-- **Refinement.** A move is a step of the abstract manager, or leaves it alone. -/
theorem ClientMove.abs {s' : Clients} (h : LockInv N R s) (hmove : ClientMove N R s s') :
    s'.abs = s.abs ∨ (manager wait_q_elem_t.tid is_writer).next s.abs s'.abs := by
  cases hmove with
  | enter e r hreq _ hedges => exact .inr ⟨_, LockInv.abs_enter hreq hedges⟩
  | wait e r hreq _ _ hcycle => exact .inr ⟨_, h.abs_wait hreq hcycle⟩
  | refuse e r w hreq _ _ _ => exact .inl (LockInv.abs_refuse hreq w)
  | grant e r hstate hedges => exact .inr ⟨_, LockInv.abs_grant hstate hedges⟩
  | resleep e r hstate _ => exact .inl (LockInv.abs_resleep hstate)
  | wr_release d r behind hstate _ _ hq =>
    have hfront : s.lt.record_wait_queues r = [] ++ d :: behind := hq
    exact .inr ⟨_, LockInv.abs_release hstate hfront (h.wr_queues hq)⟩
  | rd_release d r front behind hstate _ _ hq _ =>
    exact .inr ⟨_, LockInv.abs_release hstate hq (h.rd_queues hq)⟩

end refinement

end Project2
