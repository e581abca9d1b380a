import ConcurrentProgramming.Framework.ArrivalLog
import ConcurrentProgramming.Project2.LockInvariant

/-! # No Overtaking

    The clients of the lock table with a log for every record: when a request was
    enqueued, refused, granted and released.  The log is written along with the
    calls and nothing depends on it.

    Conflicting requests on one record are granted and released in the order of
    their arrival (`conflicting_requests_in_order`): what is granted has no
    conflicting entry ahead of it in the queue.
-/

namespace Project2

open LTS LockQueue Clients ArrivalLog

/-! ## Section 1: The system -/

/-- The clients with their logs.  Requests are numbered by `calls`; `current` has
    the number of the last request of every client on every record. -/
structure Logged where
  base    : Clients
  calls   : ℕ
  current : ℕ → ℕ → ℕ
  log     : ℕ → List (Event wait_q_elem_t)

/-- What is logged when a part of a lock call has ended with `result`. -/
def outcome (id : ℕ) : CallResult → List (Event wait_q_elem_t)
  | .returned true => [.grant id]
  | .returned false => [.refuse id]
  | .asleep => []

namespace Logged

/-- The state after the first part of a lock call for `e` on `record_id`. -/
def after_request (s : Logged) (e : wait_q_elem_t) (record_id : ℕ) (result : CallResult)
    (lt : rw_lock_table) : Logged where
  base := s.base.after_call e record_id result lt
  calls := s.calls + 1
  current := Function.update s.current record_id
    (Function.update (s.current record_id) e.tid s.calls)
  log := Function.update s.log record_id
    (s.log record_id ++ [.enqueue ⟨s.calls, e⟩] ++ outcome s.calls result)

/-- The state after a later part of this call. -/
def after_awake (s : Logged) (e : wait_q_elem_t) (record_id : ℕ) (result : CallResult)
    (lt : rw_lock_table) : Logged :=
  { s with
    base := s.base.after_call e record_id result lt
    log := Function.update s.log record_id
      (s.log record_id ++ outcome (s.current record_id e.tid) result) }

/-- The state after `tid` has unlocked `record_id`. -/
def after_unlock (s : Logged) (tid record_id : ℕ) (lt : rw_lock_table) : Logged :=
  { s with
    base := s.base.after_unlock tid record_id lt
    log := Function.update s.log record_id
      (s.log record_id ++ [.release (s.current record_id tid)]) }

end Logged

/-- The clients of a table for `N` thread ids and `R` records, with their logs. -/
def logged_clients (N R : ℕ) : System Logged (ℕ × ClientCall) where
  init := fun s => (lock_clients N R).init s.base ∧ s.calls = 0 ∧ ∀ r, s.log r = []
  step := fun s (tid, call) s' =>
    match call with
    | .rdlock r => MayRequest N R s.base tid r ∧
        ∃ result lt, s.base.lt.rdlock tid r = .ok (result, lt) ∧
          s' = s.after_request ⟨tid, .READ⟩ r result lt
    | .wrlock phase r => MayRequest N R s.base tid r ∧
        (phase = .FIRST_WRITE ∨ phase = .SECOND_WRITE) ∧
        ∃ result lt, s.base.lt.wrlock tid phase r = .ok (result, lt) ∧
          s' = s.after_request ⟨tid, phase⟩ r result lt
    | .awake => ∃ phase r, s.base.state tid = .asleep phase r ∧
        ∃ result lt, awake_call s.base.lt tid phase r = .ok (result, lt) ∧
          s' = s.after_awake ⟨tid, phase⟩ r result lt
    | .unlock r => MayUnlock s.base tid r ∧
        ∃ lt, s.base.lt.unlock tid r = .ok lt ∧ s' = s.after_unlock tid r lt

/-- Without the logs these are the clients of the table. -/
theorem logged_step {N R : ℕ} {s s' : Logged} {l : ℕ × ClientCall}
    (h : (logged_clients N R).step s l s') : (lock_clients N R).step s.base l s'.base := by
  obtain ⟨tid, call⟩ := l
  cases call with
  | rdlock r =>
    obtain ⟨hreq, result, lt, hcall, rfl⟩ := h
    exact ⟨hreq, result, lt, hcall, rfl⟩
  | wrlock phase r =>
    obtain ⟨hreq, hphase, result, lt, hcall, rfl⟩ := h
    exact ⟨hreq, hphase, result, lt, hcall, rfl⟩
  | awake =>
    obtain ⟨phase, r, hstate, result, lt, hcall, rfl⟩ := h
    exact ⟨phase, r, hstate, result, lt, hcall, rfl⟩
  | unlock r =>
    obtain ⟨hmay, lt, hcall, rfl⟩ := h
    exact ⟨hmay, lt, hcall, rfl⟩

/-! ## Section 2: The logs belong to the queues -/

/-- The log of record `r` belongs to its queue. -/
def log_kept (s : Logged) (r : ℕ) : Prop :=
  Kept wait_q_elem_t.tid is_writer s.calls (s.current r) (s.log r)
    (s.base.lt.record_wait_queues r) (· ∈ s.base.granted r)

structure LoggedInv (N R : ℕ) (s : Logged) : Prop where
  base : LockInv N R s.base
  kept : ∀ r, log_kept s r

/-- What is granted has no conflicting entry ahead. -/
theorem LockInv.ahead {N R : ℕ} {s : Clients} (h : LockInv N R s) {e : wait_q_elem_t} {r : ℕ}
    (hg : e ∈ s.granted r) (front behind : List wait_q_elem_t)
    (hq : s.lt.record_wait_queues r = front ++ e :: behind) (x : wait_q_elem_t) (hx : x ∈ front) :
    is_writer x = false ∧ is_writer e = false := by
  obtain ⟨-, hwait⟩ := (h.holder.granted_iff r e).mp hg
  obtain ⟨hwriter, hreader⟩ := granted_front h.graph.mgr hq hwait
  cases he : is_writer e with
  | true =>
    rw [hwriter he] at hx
    cases hx
  | false => exact ⟨hreader he x hx, rfl⟩

/-- A step that concerns one record. -/
theorem LoggedInv.of_record {N R : ℕ} {s s' : Logged} (h : LoggedInv N R s) (r : ℕ)
    (hbase : LockInv N R s'.base) (hcalls : s.calls ≤ s'.calls) (hr : log_kept s' r)
    (hothers : ∀ r', r' ≠ r → s'.current r' = s.current r' ∧ s'.log r' = s.log r' ∧
      s'.base.lt.record_wait_queues r' = s.base.lt.record_wait_queues r' ∧
      s'.base.granted r' = s.base.granted r') : LoggedInv N R s' := by
  refine ⟨hbase, fun r' => ?_⟩
  by_cases hr' : r' = r
  · rw [hr']
    exact hr
  · obtain ⟨hcurrent, hlog, hqueue, hgranted⟩ := hothers r' hr'
    unfold log_kept
    rw [hcurrent, hlog, hqueue, hgranted]
    exact (h.kept r').frame hcalls fun _ he => he

/-- The queues after the first part of a lock call: only a refused request is not
    in the queue any more. -/
theorem request_queues {lt lt' : rw_lock_table} {e : wait_q_elem_t} {r : ℕ} {result : CallResult}
    (hspec : rw_lock_table.RequestSpec lt e r (.ok (result, lt'))) :
    lt'.record_wait_queues = if result = .returned false then lt.record_wait_queues
      else arrive lt.record_wait_queues r e := by
  by_cases hcycle : Relation.TransGen (lt.enqueued e r).wait_for_graph.edge e.tid e.tid
  · obtain ⟨w, -, hcall⟩ := hspec.refuse hcycle
    cases hcall
    rfl
  · by_cases hedges : edges_of (lt.record_wait_queues r ++ [e]) e.tid = []
    · cases hspec.grant hedges
      exact rw_lock_table.acquire_queues _ _ _
    · cases hspec.sleep hedges hcycle
      rfl

/-- The queues do not change while a client waits. -/
theorem awake_queues {lt lt' : rw_lock_table} {e : wait_q_elem_t} {r : ℕ} {result : CallResult}
    (hspec : rw_lock_table.AwakeSpec lt e r (.ok (result, lt'))) :
    lt'.record_wait_queues = lt.record_wait_queues ∧ result ≠ .returned false := by
  by_cases hedges : edges_of (lt.record_wait_queues r) e.tid = []
  · cases hspec.grant hedges
    exact ⟨rw_lock_table.acquire_queues _ _ _, by decide⟩
  · cases hspec.sleep hedges
    exact ⟨rfl, by decide⟩

theorem mem_granted_after_call {s : Clients} {e x : wait_q_elem_t} {r : ℕ} {result : CallResult}
    {lt : rw_lock_table} :
    x ∈ (s.after_call e r result lt).granted r ↔
      x ∈ s.granted r ∨ result = .returned true ∧ x = e := by
  unfold Clients.after_call
  by_cases hresult : result = .returned true <;> simp [hresult]

theorem granted_after_call_ne {s : Clients} {e : wait_q_elem_t} {r r' : ℕ} {result : CallResult}
    {lt : rw_lock_table} (hr : r' ≠ r) :
    (s.after_call e r result lt).granted r' = s.granted r' := by
  unfold Clients.after_call
  by_cases hresult : result = .returned true <;> simp [hresult, hr]

section Calls

variable {N R : ℕ} {s : Logged} {e : wait_q_elem_t} {r : ℕ} {result : CallResult}
  {lt : rw_lock_table}

/-- The first part of a lock call. -/
theorem LoggedInv.request (h : LoggedInv N R s) (hreq : MayRequest N R s.base e.tid r)
    (hspec : rw_lock_table.RequestSpec s.base.lt e r (.ok (result, lt)))
    (hbase : LockInv N R (s.after_request e r result lt).base) :
    LoggedInv N R (s.after_request e r result lt) := by
  have hnew := hreq.no_entry
  have hheld : e ∉ s.base.granted r := fun he =>
    h.base.not_granted (.inl hnew) (List.mem_map_of_mem he)
  have hqueues := request_queues hspec
  apply h.of_record r hbase (Nat.le_succ _)
  · change Kept _ _ (s.calls + 1) (Function.update s.current r _ r) (Function.update s.log r _ r)
      (lt.record_wait_queues r) (· ∈ (s.base.after_call e r result lt).granted r)
    rw [Function.update_self, Function.update_self, hqueues]
    simp only [mem_granted_after_call]
    cases result with
    | asleep =>
      rw [if_neg (by decide), arrive_self, outcome, List.append_nil]
      refine ((h.kept r).enqueue hnew hheld).frame le_rfl fun x hx => ?_
      exact hx.resolve_right fun hx => by cases hx.1
    | returned ok =>
      cases ok with
      | false =>
        rw [if_pos rfl, outcome]
        refine ((h.kept r).refuse hnew hheld).frame le_rfl fun x hx => ?_
        exact hx.resolve_right fun hx => by cases hx.1
      | true =>
        have hqueue : lt.record_wait_queues r = s.base.lt.record_wait_queues r ++ [e] := by
          rw [hqueues]
          exact arrive_self _ _ _
        have hahead := hbase.ahead (mem_granted_after_call.mpr (.inr ⟨rfl, rfl⟩))
        have hgrant := ((h.kept r).enqueue hnew hheld).grant
          (List.mem_append_right _ List.mem_cons_self)
          (hqueue ▸ hahead) fun x hx => hx
        rw [Function.update_self] at hgrant
        rw [if_neg (by decide), arrive_self, outcome]
        exact hgrant.frame le_rfl fun x hx => hx.imp_right And.right
  · intro r' hr'
    refine ⟨Function.update_of_ne hr' _ _, Function.update_of_ne hr' _ _, ?_,
      granted_after_call_ne hr'⟩
    change lt.record_wait_queues r' = _
    rw [hqueues]
    split
    · rfl
    · exact arrive_ne _ _ hr'

/-- A later part of a lock call. -/
theorem LoggedInv.awake (h : LoggedInv N R s)
    (hstate : s.base.state e.tid = .asleep e.current_phase r)
    (hspec : rw_lock_table.AwakeSpec s.base.lt e r (.ok (result, lt)))
    (hbase : LockInv N R (s.after_awake e r result lt).base) :
    LoggedInv N R (s.after_awake e r result lt) := by
  have hmem := h.base.graph.sleeper _ _ _ hstate
  obtain ⟨hqueues, hresult⟩ := awake_queues hspec
  apply h.of_record r hbase le_rfl
  · change Kept _ _ s.calls (s.current r) (Function.update s.log r _ r)
      (lt.record_wait_queues r) (· ∈ (s.base.after_call e r result lt).granted r)
    rw [Function.update_self, hqueues]
    simp only [mem_granted_after_call]
    cases result with
    | asleep =>
      rw [outcome, List.append_nil]
      refine (h.kept r).frame le_rfl fun x hx => ?_
      exact hx.resolve_right fun hx => by cases hx.1
    | returned ok =>
      cases ok with
      | false => exact absurd rfl hresult
      | true =>
        have hahead := hbase.ahead (mem_granted_after_call.mpr (.inr ⟨rfl, rfl⟩))
        have hqueue : lt.record_wait_queues r = s.base.lt.record_wait_queues r := by rw [hqueues]
        exact (h.kept r).grant hmem (hqueue ▸ hahead) fun x hx => hx.imp_right And.right
  · intro r' hr'
    refine ⟨rfl, Function.update_of_ne hr' _ _, ?_, granted_after_call_ne hr'⟩
    change lt.record_wait_queues r' = _
    rw [hqueues]

theorem LoggedInv.unlock (h : LoggedInv N R s) {tid : ℕ} (hmay : MayUnlock s.base tid r)
    (hcall : s.base.lt.unlock tid r = .ok lt) : LoggedInv N R (s.after_unlock tid r lt) := by
  have hbase : LockInv N R (s.after_unlock tid r lt).base :=
    (h.base.move_of_unlock hmay hcall).lock_inv h.base
  obtain ⟨d, hd, rfl⟩ := List.mem_map.mp hmay.holds
  obtain ⟨hmem, -⟩ := (h.base.holder.granted_iff r d).mp hd
  have hqueues : lt.record_wait_queues =
      depart wait_q_elem_t.tid s.base.lt.record_wait_queues r d.tid := by
    have hnodup := h.base.graph.mgr.nodup r
    rcases h.base.unlock_cases hmay.running hd hcall with
      ⟨behind, -, hq, rfl⟩ | ⟨front, behind, -, hq, -, rfl⟩
    · rw [rw_lock_table.wr_released_queues]
      exact update_eq_depart [] hq hnodup
    · rw [rw_lock_table.rd_released_queues]
      exact update_eq_depart front hq hnodup
  apply h.of_record r hbase le_rfl
  · change Kept _ _ s.calls (s.current r) (Function.update s.log r _ r) (lt.record_wait_queues r)
      (· ∈ Function.update s.base.granted r _ r)
    rw [Function.update_self, Function.update_self, hqueues, depart_self]
    exact (h.kept r).release hmem hd fun x hx => List.mem_of_mem_filter hx
  · intro r' hr'
    refine ⟨rfl, Function.update_of_ne hr' _ _, ?_, Function.update_of_ne hr' _ _⟩
    change lt.record_wait_queues r' = _
    rw [hqueues, depart_ne _ _ hr']

end Calls

/-- **The logs belong to the queues** in every reachable state. -/
theorem logged_inv_reachable {N R : ℕ} {s : Logged} (h : Reachable (logged_clients N R) s) :
    LoggedInv N R s := by
  refine h.invariant (fun s hinit => ?_) fun s l s' _ hinv hstep => ?_
  · obtain ⟨hbase, hcalls, hlog⟩ := hinit
    refine ⟨lock_inv_init hbase, fun r => ?_⟩
    unfold log_kept
    have hqueue : s.base.lt.record_wait_queues r = [] := by
      rw [hbase.1]
      rfl
    rw [hlog, hqueue]
    exact Kept.start
  · have hbase : LockInv N R s'.base := by
      obtain ⟨tid, call⟩ := l
      exact (hinv.base.move_of_step (logged_step hstep)).lock_inv hinv.base
    obtain ⟨tid, call⟩ := l
    cases call with
    | rdlock r =>
      obtain ⟨hreq, result, lt, hcall, rfl⟩ := hstep
      exact hinv.request hreq (hcall ▸ hinv.base.rdlock_spec hreq) hbase
    | wrlock phase r =>
      obtain ⟨hreq, hphase, result, lt, hcall, rfl⟩ := hstep
      exact hinv.request hreq (hcall ▸ hinv.base.wrlock_spec hreq hphase) hbase
    | awake =>
      obtain ⟨phase, r, hstate, result, lt, hcall, rfl⟩ := hstep
      exact hinv.awake hstate (hcall ▸ hinv.base.awake_spec hstate) hbase
    | unlock r =>
      obtain ⟨hmay, lt, hcall, rfl⟩ := hstep
      exact hinv.unlock hmay hcall

/-- **No overtaking.**  In the log of every record the requests have different
    numbers, in the order of their arrival.  When a request is granted, every
    conflicting request that was enqueued earlier and not refused has already been
    granted and released. -/
theorem conflicting_requests_in_order {N R : ℕ} {s : Logged}
    (h : Reachable (logged_clients N R) s) (r : ℕ) :
    ((arrivals (s.log r)).Pairwise fun q q' => q.id < q'.id) ∧
    ∀ before after id, s.log r = before ++ .grant id :: after →
      (∃ e, .enqueue ⟨id, e⟩ ∈ before) ∧
      ∀ l₁ l₂ q e, before = l₁ ++ .enqueue q :: l₂ → .enqueue ⟨id, e⟩ ∈ l₂ →
        (q.entry.current_phase ≠ .READ ∨ e.current_phase ≠ .READ) → .refuse q.id ∉ before →
        [.grant q.id, .release q.id].Sublist before := by
  have hkept := (logged_inv_reachable h).kept r
  refine ⟨hkept.sorted, fun before after id hlog => ?_⟩
  obtain ⟨harrived, horder⟩ := hkept.order before after id hlog
  refine ⟨harrived, fun l₁ l₂ q e hsplit hlater hconflict => ?_⟩
  rw [← is_writer_eq_true, ← is_writer_eq_true] at hconflict
  exact horder l₁ l₂ q e hsplit hlater hconflict

/-- The clients and their logs before any call. -/
def Logged.start (N : ℕ) : Logged where
  base := ⟨rw_lock_table.init N, fun _ => .running, fun _ => []⟩
  calls := 0
  current := fun _ _ => 0
  log := fun _ => []

/-- Client 2 requests record 0 for reading while client 1 holds it for writing,
    and gets it when client 1 has released it. -/
theorem reader_after_writer :
    ∃ s, Reachable (logged_clients 3 1) s ∧
      s.log 0 = [.enqueue ⟨0, 1, .FIRST_WRITE⟩, .grant 0, .enqueue ⟨1, 2, .READ⟩, .release 0] ++
        [.grant 1] ∧
      [.grant 0, .release 0].Sublist [.enqueue ⟨0, 1, .FIRST_WRITE⟩, .grant 0,
        .enqueue ⟨1, 2, .READ⟩, (.release 0 : Event wait_q_elem_t)] := by
  have h₀ : Reachable (logged_clients 3 1) (Logged.start 3) :=
    .init ⟨⟨rfl, fun _ => rfl, fun _ => rfl⟩, rfl, fun _ => rfl⟩
  have h₁ := h₀.step (l := (1, ClientCall.wrlock .FIRST_WRITE 0))
    ⟨⟨by decide, by decide, by decide, rfl, by decide⟩, .inl rfl, _, _, rfl, rfl⟩
  have h₂ := h₁.step (l := (2, ClientCall.rdlock 0))
    ⟨⟨by decide, by decide, by decide, rfl, by decide⟩, _, _, rfl, rfl⟩
  have h₃ := h₂.step (l := (1, ClientCall.unlock 0)) ⟨⟨rfl, by decide⟩, _, rfl, rfl⟩
  have h₄ := h₃.step (l := (2, ClientCall.awake)) ⟨.READ, 0, rfl, _, _, rfl, rfl⟩
  refine ⟨_, h₄, rfl, ?_⟩
  exact ((conflicting_requests_in_order h₄ 0).2 _ [] 1 rfl).2 []
    [.grant 0, .enqueue ⟨1, 2, .READ⟩, .release 0] ⟨0, 1, .FIRST_WRITE⟩ ⟨2, .READ⟩ rfl (by decide)
    (.inl (by decide)) (by decide)

end Project2
