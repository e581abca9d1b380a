import ConcurrentProgramming.Project2.LockInvariant
import Mathlib.Order.Interval.Finset.Nat

/-! # Properties of the Lock Table

    What the invariant says about every reachable state and every call, in the
    words of the table itself:

    * the wait-for graph is what the queues dictate;
    * a call is refused exactly on a real deadlock;
    * nobody sleeps without a conflicting entry ahead, unless it was signalled;
    * exclusion, status words and counts;
    * no assertion fails.

    The last two depend on `readers_count` not wrapping around, that is, on
    there being fewer than `2 ^ 32` clients.
-/

namespace Project2

open LTS LockQueue Clients

/-! ## Section 1: Blocked threads -/

/-- `t` is blocked by `u`: on some record both have an entry, that of `u` is
    ahead, and one of the two is a write. -/
def blocked_by_on (queues : ℕ → List wait_q_elem_t) (t u : ℕ) : Prop :=
  ∃ r a b, [a, b].Sublist (queues r) ∧ a.tid = u ∧ b.tid = t ∧
    (a.current_phase ≠ .READ ∨ b.current_phase ≠ .READ)

theorem blocked_by_on_iff {queues : ℕ → List wait_q_elem_t} {t u : ℕ} :
    blocked_by_on queues t u ↔
      ∃ r, blocked_by wait_q_elem_t.tid is_writer (queues r) t u := by
  simp only [blocked_by_on, blocked_by, is_writer_eq_true]

/-- The stored edges reach the same threads as the full conflict relation. -/
theorem LockInv.cycle_iff {N R : ℕ} {s : Clients} (h : LockInv N R s) {e : wait_q_elem_t}
    {r : ℕ} (hreq : MayRequest N R s e.tid r) :
    Relation.TransGen (s.lt.enqueued e r).wait_for_graph.edge e.tid e.tid ↔
      Relation.TransGen (blocked_by_on (Function.update s.lt.record_wait_queues r
        (s.lt.record_wait_queues r ++ [e]))) e.tid e.tid := by
  have hnd := arrive_nodup h.graph.mgr.nodup hreq.no_entry
  have hedge : (s.lt.enqueued e r).wait_for_graph.edge =
      waits wait_q_elem_t.tid is_writer (arrive s.lt.record_wait_queues r e) := by
    funext x y
    exact propext (h.graph.edge_enqueued_iff hreq.running x y)
  have hblocked : blocked_by_on (Function.update s.lt.record_wait_queues r
      (s.lt.record_wait_queues r ++ [e])) = fun t u => ∃ r',
        blocked_by wait_q_elem_t.tid is_writer (arrive s.lt.record_wait_queues r e r') t u := by
    funext x y
    exact propext blocked_by_on_iff
  rw [hedge, hblocked]
  exact transGen_waits_iff hnd e.tid e.tid

/-! ## Section 2: Building runs -/

/-- A permitted request that points to nobody can be made and is granted. -/
theorem reachable_enter {N R : ℕ} {s : Clients} (h : Reachable (lock_clients N R) s)
    {e : wait_q_elem_t} {r : ℕ} (hreq : MayRequest N R s e.tid r)
    (hphase : request_phase e.current_phase)
    (hedges : edges_of (s.lt.record_wait_queues r ++ [e]) e.tid = []) :
    ∃ s', Reachable (lock_clients N R) s' ∧
      s'.lt.record_wait_queues = arrive s.lt.record_wait_queues r e ∧
      s'.state = s.state ∧ s'.granted = arrive s.granted r e := by
  have hinv := lock_inv_reachable h
  obtain ⟨tid, phase⟩ := e
  let s' := s.after_call ⟨tid, phase⟩ r (.returned true)
    ((s.lt.set_queue r (s.lt.record_wait_queues r ++ [⟨tid, phase⟩])).acquire ⟨tid, phase⟩ r)
  refine ⟨s', ?_, ?_, hreq.update_running, rfl⟩
  · by_cases hread : phase = .READ
    · subst hread
      exact h.step (l := (tid, ClientCall.rdlock r))
        ⟨hreq, _, _, (hinv.rdlock_spec hreq).grant hedges, rfl⟩
    · have hwrite : phase = .FIRST_WRITE ∨ phase = .SECOND_WRITE := by
        simpa [request_phase, hread] using hphase
      exact h.step (l := (tid, ClientCall.wrlock phase r))
        ⟨hreq, hwrite, _, _, (hinv.wrlock_spec hreq hwrite).grant hedges, rfl⟩
  · show (rw_lock_table.acquire _ _ _).record_wait_queues = _
    rw [rw_lock_table.acquire_queues]
    rfl

/-- A permitted write request that points to somebody, without a cycle, can be
    made and sleeps. -/
theorem reachable_wait {N R : ℕ} {s : Clients} (h : Reachable (lock_clients N R) s)
    (tid r : ℕ) (phase : phase_t) (hreq : MayRequest N R s tid r)
    (hphase : phase = .FIRST_WRITE ∨ phase = .SECOND_WRITE)
    (hedges : edges_of (s.lt.record_wait_queues r ++ [⟨tid, phase⟩]) tid ≠ [])
    (hcycle : ¬ Relation.TransGen (blocked_by_on (Function.update s.lt.record_wait_queues r
      (s.lt.record_wait_queues r ++ [⟨tid, phase⟩]))) tid tid) :
    ∃ s', Reachable (lock_clients N R) s' ∧
      s'.lt.record_wait_queues = arrive s.lt.record_wait_queues r ⟨tid, phase⟩ ∧
      s'.state = Function.update s.state tid (.asleep phase r) ∧
      s'.granted = s.granted ∧ s'.lt.cond_var tid = .waiting := by
  have hinv := lock_inv_reachable h
  have hcall := (hinv.wrlock_spec hreq hphase).sleep hedges
    (fun hloop => hcycle ((hinv.cycle_iff (e := ⟨tid, phase⟩) hreq).mp hloop))
  refine ⟨_, h.step (l := (tid, ClientCall.wrlock phase r)) ⟨hreq, hphase, _, _, hcall, rfl⟩,
    rfl, rfl, rfl, ?_⟩
  simp [Clients.after_call, rw_lock_table.cond_wait]

/-- The table and the clients before any call. -/
def Clients.start (N : ℕ) : Clients where
  lt := rw_lock_table.init N
  state := fun _ => .running
  granted := fun _ => []

theorem reachable_start (N R : ℕ) : Reachable (lock_clients N R) (Clients.start N) :=
  Reachable.init ⟨rfl, fun _ => rfl, fun _ => rfl⟩

/-- Client 1 holds record 0 and sleeps for record 1, which client 2 holds. -/
theorem reachable_opposite_order :
    ∃ s, Reachable (lock_clients 3 2) s ∧
      s.lt.record_wait_queues 0 = [⟨1, .FIRST_WRITE⟩] ∧
      s.lt.record_wait_queues 1 = [⟨2, .FIRST_WRITE⟩, ⟨1, .SECOND_WRITE⟩] ∧
      s.state 1 = .asleep .SECOND_WRITE 1 ∧ s.state 2 = .running ∧
      s.granted 1 = [⟨2, .FIRST_WRITE⟩] ∧ s.lt.cond_var 1 = .waiting := by
  have hstart : ∀ r, (Clients.start 3).lt.record_wait_queues r = [] := fun _ => rfl
  obtain ⟨s₁, h₁, hq₁, hs₁, hg₁⟩ := reachable_enter (reachable_start 3 2)
    (e := ⟨1, .FIRST_WRITE⟩) (r := 0)
    ⟨by decide, by decide, by decide, rfl, by simp [hstart]⟩ (.inr (.inl rfl)) rfl
  have hq₁0 : s₁.lt.record_wait_queues 0 = [⟨1, .FIRST_WRITE⟩] := by simp [hq₁, hstart]
  have hq₁1 : ∀ r, r ≠ 0 → s₁.lt.record_wait_queues r = [] := by
    intro r hr
    rw [hq₁, arrive_ne _ _ hr, hstart]
  obtain ⟨s₂, h₂, hq₂, hs₂, hg₂⟩ := reachable_enter h₁ (e := ⟨2, .FIRST_WRITE⟩) (r := 1)
    ⟨by decide, by decide, by decide, by rw [hs₁]; rfl, by simp [hq₁1]⟩ (.inr (.inl rfl))
    (by rw [hq₁1 1 (by decide)]; rfl)
  have hq₂0 : s₂.lt.record_wait_queues 0 = [⟨1, .FIRST_WRITE⟩] := by simp [hq₂, hq₁0]
  have hq₂1 : s₂.lt.record_wait_queues 1 = [⟨2, .FIRST_WRITE⟩] := by simp [hq₂, hq₁1]
  have hq₂2 : ∀ r, r ≠ 0 → r ≠ 1 → s₂.lt.record_wait_queues r = [] := by
    intro r hr₀ hr₁
    rw [hq₂, arrive_ne _ _ hr₁, hq₁1 r hr₀]
  -- Nobody waits for client 1 yet, so its second request closes no cycle.
  have hcycle : ¬ Relation.TransGen (blocked_by_on (Function.update s₂.lt.record_wait_queues 1
      (s₂.lt.record_wait_queues 1 ++ [⟨1, .SECOND_WRITE⟩]))) 1 1 := by
    intro hloop
    obtain ⟨t, -, r, a, b, hsub, ha, -, -⟩ := Relation.TransGen.tail'_iff.mp hloop
    by_cases hr₁ : r = 1
    · subst hr₁
      rw [Function.update_self, hq₂1] at hsub
      have hfront : a = ⟨2, .FIRST_WRITE⟩ := by
        have hlen := hsub.eq_of_length (by rfl)
        simp only [List.cons_append, List.nil_append, List.cons.injEq] at hlen
        exact hlen.1
      rw [hfront] at ha
      cases ha
    · rw [Function.update_of_ne hr₁] at hsub
      have hlen := hsub.length_le
      by_cases hr₀ : r = 0
      · rw [hr₀, hq₂0] at hlen
        simp at hlen
      · rw [hq₂2 r hr₀ hr₁] at hlen
        simp at hlen
  obtain ⟨s₃, h₃, hq₃, hs₃, hg₃, hc₃⟩ := reachable_wait h₂ 1 1 .SECOND_WRITE
    ⟨by decide, by decide, by decide, by rw [hs₂, hs₁]; rfl, by simp [hq₂1]⟩ (.inr rfl)
    (by rw [hq₂1]; decide) hcycle
  refine ⟨s₃, h₃, ?_, ?_, ?_, ?_, ?_, hc₃⟩
  · rw [hq₃, arrive_ne _ _ (by decide), hq₂0]
  · rw [hq₃, arrive_self, hq₂1]
    rfl
  · simp [hs₃]
  · simp [hs₃, hs₂, hs₁, Clients.start]
  · rw [hg₃, hg₂, arrive_self, hg₁, arrive_ne _ _ (by decide)]
    rfl

/-! ## Section 3: The wait-for graph -/

/-- The threads an entry with the queue `front` ahead of it has to wait for: a
    reader for the nearest writer ahead; a writer for the run of readers
    immediately ahead, or for the writer right ahead. -/
def dictated_edges (front : List wait_q_elem_t) (e : wait_q_elem_t) : List ℕ :=
  if e.current_phase = .READ then
    ((front.reverse.find? (fun a => a.current_phase ≠ .READ)).map wait_q_elem_t.tid).toList
  else
    match front.reverse with
    | [] => []
    | a :: ahead =>
      if a.current_phase = .READ then
        ((a :: ahead).takeWhile (fun x => x.current_phase = .READ)).map wait_q_elem_t.tid
      else [a.tid]

theorem dictated_edges_eq (front : List wait_q_elem_t) (e : wait_q_elem_t) :
    dictated_edges front e =
      (blockers is_writer (is_writer e) front.reverse).map wait_q_elem_t.tid := by
  have hfun : (fun x => !is_writer x) =
      fun x : wait_q_elem_t => decide (x.current_phase = .READ) := by
    funext x
    simp [is_writer]
  unfold dictated_edges blockers
  rw [hfun]
  cases hw : is_writer e with
  | false =>
    rw [if_pos (is_writer_eq_false.mp hw)]
    show _ = (front.reverse.find? is_writer).toList.map wait_q_elem_t.tid
    have hpred : is_writer = fun a => decide (a.current_phase ≠ .READ) := rfl
    rw [hpred]
    cases front.reverse.find? (fun a => decide (a.current_phase ≠ .READ)) <;> rfl
  | true =>
    rw [if_neg (is_writer_eq_true.mp hw)]
    cases front.reverse with
    | nil => rfl
    | cons a ahead =>
      cases ha : is_writer a with
      | true => simp [is_writer_eq_true.mp ha, ha]
      | false => simp [is_writer_eq_false.mp ha, ha]

/-- An entry that is not granted belongs to a client that sleeps for it. -/
theorem LockInv.waiting_of_not_granted {N R : ℕ} {s : Clients} (h : LockInv N R s) {r : ℕ}
    {e : wait_q_elem_t} (he : e ∈ s.lt.record_wait_queues r) (hnot : e ∉ s.granted r) :
    s.abs.waiting e.tid = some r := by
  by_contra hwait
  exact hnot ((h.holder.granted_iff r e).mpr ⟨he, hwait⟩)

/-- **The wait-for graph is exactly what the queues dictate.**  A client with an
    ungranted entry stores one edge of count one to each thread that entry has
    to wait for; a client without an ungranted entry stores none. -/
theorem wait_for_graph_dictated {N R : ℕ} {s : Clients}
    (h : Reachable (lock_clients N R) s) (t : ℕ) :
    (∀ r front e behind, s.lt.record_wait_queues r = front ++ e :: behind → e.tid = t →
      e ∉ s.granted r →
        s.lt.wait_for_graph.nodes t = (dictated_edges front e).map (fun u => ⟨u, 1⟩)) ∧
    ((∀ r, ∀ e ∈ s.lt.record_wait_queues r, e.tid = t → e ∈ s.granted r) →
      s.lt.wait_for_graph.nodes t = []) ∧
    (∀ b ∈ s.lt.wait_for_graph.nodes t, b.count = 1) ∧
    ((s.lt.wait_for_graph.nodes t).map (·.dest)).Nodup := by
  have hinv := lock_inv_reachable h
  have hedges := hinv.graph.edges t
  have hdest : (s.lt.wait_for_graph.nodes t).map (·.dest) = s.out_edges t := by
    rw [hedges, List.map_map]
    exact List.map_id _
  refine ⟨?_, ?_, ?_, ?_⟩
  · intro r front e behind hq heq hnot
    subst heq
    have hwait := hinv.waiting_of_not_granted (by simp [hq]) hnot
    have hnd := hinv.graph.mgr.nodup r
    rw [Clients.abs_queue, hq] at hnd
    rw [hedges, out_edges_eq, queue_edges, hwait]
    show (edges_of (s.lt.record_wait_queues r) e.tid).map unit_edge = _
    rw [hq, edges_of_split hnd, ← dictated_edges_eq]
    rfl
  · intro hall
    rw [hedges, out_edges_eq, queue_edges]
    cases hwait : s.abs.waiting t with
    | none => rfl
    | some r =>
      -- A waiting client has an entry that is not granted.
      obtain ⟨e, he, rfl⟩ := List.mem_map.mp (hinv.graph.mgr.waiting_mem t r hwait)
      have := ((hinv.holder.granted_iff r e).mp (hall r e he rfl)).2
      exact absurd hwait this
  · intro b hb
    rw [hedges] at hb
    obtain ⟨u, -, rfl⟩ := List.mem_map.mp hb
    rfl
  · rw [hdest, out_edges_eq, queue_edges]
    cases s.abs.waiting t with
    | none => exact List.nodup_nil
    | some r => exact edges_of_nodup (hinv.graph.mgr.nodup r) t

/-- Client 1 stores one edge, to the holder of record 1. -/
theorem wait_for_graph_opposite_order :
    ∃ s, Reachable (lock_clients 3 2) s ∧ s.lt.wait_for_graph.nodes 1 = [⟨2, 1⟩] := by
  obtain ⟨s, h, -, hq₁, -, -, hg₁, -⟩ := reachable_opposite_order
  exact ⟨s, h, (wait_for_graph_dictated h 1).1 1 [⟨2, .FIRST_WRITE⟩] ⟨1, .SECOND_WRITE⟩ [] hq₁ rfl
    (by simp [hg₁])⟩

/-! ## Section 4: Refusals -/

/-- A lock call that meets its specification returns false exactly on a cycle. -/
theorem returned_false_iff {lt : rw_lock_table} {e : wait_q_elem_t} {r : ℕ}
    {call : Except Failure (CallResult × rw_lock_table)}
    (hspec : rw_lock_table.RequestSpec lt e r call) :
    (∃ lt', call = .ok (.returned false, lt')) ↔
      Relation.TransGen (lt.enqueued e r).wait_for_graph.edge e.tid e.tid := by
  constructor
  · intro h
    obtain ⟨lt', hcall⟩ := h
    by_contra hcycle
    by_cases hedges : edges_of (lt.record_wait_queues r ++ [e]) e.tid = []
    · rw [hspec.grant hedges] at hcall
      simp at hcall
    · rw [hspec.sleep hedges hcycle] at hcall
      simp at hcall
  · intro hcycle
    obtain ⟨w, -, hcall⟩ := hspec.refuse hcycle
    exact ⟨_, hcall⟩

/-- With client 1 as in `reachable_opposite_order`, a request of client 2 for
    record 0 closes a cycle. -/
theorem opposite_order_cycle {queues : ℕ → List wait_q_elem_t}
    (hq₀ : queues 0 = [⟨1, .FIRST_WRITE⟩])
    (hq₁ : queues 1 = [⟨2, .FIRST_WRITE⟩, ⟨1, .SECOND_WRITE⟩]) :
    Relation.TransGen (blocked_by_on (Function.update queues 0
      (queues 0 ++ [⟨2, .SECOND_WRITE⟩]))) 2 2 := by
  refine Relation.TransGen.head (b := 1) ?_ (.single ?_)
  · exact ⟨0, ⟨1, .FIRST_WRITE⟩, ⟨2, .SECOND_WRITE⟩, by simp [hq₀], rfl, rfl, .inl (by decide)⟩
  · exact ⟨1, ⟨2, .FIRST_WRITE⟩, ⟨1, .SECOND_WRITE⟩, by simp [hq₁], rfl, rfl, .inl (by decide)⟩

/-- A call that went to sleep is never refused. -/
theorem LockInv.awake_not_refused {N R : ℕ} {s : Clients} (h : LockInv N R s) {tid r : ℕ}
    {phase : phase_t} (hstate : s.state tid = .asleep phase r) (lt : rw_lock_table) :
    awake_call s.lt tid phase r ≠ .ok (.returned false, lt) := by
  intro hcall
  have hspec := h.awake_spec hstate
  by_cases hedges : edges_of (s.lt.record_wait_queues r) tid = []
  · rw [hspec.grant hedges] at hcall
    simp at hcall
  · rw [hspec.sleep hedges] at hcall
    simp at hcall

/-- **A call is refused exactly on a real deadlock.**  For every permitted call,
    `rdlock` and `wrlock` return false iff the full blocked-by relation, with the
    new entry appended, has a cycle through the caller.  A call that went to
    sleep is never refused later. -/
theorem refused_iff_deadlock {N R : ℕ} {s : Clients} (h : Reachable (lock_clients N R) s) :
    (∀ tid r, MayRequest N R s tid r →
      ((∃ lt, s.lt.rdlock tid r = .ok (.returned false, lt)) ↔
        Relation.TransGen (blocked_by_on (Function.update s.lt.record_wait_queues r
          (s.lt.record_wait_queues r ++ [⟨tid, .READ⟩]))) tid tid) ∧
      (∀ phase, phase = .FIRST_WRITE ∨ phase = .SECOND_WRITE →
        ((∃ lt, s.lt.wrlock tid phase r = .ok (.returned false, lt)) ↔
          Relation.TransGen (blocked_by_on (Function.update s.lt.record_wait_queues r
            (s.lt.record_wait_queues r ++ [⟨tid, phase⟩]))) tid tid))) ∧
    (∀ tid phase r lt, s.state tid = .asleep phase r →
      awake_call s.lt tid phase r ≠ .ok (.returned false, lt)) := by
  have hinv := lock_inv_reachable h
  refine ⟨fun tid r hreq => ⟨?_, fun phase hphase => ?_⟩, ?_⟩
  · rw [returned_false_iff (hinv.rdlock_spec hreq)]
    exact hinv.cycle_iff (e := ⟨tid, .READ⟩) hreq
  · rw [returned_false_iff (hinv.wrlock_spec hreq hphase)]
    exact hinv.cycle_iff (e := ⟨tid, phase⟩) hreq
  · intro tid phase r lt hstate
    exact hinv.awake_not_refused hstate lt

/-- The second request of client 2 is refused. -/
theorem refused_opposite_order :
    ∃ s lt, Reachable (lock_clients 3 2) s ∧ MayRequest 3 2 s 2 0 ∧
      s.lt.wrlock 2 .SECOND_WRITE 0 = .ok (.returned false, lt) := by
  obtain ⟨s, h, hq₀, hq₁, -, hs₂, -, -⟩ := reachable_opposite_order
  have hreq : MayRequest 3 2 s 2 0 :=
    ⟨by decide, by decide, by decide, hs₂, by simp [hq₀]⟩
  have hrefused := (((refused_iff_deadlock h).1 2 0 hreq).2 .SECOND_WRITE (.inr rfl)).mpr
  obtain ⟨lt, hlt⟩ := hrefused (opposite_order_cycle hq₀ hq₁)
  exact ⟨s, lt, h, hreq, hlt⟩

/-- What a refused request of `e` for record `r` leaves behind: everything but
    the condition variables is as before.  The thread signalled is the second
    member of the cycle that the search finds with the request in its queue, and
    it sleeps with an edge to the caller. -/
structure RefusedUnchanged (s : Clients) (e : wait_q_elem_t) (r : ℕ) (lt : rw_lock_table) :
    Prop where
  table         : lt.table = s.lt.table
  readers_count : lt.readers_count = s.lt.readers_count
  queues        : lt.record_wait_queues = s.lt.record_wait_queues
  graph         : lt.wait_for_graph = s.lt.wait_for_graph
  signalled     : ∃ cycle_member w phase r',
    (s.lt.enqueued e r).wait_for_graph.get_cycle e.tid = some cycle_member ∧
    cycle_member[1]? = some w ∧ lt = s.lt.signal w ∧
    s.lt.wait_for_graph.edge w e.tid ∧ s.state w = .asleep phase r'

/-- An edge starts at a client that sleeps. -/
theorem LockInv.asleep_of_edge {N R : ℕ} {s : Clients} (h : LockInv N R s) {t u : ℕ}
    (hedge : s.lt.wait_for_graph.edge t u) : ∃ phase r, s.state t = .asleep phase r := by
  cases hstate : s.state t with
  | asleep phase r => exact ⟨phase, r, rfl⟩
  | running => simp [directed_graph.edge, h.graph.nodes_running hstate] at hedge

/-- A lock call that returned false, by what the search found. -/
theorem LockInv.refused_unchanged {N R : ℕ} {s : Clients} (h : LockInv N R s)
    {e : wait_q_elem_t} {r : ℕ} (hreq : MayRequest N R s e.tid r)
    (hphase : request_phase e.current_phase)
    {call : Except Failure (CallResult × rw_lock_table)}
    (hspec : rw_lock_table.RequestSpec s.lt e r call)
    (hrefuse : ∀ w rest,
      (s.lt.enqueued e r).wait_for_graph.get_cycle e.tid = some (e.tid :: w :: rest) →
      call = .ok (.returned false, s.lt.signal w))
    {lt : rw_lock_table} (hcall : call = .ok (.returned false, lt)) :
    Project2.RefusedUnchanged s e r lt := by
  have hok := h.graph.request_ok hreq hphase
  have hloop := (returned_false_iff hspec).mp ⟨lt, hcall⟩
  obtain ⟨cycle, hcycle, hnil⟩ := hok.get_cycle
  have hne : cycle ≠ [] := fun hempty => hnil.mp hempty hloop
  obtain ⟨w, rest, rfl, hedge⟩ := directed_graph.get_cycle_head hok.graph hcycle hne
  rw [hrefuse w rest hcycle] at hcall
  cases hcall
  -- The edge was there before the request, which stored edges of the caller only.
  have hw : w ≠ e.tid := by
    intro heq
    rw [heq] at hedge
    exact hok.graph.no_loop _ hedge
  have hnodes : (s.lt.enqueued e r).wait_for_graph.nodes w = s.lt.wait_for_graph.nodes w :=
    directed_graph.set_edges_ne _ _ hw
  have hold : s.lt.wait_for_graph.edge w e.tid := by
    unfold directed_graph.edge
    rw [← hnodes]
    exact hedge
  obtain ⟨phase, r', hasleep⟩ := h.asleep_of_edge hold
  exact ⟨rfl, rfl, rfl, rfl, _, w, phase, r', hcycle, rfl, rfl, hold, hasleep⟩

/-- **A refused request changes nothing** but wakes a thread that waits for the
    caller.  A call is refused only before it sleeps. -/
theorem refused_request_unchanged {N R : ℕ} {s : Clients} (h : Reachable (lock_clients N R) s) :
    (∀ tid r, MayRequest N R s tid r →
      (∀ lt, s.lt.rdlock tid r = .ok (.returned false, lt) →
        RefusedUnchanged s ⟨tid, .READ⟩ r lt) ∧
      (∀ phase lt, phase = .FIRST_WRITE ∨ phase = .SECOND_WRITE →
        s.lt.wrlock tid phase r = .ok (.returned false, lt) →
        RefusedUnchanged s ⟨tid, phase⟩ r lt)) ∧
    (∀ tid phase r lt, s.state tid = .asleep phase r →
      awake_call s.lt tid phase r ≠ .ok (.returned false, lt)) := by
  have hinv := lock_inv_reachable h
  refine ⟨?_, ?_⟩
  · intro tid r hreq
    refine ⟨?_, ?_⟩
    · intro lt hcall
      have hok := hinv.graph.request_ok hreq (.inl rfl)
      exact hinv.refused_unchanged (e := ⟨tid, .READ⟩) hreq (.inl rfl) (hinv.rdlock_spec hreq)
        (fun _ _ => rw_lock_table.rdlock_eq_refuse hok) hcall
    · intro phase lt hphase hcall
      have hok := hinv.graph.request_ok hreq (.inr hphase)
      exact hinv.refused_unchanged (e := ⟨tid, phase⟩) hreq (.inr hphase)
        (hinv.wrlock_spec hreq hphase) (fun _ _ => rw_lock_table.wrlock_eq_refuse hok hphase) hcall
  · intro tid phase r lt hstate
    exact hinv.awake_not_refused hstate lt

/-- The second request of client 2 is refused, and client 1 is signalled. -/
theorem refused_request_opposite_order :
    ∃ s lt, Reachable (lock_clients 3 2) s ∧ MayRequest 3 2 s 2 0 ∧
      s.lt.wrlock 2 .SECOND_WRITE 0 = .ok (.returned false, lt) ∧
      RefusedUnchanged s ⟨2, .SECOND_WRITE⟩ 0 lt := by
  obtain ⟨s, h, hq₀, hq₁, -, hs₂, -, -⟩ := reachable_opposite_order
  have hinv := lock_inv_reachable h
  have hreq : MayRequest 3 2 s 2 0 :=
    ⟨by decide, by decide, by decide, hs₂, by simp [hq₀]⟩
  have hspec := hinv.wrlock_spec hreq (.inr (rfl : phase_t.SECOND_WRITE = .SECOND_WRITE))
  obtain ⟨lt, hcall⟩ := (returned_false_iff hspec).mpr
    ((hinv.cycle_iff hreq).mpr (opposite_order_cycle hq₀ hq₁))
  exact ⟨s, lt, h, hreq, hcall,
    ((refused_request_unchanged h).1 2 0 hreq).2 .SECOND_WRITE lt (.inr rfl) hcall⟩

/-! ## Section 5: Wake-ups -/

/-- **No lost wake-up.**  A client that sleeps and was not signalled since it
    went to sleep has a conflicting entry ahead of its own: a writer if it waits
    to read, anybody if it waits to write. -/
theorem sleeper_has_conflict_ahead {N R : ℕ} {s : Clients}
    (h : Reachable (lock_clients N R) s) {t r : ℕ} {phase : phase_t}
    (hstate : s.state t = .asleep phase r) (hcond : s.lt.cond_var t = .waiting) :
    ∃ front behind, s.lt.record_wait_queues r = front ++ ⟨t, phase⟩ :: behind ∧
      (phase = .READ → ∃ w ∈ front, w.current_phase ≠ .READ) ∧
      (phase ≠ .READ → front ≠ []) := by
  have hinv := lock_inv_reachable h
  have hwait := Clients.waiting_asleep hstate
  have hedges := hinv.sleep.wake_up t r hcond hwait
  obtain ⟨front, behind, hq⟩ := List.append_of_mem (hinv.graph.sleeper t phase r hstate)
  refine ⟨front, behind, hq, ?_, ?_⟩
  · intro heq
    subst heq
    by_contra hnone
    apply hedges
    rw [hq, edges_of_split (hq ▸ hinv.graph.mgr.nodup r), is_writer_read,
      List.map_eq_nil_iff, blockers_shared_eq_nil]
    intro x hx
    rw [is_writer_eq_false]
    by_contra hread
    exact hnone ⟨x, List.mem_reverse.mp hx, hread⟩
  · intro _ heq
    subst heq
    apply hedges
    rw [hq, edges_of_split (hq ▸ hinv.graph.mgr.nodup r)]
    simp

/-- Client 1 sleeps behind the holder of record 1. -/
theorem sleeper_opposite_order :
    ∃ s front behind, Reachable (lock_clients 3 2) s ∧ s.lt.cond_var 1 = .waiting ∧
      s.lt.record_wait_queues 1 = front ++ ⟨1, .SECOND_WRITE⟩ :: behind ∧ front ≠ [] := by
  obtain ⟨s, h, -, -, hs₁, -, -, hc₁⟩ := reachable_opposite_order
  obtain ⟨front, behind, hq, -, hne⟩ := sleeper_has_conflict_ahead h hs₁ hc₁
  exact ⟨s, front, behind, h, hc₁, hq, hne (by decide)⟩

/-! ## Section 6: Exclusion and bookkeeping -/

/-- What the status word and the count of record `r` should say: the granted
    requests are one writer or only readers, the count is the number of granted
    readers, the status is right, and `unlock` takes the routine for the mode
    in which the record is held. -/
structure Bookkeeping (s : Clients) (r : ℕ) : Prop where
  exclusion : (∃ e, s.granted r = [e] ∧ e.current_phase ≠ .READ) ∨
    ∀ e ∈ s.granted r, e.current_phase = .READ
  count     : (s.lt.readers_count r).toNat =
    ((s.granted r).filter (fun e => e.current_phase = .READ)).length
  writer    : s.lt.table r = .RW_WRITER_LOCK ↔ ∃ e ∈ s.granted r, e.current_phase ≠ .READ
  reader    : (∃ e ∈ s.granted r, e.current_phase = .READ) → s.lt.table r = .RW_READER_LOCK
  dispatch  : ∀ e ∈ s.granted r, s.lt.unlock e.tid r =
    if e.current_phase = .READ then s.lt.rd_unlock e.tid r else s.lt.wr_unlock e.tid r

theorem readers_eq (held : List wait_q_elem_t) :
    readers held = held.filter (fun e => e.current_phase = .READ) := by
  unfold readers
  congr 1
  funext e
  simp [is_writer]

/-- Everything but the count holds for any number of clients. -/
theorem LockInv.bookkeeping {N R : ℕ} {s : Clients} (h : LockInv N R s) {r : ℕ}
    (hcount : (readers (s.granted r)).length < 2 ^ 32) : Bookkeeping s r := by
  have hstatus := h.holder.status r
  refine ⟨?_, ?_, ?_, ?_, ?_⟩
  · by_cases hw : ∃ e ∈ s.granted r, is_writer e = true
    · obtain ⟨e, he, hwe⟩ := hw
      exact .inl ⟨e, h.granted_writer he hwe, is_writer_eq_true.mp hwe⟩
    · right
      intro e he
      rw [← is_writer_eq_false]
      by_contra hwe
      exact hw ⟨e, he, by simpa using hwe⟩
  · rw [hstatus.count, Nat.mod_eq_of_lt hcount, readers_eq]
  · rw [hstatus.writer]
    simp only [is_writer_eq_true]
  · intro h
    obtain ⟨e, he, hread⟩ := h
    exact hstatus.reader ⟨e, he, is_writer_eq_false.mpr hread⟩
  · intro e he
    rw [h.unlock_dispatch he]
    by_cases hread : e.current_phase = .READ
    · simp [hread, is_writer_eq_false.mpr hread]
    · simp [hread, is_writer_eq_true.mpr hread]

/-- There are fewer granted requests on a record than thread ids. -/
theorem LockInv.granted_length {N R : ℕ} {s : Clients} (h : LockInv N R s) (r : ℕ) :
    (s.granted r).length ≤ N - 1 := by
  have hsub : ((s.granted r).map wait_q_elem_t.tid).toFinset ⊆ Finset.Ico 1 N := by
    intro t ht
    obtain ⟨e, he, rfl⟩ := List.mem_map.mp (List.mem_toFinset.mp ht)
    obtain ⟨hpos, hlt, -⟩ := h.graph.entry r e ((h.holder.granted_iff r e).mp he).1
    exact Finset.mem_Ico.mpr ⟨hpos, hlt⟩
  have hcard := Finset.card_le_card hsub
  rw [List.toFinset_card_of_nodup (h.holder.nodup r), List.length_map, Nat.card_Ico] at hcard
  exact hcard

theorem LockInv.readers_lt {N R : ℕ} {s : Clients} (h : LockInv N R s) (hN : N ≤ 2 ^ 32)
    (r : ℕ) : (readers (s.granted r)).length < 2 ^ 32 := by
  have hfilter : (readers (s.granted r)).length ≤ (s.granted r).length :=
    List.length_filter_le _ _
  have hlen := h.granted_length r
  omega

/-- The readers `1, .., n`. -/
def reader_crowd (n : ℕ) : List wait_q_elem_t :=
  (List.range n).map (fun i => ⟨i + 1, .READ⟩)

/-- Any number of clients can read one record at the same time. -/
theorem reachable_reader_crowd {N R : ℕ} (hR : 0 < R) (n : ℕ) (hn : n < N) :
    ∃ s, Reachable (lock_clients N R) s ∧ s.lt.record_wait_queues 0 = reader_crowd n ∧
      s.granted 0 = reader_crowd n ∧ ∀ t, s.state t = .running := by
  induction n with
  | zero => exact ⟨Clients.start N, reachable_start N R, rfl, rfl, fun _ => rfl⟩
  | succ n ih =>
    obtain ⟨s, h, hq, hg, hs⟩ := ih (by omega)
    have hcrowd : reader_crowd (n + 1) = reader_crowd n ++ [⟨n + 1, .READ⟩] := by
      simp [reader_crowd, List.range_succ]
    have hreq : MayRequest N R s (n + 1) 0 := by
      refine ⟨by omega, hn, hR, hs _, ?_⟩
      rw [hq]
      simp [reader_crowd]
    have hshape := ((lock_inv_reachable h).graph.request_ok hreq (.inl rfl)).edges
    -- Nobody ahead is a writer.
    have hnil : blockers is_writer false (s.lt.record_wait_queues 0).reverse = [] := by
      rw [blockers_shared_eq_nil, hq]
      intro x hx
      obtain ⟨i, -, rfl⟩ := List.mem_map.mp (List.mem_reverse.mp hx)
      rfl
    rw [is_writer_read, hnil] at hshape
    obtain ⟨s', h', hq', hs', hg'⟩ := reachable_enter h (e := ⟨n + 1, .READ⟩) hreq (.inl rfl) hshape
    refine ⟨s', h', ?_, ?_, ?_⟩
    · rw [hq', arrive_self, hq, hcrowd]
    · rw [hg', arrive_self, hg, hcrowd]
    · intro t
      rw [hs', hs]

theorem readers_crowd_length (n : ℕ) : (readers (reader_crowd n)).length = n := by
  have hall : readers (reader_crowd n) = reader_crowd n := by
    rw [readers, List.filter_eq_self]
    intro x hx
    obtain ⟨i, -, rfl⟩ := List.mem_map.mp hx
    rfl
  rw [hall]
  simp [reader_crowd]

/-- With `2 ^ 32` readers the count has wrapped around to zero. -/
theorem reachable_count_wrapped {N R : ℕ} (hR : 0 < R) (hN : 2 ^ 32 < N) :
    ∃ s, Reachable (lock_clients N R) s ∧ s.granted 0 = reader_crowd (2 ^ 32) ∧
      s.lt.readers_count 0 = 0 ∧ ∀ t, s.state t = .running := by
  obtain ⟨s, h, -, hg, hs⟩ := reachable_reader_crowd hR (2 ^ 32) hN
  refine ⟨s, h, hg, ?_, hs⟩
  have hcount := ((lock_inv_reachable h).holder.status 0).count
  rw [hg, readers_crowd_length, Nat.mod_self] at hcount
  exact UInt32.toNat_inj.mp hcount

/-- The wrapped count is not the number of readers. -/
theorem not_bookkeeping_of_wrapped {s : Clients} (hg : s.granted 0 = reader_crowd (2 ^ 32))
    (hcount : s.lt.readers_count 0 = 0) : ¬ Bookkeeping s 0 := by
  intro hbook
  have := hbook.count
  rw [← readers_eq, hg, readers_crowd_length, hcount] at this
  simp at this

/-- **Exclusion and bookkeeping.**  In every reachable state, on every record,
    the granted requests are one writer or only readers and status word and count
    agree with them, if and only if there are fewer than `2 ^ 32` clients (or no
    record at all). -/
theorem bookkeeping_iff (N R : ℕ) :
    (∀ s, Reachable (lock_clients N R) s → ∀ r, r < R → Bookkeeping s r) ↔
      N ≤ 2 ^ 32 ∨ R = 0 := by
  constructor
  · intro hall
    by_contra hnot
    have hR : 0 < R := by omega
    have hN : 2 ^ 32 < N := by omega
    obtain ⟨s, h, hg, hcount, -⟩ := reachable_count_wrapped hR hN
    exact not_bookkeeping_of_wrapped hg hcount (hall s h 0 hR)
  · intro hcase s h r hr
    rcases hcase with hN | rfl
    · have hinv := lock_inv_reachable h
      exact hinv.bookkeeping (hinv.readers_lt hN r)
    · omega

/-- `2 ^ 32` clients read record 0. -/
theorem bookkeeping_fails_reader_crowd :
    ∃ s, Reachable (lock_clients (2 ^ 32 + 1) 1) s ∧ ¬ Bookkeeping s 0 := by
  obtain ⟨s, h, hg, hcount, -⟩ := reachable_count_wrapped (N := 2 ^ 32 + 1) (R := 1)
    Nat.one_pos (Nat.lt_succ_self _)
  exact ⟨s, h, not_bookkeeping_of_wrapped hg hcount⟩

/-! ## Section 7: Assertions -/

/-- Every call that the calling rules permit in `s`, and the rest of every call
    that sleeps in `s`, runs without a failed assertion, an access out of range
    or a search that does not return. -/
structure CallsSucceed (N R : ℕ) (s : Clients) : Prop where
  rdlock : ∀ tid r, MayRequest N R s tid r → ∃ result, s.lt.rdlock tid r = .ok result
  wrlock : ∀ tid phase r, MayRequest N R s tid r →
    (phase = .FIRST_WRITE ∨ phase = .SECOND_WRITE) →
    ∃ result, s.lt.wrlock tid phase r = .ok result
  awake  : ∀ tid phase r, s.state tid = .asleep phase r →
    ∃ result, awake_call s.lt tid phase r = .ok result
  unlock : ∀ tid r, MayUnlock s tid r → ∃ lt, s.lt.unlock tid r = .ok lt

/-- Only `unlock` of a reader depends on the count. -/
theorem LockInv.calls_succeed {N R : ℕ} {s : Clients} (h : LockInv N R s)
    (hcount : ∀ r, (readers (s.granted r)).length < 2 ^ 32) : CallsSucceed N R s := by
  refine ⟨?_, ?_, ?_, ?_⟩
  · intro tid r hreq
    obtain ⟨result, lt, hcall, -⟩ :=
      move_of_request (e := ⟨tid, .READ⟩) hreq (.inl rfl) (h.rdlock_spec hreq)
    exact ⟨_, hcall⟩
  · intro tid phase r hreq hphase
    obtain ⟨result, lt, hcall, -⟩ :=
      move_of_request (e := ⟨tid, phase⟩) hreq (.inr hphase) (h.wrlock_spec hreq hphase)
    exact ⟨_, hcall⟩
  · intro tid phase r hstate
    obtain ⟨result, lt, hcall, -⟩ :=
      move_of_awake (N := N) (R := R) (e := ⟨tid, phase⟩) hstate (h.awake_spec hstate)
    exact ⟨_, hcall⟩
  · intro tid r hmay
    obtain ⟨d, hgranted, rfl⟩ := List.mem_map.mp hmay.holds
    obtain ⟨hmem, hwait⟩ := (h.holder.granted_iff r d).mp hgranted
    obtain ⟨front, behind, hq⟩ := List.append_of_mem hmem
    have hok := h.unlock_ok hmay.running hq
    rw [h.unlock_dispatch hgranted]
    cases hw : is_writer d with
    | true =>
      have hfront : front = [] := (granted_front h.graph.mgr hq hwait).1 hw
      subst hfront
      exact ⟨_, rw_lock_table.wr_unlock_eq hok hw⟩
    | false =>
      -- The leaving reader itself makes the count positive.
      have hpos : 0 < (readers (s.granted r)).length :=
        List.length_pos_of_mem (List.mem_filter.mpr ⟨hgranted, by simp [hw]⟩)
      have hstatus := (h.holder.status r).count
      rw [Nat.mod_eq_of_lt (hcount r)] at hstatus
      have hgt : s.lt.readers_count r > 0 := by
        rw [gt_iff_lt, UInt32.lt_iff_toNat_lt, hstatus]
        exact hpos
      exact ⟨_, rw_lock_table.rd_unlock_eq hok hw hgt⟩

/-- A reader of a wrapped record fails the first assertion of `rd_unlock`. -/
theorem LockInv.unlock_wrapped {N R : ℕ} {s : Clients} (h : LockInv N R s)
    (hg : s.granted 0 = reader_crowd (2 ^ 32)) (hcount : s.lt.readers_count 0 = 0)
    (hs : ∀ t, s.state t = .running) :
    MayUnlock s 1 0 ∧
      s.lt.unlock 1 0 = .error (.assertion .rd_unlock "readers_count[record_id] > 0") := by
  have hgranted : ⟨1, .READ⟩ ∈ s.granted 0 := by
    rw [hg]
    exact List.mem_map.mpr ⟨0, List.mem_range.mpr (Nat.two_pow_pos 32), rfl⟩
  have hdispatch := h.unlock_dispatch hgranted
  rw [is_writer_read] at hdispatch
  refine ⟨⟨hs 1, List.mem_map.mpr ⟨_, hgranted, rfl⟩⟩, hdispatch.trans ?_⟩
  have hzero : ¬ s.lt.readers_count 0 > 0 := by
    rw [hcount]
    decide
  rw [if_neg (by decide), rw_lock_table.rd_unlock, assert, if_neg hzero]
  rfl

/-- **No assertion fails.**  In every reachable state every permitted call runs
    through, if and only if there are fewer than `2 ^ 32` clients (or no record
    at all). -/
theorem calls_succeed_iff (N R : ℕ) :
    (∀ s, Reachable (lock_clients N R) s → CallsSucceed N R s) ↔ N ≤ 2 ^ 32 ∨ R = 0 := by
  constructor
  · intro hall
    by_contra hnot
    have hR : 0 < R := by omega
    have hN : 2 ^ 32 < N := by omega
    obtain ⟨s, h, hg, hcount, hs⟩ := reachable_count_wrapped hR hN
    obtain ⟨hmay, hfail⟩ := (lock_inv_reachable h).unlock_wrapped hg hcount hs
    obtain ⟨lt, hlt⟩ := (hall s h).unlock 1 0 hmay
    rw [hfail] at hlt
    cases hlt
  · intro hcond s h
    have hinv := lock_inv_reachable h
    apply hinv.calls_succeed
    intro r
    rcases hcond with hN | rfl
    · exact hinv.readers_lt hN r
    · -- Without records nothing is granted.
      have hnil : s.granted r = [] := by
        apply List.eq_nil_iff_forall_not_mem.mpr
        intro e he
        have := (hinv.graph.entry r e ((hinv.holder.granted_iff r e).mp he).1).2.2.1
        omega
      simp [hnil, readers]

/-- One of `2 ^ 32` readers of record 0 unlocks it: an assertion fails. -/
theorem assertion_fails_reader_crowd :
    ∃ s, Reachable (lock_clients (2 ^ 32 + 1) 1) s ∧ MayUnlock s 1 0 ∧
      s.lt.unlock 1 0 = .error (.assertion .rd_unlock "readers_count[record_id] > 0") := by
  obtain ⟨s, h, hg, hcount, hs⟩ := reachable_count_wrapped (N := 2 ^ 32 + 1) (R := 1)
    Nat.one_pos (Nat.lt_succ_self _)
  exact ⟨s, h, (lock_inv_reachable h).unlock_wrapped hg hcount hs⟩

end Project2
