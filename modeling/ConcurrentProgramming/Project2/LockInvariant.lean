import ConcurrentProgramming.Project2.LockClients

/-! # The Lock Table Keeps Its Invariant

    Every move of the clients preserves `LockInv`: first queues and graph, then
    the condition variables, then status words and counts.  Together with the
    refinement of the abstract manager this gives the invariant in every
    reachable state (`lock_inv_reachable`).
-/

namespace Project2

open LTS LockQueue Clients

/-! ## Section 1: Queues and graph -/

/-- The arrows dictated by given queues and waiting clients. -/
def queue_edges (m : Manager wait_q_elem_t ℕ ℕ) (t : ℕ) : List ℕ :=
  match m.waiting t with
  | none => []
  | some r => edges_of (m.queue r) t

theorem out_edges_eq (s : Clients) (t : ℕ) : s.out_edges t = queue_edges s.abs t := rfl

theorem edges_of_arrive {queue : ℕ → List wait_q_elem_t} {r : ℕ} {e : wait_q_elem_t} {t : ℕ}
    (ht : t ≠ e.tid) (r' : ℕ) : edges_of (arrive queue r e r') t = edges_of (queue r') t := by
  rw [edges_of, waits_on_arrive ht]
  rfl

theorem edges_of_depart {queue : ℕ → List wait_q_elem_t} {r d t : ℕ}
    (hnd : ((queue r).map wait_q_elem_t.tid).Nodup) (hclear : edges_of (queue r) d = [])
    (ht : t ≠ d) :
    edges_of (depart wait_q_elem_t.tid queue r d r) t =
      (edges_of (queue r) t).filter (fun u => u ≠ d) := by
  rw [edges_of, waits_on_depart hnd (List.map_eq_nil_iff.mp hclear) ht, edges_of,
    List.filter_map]
  rfl

/-- Who does not wait for a record has no arrow there. -/
theorem GraphInv.edges_nil {N R : ℕ} {s : Clients} (h : GraphInv N R s) {t r : ℕ}
    (ht : s.abs.waiting t ≠ some r) : edges_of (s.lt.record_wait_queues r) t = [] := by
  rw [edges_of]
  exact List.map_eq_nil_iff.mpr (h.mgr.clear t r ht)

/-- The arrows of a waiting thread lose the entry of the running thread that leaves. -/
theorem LockInv.edges_of_leave {N R : ℕ} {s : Clients} (h : LockInv N R s) {d t r : ℕ}
    (hstate : s.state d = .running) (hwait : s.abs.waiting t = some r) :
    edges_of (depart wait_q_elem_t.tid s.lt.record_wait_queues r d r) t =
      (edges_of (s.lt.record_wait_queues r) t).filter (fun u => u ≠ d) := by
  have hnone : s.abs.waiting d = none := Clients.waiting_running hstate
  have htd : t ≠ d := by
    intro heq
    rw [heq, hnone] at hwait
    cases hwait
  exact edges_of_depart (h.graph.mgr.nodup r) (h.graph.edges_nil (by simp [hnone])) htd

/-- Whoever does not point to the leaving entry keeps its arrows. -/
theorem LockInv.edges_of_depart_eq {N R : ℕ} {s : Clients} (h : LockInv N R s)
    {d : wait_q_elem_t} {r : ℕ} {front behind : List wait_q_elem_t}
    (hstate : s.state d.tid = .running)
    (hq : s.lt.record_wait_queues r = front ++ d :: behind) {t r' : ℕ}
    (hwait : s.abs.waiting t = some r')
    (hnot : t ∉ (blockers is_writer (is_writer d) behind).map wait_q_elem_t.tid) :
    edges_of (depart wait_q_elem_t.tid s.lt.record_wait_queues r d.tid r') t =
      edges_of (s.lt.record_wait_queues r') t := by
  by_cases hr : r' = r
  · subst hr
    have hnd : ((s.lt.record_wait_queues r').map wait_q_elem_t.tid).Nodup :=
      h.graph.mgr.nodup r'
    rw [h.edges_of_leave hstate hwait, List.filter_eq_self]
    intro u hu
    have : u ≠ d.tid := by
      intro heq
      subst heq
      rw [hq] at hu hnd
      exact hnot ((mem_waits_on_iff hnd t).mp hu)
    simpa using this
  · rw [depart_ne _ _ hr]

/-- The edges an unlock leaves are the arrows of the shorter queue. -/
theorem LockInv.release_edges {N R : ℕ} {s : Clients} (h : LockInv N R s) {d : wait_q_elem_t}
    {r : ℕ} {front behind : List wait_q_elem_t} (hstate : s.state d.tid = .running)
    (hq : s.lt.record_wait_queues r = front ++ d :: behind) (t : ℕ) :
    (s.lt.drop_edges ((blockers is_writer (is_writer d) behind).map wait_q_elem_t.tid)
        d.tid).wait_for_graph.nodes t =
      (queue_edges ⟨depart wait_q_elem_t.tid s.lt.record_wait_queues r d.tid, s.abs.waiting⟩
        t).map unit_edge := by
  have hnd : ((s.lt.record_wait_queues r).map wait_q_elem_t.tid).Nodup := h.graph.mgr.nodup r
  have hdual : d.tid ∈ edges_of (s.lt.record_wait_queues r) t ↔
      t ∈ (blockers is_writer (is_writer d) behind).map wait_q_elem_t.tid := by
    rw [hq]
    exact mem_waits_on_iff (hq ▸ hnd) t
  have hnodes := h.graph.edges t
  rw [out_edges_eq] at hnodes
  simp only [rw_lock_table.drop_edges]
  cases hwait : s.abs.waiting t with
  | none =>
    have hnil := h.graph.edges_nil (t := t) (r := r) (by simp [hwait])
    rw [if_neg (by rw [← hdual, hnil]; simp), hnodes]
    simp [queue_edges, hwait]
  | some r' =>
    simp only [queue_edges, hwait, Clients.abs_queue] at hnodes ⊢
    split
    · next hpoints =>
      -- Only a thread that waits for the same record points to `d`.
      have hr : r' = r := by
        by_contra hr
        rw [← hdual, h.graph.edges_nil (t := t) (r := r) (by simp [hwait, hr])] at hpoints
        cases hpoints
      subst hr
      rw [h.edges_of_leave hstate hwait, hnodes]
      exact rw_lock_table.filter_unit_edge _ _
    · next hnot => rw [h.edges_of_depart_eq hstate hq hwait hnot, hnodes]

theorem ClientMove.mgr {N R : ℕ} {s s' : Clients} (h : LockInv N R s)
    (hmove : ClientMove N R s s') : ManagerInv wait_q_elem_t.tid is_writer s'.abs := by
  rcases hmove.abs h with habs | ⟨act, hact⟩
  · rw [habs]
    exact h.graph.mgr
  · exact managerInv_step h.graph.mgr hact

/-- No move brings an entry into a queue except that of a permitted request. -/
theorem ClientMove.mem_queue {N R : ℕ} {s s' : Clients} (hmove : ClientMove N R s s') {r : ℕ}
    {x : wait_q_elem_t} (hx : x ∈ s'.lt.record_wait_queues r) :
    x ∈ s.lt.record_wait_queues r ∨
      (MayRequest N R s x.tid r ∧ request_phase x.current_phase) := by
  have harrive : ∀ {e : wait_q_elem_t} {r' : ℕ}, MayRequest N R s e.tid r' →
      request_phase e.current_phase → x ∈ arrive s.lt.record_wait_queues r' e r →
      x ∈ s.lt.record_wait_queues r ∨
        (MayRequest N R s x.tid r ∧ request_phase x.current_phase) := by
    intro e r' hreq hphase hmem
    by_cases hr : r = r'
    · subst hr
      rw [arrive_self, List.mem_append, List.mem_singleton] at hmem
      rcases hmem with hmem | rfl
      · exact .inl hmem
      · exact .inr ⟨hreq, hphase⟩
    · rw [arrive_ne _ _ hr] at hmem
      exact .inl hmem
  have hdepart : ∀ (r' : ℕ) (q : List wait_q_elem_t),
      q ⊆ s.lt.record_wait_queues r' → x ∈ Function.update s.lt.record_wait_queues r' q r →
      x ∈ s.lt.record_wait_queues r := by
    intro r' q hsub hmem
    by_cases hr : r = r'
    · subst hr
      rw [Function.update_self] at hmem
      exact hsub hmem
    · rwa [Function.update_of_ne hr] at hmem
  cases hmove with
  | enter e r' hreq hphase _ =>
    apply harrive hreq hphase
    simpa [Clients.after_call, rw_lock_table.set_queue_append] using hx
  | wait e r' hreq hphase _ _ => exact harrive hreq hphase hx
  | refuse e r' w _ _ _ _ => exact .inl hx
  | grant e r' _ _ =>
    left
    simpa [Clients.after_call, rw_lock_table.cond_return] using hx
  | resleep e r' _ _ => exact .inl hx
  | wr_release d r' behind _ _ _ hq =>
    left
    apply hdepart r' behind
    · rw [hq]
      exact List.subset_cons_self _ _
    · simpa [Clients.after_unlock] using hx
  | rd_release d r' front behind _ _ _ hq _ =>
    left
    apply hdepart r' (front ++ behind)
    · rw [hq]
      intro y hy
      simp only [List.mem_append, List.mem_cons] at hy ⊢
      tauto
    · simpa [Clients.after_unlock] using hx

theorem mem_arrive {queue : ℕ → List wait_q_elem_t} {r : ℕ} {x : wait_q_elem_t}
    (h : x ∈ queue r) (r' : ℕ) (e : wait_q_elem_t) : x ∈ arrive queue r' e r := by
  by_cases hr : r = r'
  · subst hr
    rw [arrive_self]
    exact List.mem_append_left _ h
  · rwa [arrive_ne _ _ hr]

theorem mem_depart_iff {queue : ℕ → List wait_q_elem_t} {r : ℕ} {x : wait_q_elem_t} {d : ℕ}
    (hx : x.tid ≠ d) (r' : ℕ) :
    x ∈ depart wait_q_elem_t.tid queue r' d r ↔ x ∈ queue r := by
  by_cases hr : r = r'
  · subst hr
    simp [hx]
  · rw [depart_ne _ _ hr]

/-- Who sleeps keeps its entry. -/
theorem ClientMove.sleeper {N R : ℕ} {s s' : Clients} (h : LockInv N R s)
    (hmove : ClientMove N R s s') {t r : ℕ} {phase : phase_t}
    (ht : s'.state t = .asleep phase r) : ⟨t, phase⟩ ∈ s'.lt.record_wait_queues r := by
  -- Another client than the caller is asleep before and after the step.
  have hother : ∀ {e : wait_q_elem_t} {c : CallState}, t ≠ e.tid →
      Function.update s.state e.tid c t = .asleep phase r →
      ⟨t, phase⟩ ∈ s.lt.record_wait_queues r := by
    intro e c hte hc
    rw [Function.update_of_ne hte] at hc
    exact h.graph.sleeper t phase r hc
  have hrelease : ∀ {d : wait_q_elem_t} (r' : ℕ), s.state d.tid = .running →
      s.state t = .asleep phase r →
      ⟨t, phase⟩ ∈ depart wait_q_elem_t.tid s.lt.record_wait_queues r' d.tid r := by
    intro d r' hd hs
    have htd : t ≠ d.tid := by
      intro heq
      subst heq
      simp [hd] at hs
    rw [mem_depart_iff htd]
    exact h.graph.sleeper t phase r hs
  cases hmove with
  | enter e r' _ _ _ =>
    by_cases hte : t = e.tid
    · simp [Clients.after_call, hte] at ht
    · have := mem_arrive (hother hte ht) r' e
      simpa [Clients.after_call, rw_lock_table.set_queue_append] using this
  | wait e r' _ _ _ _ =>
    by_cases hte : t = e.tid
    · subst hte
      simp only [Clients.after_call, Function.update_self, CallState.asleep.injEq] at ht
      obtain ⟨rfl, rfl⟩ := ht
      show e ∈ arrive s.lt.record_wait_queues r' e r'
      simp
    · exact mem_arrive (hother hte ht) r' e
  | refuse e r' w _ _ _ _ =>
    by_cases hte : t = e.tid
    · simp [Clients.after_call, hte] at ht
    · exact hother hte ht
  | grant e r' _ _ =>
    by_cases hte : t = e.tid
    · simp [Clients.after_call, hte] at ht
    · simpa [Clients.after_call, rw_lock_table.cond_return] using hother hte ht
  | resleep e r' hstate _ =>
    by_cases hte : t = e.tid
    · subst hte
      simp only [Clients.after_call, Function.update_self, CallState.asleep.injEq] at ht
      obtain ⟨rfl, rfl⟩ := ht
      exact h.graph.sleeper _ _ _ hstate
    · exact hother hte ht
  | wr_release d r' behind hstate _ _ hq =>
    show _ ∈ (s.lt.wr_released r' d.tid behind).record_wait_queues r
    rw [h.wr_queues hq]
    exact hrelease r' hstate ht
  | rd_release d r' front behind hstate _ _ hq _ =>
    show _ ∈ (s.lt.rd_released r' d.tid front behind).record_wait_queues r
    rw [h.rd_queues hq]
    exact hrelease r' hstate ht

/-- The stored edges after a move are the arrows of the queues after it. -/
theorem ClientMove.edges {N R : ℕ} {s s' : Clients} (h : LockInv N R s)
    (hmove : ClientMove N R s s') (t : ℕ) :
    s'.lt.wait_for_graph.nodes t = (queue_edges s'.abs t).map unit_edge := by
  have hold : s.lt.wait_for_graph.nodes t = (queue_edges s.abs t).map unit_edge :=
    h.graph.edges t
  -- An arrival does not move the arrows of the others.
  have harrive : ∀ {e : wait_q_elem_t} (r : ℕ) (w : Option ℕ), t ≠ e.tid →
      queue_edges ⟨arrive s.lt.record_wait_queues r e,
        Function.update s.abs.waiting e.tid w⟩ t = queue_edges s.abs t := by
    intro e r w hte
    simp only [queue_edges, Function.update_of_ne hte, Clients.abs_queue]
    cases s.abs.waiting t with
    | none => rfl
    | some r' => exact edges_of_arrive hte r'
  cases hmove with
  | enter e r hreq _ hedges =>
    rw [Clients.abs_after_call, rw_lock_table.acquire_queues, rw_lock_table.set_queue_append]
    simp only [Clients.after_call, rw_lock_table.acquire_graph, rw_lock_table.set_queue_graph]
    by_cases hte : t = e.tid
    · subst hte
      rw [h.graph.nodes_running hreq.running]
      simp [queue_edges]
    · rw [harrive r none hte, hold]
  | wait e r hreq _ _ _ =>
    rw [Clients.abs_after_call]
    show (s.lt.enqueued e r).wait_for_graph.nodes t =
      (queue_edges ⟨arrive s.lt.record_wait_queues r e, _⟩ t).map unit_edge
    by_cases hte : t = e.tid
    · subst hte
      simp [queue_edges, rw_lock_table.enqueued]
    · rw [harrive r (some r) hte, ← hold]
      exact directed_graph.set_edges_ne _ _ hte
  | refuse e r w hreq _ _ _ =>
    rw [Clients.abs_after_call, ← Clients.waiting_running hreq.running, Function.update_eq_self]
    exact hold
  | grant e r hstate hedges =>
    rw [Clients.abs_after_call, rw_lock_table.acquire_queues]
    simp only [Clients.after_call, rw_lock_table.acquire_graph]
    show s.lt.wait_for_graph.nodes t = _
    by_cases hte : t = e.tid
    · subst hte
      rw [hold]
      simp [queue_edges, Clients.waiting_asleep hstate, hedges]
    · rw [hold]
      simp only [queue_edges, Function.update_of_ne hte]
      rfl
  | resleep e r hstate _ =>
    rw [Clients.abs_after_call, ← Clients.waiting_asleep hstate, Function.update_eq_self]
    exact hold
  | wr_release d r behind hstate _ hwrite hq =>
    have hfront : s.lt.record_wait_queues r = [] ++ d :: behind := hq
    have hrelease := h.release_edges hstate hfront t
    rw [hwrite] at hrelease
    simp only [Clients.abs, Clients.after_unlock, h.wr_queues hq,
      rw_lock_table.wr_released_graph]
    exact hrelease
  | rd_release d r front behind hstate _ hread hq _ =>
    have hrelease := h.release_edges hstate hq t
    rw [hread] at hrelease
    simp only [Clients.abs, Clients.after_unlock, h.rd_queues hq,
      rw_lock_table.rd_released_graph]
    exact hrelease

theorem ClientMove.nodes_eq {N R : ℕ} {s s' : Clients} (hmove : ClientMove N R s s') :
    s'.lt.wait_for_graph.number_of_nodes = s.lt.wait_for_graph.number_of_nodes := by
  cases hmove <;>
    simp [Clients.after_call, Clients.after_unlock, rw_lock_table.enqueued,
      rw_lock_table.cond_wait, rw_lock_table.cond_return, rw_lock_table.drop_edges]

theorem ClientMove.graph_inv {N R : ℕ} {s s' : Clients} (h : LockInv N R s)
    (hmove : ClientMove N R s s') : GraphInv N R s' := by
  refine ⟨hmove.mgr h, ?_, fun t phase r ht => hmove.sleeper h ht, ?_, hmove.edges h⟩
  · intro r e he
    rcases hmove.mem_queue he with hold | ⟨hreq, hphase⟩
    · exact h.graph.entry r e hold
    · exact ⟨hreq.pos, hreq.lt_N, hreq.lt_R, hphase⟩
  · rw [hmove.nodes_eq]
    exact h.graph.nodes_eq

/-! ## Section 2: Condition variables -/

namespace rw_lock_table

theorem signal_cond_var (lt : rw_lock_table) (u t : ℕ) :
    (lt.signal u).cond_var t =
      if t = u ∧ lt.cond_var t = .waiting then .signalled else lt.cond_var t := by
  by_cases ht : t = u
  · subst ht
    simp [signal]
  · simp [signal, ht]

theorem signal_all_cond_var (lt : rw_lock_table) (ts : List ℕ) (t : ℕ) :
    (lt.signal_all ts).cond_var t =
      if t ∈ ts ∧ lt.cond_var t = .waiting then .signalled else lt.cond_var t := by
  induction ts generalizing lt with
  | nil => simp [signal_all]
  | cons u ts ih =>
    show ((lt.signal u).signal_all ts).cond_var t = _
    rw [ih, signal_cond_var]
    by_cases hu : t = u
    · subst hu
      by_cases hw : lt.cond_var t = .waiting <;> simp [hw]
    · simp [hu]

theorem wr_released_cond_var (lt : rw_lock_table) (r tid : ℕ) (behind : List wait_q_elem_t)
    (t : ℕ) :
    (lt.wr_released r tid behind).cond_var t =
      if t ∈ (blockers is_writer true behind).map wait_q_elem_t.tid ∧ lt.cond_var t = .waiting
        then .signalled else lt.cond_var t := by
  show ((lt.drop_edges _ tid).signal_all _).cond_var t = _
  rw [signal_all_cond_var]
  rfl

theorem rd_released_cond_var (lt : rw_lock_table) (r tid : ℕ) (front behind : List wait_q_elem_t)
    (t : ℕ) :
    (lt.rd_released r tid front behind).cond_var t =
      if (rd_resets front behind ∧ t ∈ (blockers is_writer false behind).map wait_q_elem_t.tid) ∧
          lt.cond_var t = .waiting
        then .signalled else lt.cond_var t := by
  unfold rd_released
  by_cases hreset : rd_resets front behind
  · simp only [hreset, if_true, true_and]
    show (((lt.drop_edges _ tid).set_status r .RW_UNLOCK).signal_all _).cond_var t = _
    rw [signal_all_cond_var]
    rfl
  · simp only [hreset, if_false, false_and]
    rfl

end rw_lock_table

/-- A signal changes neither who sleeps nor who was signalled before. -/
theorem signalled_iff {c : CondVar} {p : Prop} [Decidable p] :
    ((if p ∧ c = .waiting then .signalled else c) = .idle ↔ c = .idle) ∧
    ((if p ∧ c = .waiting then .signalled else c) = .waiting ↔ ¬ p ∧ c = .waiting) := by
  by_cases hp : p <;> cases c <;> simp [hp]

theorem ClientMove.idle {N R : ℕ} {s s' : Clients} (h : LockInv N R s)
    (hmove : ClientMove N R s s') (t : ℕ) :
    s'.lt.cond_var t = .idle ↔ s'.state t = .running := by
  have hold := h.sleep.idle t
  cases hmove with
  | enter e r hreq _ _ =>
    simp only [Clients.after_call, rw_lock_table.acquire_cond_var, hreq.update_running]
    exact hold
  | wait e r _ _ _ _ =>
    by_cases hte : t = e.tid
    · simp [Clients.after_call, rw_lock_table.cond_wait, hte]
    · simp only [Clients.after_call, rw_lock_table.cond_wait, Function.update_of_ne hte]
      exact hold
  | refuse e r w hreq _ _ _ =>
    simp only [Clients.after_call, rw_lock_table.signal_cond_var, hreq.update_running]
    rw [signalled_iff.1]
    exact hold
  | grant e r _ _ =>
    by_cases hte : t = e.tid
    · simp [Clients.after_call, rw_lock_table.cond_return, hte]
    · simp only [Clients.after_call, rw_lock_table.acquire_cond_var, rw_lock_table.cond_return,
        Function.update_of_ne hte]
      exact hold
  | resleep e r _ _ =>
    by_cases hte : t = e.tid
    · simp [Clients.after_call, rw_lock_table.cond_wait, hte]
    · simp only [Clients.after_call, rw_lock_table.cond_wait, Function.update_of_ne hte]
      exact hold
  | wr_release d r behind _ _ _ _ =>
    simp only [Clients.after_unlock, rw_lock_table.wr_released_cond_var]
    rw [signalled_iff.1]
    exact hold
  | rd_release d r front behind _ _ _ _ _ =>
    simp only [Clients.after_unlock, rw_lock_table.rd_released_cond_var]
    rw [signalled_iff.1]
    exact hold

/-- The next writer still has somebody ahead unless the last reader at the
    front leaves directly before it. -/
theorem edges_of_next_writer {front behind : List wait_q_elem_t} {t : ℕ}
    (hnd : ((front ++ behind).map wait_q_elem_t.tid).Nodup)
    (ht : t ∈ (blockers is_writer false behind).map wait_q_elem_t.tid)
    (hreset : ¬ rw_lock_table.rd_resets front behind) : edges_of (front ++ behind) t ≠ [] := by
  obtain ⟨w, hw, rfl⟩ := List.mem_map.mp ht
  simp only [blockers, Bool.false_eq_true, if_false, Option.mem_toList] at hw
  have hwriter : is_writer w = true := List.find?_some hw
  obtain ⟨l₁, l₂, hbehind⟩ := List.append_of_mem (List.mem_of_find?_eq_some hw)
  have hsplit : front ++ behind = (front ++ l₁) ++ w :: l₂ := by rw [hbehind, List.append_assoc]
  rw [hsplit] at hnd ⊢
  rw [edges_of_split hnd, hwriter]
  intro hnil
  rw [List.map_eq_nil_iff, blockers_excl_eq_nil, List.reverse_eq_nil_iff,
    List.append_eq_nil_iff] at hnil
  apply hreset
  refine ⟨hnil.1, ?_⟩
  rw [hbehind, hnil.2]
  simpa using hwriter

theorem ClientMove.wake_up {N R : ℕ} {s s' : Clients} (h : LockInv N R s)
    (hmove : ClientMove N R s s') {t r : ℕ} (hcond : s'.lt.cond_var t = .waiting)
    (hwait : s'.abs.waiting t = some r) : edges_of (s'.lt.record_wait_queues r) t ≠ [] := by
  have hold : s.lt.cond_var t = .waiting → s.abs.waiting t = some r →
      edges_of (s.lt.record_wait_queues r) t ≠ [] := h.sleep.wake_up t r
  cases hmove with
  | enter e r' hreq _ _ =>
    rw [Clients.abs_after_call] at hwait
    simp only [Clients.after_call, rw_lock_table.acquire_cond_var,
      rw_lock_table.acquire_queues, rw_lock_table.set_queue_append] at hcond ⊢
    by_cases hte : t = e.tid
    · simp [hte] at hwait
    · simp only [Function.update_of_ne hte] at hwait
      rw [edges_of_arrive hte]
      exact hold hcond hwait
  | wait e r' _ _ hedges _ =>
    rw [Clients.abs_after_call] at hwait
    show edges_of (arrive s.lt.record_wait_queues r' e r) t ≠ []
    by_cases hte : t = e.tid
    · subst hte
      simp only [Function.update_self, Option.some.injEq] at hwait
      subst hwait
      rwa [arrive_self]
    · simp only [Function.update_of_ne hte] at hwait
      simp only [Clients.after_call, rw_lock_table.cond_wait, Function.update_of_ne hte] at hcond
      rw [edges_of_arrive hte]
      exact hold hcond hwait
  | refuse e r' w hreq _ _ _ =>
    rw [Clients.abs_after_call, ← Clients.waiting_running hreq.running,
      Function.update_eq_self] at hwait
    simp only [Clients.after_call, rw_lock_table.signal_cond_var, signalled_iff.2] at hcond
    exact hold hcond.2 hwait
  | grant e r' _ _ =>
    rw [Clients.abs_after_call] at hwait
    by_cases hte : t = e.tid
    · simp [hte] at hwait
    · simp only [Function.update_of_ne hte] at hwait
      simp only [Clients.after_call, rw_lock_table.acquire_cond_var, rw_lock_table.cond_return,
        Function.update_of_ne hte] at hcond
      simp only [Clients.after_call, rw_lock_table.acquire_queues]
      exact hold hcond hwait
  | resleep e r' hstate hedges =>
    rw [Clients.abs_after_call, ← Clients.waiting_asleep hstate,
      Function.update_eq_self] at hwait
    show edges_of (s.lt.record_wait_queues r) t ≠ []
    by_cases hte : t = e.tid
    · subst hte
      rw [Clients.waiting_asleep hstate, Option.some.injEq] at hwait
      rwa [← hwait]
    · simp only [Clients.after_call, rw_lock_table.cond_wait, Function.update_of_ne hte] at hcond
      exact hold hcond hwait
  | wr_release d r' behind hstate _ hwrite hq =>
    have hfront : s.lt.record_wait_queues r' = [] ++ d :: behind := hq
    have hwait' : s.abs.waiting t = some r := hwait
    simp only [Clients.after_unlock, rw_lock_table.wr_released_cond_var, signalled_iff.2] at hcond
    show edges_of ((s.lt.wr_released r' d.tid behind).record_wait_queues r) t ≠ []
    rw [h.wr_queues hq,
      h.edges_of_depart_eq hstate hfront hwait' (by rw [hwrite]; exact hcond.1)]
    exact hold hcond.2 hwait'
  | rd_release d r' front behind hstate _ hread hq _ =>
    have hwait' : s.abs.waiting t = some r := hwait
    simp only [Clients.after_unlock, rw_lock_table.rd_released_cond_var,
      signalled_iff.2] at hcond
    show edges_of ((s.lt.rd_released r' d.tid front behind).record_wait_queues r) t ≠ []
    rw [h.rd_queues hq]
    by_cases hts : t ∈ (blockers is_writer false behind).map wait_q_elem_t.tid
    · -- The next writer: it was not signalled, so somebody is still ahead of it.
      have hr : r = r' := by
        by_contra hne
        have hnil := h.graph.edges_nil (t := t) (r := r')
          (by rw [hwait', ne_eq, Option.some.injEq]; exact hne)
        have hnd := h.graph.mgr.nodup r'
        rw [Clients.abs_queue, hq] at hnd
        rw [hq] at hnil
        have hpoint := (mem_waits_on_iff hnd t).mpr (hread ▸ hts)
        rw [edges_of] at hnil
        rw [hnil] at hpoint
        simp at hpoint
      subst hr
      have hdep := update_eq_depart front hq (h.graph.mgr.nodup r)
      have hnd' := depart_nodup h.graph.mgr.nodup (r := r) (t := d.tid) r
      rw [Clients.abs_queue] at hnd'
      rw [← hdep, Function.update_self] at hnd' ⊢
      exact edges_of_next_writer hnd' hts (fun hreset => hcond.1 ⟨hreset, hts⟩)
    · rw [h.edges_of_depart_eq hstate hq hwait' (by rw [hread]; exact hts)]
      exact hold hcond.2 hwait'

/-! ## Section 3: Status words and counts -/

namespace StatusOk

variable {status : rw_lock_status_t} {count : UInt32} {held : List wait_q_elem_t}
  {e : wait_q_elem_t}

/-- A writer takes a free record. -/
theorem add_writer (h : StatusOk status count []) (hwrite : is_writer e = true) :
    StatusOk .RW_WRITER_LOCK count [e] := by
  refine ⟨by simp, by simp [hwrite], ?_, ?_⟩
  · intro h
    obtain ⟨x, hx, hread⟩ := h
    rw [List.mem_singleton.mp hx, hwrite] at hread
    cases hread
  · rw [h.count]
    simp [readers, hwrite]

/-- A reader joins other readers. -/
theorem add_reader (h : StatusOk status count held) (hread : is_writer e = false)
    (hheld : ∀ x ∈ held, is_writer x = false) :
    StatusOk .RW_READER_LOCK (count + 1) (held ++ [e]) := by
  have hall : ∀ x ∈ held ++ [e], is_writer x = false := by
    intro x hx
    rcases List.mem_append.mp hx with hx | hx
    · exact hheld x hx
    · rw [List.mem_singleton.mp hx, hread]
  refine ⟨by simp, ?_, fun _ => rfl, ?_⟩
  · constructor
    · intro h
      cases h
    · intro h
      obtain ⟨x, hx, hw⟩ := h
      rw [hall x hx] at hw
      cases hw
  · have hlen : (readers (held ++ [e])).length = (readers held).length + 1 := by
      simp [readers, hread]
    rw [UInt32.toNat_add, h.count, hlen]
    simp

/-- The writer leaves. -/
theorem remove_writer (h : StatusOk status count [e]) (hwrite : is_writer e = true) :
    StatusOk .RW_UNLOCK count [] := by
  refine ⟨by simp, by simp, by simp, ?_⟩
  rw [h.count]
  simp [readers, hwrite]

/-- A reader leaves; the status is reset at most when no reader is left. -/
theorem remove_reader {status' : rw_lock_status_t} {held' : List wait_q_elem_t}
    (h : StatusOk status count held) (hcount : count > 0)
    (hheld : ∀ x ∈ held', is_writer x = false)
    (hlen : held.length = held'.length + 1) (hreaders : ∀ x ∈ held, is_writer x = false)
    (hstatus : status' = .RW_READER_LOCK ∨ (status' = .RW_UNLOCK ∧ held' = [])) :
    StatusOk status' (count - 1) held' := by
  have hall : ∀ l : List wait_q_elem_t, (∀ x ∈ l, is_writer x = false) → readers l = l := by
    intro l hl
    rw [readers, List.filter_eq_self]
    intro x hx
    simp [hl x hx]
  refine ⟨?_, ?_, ?_, ?_⟩
  · rcases hstatus with rfl | ⟨rfl, -⟩ <;> simp
  · constructor
    · intro heq
      subst heq
      simp at hstatus
    · intro h
      obtain ⟨x, hx, hw⟩ := h
      rw [hheld x hx] at hw
      cases hw
  · intro h
    obtain ⟨x, hx, -⟩ := h
    rcases hstatus with rfl | ⟨-, rfl⟩
    · rfl
    · simp at hx
  · have hold := h.count
    rw [hall held hreaders] at hold
    rw [hall held' hheld]
    have hpos : 0 < count.toNat := hcount
    have hone : (1 : UInt32) ≤ count := hcount
    rw [UInt32.toNat_sub_of_le _ _ hone]
    simp only [UInt32.toNat_one]
    omega

end StatusOk

theorem mem_update_append {held : ℕ → List wait_q_elem_t} {r r' : ℕ} {e x : wait_q_elem_t} :
    x ∈ Function.update held r (held r ++ [e]) r' ↔ x ∈ held r' ∨ (r' = r ∧ x = e) := by
  by_cases hr : r' = r
  · subst hr
    simp
  · simp [hr]

theorem mem_update_filter {held : ℕ → List wait_q_elem_t} {r r' d : ℕ} {x : wait_q_elem_t} :
    x ∈ Function.update held r ((held r).filter (fun e => e.tid ≠ d)) r' ↔
      x ∈ held r' ∧ ¬ (r' = r ∧ x.tid = d) := by
  by_cases hr : r' = r
  · subst hr
    simp
  · simp [hr]

/-- Entries of one queue are told apart by their thread. -/
theorem GraphInv.eq_of_tid {N R : ℕ} {s : Clients} (h : GraphInv N R s) {r : ℕ}
    {x y : wait_q_elem_t} (hx : x ∈ s.lt.record_wait_queues r)
    (hy : y ∈ s.lt.record_wait_queues r) (hxy : x.tid = y.tid) : x = y :=
  List.inj_on_of_nodup_map (h.mgr.nodup r) hx hy hxy

/-- The recorded requests are those the abstract manager has granted. -/
theorem ClientMove.granted_iff {N R : ℕ} {s s' : Clients} (h : LockInv N R s)
    (hmove : ClientMove N R s s') (r' : ℕ) (x : wait_q_elem_t) :
    x ∈ s'.granted r' ↔ granted wait_q_elem_t.tid s'.abs r' x := by
  have hold := h.holder.granted_iff r' x
  cases hmove with
  | enter e r hreq _ hedges =>
    rw [granted_enter (LockInv.abs_enter hreq hedges), ← hold]
    exact mem_update_append
  | wait e r hreq _ _ hcycle =>
    rw [granted_wait (h.abs_wait hreq hcycle), ← hold]
    rfl
  | refuse e r w hreq _ _ _ =>
    rw [LockInv.abs_refuse hreq, ← hold]
    rfl
  | grant e r hstate hedges =>
    rw [granted_grant (LockInv.abs_grant hstate hedges), ← hold]
    have hmem := h.graph.sleeper _ _ _ hstate
    have hsame : x ∈ s.abs.queue r ∧ x.tid = e.tid ↔ x = e := by
      constructor
      · intro h
        obtain ⟨hx, hxe⟩ := h
        exact h.graph.eq_of_tid hx hmem hxe
      · intro heq
        subst heq
        exact ⟨hmem, rfl⟩
    rw [hsame]
    exact mem_update_append
  | resleep e r hstate _ =>
    rw [LockInv.abs_resleep hstate, ← hold]
    rfl
  | wr_release d r behind hstate _ _ hq =>
    have hfront : s.lt.record_wait_queues r = [] ++ d :: behind := hq
    rw [granted_release (LockInv.abs_release hstate hfront (h.wr_queues hq)), ← hold]
    exact mem_update_filter
  | rd_release d r front behind hstate _ _ hq _ =>
    rw [granted_release (LockInv.abs_release hstate hq (h.rd_queues hq)), ← hold]
    exact mem_update_filter

/-- A request that is about to be granted is not recorded yet. -/
theorem LockInv.not_granted {N R : ℕ} {s : Clients} (h : LockInv N R s) {t r : ℕ}
    (hnot : t ∉ (s.lt.record_wait_queues r).map wait_q_elem_t.tid ∨ s.abs.waiting t = some r) :
    t ∉ (s.granted r).map wait_q_elem_t.tid := by
  intro hmem
  obtain ⟨x, hx, rfl⟩ := List.mem_map.mp hmem
  obtain ⟨hq, hwait⟩ := (h.holder.granted_iff r x).mp hx
  rcases hnot with hnot | hnot
  · exact hnot (List.mem_map_of_mem hq)
  · exact hwait hnot

theorem ClientMove.granted_nodup {N R : ℕ} {s s' : Clients} (h : LockInv N R s)
    (hmove : ClientMove N R s s') (r' : ℕ) :
    ((s'.granted r').map wait_q_elem_t.tid).Nodup := by
  have hold := h.holder.nodup
  cases hmove with
  | enter e r hreq _ _ =>
    exact arrive_nodup hold (h.not_granted (.inl hreq.no_entry)) r'
  | wait e r _ _ _ _ => exact hold r'
  | refuse e r w _ _ _ _ => exact hold r'
  | grant e r hstate _ =>
    exact arrive_nodup hold (h.not_granted (.inr (Clients.waiting_asleep hstate))) r'
  | resleep e r _ _ => exact hold r'
  | wr_release d r behind _ _ _ _ => exact depart_nodup hold r'
  | rd_release d r front behind _ _ _ _ _ => exact depart_nodup hold r'

/-- **Exclusion.** Two granted requests of one record are both readers. -/
theorem exclusive_of {s : Clients} (hmgr : ManagerInv wait_q_elem_t.tid is_writer s.abs)
    (hiff : ∀ r e, e ∈ s.granted r ↔ granted wait_q_elem_t.tid s.abs r e) {r : ℕ}
    {a b : wait_q_elem_t} (ha : a ∈ s.granted r) (hb : b ∈ s.granted r) (hab : a ≠ b) :
    is_writer a = false ∧ is_writer b = false :=
  granted_compatible hmgr ((hiff r a).mp ha) ((hiff r b).mp hb) hab

theorem LockInv.exclusive {N R : ℕ} {s : Clients} (h : LockInv N R s) {r : ℕ}
    {a b : wait_q_elem_t} (ha : a ∈ s.granted r) (hb : b ∈ s.granted r) (hab : a ≠ b) :
    is_writer a = false ∧ is_writer b = false :=
  exclusive_of h.graph.mgr h.holder.granted_iff ha hb hab

namespace rw_lock_table

theorem acquire_table_ne (lt : rw_lock_table) (e : wait_q_elem_t) {r r' : ℕ} (h : r' ≠ r) :
    (lt.acquire e r).table r' = lt.table r' := by
  unfold acquire
  split
  · simp [set_status, h]
  · simp [rdlock_acquire, h]

theorem acquire_count_ne (lt : rw_lock_table) (e : wait_q_elem_t) {r r' : ℕ} (h : r' ≠ r) :
    (lt.acquire e r).readers_count r' = lt.readers_count r' := by
  unfold acquire
  split
  · rfl
  · simp [rdlock_acquire, h]

/-- The status word and the count after a grant. -/
theorem status_acquire {lt : rw_lock_table} {r : ℕ} {e : wait_q_elem_t}
    {held : List wait_q_elem_t} (hs : StatusOk (lt.table r) (lt.readers_count r) held)
    (he : e ∉ held) (hexcl : ∀ x ∈ held, x ≠ e → is_writer x = false ∧ is_writer e = false) :
    StatusOk ((lt.acquire e r).table r) ((lt.acquire e r).readers_count r) (held ++ [e]) := by
  have hne : ∀ x ∈ held, x ≠ e := fun x hx hxe => he (hxe ▸ hx)
  unfold acquire
  cases hw : is_writer e with
  | true =>
    have hnil : held = [] := by
      apply List.eq_nil_iff_forall_not_mem.mpr
      intro x hx
      have := (hexcl x hx (hne x hx)).2
      rw [hw] at this
      cases this
    subst hnil
    simpa [set_status] using hs.add_writer hw
  | false =>
    have := hs.add_reader hw (fun x hx => (hexcl x hx (hne x hx)).1)
    simpa [rdlock_acquire] using this

end rw_lock_table

/-- The status words after a grant, on every record. -/
theorem HolderInv.status_grant {s : Clients} (h : HolderInv s) (lt : rw_lock_table)
    {e : wait_q_elem_t} {r : ℕ} (htable : lt.table = s.lt.table)
    (hcount : lt.readers_count = s.lt.readers_count) (hnew : e ∉ s.granted r)
    (hexcl : ∀ x ∈ s.granted r, x ≠ e → is_writer x = false ∧ is_writer e = false) (r' : ℕ) :
    StatusOk ((lt.acquire e r).table r') ((lt.acquire e r).readers_count r')
      (Function.update s.granted r (s.granted r ++ [e]) r') := by
  have hold := h.status r'
  rw [← htable, ← hcount] at hold
  by_cases hr : r' = r
  · subst hr
    rw [Function.update_self]
    exact rw_lock_table.status_acquire hold hnew hexcl
  · rw [Function.update_of_ne hr, rw_lock_table.acquire_table_ne _ _ hr,
      rw_lock_table.acquire_count_ne _ _ hr]
    exact hold

theorem eq_singleton_of_nodup {held : List wait_q_elem_t} {d : wait_q_elem_t}
    (hnd : (held.map wait_q_elem_t.tid).Nodup) (hd : d ∈ held) (hall : ∀ x ∈ held, x = d) :
    held = [d] := by
  obtain ⟨l₁, l₂, rfl⟩ := List.append_of_mem hd
  have hsplit := filter_owner_split hnd
  have hnil : (l₁ ++ d :: l₂).filter (fun x => x.tid ≠ d.tid) = [] := by
    rw [List.filter_eq_nil_iff]
    intro x hx
    simp [hall x hx]
  rw [hnil] at hsplit
  obtain ⟨rfl, rfl⟩ := List.append_eq_nil_iff.mp hsplit.symm
  rfl

/-- A granted writer is the only one. -/
theorem LockInv.granted_writer {N R : ℕ} {s : Clients} (h : LockInv N R s) {r : ℕ}
    {d : wait_q_elem_t} (hd : d ∈ s.granted r) (hw : is_writer d = true) : s.granted r = [d] := by
  apply eq_singleton_of_nodup (h.holder.nodup r) hd
  intro x hx
  by_contra hne
  have := (h.exclusive hx hd hne).2
  rw [hw] at this
  cases this

/-- Next to a granted reader there are only readers. -/
theorem LockInv.granted_reader {N R : ℕ} {s : Clients} (h : LockInv N R s) {r : ℕ}
    {d : wait_q_elem_t} (hd : d ∈ s.granted r) (hread : is_writer d = false) :
    ∀ x ∈ s.granted r, is_writer x = false := by
  intro x hx
  by_cases hxd : x = d
  · rw [hxd, hread]
  · exact (h.exclusive hx hd hxd).1

/-- When the status is reset no reader is left. -/
theorem LockInv.granted_reset {N R : ℕ} {s : Clients} (h : LockInv N R s) {r : ℕ}
    {d : wait_q_elem_t} {front behind : List wait_q_elem_t} (hd : d ∈ s.granted r)
    (hread : is_writer d = false) (hq : s.lt.record_wait_queues r = front ++ d :: behind)
    (hreset : rw_lock_table.rd_resets front behind) :
    (s.granted r).filter (fun e => e.tid ≠ d.tid) = [] := by
  obtain ⟨rfl, hhead⟩ := hreset
  rw [List.filter_eq_nil_iff]
  intro x hx hxd
  have hxd' : x.tid ≠ d.tid := by simpa using hxd
  obtain ⟨hmem, hwait⟩ := (h.holder.granted_iff r x).mp hx
  rw [Clients.abs_queue, hq] at hmem
  have hbehind : x ∈ behind := by
    have hne : x ≠ d := fun hxd => hxd' (hxd ▸ rfl)
    simpa [hne] using hmem
  obtain ⟨l₁, l₂, rfl⟩ := List.append_of_mem hbehind
  have hsplit : s.abs.queue r = (d :: l₁) ++ x :: l₂ := by
    rw [Clients.abs_queue, hq]
    rfl
  have hxread := h.granted_reader hd hread x hx
  have hahead := (granted_front h.graph.mgr hsplit hwait).2 hxread
  -- The next entry is a writer, but everything up to `x` is a reader.
  cases l₁ with
  | nil =>
    have := hhead x (by simp)
    rw [hxread] at this
    cases this
  | cons y l₁ =>
    have hy := hhead y (by simp)
    rw [hahead y (by simp)] at hy
    cases hy

namespace rw_lock_table

theorem wr_released_table (lt : rw_lock_table) (r tid : ℕ) (behind : List wait_q_elem_t) :
    (lt.wr_released r tid behind).table = Function.update lt.table r .RW_UNLOCK := by
  unfold wr_released
  dsimp only
  rw [signal_all_eq]
  rfl

theorem wr_released_count (lt : rw_lock_table) (r tid : ℕ) (behind : List wait_q_elem_t) :
    (lt.wr_released r tid behind).readers_count = lt.readers_count := by
  unfold wr_released
  dsimp only
  rw [signal_all_eq]
  rfl

theorem rd_released_table (lt : rw_lock_table) (r tid : ℕ) (front behind : List wait_q_elem_t) :
    (lt.rd_released r tid front behind).table =
      if rd_resets front behind then Function.update lt.table r .RW_UNLOCK else lt.table := by
  unfold rd_released
  dsimp only
  split
  · rw [signal_all_eq]
    rfl
  · rfl

theorem rd_released_count (lt : rw_lock_table) (r tid : ℕ) (front behind : List wait_q_elem_t) :
    (lt.rd_released r tid front behind).readers_count =
      Function.update lt.readers_count r (lt.readers_count r - 1) := by
  unfold rd_released
  dsimp only
  split
  · rw [signal_all_eq]
    rfl
  · rfl

end rw_lock_table

theorem ClientMove.status {N R : ℕ} {s s' : Clients} (h : LockInv N R s)
    (hmove : ClientMove N R s s') (r' : ℕ) :
    StatusOk (s'.lt.table r') (s'.lt.readers_count r') (s'.granted r') := by
  have hold := h.holder.status r'
  have hexcl := fun {r : ℕ} {a b : wait_q_elem_t} (ha : a ∈ s'.granted r) (hb : b ∈ s'.granted r) =>
    exclusive_of (hmove.mgr h) (hmove.granted_iff h) ha hb
  cases hmove with
  | enter e r hreq _ _ =>
    have hnew := h.not_granted (.inl hreq.no_entry)
    refine h.holder.status_grant (s.lt.set_queue r (s.lt.record_wait_queues r ++ [e])) rfl rfl
      (fun hmem => hnew (List.mem_map_of_mem hmem)) ?_ r'
    intro x hx hxe
    exact hexcl (r := r) (mem_update_append.mpr (.inl hx))
      (mem_update_append.mpr (.inr ⟨rfl, rfl⟩)) hxe
  | wait e r _ _ _ _ => exact hold
  | refuse e r w _ _ _ _ => exact hold
  | grant e r hstate _ =>
    have hnew := h.not_granted (.inr (Clients.waiting_asleep hstate))
    refine h.holder.status_grant (s.lt.cond_return e.tid) rfl rfl
      (fun hmem => hnew (List.mem_map_of_mem hmem)) ?_ r'
    intro x hx hxe
    exact hexcl (r := r) (mem_update_append.mpr (.inl hx))
      (mem_update_append.mpr (.inr ⟨rfl, rfl⟩)) hxe
  | resleep e r _ _ => exact hold
  | wr_release d r behind _ hgranted hwrite _ =>
    simp only [Clients.after_unlock, rw_lock_table.wr_released_table,
      rw_lock_table.wr_released_count]
    by_cases hr : r' = r
    · subst hr
      have hone := h.granted_writer hgranted hwrite
      rw [hone] at hold
      simpa [hone] using hold.remove_writer hwrite
    · simpa [hr] using hold
  | rd_release d r front behind _ hgranted hread hq hcount =>
    simp only [Clients.after_unlock, rw_lock_table.rd_released_table,
      rw_lock_table.rd_released_count]
    by_cases hr : r' = r
    · subst hr
      rw [Function.update_self, Function.update_self]
      have hreaders := h.granted_reader hgranted hread
      refine hold.remove_reader hcount ?_ ?_ hreaders ?_
      · intro x hx
        exact hreaders x (List.mem_filter.mp hx).1
      · -- Exactly one request has this thread id.
        obtain ⟨l₁, l₂, hl⟩ := List.append_of_mem hgranted
        have hnd := h.holder.nodup r'
        rw [hl] at hnd ⊢
        rw [filter_owner_split hnd]
        simp only [List.length_append, List.length_cons]
        omega
      · by_cases hreset : rw_lock_table.rd_resets front behind
        · right
          rw [if_pos hreset, Function.update_self]
          exact ⟨rfl, h.granted_reset hgranted hread hq hreset⟩
        · left
          rw [if_neg hreset]
          exact hold.reader ⟨d, hgranted, hread⟩
    · have htable : (if rw_lock_table.rd_resets front behind
          then Function.update s.lt.table r .RW_UNLOCK else s.lt.table) r' = s.lt.table r' := by
        split
        · exact Function.update_of_ne hr _ _
        · rfl
      rw [htable, Function.update_of_ne hr, Function.update_of_ne hr]
      exact hold

/-! ## Section 4: Every reachable state -/

theorem ClientMove.lock_inv {N R : ℕ} {s s' : Clients} (h : LockInv N R s)
    (hmove : ClientMove N R s s') : LockInv N R s' :=
  ⟨hmove.graph_inv h, ⟨hmove.idle h, fun _ _ hcond hwait => hmove.wake_up h hcond hwait⟩,
    ⟨hmove.granted_iff h, hmove.granted_nodup h, hmove.status h⟩⟩

theorem lock_inv_init {N R : ℕ} {s : Clients} (h : (lock_clients N R).init s) :
    LockInv N R s := by
  obtain ⟨hlt, hstate, hgranted⟩ := h
  have hqueue : ∀ r, s.lt.record_wait_queues r = [] := by
    intro r
    rw [hlt]
    rfl
  have hwait : ∀ t, s.abs.waiting t = none := fun t => Clients.waiting_running (hstate t)
  refine ⟨⟨managerInv_init ⟨hqueue, hwait⟩, ?_, ?_, ?_, ?_⟩, ⟨?_, ?_⟩, ⟨?_, ?_, ?_⟩⟩
  · intro r e he
    simp [hqueue] at he
  · intro t phase r ht
    simp [hstate] at ht
  · rw [hlt]
    rfl
  · intro t
    have hwt : (s.state t).waits_for = none := hwait t
    simp only [Clients.out_edges, hwt, hlt]
    rfl
  · intro t
    rw [hlt]
    simp [rw_lock_table.init, hstate]
  · intro t r _ ht
    simp [hstate, CallState.waits_for] at ht
  · intro r e
    simp [hgranted, LockQueue.granted, hqueue]
  · intro r
    simp [hgranted]
  · intro r
    rw [hlt, hgranted]
    exact ⟨by simp [rw_lock_table.init], by simp [rw_lock_table.init], by simp,
      by simp [rw_lock_table.init, readers]⟩

/-- **The invariant of the lock table.** -/
theorem lock_inv_reachable {N R : ℕ} {s : Clients} (h : Reachable (lock_clients N R) s) :
    LockInv N R s := by
  apply h.invariant (fun _ hinit => lock_inv_init hinit)
  intro s l s' _ hinv hstep
  obtain ⟨tid, call⟩ := l
  exact (hinv.move_of_step hstep).lock_inv hinv

/-- **The lock table implements the abstract manager.** -/
theorem clients_simulation (N R : ℕ) :
    Simulation (lock_clients N R)
      (manager wait_q_elem_t.tid is_writer : System (Manager wait_q_elem_t ℕ ℕ) _)
      (LockInv N R) Clients.abs where
  init := by
    intro s hinit
    obtain ⟨hlt, hstate, -⟩ := hinit
    refine ⟨fun r => ?_, fun t => Clients.waiting_running (hstate t)⟩
    rw [Clients.abs_queue, hlt]
    rfl
  step := by
    intro s l s' hinv hstep
    obtain ⟨tid, call⟩ := l
    rcases (hinv.move_of_step hstep).abs hinv with habs | hnext
    · rw [habs]
    · exact Relation.ReflTransGen.single hnext

end Project2
