import ConcurrentProgramming.Framework.LockManager
import ConcurrentProgramming.Project2.LockTable

/-! # What the Lock Table Functions Compute

    One specification per function of `rw_lock_table.cc`, in the terms of the
    wait-queue theory: the edges a request adds are the arrows of its entry, and
    the edges an unlock removes are the arrows into the leaving entry.  Each
    specification gives the result in closed form, so no later proof unfolds
    the functions again.
-/

namespace Project2

open LockQueue

/-! ## Section 1: Queues as wait queues -/

/-- The entries of a queue that are not readers. -/
def is_writer (e : wait_q_elem_t) : Bool := decide (e.current_phase ≠ .READ)

@[simp] theorem is_writer_read (tid : ℕ) : is_writer ⟨tid, .READ⟩ = false := rfl

theorem is_writer_eq_false {e : wait_q_elem_t} : is_writer e = false ↔ e.current_phase = .READ := by
  simp [is_writer]

theorem is_writer_eq_true {e : wait_q_elem_t} : is_writer e = true ↔ e.current_phase ≠ .READ := by
  simp [is_writer]

/-- The threads that the entry of `t` in the queue `q` has to wait for directly. -/
def edges_of (q : List wait_q_elem_t) (t : ℕ) : List ℕ :=
  (waits_on wait_q_elem_t.tid is_writer q.reverse t).map wait_q_elem_t.tid

theorem edges_of_split {front behind : List wait_q_elem_t} {e : wait_q_elem_t}
    (hnd : ((front ++ e :: behind).map wait_q_elem_t.tid).Nodup) :
    edges_of (front ++ e :: behind) e.tid =
      (blockers is_writer (is_writer e) front.reverse).map wait_q_elem_t.tid := by
  rw [edges_of, waits_on_split hnd]

theorem edges_of_nodup {q : List wait_q_elem_t} (hnd : (q.map wait_q_elem_t.tid).Nodup) (t : ℕ) :
    (edges_of q t).Nodup := by
  have hrev : (q.reverse.map wait_q_elem_t.tid).Nodup := by simpa using hnd
  exact hrev.sublist ((waits_on_sublist _ _).map _)

theorem mem_edges_of {q : List wait_q_elem_t} {t u : ℕ} (h : u ∈ edges_of q t) :
    u ∈ q.map wait_q_elem_t.tid := by
  obtain ⟨e, he, rfl⟩ := List.mem_map.mp h
  exact List.mem_map_of_mem (List.mem_reverse.mp (waits_on_subset _ _ he))

/-! ## Section 2: Edges of the graph -/

/-- An edge as `add_edge` stores it. -/
def unit_edge (dest : ℕ) : dest_and_count_t := ⟨dest, 1⟩

namespace directed_graph

/-- The edges that start at `t` are replaced by one edge to each of `dests`. -/
def set_edges (g : directed_graph) (t : ℕ) (dests : List ℕ) : directed_graph :=
  { g with nodes := Function.update g.nodes t (dests.map unit_edge) }

@[simp] theorem set_edges_number (g : directed_graph) (t : ℕ) (dests : List ℕ) :
    (g.set_edges t dests).number_of_nodes = g.number_of_nodes := rfl

@[simp] theorem set_edges_self (g : directed_graph) (t : ℕ) (dests : List ℕ) :
    (g.set_edges t dests).nodes t = dests.map unit_edge := by
  simp [set_edges]

theorem set_edges_ne (g : directed_graph) {t u : ℕ} (dests : List ℕ) (h : u ≠ t) :
    (g.set_edges t dests).nodes u = g.nodes u := by
  simp [set_edges, h]

@[simp] theorem set_edges_set_edges (g : directed_graph) (t : ℕ) (dests dests' : List ℕ) :
    (g.set_edges t dests).set_edges t dests' = g.set_edges t dests' := by
  simp [set_edges]

theorem set_edges_eq_self {g : directed_graph} {t : ℕ} {dests : List ℕ}
    (h : g.nodes t = dests.map unit_edge) : g.set_edges t dests = g := by
  simp [set_edges, ← h]

theorem find_unit_edge (dests : List ℕ) (dst : ℕ) :
    (dests.map unit_edge).find? (fun b => b.dest = dst) =
      if dst ∈ dests then some (unit_edge dst) else none := by
  induction dests with
  | nil => simp
  | cons d dests ih =>
    by_cases hd : d = dst
    · subst hd
      simp [unit_edge]
    · rw [List.map_cons, List.find?_cons_of_neg (by simp [unit_edge, hd]), ih]
      simp [Ne.symm hd]

theorem take_unit_edge {dests : List ℕ} (hnd : dests.Nodup) (dst : ℕ) :
    take_edge dst (dests.map unit_edge) = (dests.filter (fun d => d ≠ dst)).map unit_edge := by
  induction dests with
  | nil => simp [take_edge]
  | cons d dests ih =>
    rw [List.nodup_cons] at hnd
    by_cases hd : d = dst
    · subst hd
      have hself : dests.filter (fun x => x ≠ d) = dests := by
        rw [List.filter_eq_self]
        intro x hx
        have : x ≠ d := fun h => hnd.1 (h ▸ hx)
        simpa using this
      rw [List.filter_cons_of_neg (by simp), hself]
      simp [take_edge, unit_edge]
    · rw [List.filter_cons_of_pos (by simpa using hd), List.map_cons, List.map_cons, ← ih hnd.2]
      simp [take_edge, unit_edge, hd]

/-- `add_edge` appends a new edge. -/
theorem add_edge_eq {g : directed_graph} {src dst : ℕ} {dests : List ℕ}
    (hsrc : src < g.number_of_nodes) (hdst : dst < g.number_of_nodes) (hne : src ≠ dst)
    (hnodes : g.nodes src = dests.map unit_edge) (hnew : dst ∉ dests) :
    g.add_edge src dst = .ok (true, g.set_edges src (dests ++ [dst])) := by
  have hfind := find_unit_edge dests dst
  rw [if_neg hnew, ← hnodes] at hfind
  simp only [add_edge, assert_pos hne, ok_bind, is_node_exist, hsrc, hdst, decide_true,
    Bool.and_self, Bool.not_true, Bool.false_eq_true, if_false, hfind, except_pure]
  simp [set_edges, hnodes, unit_edge]

/-- `remove_edge` deletes a stored edge. -/
theorem remove_edge_eq {g : directed_graph} {src dst : ℕ} {dests : List ℕ}
    (hsrc : src < g.number_of_nodes) (hdst : dst < g.number_of_nodes) (hne : src ≠ dst)
    (hnodes : g.nodes src = dests.map unit_edge) (hnd : dests.Nodup) (hmem : dst ∈ dests) :
    g.remove_edge src dst = .ok (true, g.set_edges src (dests.filter (fun d => d ≠ dst))) := by
  have hfind := find_unit_edge dests dst
  rw [if_pos hmem, ← hnodes] at hfind
  have hcount : (unit_edge dst).count ≠ 0 := by simp [unit_edge]
  simp only [remove_edge, assert_pos hne, ok_bind, is_node_exist, hsrc, hdst, decide_true,
    Bool.and_self, Bool.not_true, Bool.false_eq_true, if_false, hfind, assert_pos hcount,
    except_pure]
  rw [hnodes, take_unit_edge hnd, set_edges]

end directed_graph

namespace rw_lock_table

/-- The edges that start at `t` are replaced by one edge to each of `dests`. -/
def set_edges (lt : rw_lock_table) (t : ℕ) (dests : List ℕ) : rw_lock_table :=
  { lt with wait_for_graph := lt.wait_for_graph.set_edges t dests }

@[simp] theorem set_edges_graph (lt : rw_lock_table) (t : ℕ) (dests : List ℕ) :
    (lt.set_edges t dests).wait_for_graph = lt.wait_for_graph.set_edges t dests := rfl

@[simp] theorem set_edges_queues (lt : rw_lock_table) (t : ℕ) (dests : List ℕ) :
    (lt.set_edges t dests).record_wait_queues = lt.record_wait_queues := rfl

@[simp] theorem set_edges_set_edges (lt : rw_lock_table) (t : ℕ) (dests dests' : List ℕ) :
    (lt.set_edges t dests).set_edges t dests' = lt.set_edges t dests' := by
  simp [set_edges]

theorem set_edges_eq_self {lt : rw_lock_table} {t : ℕ} {dests : List ℕ}
    (h : lt.wait_for_graph.nodes t = dests.map unit_edge) : lt.set_edges t dests = lt := by
  simp [set_edges, directed_graph.set_edges_eq_self h]

@[simp] theorem set_queue_self (lt : rw_lock_table) (r : ℕ) (q : List wait_q_elem_t) :
    (lt.set_queue r q).record_wait_queues r = q := by
  simp [set_queue]

@[simp] theorem set_queue_graph (lt : rw_lock_table) (r : ℕ) (q : List wait_q_elem_t) :
    (lt.set_queue r q).wait_for_graph = lt.wait_for_graph := rfl

@[simp] theorem signal_graph (lt : rw_lock_table) (t : ℕ) :
    (lt.signal t).wait_for_graph = lt.wait_for_graph := rfl

@[simp] theorem signal_queues (lt : rw_lock_table) (t : ℕ) :
    (lt.signal t).record_wait_queues = lt.record_wait_queues := rfl

theorem add_edge_eq {lt : rw_lock_table} {src dst : ℕ} {dests : List ℕ}
    (hsrc : src < lt.wait_for_graph.number_of_nodes)
    (hdst : dst < lt.wait_for_graph.number_of_nodes) (hne : src ≠ dst)
    (hnodes : lt.wait_for_graph.nodes src = dests.map unit_edge) (hnew : dst ∉ dests) :
    lt.add_edge src dst = .ok (lt.set_edges src (dests ++ [dst])) := by
  simp [add_edge, directed_graph.add_edge_eq hsrc hdst hne hnodes hnew, set_edges]

theorem remove_edge_eq {lt : rw_lock_table} {src dst : ℕ} {dests : List ℕ}
    (hsrc : src < lt.wait_for_graph.number_of_nodes)
    (hdst : dst < lt.wait_for_graph.number_of_nodes) (hne : src ≠ dst)
    (hnodes : lt.wait_for_graph.nodes src = dests.map unit_edge) (hnd : dests.Nodup)
    (hmem : dst ∈ dests) :
    lt.remove_edge src dst = .ok (lt.set_edges src (dests.filter (fun d => d ≠ dst))) := by
  simp only [remove_edge, directed_graph.remove_edge_eq hsrc hdst hne hnodes hnd hmem, ok_bind,
    except_pure, set_edges]

/-- Entries ahead of `tid` that can be endpoints of its edges. -/
structure AheadOk (N tid : ℕ) (ahead : List wait_q_elem_t) : Prop where
  lt    : ∀ e ∈ ahead, e.tid < N
  ne    : ∀ e ∈ ahead, tid ≠ e.tid
  nodup : (ahead.map wait_q_elem_t.tid).Nodup

theorem AheadOk.tail {N tid : ℕ} {e : wait_q_elem_t} {ahead : List wait_q_elem_t}
    (h : AheadOk N tid (e :: ahead)) : AheadOk N tid ahead := by
  refine ⟨fun x hx => h.lt x (List.mem_cons_of_mem _ hx),
    fun x hx => h.ne x (List.mem_cons_of_mem _ hx), ?_⟩
  have := h.nodup
  rw [List.map_cons, List.nodup_cons] at this
  exact this.2

/-- The loop of `wrlock` adds an edge to every reader of the run right ahead. -/
theorem add_reader_edges_eq {tid : ℕ} {ahead : List wait_q_elem_t} {lt : rw_lock_table}
    {dests : List ℕ} (htid : tid < lt.wait_for_graph.number_of_nodes)
    (hok : AheadOk lt.wait_for_graph.number_of_nodes tid ahead)
    (hnodes : lt.wait_for_graph.nodes tid = dests.map unit_edge)
    (hnew : ∀ e ∈ ahead, e.tid ∉ dests) :
    add_reader_edges tid ahead lt =
      .ok (lt.set_edges tid
        (dests ++ (ahead.takeWhile (fun e => !is_writer e)).map wait_q_elem_t.tid)) := by
  induction ahead generalizing lt dests with
  | nil => simp [add_reader_edges, set_edges_eq_self hnodes]
  | cons e ahead ih =>
    cases hw : is_writer e with
    | true =>
      have hphase := is_writer_eq_true.mp hw
      simp [add_reader_edges, hphase, hw, set_edges_eq_self hnodes]
    | false =>
      have hphase := is_writer_eq_false.mp hw
      have hnd := hok.nodup
      rw [List.map_cons, List.nodup_cons] at hnd
      have hadd := add_edge_eq htid (hok.lt e (by simp)) (hok.ne e (by simp)) hnodes
        (hnew e (by simp))
      have hrest := @ih (lt.set_edges tid (dests ++ [e.tid])) (dests ++ [e.tid])
        htid hok.tail (by simp) (fun x hx hmem => by
          rcases List.mem_append.mp hmem with h | h
          · exact hnew x (List.mem_cons_of_mem _ hx) h
          · exact hnd.1 (List.mem_singleton.mp h ▸ List.mem_map_of_mem hx))
      rw [add_reader_edges, if_pos hphase, hadd, ok_bind, hrest]
      simp [hw]

/-- The loop of `wrlock_clear_abort` removes these edges again. -/
theorem remove_reader_edges_eq {tid : ℕ} {ahead : List wait_q_elem_t} {lt : rw_lock_table}
    (htid : tid < lt.wait_for_graph.number_of_nodes)
    (hok : AheadOk lt.wait_for_graph.number_of_nodes tid ahead)
    (hnodes : lt.wait_for_graph.nodes tid =
      ((ahead.takeWhile (fun e => !is_writer e)).map wait_q_elem_t.tid).map unit_edge) :
    remove_reader_edges tid ahead lt = .ok (lt.set_edges tid []) := by
  induction ahead generalizing lt with
  | nil =>
    rw [remove_reader_edges, set_edges_eq_self]
    simpa using hnodes
  | cons e ahead ih =>
    cases hw : is_writer e with
    | true =>
      have hphase := is_writer_eq_true.mp hw
      have hnil : lt.wait_for_graph.nodes tid = ([] : List ℕ).map unit_edge := by
        simpa [hw] using hnodes
      simp [remove_reader_edges, hphase, set_edges_eq_self hnil]
    | false =>
      have hphase := is_writer_eq_false.mp hw
      have hnd := hok.nodup
      rw [List.map_cons, List.nodup_cons] at hnd
      let run := (ahead.takeWhile (fun e => !is_writer e)).map wait_q_elem_t.tid
      have hsub : run.Sublist (ahead.map wait_q_elem_t.tid) := (List.takeWhile_sublist _).map _
      have hnotin : e.tid ∉ run := fun h => hnd.1 (hsub.subset h)
      have hnodes' : lt.wait_for_graph.nodes tid = (e.tid :: run).map unit_edge := by
        rw [hnodes, List.takeWhile_cons_of_pos (by simp [hw]), List.map_cons]
      have hfilter : (e.tid :: run).filter (fun d => d ≠ e.tid) = run := by
        rw [List.filter_cons_of_neg (by simp), List.filter_eq_self]
        intro x hx
        have : x ≠ e.tid := fun h => hnotin (h ▸ hx)
        simpa using this
      have hremove := remove_edge_eq htid (hok.lt e (by simp)) (hok.ne e (by simp)) hnodes'
        (List.nodup_cons.mpr ⟨hnotin, hnd.2.sublist hsub⟩) (by simp)
      rw [hfilter] at hremove
      have hrest := @ih (lt.set_edges tid run) htid hok.tail (by simp [run])
      rw [remove_reader_edges, if_pos hphase, hremove, ok_bind, hrest]
      simp

/-! ## Section 3: Looking ahead -/

/-- What the functions rely on about one queue of a table with `N` nodes. -/
structure QueueOk (N : ℕ) (q : List wait_q_elem_t) : Prop where
  nodup : (q.map wait_q_elem_t.tid).Nodup
  pos   : ∀ e ∈ q, 1 ≤ e.tid
  lt    : ∀ e ∈ q, e.tid < N
  phase : ∀ e ∈ q, e.current_phase ≠ .INVALID

theorem QueueOk.tid_ne {N : ℕ} {front behind : List wait_q_elem_t} {e : wait_q_elem_t}
    (hq : QueueOk N (front ++ e :: behind)) : ∀ x ∈ front, x.tid ≠ e.tid := by
  intro x hx hxe
  have hnd := hq.nodup
  rw [List.map_append, List.map_cons, List.nodup_append] at hnd
  exact hnd.2.2 x.tid (List.mem_map_of_mem hx) e.tid (by simp) hxe

/-- Entries ahead of a queue member can be endpoints of its edges. -/
theorem QueueOk.ahead {N : ℕ} {front behind : List wait_q_elem_t} {e : wait_q_elem_t}
    (hq : QueueOk N (front ++ e :: behind)) : AheadOk N e.tid front.reverse := by
  refine ⟨fun x hx => hq.lt x (by simp [List.mem_reverse.mp hx]),
    fun x hx => (hq.tid_ne x (List.mem_reverse.mp hx)).symm, ?_⟩
  have hnd := hq.nodup
  rw [List.map_append, List.nodup_append] at hnd
  simpa using hnd.1

theorem find_ahead_writer_loop_eq {tid : ℕ} {front : List wait_q_elem_t}
    (behind : List wait_q_elem_t) {e : wait_q_elem_t} (he : e.tid = tid)
    (hne : ∀ x ∈ front, x.tid ≠ tid)
    (hphase : ∀ x ∈ front, x.current_phase ≠ .INVALID) (acc : ℕ) :
    find_ahead_writer_loop tid (front ++ e :: behind) acc =
      .ok (((front.reverse.find? is_writer).map wait_q_elem_t.tid).getD acc, true) := by
  induction front generalizing acc with
  | nil => simp [find_ahead_writer_loop, he]
  | cons x front ih =>
    have hrest := ih (fun y hy => hne y (List.mem_cons_of_mem _ hy))
      (fun y hy => hphase y (List.mem_cons_of_mem _ hy))
    rw [List.cons_append, find_ahead_writer_loop, if_neg (hne x (by simp)),
      assert_pos (hphase x (by simp)), ok_bind, hrest, List.reverse_cons, List.find?_append]
    -- The last writer of the longer prefix is `x` only if there is none after it.
    cases hf : front.reverse.find? is_writer with
    | some w => simp
    | none =>
      cases hw : is_writer x with
      | true => simp [hw, is_writer_eq_true.mp hw]
      | false => simp [hw, is_writer_eq_false.mp hw]

/-- `find_ahead_writer` returns the one thread a reader points to, or zero. -/
theorem find_ahead_writer_eq {lt : rw_lock_table} {N r : ℕ} {front behind : List wait_q_elem_t}
    {e : wait_q_elem_t} (hqr : lt.record_wait_queues r = front ++ e :: behind)
    (hq : QueueOk N (front ++ e :: behind)) (hread : is_writer e = false) :
    lt.find_ahead_writer e.tid r = .ok ((edges_of (front ++ e :: behind) e.tid).headD 0) := by
  have hloop := find_ahead_writer_loop_eq behind rfl hq.tid_ne
    (fun x hx => hq.phase x (by simp [hx])) 0
  have hedges : (edges_of (front ++ e :: behind) e.tid).headD 0 =
      ((front.reverse.find? is_writer).map wait_q_elem_t.tid).getD 0 := by
    rw [edges_of_split hq.nodup, hread]
    simp only [blockers, Bool.false_eq_true, if_false]
    cases front.reverse.find? is_writer <;> simp
  have hne : e.tid ≠ ((front.reverse.find? is_writer).map wait_q_elem_t.tid).getD 0 := by
    cases hf : front.reverse.find? is_writer with
    | some w =>
      have hw : w ∈ front := List.mem_reverse.mp (List.mem_of_find?_eq_some hf)
      simpa using (hq.tid_ne w hw).symm
    | none =>
      have := hq.pos e (by simp)
      simp only [Option.map_none, Option.getD_none]
      omega
  rw [hedges]
  simp only [find_ahead_writer, hqr, hloop, ok_bind, assert_pos, assert_pos hne, except_pure]

theorem find_ahead_reader_or_writer_loop_eq {tid : ℕ} {front : List wait_q_elem_t}
    (behind : List wait_q_elem_t) {e : wait_q_elem_t} (he : e.tid = tid)
    (hne : ∀ x ∈ front, x.tid ≠ tid)
    (hphase : ∀ x ∈ front, x.current_phase ≠ .INVALID) (acc : ℕ) :
    find_ahead_reader_or_writer_loop tid (front ++ e :: behind) acc =
      .ok ((front.getLast?.map wait_q_elem_t.tid).getD acc, true) := by
  induction front generalizing acc with
  | nil => simp [find_ahead_reader_or_writer_loop, he]
  | cons x front ih =>
    have hrest := ih (fun y hy => hne y (List.mem_cons_of_mem _ hy))
      (fun y hy => hphase y (List.mem_cons_of_mem _ hy))
    rw [List.cons_append, find_ahead_reader_or_writer_loop, if_neg (hne x (by simp)),
      assert_pos (hphase x (by simp)), ok_bind, hrest, List.getLast?_cons]
    cases front.getLast? <;> simp

/-- `find_ahead_reader_or_writer` is zero exactly when a writer points to nobody. -/
theorem find_ahead_reader_or_writer_eq {lt : rw_lock_table} {N r : ℕ}
    {front behind : List wait_q_elem_t} {e : wait_q_elem_t}
    (hqr : lt.record_wait_queues r = front ++ e :: behind)
    (hq : QueueOk N (front ++ e :: behind)) (hwrite : is_writer e = true) :
    ∃ ahead_tid, lt.find_ahead_reader_or_writer e.tid r = .ok ahead_tid ∧
      (ahead_tid = 0 ↔ edges_of (front ++ e :: behind) e.tid = []) := by
  have hloop := find_ahead_reader_or_writer_loop_eq behind rfl hq.tid_ne
    (fun x hx => hq.phase x (by simp [hx])) 0
  refine ⟨(front.getLast?.map wait_q_elem_t.tid).getD 0, ?_, ?_⟩
  · have hne : e.tid ≠ (front.getLast?.map wait_q_elem_t.tid).getD 0 := by
      cases hf : front.getLast? with
      | some w => simpa using (hq.tid_ne w (List.mem_of_getLast? hf)).symm
      | none =>
        have := hq.pos e (by simp)
        simp only [Option.map_none, Option.getD_none]
        omega
    simp only [find_ahead_reader_or_writer, hqr, hloop, ok_bind, assert_pos, assert_pos hne,
      except_pure]
  · rw [edges_of_split hq.nodup, hwrite, List.map_eq_nil_iff, blockers_excl_eq_nil,
      List.reverse_eq_nil_iff]
    cases hf : front.getLast? with
    | some w =>
      have hw := List.mem_of_getLast? hf
      have := hq.pos w (by simp [hw])
      simp only [Option.map_some, Option.getD_some]
      constructor
      · intro h
        omega
      · intro heq
        subst heq
        simp at hf
    | none => simpa using hf

/-! ## Section 4: Requests -/

theorem get_cycle_eq {lt : rw_lock_table} {tid : ℕ} {cycle : List ℕ}
    (h : lt.wait_for_graph.get_cycle tid = some cycle) : lt.get_cycle tid = .ok cycle := by
  simp [get_cycle, h]

/-- The wake-up of an aborted request goes to the second member of the cycle. -/
theorem wake_cycle_member_eq {lt : rw_lock_table} {tid w : ℕ} {rest : List ℕ}
    (f : SourceFunction) (h : lt.wait_for_graph.get_cycle tid = some (tid :: w :: rest)) :
    lt.wake_cycle_member tid f = .ok (lt.signal w) := by
  have hlen : (tid :: w :: rest).length ≠ 0 := by simp
  have hhead : (tid :: w :: rest).head? = some tid := rfl
  simp only [wake_cycle_member, get_cycle_eq h, ok_bind, assert_pos hlen, assert_pos hhead,
    except_pure]

/-- Appending a request, adding its edges, removing them and erasing the
    request leaves only the signal. -/
theorem undo_request {lt : rw_lock_table} {tid r w : ℕ} {q : List wait_q_elem_t}
    {dests : List ℕ} (hnodes : lt.wait_for_graph.nodes tid = []) :
    ((((lt.set_queue r q).set_edges tid dests).signal w).set_edges tid []).set_queue r
      (lt.record_wait_queues r) = lt.signal w := by
  have hgraph : lt.wait_for_graph.set_edges tid [] = lt.wait_for_graph :=
    directed_graph.set_edges_eq_self (by simpa using hnodes)
  simp only [set_queue, set_edges, signal, directed_graph.set_edges_set_edges, hgraph,
    Function.update_idem, Function.update_eq_self]
  rfl

theorem dropWhile_read (l : List wait_q_elem_t) :
    (l.find? is_writer = none ∧ l.dropWhile (fun e => e.current_phase = .READ) = []) ∨
    (∃ w rest, l.find? is_writer = some w ∧
      l.dropWhile (fun e => e.current_phase = .READ) = w :: rest) := by
  induction l with
  | nil => simp
  | cons e l ih =>
    cases hw : is_writer e with
    | true => simp [hw, is_writer_eq_true.mp hw]
    | false => simpa [hw, is_writer_eq_false.mp hw] using ih

/-- The queue of a request as the functions see it: the request is at the back. -/
structure RequestOk (N : ℕ) (lt : rw_lock_table) (e : wait_q_elem_t) (r : ℕ) : Prop where
  nodes_eq : lt.wait_for_graph.number_of_nodes = N
  no_edge  : lt.wait_for_graph.nodes e.tid = []
  queue    : QueueOk N (lt.record_wait_queues r ++ [e])
  graph    : (lt.wait_for_graph.set_edges e.tid
    (edges_of (lt.record_wait_queues r ++ [e]) e.tid)).WellFormed

/-- The table while a request waits: the entry is queued and its edges are stored. -/
def enqueued (lt : rw_lock_table) (e : wait_q_elem_t) (r : ℕ) : rw_lock_table :=
  (lt.set_queue r (lt.record_wait_queues r ++ [e])).set_edges e.tid
    (edges_of (lt.record_wait_queues r ++ [e]) e.tid)

/-- The arrows of a request at the back of the queue. -/
theorem RequestOk.edges {N : ℕ} {lt : rw_lock_table} {e : wait_q_elem_t} {r : ℕ}
    (h : RequestOk N lt e r) :
    edges_of (lt.record_wait_queues r ++ [e]) e.tid =
      (blockers is_writer (is_writer e) (lt.record_wait_queues r).reverse).map
        wait_q_elem_t.tid :=
  edges_of_split h.queue.nodup

/-- The search after the edges have been added sees the waiting table. -/
theorem RequestOk.get_cycle {N : ℕ} {lt : rw_lock_table} {e : wait_q_elem_t} {r : ℕ}
    (h : RequestOk N lt e r) :
    ∃ cycle, (lt.enqueued e r).wait_for_graph.get_cycle e.tid = some cycle ∧
      (cycle = [] ↔
        ¬ Relation.TransGen (lt.enqueued e r).wait_for_graph.edge e.tid e.tid) := by
  obtain ⟨cycle, hcycle⟩ := directed_graph.get_cycle_isSome h.graph e.tid
  exact ⟨cycle, hcycle, directed_graph.get_cycle_eq_nil_iff hcycle⟩

/-- Facts about the position of the entry at the back of a queue. -/
theorem RequestOk.findIdx {N : ℕ} {lt : rw_lock_table} {e : wait_q_elem_t} {r : ℕ}
    (h : RequestOk N lt e r) :
    (lt.record_wait_queues r ++ [e]).findIdx (fun x => x.tid = e.tid) =
      (lt.record_wait_queues r).length := by
  have hmiss : ∀ x ∈ lt.record_wait_queues r, decide (x.tid = e.tid) = false := by
    intro x hx
    simpa using h.queue.tid_ne x hx
  rw [List.findIdx_append, List.findIdx_eq_length_of_false hmiss]
  simp

theorem eraseIdx_back (q : List wait_q_elem_t) (e : wait_q_elem_t) :
    (q ++ [e]).eraseIdx q.length = q := by
  rw [List.eraseIdx_append_of_length_le (Nat.le_refl _)]
  simp

/-- A request without edges is on no cycle. -/
theorem no_cycle_of_no_edges {lt : rw_lock_table} {e : wait_q_elem_t} {r : ℕ}
    {cycle : List ℕ} (hcycle : (lt.enqueued e r).wait_for_graph.get_cycle e.tid = some cycle)
    (hedges : edges_of (lt.record_wait_queues r ++ [e]) e.tid = []) : cycle = [] := by
  refine (directed_graph.get_cycle_eq_nil_iff hcycle).mpr fun hloop => ?_
  obtain ⟨y, hy, -⟩ := Relation.TransGen.head'_iff.mp hloop
  simp [directed_graph.edge, enqueued, hedges] at hy

/-- `rdlock_clear_abort` undoes the request and wakes the second member of the cycle. -/
theorem rdlock_clear_abort_eq {N : ℕ} {lt : rw_lock_table} {e : wait_q_elem_t} {r w : ℕ}
    {rest : List ℕ} (h : RequestOk N lt e r) (hread : is_writer e = false)
    (hcycle : (lt.enqueued e r).wait_for_graph.get_cycle e.tid = some (e.tid :: w :: rest)) :
    (lt.enqueued e r).rdlock_clear_abort e.tid r = .ok (lt.signal w) := by
  have hwake := wake_cycle_member_eq .rdlock_clear_abort hcycle
  have hqueue : (lt.enqueued e r).record_wait_queues r = lt.record_wait_queues r ++ [e] := by
    simp [enqueued]
  have hlen : (lt.record_wait_queues r ++ [e]).length ≠ 0 := by simp
  have hend : (lt.record_wait_queues r).length ≠ (lt.record_wait_queues r ++ [e]).length := by
    simp
  have hback : (lt.record_wait_queues r).length =
      (lt.record_wait_queues r ++ [e]).length - 1 := by simp
  have hdrop : (lt.record_wait_queues r ++ [e]).reverse.drop 1 =
      (lt.record_wait_queues r).reverse := by simp
  simp only [rdlock_clear_abort, hqueue, assert_pos hlen, ok_bind, hwake, h.findIdx,
    assert_pos hend, assert_pos hback, hdrop, eraseIdx_back]
  have hedges := h.edges
  simp only [hread, blockers, Bool.false_eq_true, if_false] at hedges
  rcases dropWhile_read (lt.record_wait_queues r).reverse with ⟨hf, hd⟩ | ⟨a, rest, hf, hd⟩
  · -- No writer ahead: no edge was added, so there is no cycle to abort for.
    rw [hf] at hedges
    exact absurd (no_cycle_of_no_edges hcycle (by simpa using hedges)) (by simp)
  · rw [hf] at hedges
    simp only [Option.toList_some, List.map_cons, List.map_nil] at hedges
    have hwriter := is_writer_eq_true.mp (List.find?_some hf)
    have hmem : a ∈ lt.record_wait_queues r :=
      List.mem_reverse.mp (List.mem_of_find?_eq_some hf)
    have hnodes : ((lt.enqueued e r).signal w).wait_for_graph.nodes e.tid =
        [a.tid].map unit_edge := by
      simp [enqueued, hedges]
    have hnum : ((lt.enqueued e r).signal w).wait_for_graph.number_of_nodes = N := by
      simp [enqueued, h.nodes_eq]
    have hremove := remove_edge_eq (hnum ▸ h.queue.lt e (by simp))
      (hnum ▸ h.queue.lt a (by simp [hmem])) (h.queue.tid_ne a hmem).symm hnodes (by simp)
      (by simp)
    have hfilter : [a.tid].filter (fun d => d ≠ a.tid) = [] := by simp
    rw [hfilter] at hremove
    simp only [hd, assert_pos hwriter, ok_bind, hremove, except_pure]
    rw [enqueued, undo_request h.no_edge]

/-- `wrlock_clear_abort` undoes the request and wakes the second member of the cycle. -/
theorem wrlock_clear_abort_eq {N : ℕ} {lt : rw_lock_table} {e : wait_q_elem_t} {r w : ℕ}
    {rest : List ℕ} (h : RequestOk N lt e r) (hwrite : is_writer e = true)
    (hcycle : (lt.enqueued e r).wait_for_graph.get_cycle e.tid = some (e.tid :: w :: rest)) :
    (lt.enqueued e r).wrlock_clear_abort e.tid r = .ok (lt.signal w) := by
  have hwake := wake_cycle_member_eq .wrlock_clear_abort hcycle
  have hqueue : (lt.enqueued e r).record_wait_queues r = lt.record_wait_queues r ++ [e] := by
    simp [enqueued]
  have hedges := h.edges
  rw [hwrite] at hedges
  -- Somebody is ahead, since the request points to somebody.
  cases hahead : (lt.record_wait_queues r).reverse with
  | nil =>
    rw [hahead] at hedges
    exact absurd (no_cycle_of_no_edges hcycle (by simpa using hedges)) (by simp)
  | cons a ahead =>
    have hrev : (lt.record_wait_queues r ++ [e]).reverse = e :: a :: ahead := by
      simp [hahead]
    have hmem : a ∈ lt.record_wait_queues r := List.mem_reverse.mp (by simp [hahead])
    have hpos : 1 ≤ (lt.record_wait_queues r).length := List.length_pos_of_mem hmem
    have hlen : (lt.record_wait_queues r ++ [e]).length ≠ 0 := by simp
    have hend : (lt.record_wait_queues r ++ [e]).length - 1 ≠
        (lt.record_wait_queues r ++ [e]).length := by simp
    have htwo : (lt.record_wait_queues r ++ [e]).length ≥ 2 := by
      simp only [List.length_append, List.length_singleton]
      omega
    have hidx : (lt.record_wait_queues r ++ [e]).length - 1 = (lt.record_wait_queues r).length := by
      simp
    have hnum : ((lt.enqueued e r).signal w).wait_for_graph.number_of_nodes = N := by
      simp [enqueued, h.nodes_eq]
    have htid : e.tid < ((lt.enqueued e r).signal w).wait_for_graph.number_of_nodes :=
      hnum ▸ h.queue.lt e (by simp)
    have hnodes : ((lt.enqueued e r).signal w).wait_for_graph.nodes e.tid =
        ((blockers is_writer true (a :: ahead)).map wait_q_elem_t.tid).map unit_edge := by
      rw [← hahead, ← hedges]
      simp [enqueued]
    have hok : AheadOk ((lt.enqueued e r).signal w).wait_for_graph.number_of_nodes e.tid
        (a :: ahead) := by
      rw [hnum, ← hahead]
      exact h.queue.ahead
    -- Both branches of the source leave no edge at the victim.
    have hclear : ((lt.enqueued e r).signal w).wrlock_clear_edges e.tid (a :: ahead) =
        .ok (((lt.enqueued e r).signal w).set_edges e.tid []) := by
      rw [wrlock_clear_edges]
      cases hw : is_writer a with
      | true =>
        rw [if_neg (is_writer_eq_true.mp hw)]
        simp only [blockers, if_true, hw] at hnodes
        have hremove := remove_edge_eq htid (hok.lt a (by simp)) (hok.ne a (by simp)) hnodes
          (by simp) (by simp)
        simpa using hremove
      | false =>
        rw [if_pos (is_writer_eq_false.mp hw)]
        simp only [blockers, if_true, hw, Bool.false_eq_true, if_false] at hnodes
        exact remove_reader_edges_eq htid hok hnodes
    simp only [wrlock_clear_abort, hqueue, assert_pos hlen, ok_bind, hwake, hrev, assert_pos,
      assert_pos hend, assert_pos htwo, hclear, except_pure]
    rw [hidx, eraseIdx_back, enqueued, undo_request h.no_edge]

/-- A deadlock is reported exactly when the search returned a cycle. -/
theorem is_deadlock_exist_eq {lt : rw_lock_table} {tid : ℕ} {cycle : List ℕ}
    (h : lt.wait_for_graph.get_cycle tid = some cycle) :
    lt.is_deadlock_exist tid = .ok (decide (cycle ≠ []), cycle) := by
  simp [is_deadlock_exist, get_cycle_eq h]

/-- The first edge of a request. -/
theorem RequestOk.add_edge {N : ℕ} {lt : rw_lock_table} {e w : wait_q_elem_t} {r : ℕ}
    (h : RequestOk N lt e r) (hw : w ∈ lt.record_wait_queues r) :
    (lt.set_queue r (lt.record_wait_queues r ++ [e])).add_edge e.tid w.tid =
      .ok ((lt.set_queue r (lt.record_wait_queues r ++ [e])).set_edges e.tid [w.tid]) := by
  let lt' := lt.set_queue r (lt.record_wait_queues r ++ [e])
  have hsrc : e.tid < lt'.wait_for_graph.number_of_nodes := h.nodes_eq ▸ h.queue.lt e (by simp)
  have hdst : w.tid < lt'.wait_for_graph.number_of_nodes :=
    h.nodes_eq ▸ h.queue.lt w (by simp [hw])
  have hnodes : lt'.wait_for_graph.nodes e.tid = ([] : List ℕ).map unit_edge := by
    simpa [lt'] using h.no_edge
  exact rw_lock_table.add_edge_eq hsrc hdst (h.queue.tid_ne w hw).symm hnodes (by simp)

/-- The queue of a request that points to somebody is not empty. -/
theorem RequestOk.length_gt_one {N : ℕ} {lt : rw_lock_table} {e : wait_q_elem_t} {r : ℕ}
    (h : RequestOk N lt e r) (hne : edges_of (lt.record_wait_queues r ++ [e]) e.tid ≠ []) :
    (lt.record_wait_queues r ++ [e]).length > 1 := by
  have hq : lt.record_wait_queues r ≠ [] := by
    intro hq
    have := h.edges
    rw [hq] at this
    exact hne (by simpa [hq] using this)
  have := List.length_pos_iff.mpr hq
  simp only [List.length_append, List.length_singleton]
  omega

/-- A reader that points to nobody is granted at once. -/
theorem rdlock_eq_grant {N : ℕ} {lt : rw_lock_table} {tid r : ℕ}
    (h : RequestOk N lt ⟨tid, .READ⟩ r)
    (hedges : edges_of (lt.record_wait_queues r ++ [⟨tid, .READ⟩]) tid = []) :
    lt.rdlock tid r = .ok (.returned true,
      (lt.set_queue r (lt.record_wait_queues r ++ [⟨tid, .READ⟩])).rdlock_acquire r) := by
  have hfind := find_ahead_writer_eq (set_queue_self lt r _) h.queue (is_writer_read tid)
  simp only [hedges, List.headD_nil] at hfind
  have hsize : (lt.record_wait_queues r ++ [(⟨tid, .READ⟩ : wait_q_elem_t)]).length ≥ 1 := by simp
  simp only [rdlock, set_queue_self, assert_pos hsize, ok_bind]
  split
  · rfl
  · next hone =>
    have hgt : (lt.record_wait_queues r ++ [(⟨tid, .READ⟩ : wait_q_elem_t)]).length > 1 := by
      omega
    simp only [assert_pos hgt, ok_bind, hfind, ne_eq, not_true_eq_false, if_false, except_pure]

/-- A reader that points to somebody stores that edge and runs the search. -/
theorem rdlock_eq_search {N : ℕ} {lt : rw_lock_table} {tid r : ℕ}
    (h : RequestOk N lt ⟨tid, .READ⟩ r)
    (hedges : edges_of (lt.record_wait_queues r ++ [⟨tid, .READ⟩]) tid ≠ []) :
    lt.rdlock tid r = (do
      let (deadlock, _) ← (lt.enqueued ⟨tid, .READ⟩ r).is_deadlock_exist tid
      if deadlock then do
        let lt ← (lt.enqueued ⟨tid, .READ⟩ r).rdlock_clear_abort tid r
        return (.returned false, lt)
      else return (.asleep, (lt.enqueued ⟨tid, .READ⟩ r).cond_wait tid)) := by
  have hfind := find_ahead_writer_eq (set_queue_self lt r _) h.queue (is_writer_read tid)
  have hgt := h.length_gt_one hedges
  have hshape := h.edges
  simp only [is_writer_read, blockers, Bool.false_eq_true, if_false] at hshape
  cases hf : (lt.record_wait_queues r).reverse.find? is_writer with
  | none =>
    rw [hf] at hshape
    exact absurd (by simpa using hshape) hedges
  | some w =>
    rw [hf] at hshape
    simp only [Option.toList_some, List.map_cons, List.map_nil] at hshape
    have hmem : w ∈ lt.record_wait_queues r := List.mem_reverse.mp (List.mem_of_find?_eq_some hf)
    have hpos : w.tid ≠ 0 := by
      have := h.queue.pos w (by simp [hmem])
      omega
    have hadd := h.add_edge hmem
    simp only [hshape, List.headD_cons] at hfind
    have hsize : (lt.record_wait_queues r ++ [(⟨tid, .READ⟩ : wait_q_elem_t)]).length ≥ 1 := by
      omega
    have hone : ¬ (lt.record_wait_queues r ++ [(⟨tid, .READ⟩ : wait_q_elem_t)]).length = 1 := by
      omega
    simp only [rdlock, set_queue_self, assert_pos hsize, ok_bind, if_neg hone, assert_pos hgt,
      hfind, ne_eq, hpos, not_false_eq_true, if_true, hadd]
    rw [enqueued, hshape]

theorem is_writer_of_write (tid : ℕ) {phase : phase_t}
    (h : phase = .FIRST_WRITE ∨ phase = .SECOND_WRITE) : is_writer ⟨tid, phase⟩ = true := by
  rcases h with rfl | rfl <;> rfl

/-- The loop and the single edge of `wrlock` store exactly the arrows of the request. -/
theorem RequestOk.wrlock_edges_eq {N : ℕ} {lt : rw_lock_table} {e : wait_q_elem_t} {r : ℕ}
    (h : RequestOk N lt e r) (hwrite : is_writer e = true)
    (hne : edges_of (lt.record_wait_queues r ++ [e]) e.tid ≠ []) :
    (lt.set_queue r (lt.record_wait_queues r ++ [e])).wrlock_edges e.tid r =
      .ok (lt.enqueued e r) := by
  have hedges := h.edges
  rw [hwrite] at hedges
  cases hahead : (lt.record_wait_queues r).reverse with
  | nil =>
    rw [hahead] at hedges
    exact absurd (by simpa using hedges) hne
  | cons a ahead =>
    have hrev : (lt.record_wait_queues r ++ [e]).reverse = e :: a :: ahead := by simp [hahead]
    have hmem : a ∈ lt.record_wait_queues r := List.mem_reverse.mp (by simp [hahead])
    simp only [wrlock_edges, set_queue_self, hrev, assert_pos, ok_bind]
    rw [enqueued, hedges, hahead]
    cases hw : is_writer a with
    | true =>
      -- A writer right ahead: one edge.
      rw [if_neg (is_writer_eq_true.mp hw), h.add_edge hmem]
      simp [blockers, hw]
    | false =>
      -- A run of readers right ahead: one edge to each.
      have hok : AheadOk lt.wait_for_graph.number_of_nodes e.tid (a :: ahead) := by
        rw [h.nodes_eq, ← hahead]
        exact h.queue.ahead
      have hsrc : e.tid < lt.wait_for_graph.number_of_nodes :=
        h.nodes_eq ▸ h.queue.lt e (by simp)
      have hnodes : lt.wait_for_graph.nodes e.tid = ([] : List ℕ).map unit_edge := by
        simpa using h.no_edge
      have hloop : add_reader_edges e.tid (a :: ahead)
          (lt.set_queue r (lt.record_wait_queues r ++ [e])) = _ :=
        add_reader_edges_eq hsrc hok hnodes (by simp)
      rw [if_pos (is_writer_eq_false.mp hw), hloop]
      simp [blockers, hw]

/-- A writer that points to somebody stores its edges and runs the search. -/
theorem wrlock_eq_search {N : ℕ} {lt : rw_lock_table} {tid r : ℕ} {phase : phase_t}
    (h : RequestOk N lt ⟨tid, phase⟩ r) (hphase : phase = .FIRST_WRITE ∨ phase = .SECOND_WRITE)
    (hedges : edges_of (lt.record_wait_queues r ++ [⟨tid, phase⟩]) tid ≠ []) :
    lt.wrlock tid phase r = (do
      let (deadlock, _) ← (lt.enqueued ⟨tid, phase⟩ r).is_deadlock_exist tid
      if deadlock then do
        let lt ← (lt.enqueued ⟨tid, phase⟩ r).wrlock_clear_abort tid r
        return (.returned false, lt)
      else return (.asleep, (lt.enqueued ⟨tid, phase⟩ r).cond_wait tid)) := by
  have hgt := h.length_gt_one hedges
  have hstored := h.wrlock_edges_eq (is_writer_of_write tid hphase) hedges
  cases hq : lt.record_wait_queues r with
  | nil => simp [hq] at hgt
  | cons front rest =>
    have hfront : front.tid ≠ tid := h.queue.tid_ne front (by simp [hq])
    rw [hq] at hgt hstored
    simp only [wrlock, assert_pos hphase, ok_bind, hq, set_queue_self, List.cons_append,
      if_neg hfront]
    simp only [← List.cons_append, assert_pos hgt, ok_bind, hstored]

/-- The end of a lock call: the status and, for a reader, the count. -/
def acquire (lt : rw_lock_table) (e : wait_q_elem_t) (r : ℕ) : rw_lock_table :=
  if is_writer e then lt.set_status r .RW_WRITER_LOCK else lt.rdlock_acquire r

/-- What a writer at the front of the queue relies on when it is granted. -/
structure GrantOk (lt : rw_lock_table) (r : ℕ) : Prop where
  valid     : lt.table r ≠ .RW_INVALID
  no_writer : lt.table r ≠ .RW_WRITER_LOCK
  no_reader : lt.readers_count r = 0

theorem wrlock_acquire_eq {lt : rw_lock_table} {tid r : ℕ} {front : wait_q_elem_t}
    {rest : List wait_q_elem_t} (h : GrantOk lt r) (hq : lt.record_wait_queues r = front :: rest)
    (hfront : front.tid = tid) :
    lt.wrlock_acquire tid r = .ok (lt.set_status r .RW_WRITER_LOCK) := by
  simp only [wrlock_acquire, assert_pos h.valid, assert_pos h.no_writer, assert_pos h.no_reader,
    hq, assert_pos hfront, ok_bind, except_pure]

/-- How a lock call for the entry `e` ends, as a function of the arrows of the
    entry at the back of the queue. -/
structure RequestSpec (lt : rw_lock_table) (e : wait_q_elem_t) (r : ℕ)
    (result : Except Failure (CallResult × rw_lock_table)) : Prop where
  /-- Nobody to wait for: the lock is granted. -/
  grant : edges_of (lt.record_wait_queues r ++ [e]) e.tid = [] →
    result = .ok (.returned true, (lt.set_queue r (lt.record_wait_queues r ++ [e])).acquire e r)
  /-- Somebody to wait for and no cycle: the caller sleeps. -/
  sleep : edges_of (lt.record_wait_queues r ++ [e]) e.tid ≠ [] →
    ¬ Relation.TransGen (lt.enqueued e r).wait_for_graph.edge e.tid e.tid →
    result = .ok (.asleep, (lt.enqueued e r).cond_wait e.tid)
  /-- A cycle: the request is undone and a thread that waits for the caller is signalled. -/
  refuse : Relation.TransGen (lt.enqueued e r).wait_for_graph.edge e.tid e.tid →
    ∃ w, (lt.enqueued e r).wait_for_graph.edge w e.tid ∧
      result = .ok (.returned false, lt.signal w)

/-- The cycle search decides between sleeping and aborting. -/
theorem RequestOk.search_eq {N : ℕ} {lt : rw_lock_table} {e : wait_q_elem_t} {r : ℕ}
    {result : Except Failure (CallResult × rw_lock_table)} (h : RequestOk N lt e r)
    (hgrant : edges_of (lt.record_wait_queues r ++ [e]) e.tid = [] →
      result = .ok (.returned true,
        (lt.set_queue r (lt.record_wait_queues r ++ [e])).acquire e r))
    (hsleep : edges_of (lt.record_wait_queues r ++ [e]) e.tid ≠ [] →
      (lt.enqueued e r).wait_for_graph.get_cycle e.tid = some [] →
      result = .ok (.asleep, (lt.enqueued e r).cond_wait e.tid))
    (hrefuse : ∀ w rest,
      (lt.enqueued e r).wait_for_graph.get_cycle e.tid = some (e.tid :: w :: rest) →
      result = .ok (.returned false, lt.signal w)) :
    RequestSpec lt e r result := by
  obtain ⟨cycle, hcycle, hnil⟩ := h.get_cycle
  refine ⟨hgrant, ?_, ?_⟩
  · intro hedges hno
    have hempty : cycle = [] := hnil.mpr hno
    exact hsleep hedges (hempty ▸ hcycle)
  · intro hloop
    have hne : cycle ≠ [] := fun hempty => hnil.mp hempty hloop
    obtain ⟨w, rest, rfl, hedge⟩ := directed_graph.get_cycle_head h.graph hcycle hne
    exact ⟨w, hedge, hrefuse w rest hcycle⟩

/-- A reader whose search finds no cycle sleeps. -/
theorem rdlock_eq_sleep {N : ℕ} {lt : rw_lock_table} {tid r : ℕ}
    (h : RequestOk N lt ⟨tid, .READ⟩ r)
    (hedges : edges_of (lt.record_wait_queues r ++ [⟨tid, .READ⟩]) tid ≠ [])
    (hcycle : (lt.enqueued ⟨tid, .READ⟩ r).wait_for_graph.get_cycle tid = some []) :
    lt.rdlock tid r = .ok (.asleep, (lt.enqueued ⟨tid, .READ⟩ r).cond_wait tid) := by
  rw [rdlock_eq_search h hedges, is_deadlock_exist_eq hcycle]
  simp

/-- A reader whose search finds a cycle is refused. -/
theorem rdlock_eq_refuse {N : ℕ} {lt : rw_lock_table} {tid r w : ℕ} {rest : List ℕ}
    (h : RequestOk N lt ⟨tid, .READ⟩ r)
    (hcycle : (lt.enqueued ⟨tid, .READ⟩ r).wait_for_graph.get_cycle tid =
      some (tid :: w :: rest)) :
    lt.rdlock tid r = .ok (.returned false, lt.signal w) := by
  have hedges : edges_of (lt.record_wait_queues r ++ [⟨tid, .READ⟩]) tid ≠ [] := by
    intro hnil
    cases no_cycle_of_no_edges hcycle hnil
  rw [rdlock_eq_search h hedges, is_deadlock_exist_eq hcycle,
    rdlock_clear_abort_eq h (is_writer_read tid) hcycle]
  simp

/-- **`rdlock`.** -/
theorem rdlock_spec {N : ℕ} {lt : rw_lock_table} {tid r : ℕ}
    (h : RequestOk N lt ⟨tid, .READ⟩ r) :
    RequestSpec lt ⟨tid, .READ⟩ r (lt.rdlock tid r) :=
  h.search_eq (rdlock_eq_grant h) (rdlock_eq_sleep h) (fun _ _ => rdlock_eq_refuse h)

/-- A writer that points to nobody is granted at once. -/
theorem wrlock_eq_grant {N : ℕ} {lt : rw_lock_table} {tid r : ℕ} {phase : phase_t}
    (h : RequestOk N lt ⟨tid, phase⟩ r) (hphase : phase = .FIRST_WRITE ∨ phase = .SECOND_WRITE)
    (hgrant : lt.record_wait_queues r = [] → GrantOk lt r)
    (hedges : edges_of (lt.record_wait_queues r ++ [⟨tid, phase⟩]) tid = []) :
    lt.wrlock tid phase r = .ok (.returned true,
      (lt.set_queue r (lt.record_wait_queues r ++ [⟨tid, phase⟩])).acquire ⟨tid, phase⟩ r) := by
  have hwrite := is_writer_of_write tid hphase
  have hq : lt.record_wait_queues r = [] := by
    have hshape := h.edges
    rw [hwrite, hedges] at hshape
    simpa [blockers_excl_eq_nil] using hshape.symm
  have hok := hgrant hq
  have hacq : (lt.set_queue r [⟨tid, phase⟩]).wrlock_acquire tid r = _ :=
    wrlock_acquire_eq ⟨hok.valid, hok.no_writer, hok.no_reader⟩ (set_queue_self _ _ _) rfl
  simp only [wrlock, assert_pos hphase, ok_bind, hq, List.nil_append, set_queue_self, if_true,
    hacq, except_pure, acquire, hwrite]

/-- A writer whose search finds no cycle sleeps. -/
theorem wrlock_eq_sleep {N : ℕ} {lt : rw_lock_table} {tid r : ℕ} {phase : phase_t}
    (h : RequestOk N lt ⟨tid, phase⟩ r) (hphase : phase = .FIRST_WRITE ∨ phase = .SECOND_WRITE)
    (hedges : edges_of (lt.record_wait_queues r ++ [⟨tid, phase⟩]) tid ≠ [])
    (hcycle : (lt.enqueued ⟨tid, phase⟩ r).wait_for_graph.get_cycle tid = some []) :
    lt.wrlock tid phase r = .ok (.asleep, (lt.enqueued ⟨tid, phase⟩ r).cond_wait tid) := by
  rw [wrlock_eq_search h hphase hedges, is_deadlock_exist_eq hcycle]
  simp

/-- A writer whose search finds a cycle is refused. -/
theorem wrlock_eq_refuse {N : ℕ} {lt : rw_lock_table} {tid r w : ℕ} {rest : List ℕ}
    {phase : phase_t} (h : RequestOk N lt ⟨tid, phase⟩ r)
    (hphase : phase = .FIRST_WRITE ∨ phase = .SECOND_WRITE)
    (hcycle : (lt.enqueued ⟨tid, phase⟩ r).wait_for_graph.get_cycle tid =
      some (tid :: w :: rest)) :
    lt.wrlock tid phase r = .ok (.returned false, lt.signal w) := by
  have hedges : edges_of (lt.record_wait_queues r ++ [⟨tid, phase⟩]) tid ≠ [] := by
    intro hnil
    cases no_cycle_of_no_edges hcycle hnil
  rw [wrlock_eq_search h hphase hedges, is_deadlock_exist_eq hcycle,
    wrlock_clear_abort_eq h (is_writer_of_write tid hphase) hcycle]
  simp

/-- **`wrlock`.** -/
theorem wrlock_spec {N : ℕ} {lt : rw_lock_table} {tid r : ℕ} {phase : phase_t}
    (h : RequestOk N lt ⟨tid, phase⟩ r) (hphase : phase = .FIRST_WRITE ∨ phase = .SECOND_WRITE)
    (hgrant : lt.record_wait_queues r = [] → GrantOk lt r) :
    RequestSpec lt ⟨tid, phase⟩ r (lt.wrlock tid phase r) :=
  h.search_eq (wrlock_eq_grant h hphase hgrant) (wrlock_eq_sleep h hphase)
    (fun _ _ => wrlock_eq_refuse h hphase)

end rw_lock_table

end Project2
