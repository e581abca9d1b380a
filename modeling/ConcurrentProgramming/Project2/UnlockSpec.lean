import ConcurrentProgramming.Project2.LockSpec

/-! # What Waking Up and Unlocking Compute

    The second half of a lock call, after `pthread_cond_wait` has returned, and
    the two unlock functions.  An unlock removes the arrows into the leaving
    entry, whatever the queue looks like: the seven cases of `rd_unlock` and
    `wr_unlock` become one set of threads, the `blockers` of the leaving entry
    among its followers.
-/

namespace Project2

open LockQueue

namespace rw_lock_table

/-! ## Section 1: Waking up -/

/-- How a lock call goes on after `pthread_cond_wait` has returned. -/
structure AwakeSpec (lt : rw_lock_table) (e : wait_q_elem_t) (r : ℕ)
    (result : Except Failure (CallResult × rw_lock_table)) : Prop where
  grant : edges_of (lt.record_wait_queues r) e.tid = [] →
    result = .ok (.returned true, (lt.cond_return e.tid).acquire e r)
  sleep : edges_of (lt.record_wait_queues r) e.tid ≠ [] →
    result = .ok (.asleep, lt.cond_wait e.tid)

theorem cond_wait_cond_return (lt : rw_lock_table) (tid : ℕ) :
    (lt.cond_return tid).cond_wait tid = lt.cond_wait tid := by
  simp [cond_return, cond_wait]

/-- **`rdlock` after a wake-up.** -/
theorem rdlock_awake_spec {N : ℕ} {lt : rw_lock_table} {tid r : ℕ}
    (hq : QueueOk N (lt.record_wait_queues r))
    (hmem : ⟨tid, .READ⟩ ∈ lt.record_wait_queues r) :
    AwakeSpec lt ⟨tid, .READ⟩ r (lt.rdlock_awake tid r) := by
  obtain ⟨front, behind, hqr⟩ := List.append_of_mem hmem
  have hqr' : (lt.cond_return tid).record_wait_queues r =
      front ++ (⟨tid, .READ⟩ : wait_q_elem_t) :: behind := hqr
  have hfind := find_ahead_writer_eq hqr' (hqr ▸ hq) (is_writer_read tid)
  rw [← hqr] at hfind
  refine ⟨fun hedges => ?_, fun hedges => ?_⟩
  · simp only [hedges, List.headD_nil] at hfind
    simp only [rdlock_awake, hfind, ok_bind, ne_eq, not_true_eq_false, if_false, except_pure,
      acquire, is_writer_read, Bool.false_eq_true]
  · -- The writer ahead is a real thread id, so the loop goes round again.
    obtain ⟨w, rest, hw⟩ := List.exists_cons_of_ne_nil hedges
    have hpos : w ≠ 0 := by
      have hmem := mem_edges_of
        (hw ▸ List.mem_cons_self : w ∈ edges_of (lt.record_wait_queues r) tid)
      obtain ⟨x, hx, rfl⟩ := List.mem_map.mp hmem
      have := hq.pos x hx
      omega
    simp only [hw, List.headD_cons] at hfind
    simp only [rdlock_awake, hfind, ok_bind, ne_eq, hpos, not_false_eq_true, if_true, except_pure,
      cond_wait_cond_return]

/-- **`wrlock` after a wake-up.** -/
theorem wrlock_awake_spec {N : ℕ} {lt : rw_lock_table} {e : wait_q_elem_t} {r : ℕ}
    (hq : QueueOk N (lt.record_wait_queues r)) (hmem : e ∈ lt.record_wait_queues r)
    (hwrite : is_writer e = true)
    (hgrant : edges_of (lt.record_wait_queues r) e.tid = [] → GrantOk lt r) :
    AwakeSpec lt e r (lt.wrlock_awake e.tid r) := by
  obtain ⟨front, behind, hqr⟩ := List.append_of_mem hmem
  have hqr' : (lt.cond_return e.tid).record_wait_queues r = front ++ e :: behind := hqr
  obtain ⟨ahead_tid, hfind, hzero⟩ := find_ahead_reader_or_writer_eq hqr' (hqr ▸ hq) hwrite
  rw [← hqr] at hzero
  refine ⟨fun hedges => ?_, fun hedges => ?_⟩
  · have hahead : ahead_tid = 0 := hzero.mpr hedges
    -- A writer that points to nobody is at the front.
    have hfront : front = [] := by
      rw [hqr, edges_of_split (hqr ▸ hq.nodup), hwrite] at hedges
      simpa [blockers_excl_eq_nil] using hedges
    have hok := hgrant hedges
    have hacq : (lt.cond_return e.tid).wrlock_acquire e.tid r = _ :=
      wrlock_acquire_eq ⟨hok.valid, hok.no_writer, hok.no_reader⟩
        (hqr'.trans (by rw [hfront, List.nil_append])) rfl
    simp only [wrlock_awake, hfind, hahead, ok_bind, ne_eq, not_true_eq_false, if_false, hacq,
      except_pure, acquire, hwrite, if_true]
  · have hahead : ahead_tid ≠ 0 := fun h => hedges (hzero.mp h)
    simp only [wrlock_awake, hfind, ok_bind, ne_eq, hahead, not_false_eq_true, if_true,
      except_pure, cond_wait_cond_return]

/-! ## Section 2: Removing edges and signalling -/

/-- The edges from the threads `ts` to `dst` are removed. -/
def drop_edges (lt : rw_lock_table) (ts : List ℕ) (dst : ℕ) : rw_lock_table :=
  { lt with
    wait_for_graph := { lt.wait_for_graph with
      nodes := fun u =>
        if u ∈ ts then (lt.wait_for_graph.nodes u).filter (fun b => b.dest ≠ dst)
        else lt.wait_for_graph.nodes u } }

/-- The threads `ts` are signalled, in this order. -/
def signal_all (lt : rw_lock_table) (ts : List ℕ) : rw_lock_table := ts.foldl signal lt

@[simp] theorem drop_edges_nil (lt : rw_lock_table) (dst : ℕ) : lt.drop_edges [] dst = lt := by
  simp [drop_edges]

theorem drop_edges_cons (lt : rw_lock_table) (u : ℕ) (ts : List ℕ) (dst : ℕ) :
    (lt.drop_edges [u] dst).drop_edges ts dst = lt.drop_edges (u :: ts) dst := by
  have hnodes : ((lt.drop_edges [u] dst).drop_edges ts dst).wait_for_graph.nodes =
      (lt.drop_edges (u :: ts) dst).wait_for_graph.nodes := by
    funext v
    by_cases hu : v = u <;> by_cases hts : v ∈ ts <;> simp [drop_edges, hu, hts]
  simp only [drop_edges] at hnodes ⊢
  rw [hnodes]

theorem filter_unit_edge (dests : List ℕ) (dst : ℕ) :
    (dests.map unit_edge).filter (fun b => b.dest ≠ dst) =
      (dests.filter (fun d => d ≠ dst)).map unit_edge := by
  rw [List.filter_map]
  rfl

/-- `remove_edge` of a stored edge. -/
theorem remove_edge_eq_drop {lt : rw_lock_table} {src dst : ℕ} {dests : List ℕ}
    (hsrc : src < lt.wait_for_graph.number_of_nodes)
    (hdst : dst < lt.wait_for_graph.number_of_nodes) (hne : src ≠ dst)
    (hnodes : lt.wait_for_graph.nodes src = dests.map unit_edge) (hnd : dests.Nodup)
    (hmem : dst ∈ dests) : lt.remove_edge src dst = .ok (lt.drop_edges [src] dst) := by
  rw [remove_edge_eq hsrc hdst hne hnodes hnd hmem]
  have hupdate : Function.update lt.wait_for_graph.nodes src
        ((dests.filter (fun d => d ≠ dst)).map unit_edge) =
      fun u => if u ∈ [src] then (lt.wait_for_graph.nodes u).filter (fun b => b.dest ≠ dst)
        else lt.wait_for_graph.nodes u := by
    funext u
    by_cases hu : u = src
    · subst hu
      rw [Function.update_self, if_pos (by simp), hnodes, filter_unit_edge]
    · rw [Function.update_of_ne hu, if_neg (by simpa using hu)]
  simp only [set_edges, directed_graph.set_edges, drop_edges, hupdate]

/-! ## Section 3: Unlocking -/

/-- What an unlock relies on: the entry `d` sits between `front` and `behind`,
    points to nobody, and the followers that point to it store their arrows. -/
structure UnlockOk (N : ℕ) (lt : rw_lock_table) (r : ℕ) (front : List wait_q_elem_t)
    (d : wait_q_elem_t) (behind : List wait_q_elem_t) : Prop where
  nodes_eq : lt.wait_for_graph.number_of_nodes = N
  queue_eq : lt.record_wait_queues r = front ++ d :: behind
  queue    : QueueOk N (front ++ d :: behind)
  clear    : blockers is_writer (is_writer d) front.reverse = []
  stored   : ∀ e ∈ blockers is_writer (is_writer d) behind,
    lt.wait_for_graph.nodes e.tid = (edges_of (front ++ d :: behind) e.tid).map unit_edge

/-- A follower whose edge to `tid` is stored, so that `remove_edge` succeeds. -/
structure FollowerOk (lt : rw_lock_table) (tid : ℕ) (e : wait_q_elem_t) : Prop where
  src_lt : e.tid < lt.wait_for_graph.number_of_nodes
  ne     : e.tid ≠ tid
  stored : ∃ dests : List ℕ,
    lt.wait_for_graph.nodes e.tid = dests.map unit_edge ∧ dests.Nodup ∧ tid ∈ dests

/-- The followers that point to the leaving entry store that arrow. -/
theorem UnlockOk.follower {N : ℕ} {lt : rw_lock_table} {r : ℕ}
    {front behind : List wait_q_elem_t} {d e : wait_q_elem_t}
    (h : UnlockOk N lt r front d behind)
    (he : e ∈ blockers is_writer (is_writer d) behind) : FollowerOk lt d.tid e := by
  have hmem : e ∈ behind := blockers_subset _ _ he
  have hnd := h.queue.nodup
  refine ⟨h.nodes_eq ▸ h.queue.lt e (by simp [hmem]), ?_, ?_⟩
  · rw [List.map_append, List.map_cons, List.nodup_append, List.nodup_cons] at hnd
    intro hed
    exact hnd.2.1.1 (hed ▸ List.mem_map_of_mem hmem)
  · refine ⟨_, h.stored e he, edges_of_nodup hnd _, ?_⟩
    exact (mem_waits_on_iff hnd e.tid).mpr (List.mem_map_of_mem he)

theorem FollowerOk.remove_edge {lt : rw_lock_table} {tid : ℕ} {e : wait_q_elem_t}
    (h : FollowerOk lt tid e) (htid : tid < lt.wait_for_graph.number_of_nodes) :
    lt.remove_edge e.tid tid = .ok (lt.drop_edges [e.tid] tid) := by
  obtain ⟨dests, hnodes, hnd, hmem⟩ := h.stored
  exact remove_edge_eq_drop h.src_lt htid h.ne hnodes hnd hmem

/-- Removing the edge of one follower and signalling it does not disturb another. -/
theorem FollowerOk.after {lt : rw_lock_table} {tid : ℕ} {e x : wait_q_elem_t}
    (h : FollowerOk lt tid e) (hne : e.tid ≠ x.tid) :
    FollowerOk ((lt.drop_edges [x.tid] tid).signal x.tid) tid e := by
  obtain ⟨dests, hnodes, hnd, hmem⟩ := h.stored
  refine ⟨h.src_lt, h.ne, dests, ?_, hnd, hmem⟩
  simpa [drop_edges, hne] using hnodes

theorem signal_drop_edges (lt : rw_lock_table) (u tid : ℕ) (ts : List ℕ) :
    ((lt.signal u).drop_edges ts tid) = (lt.drop_edges ts tid).signal u := rfl

/-- Removing edges and signalling, one follower after the other. -/
theorem drop_signal_cons (lt : rw_lock_table) (u tid : ℕ) (ts : List ℕ) :
    (((lt.drop_edges [u] tid).signal u).drop_edges ts tid).signal_all ts =
      (lt.drop_edges (u :: ts) tid).signal_all (u :: ts) := by
  rw [signal_drop_edges, drop_edges_cons]
  rfl

/-- The loop of `wr_unlock` takes the whole run of readers. -/
theorem wake_readers_eq {lt : rw_lock_table} {tid : ℕ} {rest : List wait_q_elem_t}
    (htid : tid < lt.wait_for_graph.number_of_nodes)
    (hnd : (rest.map wait_q_elem_t.tid).Nodup)
    (hok : ∀ e ∈ rest.takeWhile (fun e => !is_writer e), FollowerOk lt tid e) :
    let ts := (rest.takeWhile (fun e => !is_writer e)).map wait_q_elem_t.tid
    wake_readers tid rest lt = .ok ((lt.drop_edges ts tid).signal_all ts) := by
  induction rest generalizing lt with
  | nil => simp [wake_readers, signal_all]
  | cons e rest ih =>
    cases hw : is_writer e with
    | true =>
      have hphase := is_writer_eq_true.mp hw
      simp [wake_readers, hphase, hw, signal_all]
    | false =>
      have hphase := is_writer_eq_false.mp hw
      have hrun : (e :: rest).takeWhile (fun e => !is_writer e) =
          e :: rest.takeWhile (fun e => !is_writer e) := by simp [hw]
      rw [List.map_cons, List.nodup_cons] at hnd
      rw [hrun] at hok ⊢
      have hremove := (hok e (by simp)).remove_edge htid
      have hrest := @ih ((lt.drop_edges [e.tid] tid).signal e.tid) htid hnd.2 (fun x hx =>
        (hok x (by simp [hx])).after (fun hxe =>
          hnd.1 (hxe ▸ List.mem_map_of_mem (List.takeWhile_subset _ hx))))
      rw [wake_readers, if_pos hphase, hremove, ok_bind, hrest, drop_signal_cons]
      rfl

/-- The edges `wr_unlock` removes are the arrows into the leaving writer, and it
    signals exactly the threads they start at. -/
theorem wr_unlock_leave_eq {lt : rw_lock_table} {tid : ℕ} {behind : List wait_q_elem_t}
    (htid : tid < lt.wait_for_graph.number_of_nodes)
    (hnd : (behind.map wait_q_elem_t.tid).Nodup)
    (hok : ∀ e ∈ blockers is_writer true behind, FollowerOk lt tid e) :
    let ts := (blockers is_writer true behind).map wait_q_elem_t.tid
    lt.wr_unlock_leave tid behind = .ok ((lt.drop_edges ts tid).signal_all ts) := by
  cases behind with
  | nil => simp [wr_unlock_leave, signal_all]
  | cons e rest =>
    rw [List.map_cons, List.nodup_cons] at hnd
    cases hw : is_writer e with
    | true =>
      have hphase := is_writer_eq_true.mp hw
      have hone : blockers is_writer true (e :: rest) = [e] := by simp [blockers, hw]
      rw [hone] at hok ⊢
      have hremove := (hok e (by simp)).remove_edge htid
      simp [wr_unlock_leave, hremove, hphase, signal_all]
    | false =>
      have hphase := is_writer_eq_false.mp hw
      have hrun : blockers is_writer true (e :: rest) =
          e :: rest.takeWhile (fun e => !is_writer e) := by simp [blockers, hw]
      rw [hrun] at hok ⊢
      have hremove := (hok e (by simp)).remove_edge htid
      have hloop := @wake_readers_eq ((lt.drop_edges [e.tid] tid).signal e.tid) tid rest htid
        hnd.2 (fun x hx => (hok x (by simp [hx])).after (fun hxe =>
          hnd.1 (hxe ▸ List.mem_map_of_mem (List.takeWhile_subset _ hx))))
      simp only [wr_unlock_leave, hremove, ok_bind, hphase, if_true, hloop]
      rw [drop_signal_cons]
      rfl

/-- The table after a writer has left. -/
def wr_released (lt : rw_lock_table) (r tid : ℕ) (behind : List wait_q_elem_t) : rw_lock_table :=
  let ts := (blockers is_writer true behind).map wait_q_elem_t.tid
  (((lt.drop_edges ts tid).signal_all ts).set_queue r behind).set_status r .RW_UNLOCK

/-- **`wr_unlock`.** -/
theorem wr_unlock_eq {N : ℕ} {lt : rw_lock_table} {r : ℕ} {d : wait_q_elem_t}
    {behind : List wait_q_elem_t} (h : UnlockOk N lt r [] d behind) (hd : is_writer d = true) :
    lt.wr_unlock d.tid r = .ok (lt.wr_released r d.tid behind) := by
  have htid : d.tid < lt.wait_for_graph.number_of_nodes := h.nodes_eq ▸ h.queue.lt d (by simp)
  have hnd : (behind.map wait_q_elem_t.tid).Nodup := (List.nodup_cons.mp h.queue.nodup).2
  have hleave := wr_unlock_leave_eq htid hnd (fun e he => h.follower (hd ▸ he))
  have hq : lt.record_wait_queues r = d :: behind := h.queue_eq
  simp only [wr_unlock, hq, assert_pos, ok_bind, hleave, except_pure, wr_released]

theorem rd_unlock_find_eq {tid : ℕ} {front : List wait_q_elem_t} (behind : List wait_q_elem_t)
    {d : wait_q_elem_t} (hd : d.tid = tid) (hread : is_writer d = false)
    (hne : ∀ x ∈ front, x.tid ≠ tid) (hreaders : ∀ x ∈ front, is_writer x = false) (iter : ℕ) :
    rd_unlock_find tid (front ++ d :: behind) iter = .ok (iter + front.length) := by
  induction front generalizing iter with
  | nil => simp [rd_unlock_find, assert_pos (is_writer_eq_false.mp hread), hd]
  | cons x front ih =>
    have hx := is_writer_eq_false.mp (hreaders x (by simp))
    have hrest := ih (fun y hy => hne y (by simp [hy])) (fun y hy => hreaders y (by simp [hy]))
      (iter + 1)
    rw [List.cons_append, rd_unlock_find, assert_pos hx, ok_bind, if_neg (hne x (by simp)), hrest,
      List.length_cons]
    congr 1
    omega

/-- A reader follows: the edge of the next writer, if there is one, is removed. -/
theorem rd_unlock_next_writer_eq {lt : rw_lock_table} {tid : ℕ} {rest : List wait_q_elem_t}
    (htid : tid < lt.wait_for_graph.number_of_nodes)
    (hok : ∀ e ∈ rest.find? is_writer, FollowerOk lt tid e) :
    lt.rd_unlock_next_writer tid rest =
      .ok (lt.drop_edges ((rest.find? is_writer).toList.map wait_q_elem_t.tid) tid) := by
  rcases dropWhile_read rest with ⟨hf, hd⟩ | ⟨w, tl, hf, hd⟩
  · simp [rd_unlock_next_writer, hd, hf]
  · have hwriter := is_writer_eq_true.mp (List.find?_some hf)
    have hremove := (hok w hf).remove_edge htid
    simp [rd_unlock_next_writer, hd, hf, assert_pos hwriter, hremove]

/-- The last reader at the front leaves, and no reader is next: the status is
    reset and the writer that is next, if any, is signalled. -/
def rd_resets (front behind : List wait_q_elem_t) : Prop :=
  front = [] ∧ ∀ x ∈ behind.head?, is_writer x = true

instance (front behind : List wait_q_elem_t) : Decidable (rd_resets front behind) :=
  inferInstanceAs (Decidable (front = [] ∧ ∀ x ∈ behind.head?, is_writer x = true))

/-- The table after a reader has left the place between `front` and `behind`. -/
def rd_released (lt : rw_lock_table) (r tid : ℕ) (front behind : List wait_q_elem_t) :
    rw_lock_table :=
  let ts := (blockers is_writer false behind).map wait_q_elem_t.tid
  let lt := lt.drop_edges ts tid
  let lt := if rd_resets front behind then (lt.set_status r .RW_UNLOCK).signal_all ts else lt
  (lt.count_down r).set_queue r (front ++ behind)

/-- The six cases of `rd_unlock` together. -/
theorem rd_unlock_leave_eq {lt : rw_lock_table} {tid r : ℕ} {front behind : List wait_q_elem_t}
    (htid : tid < lt.wait_for_graph.number_of_nodes)
    (hok : ∀ e ∈ blockers is_writer false behind, FollowerOk lt tid e) :
    let ts := (blockers is_writer false behind).map wait_q_elem_t.tid
    lt.rd_unlock_leave tid r front.length behind =
      .ok (if rd_resets front behind
        then ((lt.drop_edges ts tid).set_status r .RW_UNLOCK).signal_all ts
        else lt.drop_edges ts tid) := by
  simp only [blockers, Bool.false_eq_true, if_false, Option.mem_toList] at hok ⊢
  cases behind with
  | nil =>
    -- No follower: only the status depends on the position.
    by_cases hfront : front = []
    · simp [rd_unlock_leave, hfront, rd_resets, signal_all]
    · simp [rd_unlock_leave, hfront, rd_resets]
  | cons e rest =>
    cases hw : is_writer e with
    | true =>
      have hphase := is_writer_eq_true.mp hw
      have hfind : (e :: rest).find? is_writer = some e := by simp [hw]
      have hremove := (hok e hfind).remove_edge htid
      by_cases hfront : front = []
      · simp [rd_unlock_leave, hfront, rd_resets, hw, hphase, hremove, signal_all]
      · simp [rd_unlock_leave, hfront, rd_resets, hw, hphase, hremove]
    | false =>
      have hphase := is_writer_eq_false.mp hw
      have hfind : (e :: rest).find? is_writer = rest.find? is_writer := by simp [hw]
      rw [hfind] at hok ⊢
      have hnext := rd_unlock_next_writer_eq htid hok
      by_cases hfront : front = []
      · simp [rd_unlock_leave, hfront, rd_resets, hw, hphase, assert_pos trivial, hnext]
      · simp [rd_unlock_leave, hfront, rd_resets, hw, hphase, assert_pos trivial, hnext]

/-- **`rd_unlock`.** -/
theorem rd_unlock_eq {N : ℕ} {lt : rw_lock_table} {r : ℕ} {front behind : List wait_q_elem_t}
    {d : wait_q_elem_t} (h : UnlockOk N lt r front d behind) (hd : is_writer d = false)
    (hcount : lt.readers_count r > 0) :
    lt.rd_unlock d.tid r = .ok (lt.rd_released r d.tid front behind) := by
  have htid : d.tid < lt.wait_for_graph.number_of_nodes := h.nodes_eq ▸ h.queue.lt d (by simp)
  have hreaders : ∀ x ∈ front, is_writer x = false := by
    have hclear := h.clear
    rw [hd, blockers_shared_eq_nil] at hclear
    exact fun x hx => hclear x (List.mem_reverse.mpr hx)
  have hfind := rd_unlock_find_eq behind rfl hd h.queue.tid_ne hreaders 0
  have hleave := @rd_unlock_leave_eq lt d.tid r front behind htid
    (fun e he => h.follower (hd ▸ he))
  have hlen : (front ++ d :: behind).length > 0 := List.length_pos_iff.mpr (by simp)
  have hend : front.length ≠ (front ++ d :: behind).length := by simp
  have hdrop : (front ++ d :: behind).drop (front.length + 1) = behind := by
    rw [List.append_cons, List.drop_left' (by simp)]
  have herase : (front ++ d :: behind).eraseIdx front.length = front ++ behind := by
    rw [List.eraseIdx_append_of_length_le (Nat.le_refl _)]
    simp
  simp only [rd_unlock, assert_pos hcount, h.queue_eq, assert_pos hlen, ok_bind, hfind,
    Nat.zero_add, assert_pos hend, hdrop, hleave, herase, except_pure, rd_released]

/-! ## Section 4: The queues after an unlock

    Whatever the state of the table: an unlock that returns has removed one entry
    of its caller, and no other. -/

section queues
variable {lt lt' : rw_lock_table} {tid r : ℕ}

theorem remove_edge_queues {src dst : ℕ} (h : lt.remove_edge src dst = .ok lt') :
    lt'.record_wait_queues = lt.record_wait_queues := by
  obtain ⟨⟨removed, g⟩, -, hret⟩ := bind_eq_ok h
  cases hret
  rfl

theorem wake_readers_queues {rest : List wait_q_elem_t}
    (h : wake_readers tid rest lt = .ok lt') :
    lt'.record_wait_queues = lt.record_wait_queues := by
  induction rest generalizing lt with
  | nil =>
    cases h
    rfl
  | cons follower rest ih =>
    unfold wake_readers at h
    split at h
    · obtain ⟨lt₁, hremove, hrest⟩ := bind_eq_ok h
      have hkept := remove_edge_queues hremove
      exact (ih hrest).trans hkept
    · cases h
      rfl

theorem wr_unlock_leave_queues {followers : List wait_q_elem_t}
    (h : lt.wr_unlock_leave tid followers = .ok lt') :
    lt'.record_wait_queues = lt.record_wait_queues := by
  cases followers with
  | nil =>
    cases h
    rfl
  | cons follower rest =>
    obtain ⟨lt₁, hremove, hrest⟩ := bind_eq_ok h
    have hkept := remove_edge_queues hremove
    dsimp only at hrest
    split at hrest
    · exact (wake_readers_queues hrest).trans hkept
    · cases hrest
      exact hkept

theorem rd_unlock_next_writer_queues {rest : List wait_q_elem_t}
    (h : lt.rd_unlock_next_writer tid rest = .ok lt') :
    lt'.record_wait_queues = lt.record_wait_queues := by
  unfold rd_unlock_next_writer at h
  split at h
  · cases h
    rfl
  · obtain ⟨-, -, hremove⟩ := bind_eq_ok h
    exact remove_edge_queues hremove

theorem rd_unlock_leave_queues {iter : ℕ} {followers : List wait_q_elem_t}
    (h : lt.rd_unlock_leave tid r iter followers = .ok lt') :
    lt'.record_wait_queues = lt.record_wait_queues := by
  -- Both positions of the reader end in the same three ways.
  unfold rd_unlock_leave at h
  split at h
  · cases followers with
    | nil =>
      cases h
      rfl
    | cons follower rest =>
      dsimp only at h
      split at h
      · obtain ⟨lt₁, hremove, hret⟩ := bind_eq_ok h
        cases hret
        have hkept := remove_edge_queues hremove
        exact hkept
      · obtain ⟨-, -, hnext⟩ := bind_eq_ok h
        exact rd_unlock_next_writer_queues hnext
  · cases followers with
    | nil =>
      cases h
      rfl
    | cons follower rest =>
      dsimp only at h
      split at h
      · exact remove_edge_queues h
      · obtain ⟨-, -, hnext⟩ := bind_eq_ok h
        exact rd_unlock_next_writer_queues hnext

/-- The search of `rd_unlock` ends at an entry of the caller or at the end. -/
theorem rd_unlock_find_cases {q : List wait_q_elem_t} {start iter : ℕ}
    (h : rd_unlock_find tid q start = .ok iter) :
    iter = start + q.length ∨ ∃ front d behind, q = front ++ d :: behind ∧ d.tid = tid ∧
      iter = start + front.length := by
  induction q generalizing start with
  | nil =>
    cases h
    exact .inl rfl
  | cons e es ih =>
    obtain ⟨-, -, hrest⟩ := bind_eq_ok h
    split at hrest
    · next heq =>
      cases hrest
      exact .inr ⟨[], e, es, rfl, heq, rfl⟩
    · rcases ih hrest with hend | ⟨front, d, behind, rfl, hd, hiter⟩
      · left
        rw [hend, List.length_cons]
        omega
      · refine .inr ⟨e :: front, d, behind, rfl, hd, ?_⟩
        rw [hiter, List.length_cons]
        omega

/-- **The queues after `unlock`.** -/
theorem unlock_queues (h : lt.unlock tid r = .ok lt') :
    ∃ front d behind, lt.record_wait_queues r = front ++ d :: behind ∧ d.tid = tid ∧
      lt'.record_wait_queues = Function.update lt.record_wait_queues r (front ++ behind) := by
  unfold unlock at h
  split at h
  · obtain ⟨-, -, h⟩ := bind_eq_ok h
    obtain ⟨-, -, h⟩ := bind_eq_ok h
    obtain ⟨iter, hfind, h⟩ := bind_eq_ok h
    obtain ⟨_, hend, h⟩ := bind_eq_ok h
    obtain ⟨lt₁, hleave, hret⟩ := bind_eq_ok h
    cases hret
    rcases rd_unlock_find_cases hfind with hlast | ⟨front, d, behind, hq, hd, hiter⟩
    · simp [assert, hlast] at hend
    · refine ⟨front, d, behind, hq, hd, ?_⟩
      rw [Nat.zero_add] at hiter
      have herase : (front ++ d :: behind).eraseIdx front.length = front ++ behind := by
        rw [List.eraseIdx_append_of_length_le (Nat.le_refl _)]
        simp
      show Function.update lt₁.record_wait_queues r _ = _
      rw [rd_unlock_leave_queues hleave, hq, hiter, herase]
  · unfold wr_unlock at h
    split at h
    · cases h
    · next top followers hq =>
      obtain ⟨_, htop, h⟩ := bind_eq_ok h
      obtain ⟨lt₁, hleave, hret⟩ := bind_eq_ok h
      cases hret
      have htid : top.tid = tid := by
        by_contra hne
        simp [assert, hne] at htop
      refine ⟨[], top, followers, hq, htid, ?_⟩
      show Function.update lt₁.record_wait_queues r followers = _
      rw [wr_unlock_leave_queues hleave]
      rfl
  · cases h

/-- An unlock keeps the entries of all other threads, in their order. -/
theorem unlock_keeps_others (h : lt.unlock tid r = .ok lt') (r' : ℕ) :
    (lt'.record_wait_queues r').filter (fun e => e.tid ≠ tid) =
      (lt.record_wait_queues r').filter (fun e => e.tid ≠ tid) := by
  obtain ⟨front, d, behind, hq, hd, hq'⟩ := unlock_queues h
  rw [hq']
  by_cases hr : r' = r
  · subst hr
    rw [Function.update_self, hq]
    simp [hd]
  · rw [Function.update_of_ne hr]

end queues

end rw_lock_table

end Project2
