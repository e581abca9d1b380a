import ConcurrentProgramming.Lab13.ProgramInvariant
import ConcurrentProgramming.Lab13.TicketProgress

/-! # What the Test Program Shows

    For both queues, as long as the keys are in the range of `int`:

    * every key is received once, no element outside the array is written, and a
      run that ends prints `CORRECT!` (`keys_received_once`);
    * a consumer receives the keys of one producer in the order in which they were
      sent (`keys_received_in_order`);
    * from every state that can be reached the program can get to its end
      (`program_can_end`).
-/

namespace Lab13

open LTS Linearizability Relation

/-! ## Section 1: Every key once -/

/-- **Every key is received once**, and then the program says so.  A key that was received
    was enqueued by a producer. -/
theorem keys_received_once (f : SourceFile) {w : Workload} (hw : w.keys < 2 ^ 31)
    {s : Program f.code} (h : Reachable (executions f.code w) s) :
    s.out_of_bounds = false ∧ (received s.clients.trace).Nodup ∧
      (∀ key ∈ received s.clients.trace, 0 ≤ key ∧ key < w.keys ∧
        ∃ p id, p < w.NUM_PRODUCER ∧ (p, .call id (.enqueue key)) ∈ s.clients.trace) ∧
      (s.main = .ended → s.printed = some .correct ∧
        (received s.clients.trace).Perm ((List.range w.keys).map fun k : ℕ => (k : ℤ))) := by
  have hinv := program_inv_reachable f.fifo hw h
  have hnodup := hinv.nodup_received f.fifo hw
  have hbounds : ∀ key ∈ received s.clients.trace, 0 ≤ key ∧ key < w.keys :=
    fun key hkey => hinv.received_bounds f.fifo hw hkey
  have hsent : ∀ key ∈ received s.clients.trace,
      ∃ p id, p < w.NUM_PRODUCER ∧ (p, .call id (.enqueue key)) ∈ s.clients.trace := by
    intro key hkey
    obtain ⟨p, id, hcall⟩ := hinv.received_key f.fifo hw hkey
    obtain ⟨-, -, hp, -, -⟩ := hinv.enqueued hcall rfl
    exact ⟨p, id, hp, hcall⟩
  refine ⟨hinv.bounds, hnodup, ?_, ?_⟩
  · intro key hkey
    obtain ⟨h0, hlt⟩ := hbounds key hkey
    exact ⟨h0, hlt, hsent key hkey⟩
  intro hended
  have hmain := hinv.main
  unfold Program.main_ok at hmain
  rw [hended] at hmain
  obtain ⟨hall, hprinted⟩ := hmain
  refine ⟨hprinted, ?_⟩
  have hrange : ((List.range w.keys).map fun k : ℕ => (k : ℤ)).Nodup :=
    List.nodup_range.map fun a b hab => Int.ofNat.inj hab
  rw [List.perm_ext_iff_of_nodup hnodup hrange]
  intro key
  constructor
  · intro hkey
    obtain ⟨h0, hlt⟩ := hbounds key hkey
    exact List.mem_map.mpr ⟨key.toNat, List.mem_range.mpr (by omega), by omega⟩
  · intro hkey
    obtain ⟨k, hk, rfl⟩ := List.mem_map.mp hkey
    exact hinv.all_received f.fifo hw hall (List.mem_range.mp hk)

/-- One producer and one consumer, one after the other: the whole program with
    `keys` keys. -/
def producer_first (keys : ℕ) : List Actor :=
  List.replicate 3 .main ++ List.replicate (8 * keys + 1) (.thread 0) ++
    List.replicate (10 * keys + 1) (.thread 1) ++ List.replicate (keys + 4) .main

theorem step_of_exec (code : QueueCode) (w : Workload) :
    ∀ (s : Program code) a s', s.next w a = some s' → (executions code w).step s a s' :=
  fun _ _ _ h => h

/-- Two producers and two consumers with two keys each.  The first consumer waits for a
    key before there is one, then the threads take turns. -/
def in_turns : List Actor :=
  List.replicate 5 .main ++ List.replicate 3 (.thread 2) ++
    (List.replicate 17 [.thread 0, .thread 1]).flatten ++
    (List.replicate 19 [.thread 2, .thread 3]).flatten ++
    List.replicate 2 (.thread 3) ++ List.replicate 10 .main

theorem keys_received_once_in_turns :
    ∃ s : Program ticket_code, s.main = .ended ∧ s.printed = some .correct ∧
      (received s.clients.trace).Perm [0, 1, 2, 3] := by
  obtain ⟨s, hreach, hend⟩ := Reachable.exec_any (step_of_exec ticket_code ⟨2, 2⟩)
    rfl in_turns
    (fun s => s.main = .ended) (by decide +kernel)
  have hended : s.main = .ended := by simpa using hend
  have hs := keys_received_once .concurrent_queue (by decide) hreach
  exact ⟨s, hended, hs.2.2.2 hended⟩

/-! ## Section 2: In order -/

/-- The return of a call that brings a key to thread `tid`. -/
def key_for (tid : ℕ) (e : ℕ × Event Operation (Option ℤ)) : Option ℤ :=
  match e.2 with
  | .ret _ result => if e.1 = tid then result else none
  | .call _ _ => none

theorem received_by_eq {tid : ℕ} {T : List (ℕ × Event Operation (Option ℤ))} :
    received_by tid T = T.filterMap (key_for tid) := by
  unfold received_by received
  rw [List.filterMap_filter]
  congr 1
  funext e
  obtain ⟨p, e⟩ := e
  cases e <;> by_cases hp : p = tid <;> simp [hp, key_for]

theorem eq_of_key_for {tid : ℕ} {e : ℕ × Event Operation (Option ℤ)} {key : ℤ}
    (h : key_for tid e = some key) : ∃ id, e = (tid, .ret id (some key)) := by
  obtain ⟨p, e⟩ := e
  match e, h with
  | .ret id r, h =>
    simp only [key_for, Option.ite_none_right_eq_some] at h
    obtain ⟨rfl, rfl⟩ := h
    exact ⟨id, rfl⟩

theorem mem_received {p id : ℕ} {key : ℤ} {T : List (ℕ × Event Operation (Option ℤ))}
    (h : (p, .ret id (some key)) ∈ T) : key ∈ received T :=
  List.mem_filterMap.mpr ⟨_, h, rfl⟩

/-- **A consumer receives the keys of one producer in order.** -/
theorem keys_received_in_order (f : SourceFile) {w : Workload} (hw : w.keys < 2 ^ 31)
    {s : Program f.code} (h : Reachable (executions f.code w) s) (tid : ℕ) :
    (received_by tid s.clients.trace).Pairwise fun key key' : ℤ =>
      key / w.NUM_ENQUEUE_PER_PRODUCER = key' / w.NUM_ENQUEUE_PER_PRODUCER → key < key' := by
  have hinv := program_inv_reachable f.fifo hw h
  obtain ⟨L, q, hlin, hshape⟩ := hinv.order f.fifo hw
  have hfifo : Fifo Operation.put id L := hshape.order
  have hT := (client_inv_reachable hinv.clients).one_at_a_time
  rw [received_by_eq, List.pairwise_filterMap, List.pairwise_iff_forall_sublist]
  intro e e' hsub key hkey key' hkey' hsame
  obtain ⟨a, rfl⟩ := eq_of_key_for hkey
  obtain ⟨b, rfl⟩ := eq_of_key_for hkey'
  -- The two enqueues belong to one producer.
  have ha : (tid, .ret a (some key)) ∈ s.clients.trace := hsub.subset (by simp)
  have hb : (tid, .ret b (some key')) ∈ s.clients.trace := hsub.subset (by simp)
  obtain ⟨p, c, hc⟩ := hinv.received_key f.fifo hw (mem_received ha)
  obtain ⟨p', d, hd⟩ := hinv.received_key f.fifo hw (mem_received hb)
  obtain ⟨j, hj, hp, -, hjk⟩ := hinv.enqueued hc rfl
  obtain ⟨j', hj', -, -, hjk'⟩ := hinv.enqueued hd rfl
  have hdiv : ∀ q i, i < w.NUM_ENQUEUE_PER_PRODUCER →
      ((q * w.NUM_ENQUEUE_PER_PRODUCER + i : ℕ) : ℤ) / w.NUM_ENQUEUE_PER_PRODUCER = q := by
    intro q i hi
    rw [← Int.natCast_ediv, Nat.mul_comm, Nat.mul_add_div (by omega), Nat.div_eq_of_lt hi,
      Nat.add_zero]
  obtain rfl : p = p' := by
    rw [hjk, hjk', hdiv p j hj, hdiv p' j' hj'] at hsame
    exact Int.ofNat.inj hsame
  -- So it made them in the order in which the keys arrive.
  have hcalls := hfifo.thread_order hlin hT
    (fun _ _ _ _ _ _ _ hcall hcall' => hinv.key_once hcall hcall') hsub rfl rfl hc hd rfl rfl
  have hsorted := List.pairwise_iff_forall_sublist.mp (hinv.ops_sorted hp) (ops_of_pair hcalls)
  obtain ⟨k, k', hk, hk', hlt⟩ := hsorted
  cases hk
  cases hk'
  exact hlt

theorem keys_received_in_order_two_keys :
    ∃ s : Program ticket_code, received_by 1 s.clients.trace = [0, 1] ∧
      [0, 1].Pairwise fun key key' : ℤ => key / (2 : ℕ) = key' / (2 : ℕ) → key < key' := by
  obtain ⟨s, hreach, hend⟩ := Reachable.exec_any (step_of_exec ticket_code ⟨1, 2⟩)
    rfl (producer_first 2)
    (fun s => received_by 1 s.clients.trace = [0, 1]) (by decide +kernel)
  have hs := keys_received_in_order .concurrent_queue (by decide) hreach 1
  have hkeys : received_by 1 s.clients.trace = [0, 1] := by simpa using hend
  exact ⟨s, hkeys, hkeys ▸ hs⟩

/-! ## Section 3: The program can end -/

section Progress

variable {code : QueueCode} {w : Workload} {s s' : Program code} {p : ℕ}

/-- What a thread has left to do. -/
def WorkerState.work (w : Workload) (t : WorkerState) : ℕ :=
  match t.point with
  | .unborn => 3 * w.NUM_ENQUEUE_PER_PRODUCER + 2
  | .loop => 3 * (w.NUM_ENQUEUE_PER_PRODUCER - t.i) + 1
  | .inside => 3 * (w.NUM_ENQUEUE_PER_PRODUCER - t.i)
  | .mark _ => 3 * (w.NUM_ENQUEUE_PER_PRODUCER - t.i) - 1
  | .returned => 0

/-- What `main` has left to do. -/
def MainPoint.work (w : Workload) : MainPoint → ℕ
  | .create i => (w.NUM_THREADS - i) + w.NUM_THREADS + w.keys + 3
  | .join i => (w.NUM_THREADS - i) + w.keys + 2
  | .verify i => (w.keys - i) + 1
  | .ended => 0

def Program.work (w : Workload) (s : Program code) : ℕ :=
  s.main.work w + ∑ p ∈ Finset.range w.NUM_THREADS, (s.worker p).work w

theorem work_set_worker {t : WorkerState} (hp : p < w.NUM_THREADS)
    (hlt : t.work w < (s.worker p).work w) :
    ∑ q ∈ Finset.range w.NUM_THREADS, ((s.set_worker p t).worker q).work w <
      ∑ q ∈ Finset.range w.NUM_THREADS, (s.worker q).work w := by
  have hsum := ThreadWork.sum_update (WorkerState.work w) s.worker (Finset.mem_range.mpr hp) t
  change ∑ q ∈ Finset.range w.NUM_THREADS, (Function.update s.worker p t q).work w < _
  omega

/-- Every step of a thread is progress, except for a step that does not end the call
    it belongs to. -/
theorem work_thread_step (h : ProgramInv w s) (hstep : ThreadMoves w s p s') :
    s'.work w < s.work w ∨
      ∃ c, s.clients.run p = some (c, none) ∧ s' = { s with clients := c } := by
  have hok := h.thread p
  have hle := hok.started
  cases hstep with
  | call hpoint hi =>
    refine .inl (Nat.add_lt_add_left (work_set_worker (hok.born (by simp [hpoint])) ?_) _)
    simp only [WorkerState.work, hpoint]
    omega
  | leave hpoint hi =>
    refine .inl (Nat.add_lt_add_left (work_set_worker (hok.born (by simp [hpoint])) ?_) _)
    simp only [WorkerState.work, hpoint]
    omega
  | quiet hpoint hrun => exact .inr ⟨_, hrun, rfl⟩
  | enqueued hpoint hp hrun =>
    refine .inl (Nat.add_lt_add_left (work_set_worker (hok.born (by simp [hpoint])) ?_) _)
    simp only [WorkerState.work, WorkerState.started, hpoint] at hle ⊢
    omega
  | dequeued hpoint hp hrun =>
    refine .inl (Nat.add_lt_add_left (work_set_worker (hok.born (by simp [hpoint])) ?_) _)
    simp only [WorkerState.work, WorkerState.started, hpoint] at hle ⊢
    omega
  | mark hpoint hp =>
    refine .inl (Nat.add_lt_add_left (work_set_worker (hok.born (by simp [hpoint])) ?_) _)
    simp only [WorkerState.work, WorkerState.started, hpoint] at hle ⊢
    omega

theorem work_main_step (h : ProgramInv w s) (hstep : MainMoves w s s') :
    s'.work w < s.work w := by
  have hmain := h.main
  unfold Program.main_ok at hmain
  unfold Program.work
  cases hstep with
  | @create i heq hi =>
    rw [heq] at hmain ⊢
    have hpoint := hmain.1 i le_rfl
    have hstart := start_worker_loop w i
    have hworker := work_set_worker (s := s) (t := Program.start_worker w i) hi (by
      simp only [WorkerState.work, hpoint, hstart]
      omega)
    simp only [MainPoint.work]
    change _ + ∑ q ∈ Finset.range w.NUM_THREADS,
      ((s.set_worker i (Program.start_worker w i)).worker q).work w < _
    omega
  | @created i heq hi =>
    rw [heq]
    simp only [MainPoint.work]
    omega
  | @join i heq hi hpoint =>
    rw [heq]
    simp only [MainPoint.work]
    omega
  | @joined i heq hi =>
    rw [heq]
    simp only [MainPoint.work]
    omega
  | @incorrect i heq hi hflag =>
    rw [heq]
    simp only [MainPoint.work]
    omega
  | @verify i heq hi =>
    rw [heq]
    simp only [MainPoint.work]
    omega
  | @correct i heq =>
    rw [heq]
    simp only [MainPoint.work]
    omega

/-- Steps within calls, as steps of the program. -/
theorem program_quiet (h : ProgramInv w s) (hcode : code.Fifo) (hw : w.keys < 2 ^ 31)
    {c : ClientState code} (hquiet : ReflTransGen ClientState.quiet s.clients c) :
    ReflTransGen (executions code w).next s { s with clients := c } ∧
      ProgramInv w { s with clients := c } := by
  induction hquiet with
  | refl => exact ⟨.refl, h⟩
  | @tail c₁ c₂ _ hstep ih =>
    obtain ⟨hsteps, hinv⟩ := ih
    obtain ⟨p, hrun⟩ := hstep
    obtain ⟨id, queue, hbusy, -, -⟩ := ClientState.run_cases hrun
    have hpoint : (s.worker p).point = .inside := (hinv.thread p).busy.mp (by simp [hbusy])
    have hnext : (executions code w).step { s with clients := c₁ } (.thread p)
        { s with clients := c₂ } := by
      show Program.next w _ (.thread p) = _
      by_cases hp : p < w.NUM_PRODUCER
      · simp [Program.next, hp, Program.ProducerFunc, hpoint, hrun]
      · simp [Program.next, hp, Program.ConsumerFunc, hpoint, hrun]
    exact ⟨hsteps.tail ⟨_, hnext⟩, hinv.step hcode hw hnext⟩

/-- A call that returns brings the program closer to its end. -/
theorem closer_of_return (h : ProgramInv w s) (hcode : code.Fifo) (hw : w.keys < 2 ^ 31)
    {c : ClientState code} {r : Option ℤ} (hrun : s.clients.run p = some (c, some r)) :
    ∃ s', (executions code w).next s s' ∧ s'.work w < s.work w := by
  obtain ⟨id, queue, hbusy, -, -⟩ := ClientState.run_cases hrun
  have hpoint : (s.worker p).point = .inside := (h.thread p).busy.mp (by simp [hbusy])
  obtain ⟨s', hnext⟩ : ∃ s', s.next w (.thread p) = some s' := by
    by_cases hp : p < w.NUM_PRODUCER
    · simp [Program.next, hp, Program.ProducerFunc, hpoint, hrun]
    · -- A dequeue returns a key.
      obtain ⟨op, hop⟩ := (client_inv_reachable h.clients).one_at_a_time.open_call hbusy
      obtain ⟨j, -, rfl, -⟩ := h.called hop
      have hr := h.result hcode hw hrun hbusy hop
      rw [Workload.nth_consumer hp] at hr
      obtain ⟨key, rfl⟩ := Option.isSome_iff_exists.mp hr
      simp [Program.next, hp, Program.ConsumerFunc, hpoint, hrun]
  refine ⟨s', ⟨_, hnext⟩, ?_⟩
  rcases work_thread_step h (thread_moves_of_next hnext) with hlt | ⟨c', hrun', -⟩
  · exact hlt
  · rw [hrun] at hrun'
    cases hrun'

/-- A thread outside the queue brings the program closer to its end. -/
theorem closer_of_thread (h : ProgramInv w s) (hborn : (s.worker p).point ≠ .unborn)
    (hgoes : (s.worker p).point ≠ .returned) (hpoint : (s.worker p).point ≠ .inside) :
    ∃ s', (executions code w).next s s' ∧ s'.work w < s.work w := by
  obtain ⟨s', hnext⟩ : ∃ s', s.next w (.thread p) = some s' := by
    by_cases hp : p < w.NUM_PRODUCER
    · match hpt : (s.worker p).point with
      | .loop =>
        by_cases hi : (s.worker p).i < w.NUM_ENQUEUE_PER_PRODUCER
        · simp [Program.next, hp, Program.ProducerFunc, hpt, hi]
        · simp [Program.next, hp, Program.ProducerFunc, hpt, hi]
      | .mark key => exact absurd hpt ((h.thread p).producer hp key)
      | .unborn => exact absurd hpt hborn
      | .inside => exact absurd hpt hpoint
      | .returned => exact absurd hpt hgoes
    · match hpt : (s.worker p).point with
      | .loop =>
        by_cases hi : (s.worker p).i < w.NUM_DEQUEUE_PER_CONSUMER
        · simp [Program.next, hp, Program.ConsumerFunc, hpt, hi]
        · simp [Program.next, hp, Program.ConsumerFunc, hpt, hi]
      | .mark key => simp [Program.next, hp, Program.ConsumerFunc, hpt]
      | .unborn => exact absurd hpt hborn
      | .inside => exact absurd hpt hpoint
      | .returned => exact absurd hpt hgoes
  refine ⟨s', ⟨_, hnext⟩, ?_⟩
  rcases work_thread_step h (thread_moves_of_next hnext) with hlt | ⟨c', hrun', -⟩
  · exact hlt
  · obtain ⟨id, queue, hbusy, -, -⟩ := ClientState.run_cases hrun'
    exact absurd ((h.thread p).busy.mp (by simp [hbusy])) hpoint

/-- If all threads that have not returned are in the queue, some call can return. -/
theorem can_return_of_inside (h : ProgramInv w s) (hcode : code.Fifo) (hw : w.keys < 2 ^ 31)
    (hall : ∀ q < w.NUM_THREADS, (s.worker q).point = .inside ∨ (s.worker q).point = .returned)
    (hp : (s.worker p).point = .inside) : s.clients.can_return := by
  have henq := h.enqueues_le
  have hdeq := h.dequeues_le
  have hbusy : s.clients.busy p ≠ none := (h.thread p).busy.mpr hp
  -- A thread in the queue is in the operation of its kind.
  have hcalling : ∀ q P, (s.worker q).point = .inside → (∀ j, P (w.nth q j) = true) →
      s.clients.calling P := by
    intro q P hq hP
    obtain ⟨id, hid⟩ := Option.ne_none_iff_exists'.mp ((h.thread q).busy.mpr hq)
    obtain ⟨op, hop⟩ := (client_inv_reachable h.clients).one_at_a_time.open_call hid
    obtain ⟨j, -, rfl, -⟩ := h.called hop
    exact ⟨q, id, _, hid, hop, hP j⟩
  rcases hcode.progress s.clients h.clients (by omega) (by omega) ⟨p, hbusy⟩ with
    hret | ⟨hnone, hlt⟩ | ⟨hnone, hlt⟩
  · exact hret
  · -- The producers have returned, so everything has been enqueued.
    have hreturned : ∀ q < w.NUM_PRODUCER, (s.worker q).point = .returned := by
      intro q hq
      refine (hall q (by rw [Workload.NUM_THREADS_eq]; omega)).resolve_left fun hin => hnone ?_
      exact hcalling q _ hin fun j => by rw [Workload.nth_producer hq]; rfl
    rw [h.enqueues_of_returned hreturned] at hlt
    omega
  · have hreturned : ∀ q < w.NUM_PRODUCER,
        (s.worker (w.NUM_PRODUCER + q)).point = .returned := by
      intro q hq
      refine (hall _ (by rw [Workload.NUM_THREADS_eq]; omega)).resolve_left fun hin => hnone ?_
      exact hcalling _ _ hin fun j => by rw [Workload.nth_consumer (by omega)]; rfl
    rw [h.dequeues_of_returned hreturned] at hlt
    omega

/-- `main` waits for a thread: the program can come closer to its end. -/
theorem closer_of_waiting (h : ProgramInv w s) (hcode : code.Fifo) (hw : w.keys < 2 ^ 31)
    (hborn : ∀ q < w.NUM_THREADS, (s.worker q).point ≠ .unborn) (hp : p < w.NUM_THREADS)
    (hgoes : (s.worker p).point ≠ .returned) :
    (executions code w).can_reach (fun s' => s'.work w < s.work w) s := by
  by_cases hout : ∃ q < w.NUM_THREADS, (s.worker q).point ≠ .inside ∧ (s.worker q).point ≠ .returned
  · obtain ⟨q, hq, hinside, hreturned⟩ := hout
    obtain ⟨s', hnext, hlt⟩ := closer_of_thread h (hborn q hq) hreturned hinside
    exact ⟨s', .single hnext, hlt⟩
  · have hall : ∀ q < w.NUM_THREADS,
        (s.worker q).point = .inside ∨ (s.worker q).point = .returned := by
      intro q hq
      by_contra hcon
      exact hout ⟨q, hq, fun hin => hcon (.inl hin), fun hret => hcon (.inr hret)⟩
    obtain ⟨c₁, q, c₂, r, hquiet, hrun⟩ :=
      can_return_of_inside h hcode hw hall ((hall p hp).resolve_right hgoes)
    obtain ⟨hsteps, hinv⟩ := program_quiet h hcode hw hquiet
    obtain ⟨s', hnext, hlt⟩ := closer_of_return (p := q) hinv hcode hw hrun
    exact ⟨s', hsteps.tail hnext, hlt⟩

/-- Unless `main` is at its end, the program can come closer to it. -/
theorem closer_to_end (h : ProgramInv w s) (hcode : code.Fifo) (hw : w.keys < 2 ^ 31)
    (hmain : s.main ≠ .ended) :
    (executions code w).can_reach (fun s' => s'.work w < s.work w) s := by
  by_cases hnext : ∃ s', s.next w .main = some s'
  · obtain ⟨s', hnext⟩ := hnext
    exact ⟨s', .single ⟨.main, hnext⟩, work_main_step h (main_moves_of_next hnext)⟩
  · have hok := h.main
    unfold Program.main_ok at hok
    simp only [Program.next, Program.main_step] at hnext
    cases hpt : s.main with
    | create i =>
      rw [hpt] at hnext
      by_cases hi : i < w.NUM_THREADS <;> simp [hi] at hnext
    | verify i =>
      rw [hpt] at hnext
      by_cases hi : i < w.keys
      · by_cases hflag : s.flag_verification i = false <;> simp [hi, hflag] at hnext
      · simp [hi] at hnext
    | ended => exact absurd hpt hmain
    | join i =>
      -- `main` waits for the thread `i`.
      rw [hpt] at hnext hok
      by_cases hi : i < w.NUM_THREADS
      · by_cases hpoint : (s.worker i).point = .returned
        · simp [hi, hpoint] at hnext
        · exact closer_of_waiting h hcode hw hok.1 hi hpoint
      · simp [hi] at hnext

end Progress

/-- **The program does not get stuck**: from every state that it can reach, it can
    get to its end. -/
theorem program_can_end (f : SourceFile) {w : Workload} (hw : w.keys < 2 ^ 31)
    {s : Program f.code} (h : Reachable (executions f.code w) s) :
    (executions f.code w).can_reach (fun s' => s'.main = .ended) s := by
  refine Reachable.can_reach (Program.work w) ?_ h
  intro s hreach hmain
  obtain ⟨s', hsteps, hlt⟩ :=
    closer_to_end (program_inv_reachable f.fifo hw hreach) f.fifo hw hmain
  exact ⟨s', hsteps, .inr hlt⟩

/-- The program with the constants of the source. -/
theorem program_can_end_start :
    (executions ticket_code ⟨4, 10000000⟩).can_reach (fun s' => s'.main = .ended) .initial :=
  program_can_end .concurrent_queue (by decide) (.init rfl)

end Lab13
