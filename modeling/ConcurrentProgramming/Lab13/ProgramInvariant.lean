import ConcurrentProgramming.Framework.Progress
import ConcurrentProgramming.Framework.ThreadWork
import ConcurrentProgramming.Lab13.QueueLaws
import ConcurrentProgramming.Lab13.TicketOrder
import Mathlib.Algebra.Group.Action.Defs
import Mathlib.Algebra.Order.BigOperators.Group.Finset

/-! # The Invariant of the Test Program

    A thread has called the operations of its loop one after the other
    (`ThreadOk`), a key that was received is marked or about to be marked
    (`Marked`), and `main` has not gone past a thread that has not returned
    (`main_ok`).  If the queue keeps the laws of `QueueCode.Fifo`, all of this
    holds in every reachable state (`program_inv_reachable`).
-/

namespace Lab13

open LTS CInt Linearizability Threads Relation

/-! ## Section 1: Steps -/

section Steps

variable {code : QueueCode} {w : Workload} {s s' : Program code} {p : ℕ}

/-- The operation number `j` of thread `p`. -/
def Workload.nth (w : Workload) (p j : ℕ) : Operation :=
  if p < w.NUM_PRODUCER then .enqueue (p * w.NUM_ENQUEUE_PER_PRODUCER + j : ℕ) else .dequeue

/-- The operation a thread calls next. -/
def Workload.op (w : Workload) (p : ℕ) (t : WorkerState) : Operation :=
  if p < w.NUM_PRODUCER then .enqueue t.key_enqueue else .dequeue

/-- What thread `p` does in one step. -/
inductive ThreadMoves (w : Workload) (s : Program code) (p : ℕ) : Program code → Prop where
  | call : (s.worker p).point = .loop → (s.worker p).i < w.NUM_ENQUEUE_PER_PRODUCER →
      ThreadMoves w s p { s.set_worker p { s.worker p with point := .inside } with
        clients := s.clients.call p (w.op p (s.worker p)) }
  | leave : (s.worker p).point = .loop → w.NUM_ENQUEUE_PER_PRODUCER ≤ (s.worker p).i →
      ThreadMoves w s p (s.set_worker p { s.worker p with point := .returned })
  | quiet {c} : (s.worker p).point = .inside → s.clients.run p = some (c, none) →
      ThreadMoves w s p { s with clients := c }
  | enqueued {c r} : (s.worker p).point = .inside → p < w.NUM_PRODUCER →
      s.clients.run p = some (c, some r) →
      ThreadMoves w s p { s.set_worker p ⟨(s.worker p).i + 1,
        to_int ((s.worker p).key_enqueue + 1), .loop⟩ with clients := c }
  | dequeued {c key} : (s.worker p).point = .inside → ¬ p < w.NUM_PRODUCER →
      s.clients.run p = some (c, some (some key)) →
      ThreadMoves w s p { s.set_worker p { s.worker p with point := .mark key } with
        clients := c }
  | mark {key} : (s.worker p).point = .mark key → ¬ p < w.NUM_PRODUCER →
      ThreadMoves w s p { s.set_worker p
          { s.worker p with i := (s.worker p).i + 1, point := .loop } with
        flag_verification := Function.update s.flag_verification key true
        out_of_bounds := s.out_of_bounds || !(0 ≤ key ∧ key < w.keys) }

theorem thread_moves_of_next (h : s.next w (.thread p) = some s') : ThreadMoves w s p s' := by
  by_cases hp : p < w.NUM_PRODUCER
  · have hop : w.op p (s.worker p) = .enqueue (s.worker p).key_enqueue := if_pos hp
    simp only [Program.next, if_pos hp, Program.ProducerFunc] at h
    split at h
    · next hpoint =>
      split at h
      · next hi =>
        cases h
        rw [← hop]
        exact .call hpoint hi
      · next hi =>
        cases h
        exact .leave hpoint (Nat.not_lt.mp hi)
    · next hpoint =>
      obtain ⟨⟨c, r⟩, hrun, rfl⟩ := Option.map_eq_some_iff.mp h
      cases r with
      | none => exact .quiet hpoint hrun
      | some r => exact .enqueued hpoint hp hrun
    · cases h
  · have hop : w.op p (s.worker p) = .dequeue := if_neg hp
    simp only [Program.next, if_neg hp, Program.ConsumerFunc] at h
    split at h
    · next hpoint =>
      split at h
      · next hi =>
        cases h
        rw [← hop]
        exact .call hpoint hi
      · next hi =>
        cases h
        exact .leave hpoint (Nat.not_lt.mp hi)
    · next hpoint =>
      obtain ⟨⟨c, r⟩, hrun, hstep⟩ := Option.bind_eq_some_iff.mp h
      match r, hstep with
      | none, hstep =>
        cases hstep
        exact .quiet hpoint hrun
      | some (some key), hstep =>
        cases hstep
        exact .dequeued hpoint hp hrun
    · next key hpoint =>
      cases h
      exact .mark hpoint hp
    · cases h

/-- What `main` does in one step. -/
inductive MainMoves (w : Workload) (s : Program code) : Program code → Prop where
  | create {i} : s.main = .create i → i < w.NUM_THREADS →
      MainMoves w s { s.set_worker i (Program.start_worker w i) with main := .create (i + 1) }
  | created {i} : s.main = .create i → w.NUM_THREADS ≤ i → MainMoves w s { s with main := .join 0 }
  | join {i} : s.main = .join i → i < w.NUM_THREADS → (s.worker i).point = .returned →
      MainMoves w s { s with main := .join (i + 1) }
  | joined {i} : s.main = .join i → w.NUM_THREADS ≤ i → MainMoves w s { s with main := .verify 0 }
  | incorrect {i} : s.main = .verify i → i < w.keys → s.flag_verification i = false →
      MainMoves w s { s with printed := some .incorrect, main := .ended }
  | verify {i} : s.main = .verify i → i < w.keys →
      MainMoves w s { s with main := .verify (i + 1) }
  | correct {i} : s.main = .verify i →
      MainMoves w s { s with printed := some .correct, main := .ended }

theorem main_moves_of_next (h : s.next w .main = some s') : MainMoves w s s' := by
  simp only [Program.next, Program.main_step] at h
  split at h
  · next i hmain =>
    split at h
    · next hi =>
      cases h
      exact .create hmain hi
    · next hi =>
      cases h
      exact .created hmain (Nat.not_lt.mp hi)
  · next i hmain =>
    split at h
    · next hi =>
      split at h
      · next hpoint =>
        cases h
        exact .join hmain hi hpoint
      · cases h
    · next hi =>
      cases h
      exact .joined hmain (Nat.not_lt.mp hi)
  · next i hmain =>
    split at h
    · next hi =>
      split at h
      · next hflag =>
        cases h
        exact .incorrect hmain hi hflag
      · cases h
        exact .verify hmain hi
    · cases h
      exact .correct hmain
  · cases h

end Steps

/-! ## Section 2: The invariant -/

/-- How many operations a thread has called. -/
def WorkerState.started (t : WorkerState) : ℕ :=
  match t.point with
  | .unborn => 0
  | .loop => t.i
  | .inside => t.i + 1
  | .mark _ => t.i + 1
  | .returned => t.i

/-- Thread `p` with the local variables `t`, which has called `ops`. -/
structure ThreadOk (w : Workload) (p : ℕ) (t : WorkerState) (busy : Option ℕ)
    (ops : List Operation) : Prop where
  ops      : ops = (List.range t.started).map (w.nth p)
  started  : t.started ≤ w.NUM_ENQUEUE_PER_PRODUCER
  busy     : busy ≠ none ↔ t.point = .inside
  key      : p < w.NUM_PRODUCER → t.point ≠ .unborn →
    t.key_enqueue = (p * w.NUM_ENQUEUE_PER_PRODUCER + t.i : ℕ)
  producer : p < w.NUM_PRODUCER → ∀ key, t.point ≠ .mark key
  returned : t.point = .returned → t.i = w.NUM_ENQUEUE_PER_PRODUCER
  born     : t.point ≠ .unborn → p < w.NUM_THREADS

namespace Program

variable {code : QueueCode}

/-- The keys that were received are marked, or about to be. -/
structure Marked (s : Program code) : Prop where
  done    : ∀ key ∈ received s.clients.trace, s.flag_verification key = true ∨
    ∃ p, (s.worker p).point = .mark key
  pending : ∀ p key, (s.worker p).point = .mark key → key ∈ received s.clients.trace

/-- Where `main` is, and what it has seen. -/
def main_ok (w : Workload) (s : Program code) : Prop :=
  match s.main with
  | .create i => (∀ p, i ≤ p → (s.worker p).point = .unborn) ∧
      (∀ p < i, (s.worker p).point ≠ .unborn) ∧ s.printed = none
  | .join i => (∀ p < w.NUM_THREADS, (s.worker p).point ≠ .unborn) ∧
      (∀ p < i, (s.worker p).point = .returned) ∧ s.printed = none
  | .verify _ => (∀ p < w.NUM_THREADS, (s.worker p).point = .returned) ∧ s.printed = none
  | .ended => (∀ p < w.NUM_THREADS, (s.worker p).point = .returned) ∧ s.printed = some .correct

end Program

/-- The invariant of the program. -/
structure ProgramInv {code : QueueCode} (w : Workload) (s : Program code) : Prop where
  clients : Reachable (client_threads code) s.clients
  thread  : ∀ p, ThreadOk w p (s.worker p) (s.clients.busy p) (ops_of p s.clients.trace)
  marked  : s.Marked
  bounds  : s.out_of_bounds = false
  main    : s.main_ok w

namespace Workload

variable {w : Workload} {p j : ℕ}

theorem nth_producer (hp : p < w.NUM_PRODUCER) :
    w.nth p j = .enqueue (p * w.NUM_ENQUEUE_PER_PRODUCER + j : ℕ) := if_pos hp

theorem nth_consumer (hp : ¬ p < w.NUM_PRODUCER) : w.nth p j = .dequeue := if_neg hp

/-- The threads `NUM_PRODUCER, ...` are the consumers. -/
theorem NUM_THREADS_eq : w.NUM_THREADS = w.NUM_PRODUCER + w.NUM_PRODUCER := rfl

/-- A key of a producer is an index of `flag_verification`. -/
theorem key_lt_keys (hp : p < w.NUM_PRODUCER) (hj : j < w.NUM_ENQUEUE_PER_PRODUCER) :
    p * w.NUM_ENQUEUE_PER_PRODUCER + j < w.keys := by
  have hle : (p + 1) * w.NUM_ENQUEUE_PER_PRODUCER ≤ w.keys := Nat.mul_le_mul_right _ hp
  rw [Nat.add_mul, Nat.one_mul] at hle
  omega

/-- Every index is the key of one producer. -/
theorem exists_key {k : ℕ} (hk : k < w.keys) :
    ∃ p < w.NUM_PRODUCER, ∃ j < w.NUM_ENQUEUE_PER_PRODUCER,
      k = p * w.NUM_ENQUEUE_PER_PRODUCER + j := by
  have hpos : 0 < w.NUM_ENQUEUE_PER_PRODUCER := by
    by_contra hzero
    rw [keys, Nat.eq_zero_of_not_pos hzero, Nat.mul_zero] at hk
    exact Nat.not_lt_zero k hk
  refine ⟨k / w.NUM_ENQUEUE_PER_PRODUCER, (Nat.div_lt_iff_lt_mul hpos).mpr hk,
    k % w.NUM_ENQUEUE_PER_PRODUCER, Nat.mod_lt _ hpos, ?_⟩
  rw [Nat.mul_comm, Nat.div_add_mod]

/-- The keys of different producers are different. -/
theorem key_inj {p' j' : ℕ} (hj : j < w.NUM_ENQUEUE_PER_PRODUCER)
    (hj' : j' < w.NUM_ENQUEUE_PER_PRODUCER)
    (h : p * w.NUM_ENQUEUE_PER_PRODUCER + j = p' * w.NUM_ENQUEUE_PER_PRODUCER + j') :
    p = p' ∧ j = j' := by
  have hdiv : ∀ q i, i < w.NUM_ENQUEUE_PER_PRODUCER →
      (q * w.NUM_ENQUEUE_PER_PRODUCER + i) / w.NUM_ENQUEUE_PER_PRODUCER = q := by
    intro q i hi
    rw [Nat.mul_comm, Nat.mul_add_div (by omega), Nat.div_eq_of_lt hi, Nat.add_zero]
  have hp : p = p' := by rw [← hdiv p j hj, h, hdiv p' j' hj']
  subst hp
  exact ⟨rfl, by omega⟩

end Workload

/-! ## Section 3: What the threads have called -/

section Calls

variable {code : QueueCode} {w : Workload} {s : Program code}

/-- A call in the trace is one of the operations of its thread. -/
theorem ProgramInv.called (h : ProgramInv w s) {p id : ℕ} {op : Operation}
    (hcall : (p, .call id op) ∈ s.clients.trace) :
    ∃ j < (s.worker p).started, op = w.nth p j ∧ p < w.NUM_THREADS := by
  have hmem := mem_ops_of.mpr ⟨id, hcall⟩
  rw [(h.thread p).ops] at hmem
  obtain ⟨j, hj, rfl⟩ := List.mem_map.mp hmem
  have hj := List.mem_range.mp hj
  refine ⟨j, hj, rfl, (h.thread p).born ?_⟩
  intro hunborn
  rw [WorkerState.started, hunborn] at hj
  exact Nat.not_lt_zero j hj

/-- The calls of a kind, thread by thread. -/
theorem ProgramInv.count (h : ProgramInv w s) (P : Operation → Bool) :
    (s.clients.trace.map Prod.snd).countP (Event.is_call P) =
      ∑ p ∈ Finset.range w.NUM_THREADS,
        ((List.range (s.worker p).started).map (w.nth p)).countP P := by
  rw [countP_calls_eq_sum (S := Finset.range w.NUM_THREADS) P]
  · exact Finset.sum_congr rfl fun p _ => by rw [(h.thread p).ops]
  · intro p id op hcall
    obtain ⟨j, -, -, hp⟩ := h.called hcall
    exact Finset.mem_range.mpr hp

theorem ProgramInv.enqueues (h : ProgramInv w s) :
    s.clients.enqueues = ∑ p ∈ Finset.range w.NUM_PRODUCER, (s.worker p).started := by
  rw [ClientState.enqueues, h.count, Workload.NUM_THREADS_eq, Finset.sum_range_add]
  have hprod : ∀ p ∈ Finset.range w.NUM_PRODUCER,
      ((List.range (s.worker p).started).map (w.nth p)).countP Operation.is_enqueue =
        (s.worker p).started := by
    intro p hp
    rw [List.countP_eq_length.mpr, List.length_map, List.length_range]
    intro op hop
    obtain ⟨j, -, rfl⟩ := List.mem_map.mp hop
    rw [Workload.nth_producer (Finset.mem_range.mp hp)]
    rfl
  have hcons : ∀ p ∈ Finset.range w.NUM_PRODUCER,
      ((List.range (s.worker (w.NUM_PRODUCER + p)).started).map
        (w.nth (w.NUM_PRODUCER + p))).countP Operation.is_enqueue = 0 := by
    intro p _
    rw [List.countP_eq_zero]
    intro op hop
    obtain ⟨j, -, rfl⟩ := List.mem_map.mp hop
    rw [Workload.nth_consumer (by omega)]
    simp [Operation.is_enqueue]
  rw [Finset.sum_congr rfl hprod, Finset.sum_congr rfl hcons, Finset.sum_const_zero, Nat.add_zero]

theorem ProgramInv.dequeues (h : ProgramInv w s) : s.clients.dequeues =
    ∑ p ∈ Finset.range w.NUM_PRODUCER, (s.worker (w.NUM_PRODUCER + p)).started := by
  rw [ClientState.dequeues, h.count, Workload.NUM_THREADS_eq, Finset.sum_range_add]
  have hprod : ∀ p ∈ Finset.range w.NUM_PRODUCER,
      ((List.range (s.worker p).started).map (w.nth p)).countP Operation.is_dequeue = 0 := by
    intro p hp
    rw [List.countP_eq_zero]
    intro op hop
    obtain ⟨j, -, rfl⟩ := List.mem_map.mp hop
    rw [Workload.nth_producer (Finset.mem_range.mp hp)]
    simp [Operation.is_dequeue]
  have hcons : ∀ p ∈ Finset.range w.NUM_PRODUCER,
      ((List.range (s.worker (w.NUM_PRODUCER + p)).started).map
        (w.nth (w.NUM_PRODUCER + p))).countP Operation.is_dequeue =
        (s.worker (w.NUM_PRODUCER + p)).started := by
    intro p _
    rw [List.countP_eq_length.mpr, List.length_map, List.length_range]
    intro op hop
    obtain ⟨j, -, rfl⟩ := List.mem_map.mp hop
    rw [Workload.nth_consumer (by omega)]
    rfl
  rw [Finset.sum_congr rfl hprod, Finset.sum_congr rfl hcons, Finset.sum_const_zero, Nat.zero_add]

theorem ProgramInv.enqueues_le (h : ProgramInv w s) : s.clients.enqueues ≤ w.keys := by
  rw [h.enqueues]
  have := Finset.sum_le_card_nsmul (Finset.range w.NUM_PRODUCER) _ _
    fun p _ => (h.thread p).started
  rwa [Finset.card_range, smul_eq_mul] at this

theorem ProgramInv.dequeues_le (h : ProgramInv w s) : s.clients.dequeues ≤ w.keys := by
  rw [h.dequeues]
  have := Finset.sum_le_card_nsmul (Finset.range w.NUM_PRODUCER) _ _
    fun p _ => (h.thread (w.NUM_PRODUCER + p)).started
  rwa [Finset.card_range, smul_eq_mul] at this

theorem ThreadOk.started_of_returned {p : ℕ} {t : WorkerState} {busy : Option ℕ}
    {ops : List Operation} (h : ThreadOk w p t busy ops) (hpoint : t.point = .returned) :
    t.started = w.NUM_ENQUEUE_PER_PRODUCER := by
  rw [WorkerState.started, hpoint]
  exact h.returned hpoint

theorem ProgramInv.enqueues_of_returned (h : ProgramInv w s)
    (hall : ∀ p < w.NUM_PRODUCER, (s.worker p).point = .returned) :
    s.clients.enqueues = w.keys := by
  rw [h.enqueues, Finset.sum_const_nat (m := w.NUM_ENQUEUE_PER_PRODUCER), Finset.card_range]
  · rfl
  · exact fun p hp => (h.thread p).started_of_returned (hall p (Finset.mem_range.mp hp))

theorem ProgramInv.dequeues_of_returned (h : ProgramInv w s)
    (hall : ∀ p < w.NUM_PRODUCER, (s.worker (w.NUM_PRODUCER + p)).point = .returned) :
    s.clients.dequeues = w.keys := by
  rw [h.dequeues, Finset.sum_const_nat (m := w.NUM_ENQUEUE_PER_PRODUCER), Finset.card_range]
  · rfl
  · exact fun p hp => (h.thread _).started_of_returned (hall p (Finset.mem_range.mp hp))

/-- The operations of a producer are in the order of their keys. -/
theorem ProgramInv.ops_sorted (h : ProgramInv w s) {p : ℕ} (hp : p < w.NUM_PRODUCER) :
    (ops_of p s.clients.trace).Pairwise fun op op' =>
      ∃ k k' : ℤ, op = .enqueue k ∧ op' = .enqueue k' ∧ k < k' := by
  rw [(h.thread p).ops, List.pairwise_map]
  refine List.pairwise_lt_range.imp ?_
  intro j j' hlt
  exact ⟨_, _, Workload.nth_producer hp, Workload.nth_producer hp, by omega⟩

/-- An enqueue in the trace, by its key. -/
theorem ProgramInv.enqueued (h : ProgramInv w s) {p id : ℕ} {op : Operation} {key : ℤ}
    (hcall : (p, .call id op) ∈ s.clients.trace) (hkey : op.put = some key) :
    ∃ j < w.NUM_ENQUEUE_PER_PRODUCER, p < w.NUM_PRODUCER ∧ op = .enqueue key ∧
      key = (p * w.NUM_ENQUEUE_PER_PRODUCER + j : ℕ) := by
  obtain ⟨j, hj, rfl, -⟩ := h.called hcall
  by_cases hp : p < w.NUM_PRODUCER
  · rw [Workload.nth_producer hp] at hkey ⊢
    cases hkey
    exact ⟨j, Nat.lt_of_lt_of_le hj (h.thread p).started, hp, rfl, rfl⟩
  · rw [Workload.nth_consumer hp] at hkey
    cases hkey

/-- No key is enqueued twice. -/
theorem ProgramInv.key_once (h : ProgramInv w s) {p p' id id' : ℕ} {op op' : Operation} {key : ℤ}
    (hcall : (p, .call id op) ∈ s.clients.trace) (hcall' : (p', .call id' op') ∈ s.clients.trace)
    (hkey : op.put = some key) (hkey' : op'.put = some key) : id = id' := by
  obtain ⟨j, hj, hp, rfl, hk⟩ := h.enqueued hcall hkey
  obtain ⟨j', hj', -, rfl, hk'⟩ := h.enqueued hcall' hkey'
  obtain ⟨rfl, -⟩ := Workload.key_inj hj hj' (Int.ofNat.inj (hk.symm.trans hk'))
  refine call_id_unique ((h.ops_sorted hp).imp ?_) hcall hcall'
  intro op op' hlt heq
  obtain ⟨k, k', hk, hk', hlt⟩ := hlt
  rw [hk, hk', Operation.enqueue.injEq] at heq
  omega

end Calls

/-! ## Section 4: What the consumers have received -/

theorem received_eq {T : List (ℕ × Event Operation (Option ℤ))} :
    received T = (returns T).filterMap Prod.snd := by
  unfold received returns
  rw [List.filterMap_filterMap]
  congr 1
  funext e
  obtain ⟨p, e⟩ := e
  cases e <;> rfl

theorem got_keys_eq {L : List (Entry Operation (Option ℤ))} :
    got_keys L = (L.map fun e => (e.id, e.res)).filterMap Prod.snd := by
  unfold got_keys
  rw [List.filterMap_map]
  rfl

section Received

variable {code : QueueCode} {w : Workload} {s : Program code}

/-- The order of the operations of the program. -/
theorem ProgramInv.order (h : ProgramInv w s) (hcode : code.Fifo) (hw : w.keys < 2 ^ 31) :
    ∃ L q, Linearizes giant (s.clients.trace.map Prod.snd) L ∧ GiantShape L q := by
  have henq := Nat.lt_of_le_of_lt h.enqueues_le hw
  have hdeq := Nat.lt_of_le_of_lt h.dequeues_le hw
  obtain ⟨L, hlin⟩ := hcode.linearizes s.clients h.clients henq hdeq
  obtain ⟨q, hruns⟩ := hlin.legal
  exact ⟨L, q, hlin, .of_runs hruns (Nat.lt_of_le_of_lt (hlin.countP_le_calls _) henq)⟩

variable {L : List (Entry Operation (Option ℤ))} {q : GiantQueue}

theorem ProgramInv.nodup_put_keys (h : ProgramInv w s)
    (hlin : Linearizes giant (s.clients.trace.map Prod.snd) L) : (put_keys L).Nodup := by
  unfold put_keys
  rw [List.Nodup, List.pairwise_filterMap]
  refine hlin.nodup_entries.imp_of_mem ?_
  intro e e' he he' hne key hkey key' hkey' heq
  subst heq
  obtain ⟨p, hp⟩ := mem_history.mp (hlin.called e he)
  obtain ⟨p', hp'⟩ := mem_history.mp (hlin.called e' he')
  exact hne (hlin.entry_ext he he' (h.key_once hp hp' hkey hkey'))

theorem received_subperm (hlin : Linearizes giant (s.clients.trace.map Prod.snd) L)
    (h : ProgramInv w s) : (received s.clients.trace).Subperm (got_keys L) := by
  rw [received_eq, got_keys_eq]
  obtain ⟨l, hperm, hsub⟩ := hlin.returns_subperm (client_inv_reachable h.clients).one_at_a_time
  exact ⟨l.filterMap _, hperm.filterMap _, hsub.filterMap _⟩

/-- No key is received twice. -/
theorem ProgramInv.nodup_received (h : ProgramInv w s) (hcode : code.Fifo)
    (hw : w.keys < 2 ^ 31) : (received s.clients.trace).Nodup := by
  obtain ⟨L, q, hlin, hshape⟩ := h.order hcode hw
  have hgot : (got_keys L).Nodup := (h.nodup_put_keys hlin).sublist hshape.order.sublist
  obtain ⟨l, hperm, hsub⟩ := received_subperm hlin h
  exact hperm.nodup_iff.mp (hgot.sublist hsub)

/-- Only keys that were enqueued are received. -/
theorem ProgramInv.received_key (h : ProgramInv w s) (hcode : code.Fifo) (hw : w.keys < 2 ^ 31)
    {key : ℤ} (hkey : key ∈ received s.clients.trace) :
    ∃ p id, (p, .call id (.enqueue key)) ∈ s.clients.trace := by
  obtain ⟨L, q, hlin, hshape⟩ := h.order hcode hw
  have hput : key ∈ put_keys L :=
    hshape.order.subset ((received_subperm hlin h).subset hkey)
  obtain ⟨e, he, hekey⟩ := List.mem_filterMap.mp hput
  obtain ⟨p, hp⟩ := mem_history.mp (hlin.called e he)
  obtain ⟨-, -, -, hop, -⟩ := h.enqueued hp hekey
  exact ⟨p, e.id, hop ▸ hp⟩

theorem ProgramInv.received_bounds (h : ProgramInv w s) (hcode : code.Fifo)
    (hw : w.keys < 2 ^ 31) {key : ℤ} (hkey : key ∈ received s.clients.trace) :
    0 ≤ key ∧ key < w.keys := by
  obtain ⟨p, id, hcall⟩ := h.received_key hcode hw hkey
  obtain ⟨j, hj, hp, -, rfl⟩ := h.enqueued hcall rfl
  have := Workload.key_lt_keys hp hj
  omega

/-- When all threads have returned, every key was received. -/
theorem ProgramInv.all_received (h : ProgramInv w s) (hcode : code.Fifo) (hw : w.keys < 2 ^ 31)
    (hall : ∀ p < w.NUM_THREADS, (s.worker p).point = .returned) {k : ℕ} (hk : k < w.keys) :
    (k : ℤ) ∈ received s.clients.trace := by
  obtain ⟨L, q, hlin, hshape⟩ := h.order hcode hw
  have hclients := client_inv_reachable h.clients
  -- Nobody is in a call.
  have hidle : ∀ p, s.clients.busy p = none := by
    intro p
    by_contra hbusy
    have hinside := (h.thread p).busy.mp hbusy
    have hp := (h.thread p).born (by simp [hinside])
    rw [hall p hp] at hinside
    cases hinside
  have hnone : ∀ P, ¬ s.clients.calling P := by
    intro P hcalling
    obtain ⟨p, id, -, hbusy, -⟩ := hcalling
    rw [hidle p] at hbusy
    cases hbusy
  have henq := h.enqueues_of_returned fun p hp => hall p (by rw [Workload.NUM_THREADS_eq]; omega)
  have hdeq := h.dequeues_of_returned fun p hp => hall _ (by rw [Workload.NUM_THREADS_eq]; omega)
  -- As many keys were taken out as were put in, so all of them were.
  have hsame : got_keys L = put_keys L := by
    apply hshape.order.eq_of_length
    rw [← hshape.front, ← hshape.rear, ← hshape.dequeues, ← hshape.enqueues,
      ← hclients.count hlin (hnone _), ← hclients.count hlin (hnone _)]
    exact hdeq.trans henq.symm
  have hperm : (received s.clients.trace).Perm (got_keys L) := by
    rw [received_eq, got_keys_eq]
    exact (hlin.returns_perm hclients.one_at_a_time hidle).filterMap _
  rw [hperm.mem_iff, hsame]
  obtain ⟨p, hp, j, hj, rfl⟩ := Workload.exists_key hk
  have hthread : p < w.NUM_THREADS := by
    rw [Workload.NUM_THREADS_eq]
    omega
  obtain ⟨id, hcall⟩ : ∃ id, (p, Event.call id (w.nth p j)) ∈ s.clients.trace := by
    rw [← mem_ops_of, (h.thread p).ops, (h.thread p).started_of_returned (hall p hthread)]
    exact List.mem_map_of_mem (List.mem_range.mpr hj)
  rcases hclients.one_at_a_time.busy_or_returned hcall with hbusy | ⟨r, hr⟩
  · rw [hidle p] at hbusy
    cases hbusy
  · obtain ⟨op, hop⟩ := hlin.complete id r (mem_history.mpr ⟨p, hr⟩)
    obtain ⟨p', hp'⟩ := mem_history.mp (hlin.called _ hop)
    obtain ⟨-, rfl⟩ := hclients.one_at_a_time.call_unique hcall hp'
    rw [Workload.nth_producer hp] at hop
    exact List.mem_filterMap.mpr ⟨_, hop, rfl⟩

end Received

/-! ## Section 5: Steps of a thread -/

theorem start_worker_loop (w : Workload) (p : ℕ) :
    (Program.start_worker w p).point = .loop ∧ (Program.start_worker w p).i = 0 := by
  unfold Program.start_worker
  split <;> exact ⟨rfl, rfl⟩

namespace ThreadOk

variable {w : Workload} {p : ℕ} {t : WorkerState} {busy : Option ℕ} {ops : List Operation}

/-- The key that a producer enqueues next is the next one of its range. -/
theorem op_eq (h : ThreadOk w p t busy ops) (hpoint : t.point = .loop) :
    w.op p t = w.nth p t.i := by
  by_cases hp : p < w.NUM_PRODUCER
  · rw [Workload.op, if_pos hp, Workload.nth_producer hp, h.key hp (by simp [hpoint])]
  · rw [Workload.op, if_neg hp, Workload.nth_consumer hp]

theorem call (h : ThreadOk w p t busy ops) (hpoint : t.point = .loop)
    (hi : t.i < w.NUM_ENQUEUE_PER_PRODUCER) (id : ℕ) :
    ThreadOk w p { t with point := .inside } (some id) (ops ++ [w.op p t]) where
  ops := by
    have hstarted : t.started = t.i := by rw [WorkerState.started, hpoint]
    show ops ++ [w.op p t] = (List.range (t.i + 1)).map (w.nth p)
    rw [h.op_eq hpoint, List.range_succ, List.map_append, h.ops, hstarted]
    rfl
  started := hi
  busy := by simp
  key := fun hp _ => h.key hp (by simp [hpoint])
  producer := by simp
  returned := by simp
  born := fun _ => h.born (by simp [hpoint])

theorem leave (h : ThreadOk w p t busy ops) (hpoint : t.point = .loop)
    (hi : w.NUM_ENQUEUE_PER_PRODUCER ≤ t.i) :
    ThreadOk w p { t with point := .returned } busy ops := by
  have hstarted : t.started = t.i := by rw [WorkerState.started, hpoint]
  have hle := h.started
  refine ⟨?_, ?_, ?_, fun hp _ => h.key hp (by simp [hpoint]), by simp, fun _ => ?_,
    fun _ => h.born (by simp [hpoint])⟩
  · show ops = (List.range t.i).map (w.nth p)
    rw [h.ops, hstarted]
  · exact hstarted ▸ hle
  · rw [h.busy, hpoint]
    simp
  · show t.i = _
    omega

theorem enqueued (h : ThreadOk w p t busy ops) (hpoint : t.point = .inside)
    (hp : p < w.NUM_PRODUCER) (hw : w.keys < 2 ^ 31) :
    ThreadOk w p ⟨t.i + 1, to_int (t.key_enqueue + 1), .loop⟩ none ops := by
  have hstarted : t.started = t.i + 1 := by rw [WorkerState.started, hpoint]
  have hle := h.started
  refine ⟨?_, ?_, by simp, ?_, by simp, by simp, fun _ => h.born (by simp [hpoint])⟩
  · show ops = (List.range (t.i + 1)).map (w.nth p)
    rw [h.ops, hstarted]
  · exact hstarted ▸ hle
  · intro _ _
    have hlt := Workload.key_lt_keys hp (show t.i < w.NUM_ENQUEUE_PER_PRODUCER by omega)
    show to_int (t.key_enqueue + 1) = (p * w.NUM_ENQUEUE_PER_PRODUCER + (t.i + 1) : ℕ)
    rw [h.key hp (by simp [hpoint]), to_int_of_nonneg (by omega) (by omega)]
    omega

theorem dequeued (h : ThreadOk w p t busy ops) (hpoint : t.point = .inside)
    (hp : ¬ p < w.NUM_PRODUCER) (key : ℤ) :
    ThreadOk w p { t with point := .mark key } none ops := by
  have hstarted : t.started = t.i + 1 := by rw [WorkerState.started, hpoint]
  have hle := h.started
  rw [hstarted] at hle
  refine ⟨?_, hle, by simp, fun hp' => absurd hp' hp, fun hp' => absurd hp' hp, by simp,
    fun _ => h.born (by simp [hpoint])⟩
  show ops = (List.range (t.i + 1)).map (w.nth p)
  rw [h.ops, hstarted]

theorem mark (h : ThreadOk w p t busy ops) {key : ℤ} (hpoint : t.point = .mark key)
    (hp : ¬ p < w.NUM_PRODUCER) :
    ThreadOk w p { t with i := t.i + 1, point := .loop } busy ops := by
  have hstarted : t.started = t.i + 1 := by rw [WorkerState.started, hpoint]
  have hle := h.started
  rw [hstarted] at hle
  refine ⟨?_, hle, ?_, fun hp' => absurd hp' hp, by simp, by simp,
    fun _ => h.born (by simp [hpoint])⟩
  · show ops = (List.range (t.i + 1)).map (w.nth p)
    rw [h.ops, hstarted]
  · rw [h.busy, hpoint]
    simp

/-- `main` has created the thread. -/
theorem create (h : ThreadOk w p t busy ops) (hpoint : t.point = .unborn)
    (hp : p < w.NUM_THREADS) (hw : w.keys < 2 ^ 31) :
    ThreadOk w p (Program.start_worker w p) busy ops := by
  have hstart := start_worker_loop w p
  have hzero : (Program.start_worker w p).started = 0 := by
    rw [WorkerState.started, hstart.1, hstart.2]
  have hnone : ops = [] := by
    rw [h.ops, WorkerState.started, hpoint]
    rfl
  refine ⟨?_, ?_, ?_, ?_, ?_, ?_, fun _ => hp⟩
  · rw [hzero, hnone]
    rfl
  · rw [hzero]
    exact Nat.zero_le _
  · rw [h.busy, hpoint, hstart.1]
    simp
  · intro hp' _
    have hle : p * w.NUM_ENQUEUE_PER_PRODUCER ≤ w.keys :=
      Nat.mul_le_mul_right _ (Nat.le_of_lt hp')
    have hkey : (Program.start_worker w p).key_enqueue =
        to_int (p * w.NUM_ENQUEUE_PER_PRODUCER : ℕ) := by
      rw [Program.start_worker, if_pos hp', Nat.mul_comm, Int.natCast_mul]
    rw [hstart.2, Nat.add_zero, hkey, to_int_of_nonneg (by omega) (by omega)]
  · rw [hstart.1]
    simp
  · rw [hstart.1]
    simp

end ThreadOk

/-! ## Section 6: Whole runs -/

section Runs

variable {code : QueueCode} {w : Workload} {s s' : Program code} {p : ℕ}

/-- A thread that goes on does not disturb what `main` has seen. -/
theorem Program.main_ok.set_worker (h : s.main_ok w) (hp : p < w.NUM_THREADS)
    (hborn : (s.worker p).point ≠ .unborn) (hgoes : (s.worker p).point ≠ .returned)
    (hmain : s'.main = s.main) (hprinted : s'.printed = s.printed)
    (hothers : ∀ q, q ≠ p → s'.worker q = s.worker q) (hborn' : (s'.worker p).point ≠ .unborn) :
    s'.main_ok w := by
  -- What a thread has that is not `p` or not affected by `p`.
  have hunborn : ∀ q, (s.worker q).point = .unborn → (s'.worker q).point = .unborn := by
    intro q hq
    by_cases heq : q = p
    · exact absurd (heq ▸ hq) hborn
    · rwa [hothers q heq]
  have hborn'' : ∀ q, (s.worker q).point ≠ .unborn → (s'.worker q).point ≠ .unborn := by
    intro q hq
    by_cases heq : q = p
    · exact heq ▸ hborn'
    · rwa [hothers q heq]
  have hreturned : ∀ q, (s.worker q).point = .returned → (s'.worker q).point = .returned := by
    intro q hq
    by_cases heq : q = p
    · exact absurd (heq ▸ hq) hgoes
    · rwa [hothers q heq]
  unfold Program.main_ok at h ⊢
  rw [hmain, hprinted]
  split at h
  · exact ⟨fun q hq => hunborn q (h.1 q hq), fun q hq => hborn'' q (h.2.1 q hq), h.2.2⟩
  · exact ⟨fun q hq => hborn'' q (h.1 q hq), fun q hq => hreturned q (h.2.1 q hq), h.2.2⟩
  · exact absurd (h.1 p hp) hgoes
  · exact absurd (h.1 p hp) hgoes

/-- The other threads do not notice a call or a step of thread `p`. -/
theorem clients_others {c : ClientState code} {q : ℕ} (hne : q ≠ p) {op : Operation} :
    (c.call p op).busy q = c.busy q ∧ ops_of q (c.call p op).trace = ops_of q c.trace := by
  refine ⟨Function.update_of_ne hne _ _, ?_⟩
  show ops_of q (c.trace ++ _) = _
  rw [ops_of_call, if_neg (Ne.symm hne)]

theorem clients_run_others {c c' : ClientState code} {r : Option (Option ℤ)}
    (hrun : c.run p = some (c', r)) : (∀ q, q ≠ p → c'.busy q = c.busy q) ∧
      ∀ q, ops_of q c'.trace = ops_of q c.trace := by
  obtain ⟨id, queue, -, -, ⟨-, rfl⟩ | ⟨r', -, rfl⟩⟩ := ClientState.run_cases hrun
  · exact ⟨fun _ _ => rfl, fun _ => rfl⟩
  · exact ⟨fun q hne => Function.update_of_ne hne _ _, fun q => ops_of_ret⟩

theorem received_call {T : List (ℕ × Event Operation (Option ℤ))} {id : ℕ} {op : Operation} :
    received (T ++ [(p, .call id op)]) = received T := by
  unfold received
  rw [List.filterMap_append]
  simp

theorem received_ret {T : List (ℕ × Event Operation (Option ℤ))} {id : ℕ} {r : Option ℤ} :
    received (T ++ [(p, .ret id r)]) = received T ++ r.toList := by
  unfold received
  rw [List.filterMap_append]
  cases r <;> simp

/-- `dequeue` returns a key, `enqueue` returns nothing. -/
theorem call_result {c : ClientState code} {id : ℕ} {op : Operation} {r : Option ℤ}
    (hcode : code.Fifo) (hreach : Reachable (client_threads code) c) (henq : c.enqueues < 2 ^ 31)
    (hdeq : c.dequeues < 2 ^ 31) (hret : (p, .ret id r) ∈ c.trace)
    (hcall : (p, .call id op) ∈ c.trace) : r.isSome = op.is_dequeue := by
  obtain ⟨L, hlin⟩ := hcode.linearizes c hreach henq hdeq
  obtain ⟨q, hruns⟩ := hlin.legal
  have hshape := GiantShape.of_runs hruns (Nat.lt_of_le_of_lt (hlin.countP_le_calls _) henq)
  obtain ⟨op', hop'⟩ := hlin.complete id r (mem_history.mpr ⟨p, hret⟩)
  obtain ⟨p', hp'⟩ := mem_history.mp (hlin.called _ hop')
  obtain ⟨-, rfl⟩ := (client_inv_reachable hreach).one_at_a_time.call_unique hcall hp'
  exact hshape.results _ hop'

theorem enqueues_return_call {c : ClientState code} {id : ℕ} {r : Option ℤ} {q : code.State} :
    (c.return_call p id r q).enqueues = c.enqueues := by
  show ((c.trace ++ _).map Prod.snd).countP _ = _
  rw [List.map_append, List.countP_append]
  rfl

theorem dequeues_return_call {c : ClientState code} {id : ℕ} {r : Option ℤ} {q : code.State} :
    (c.return_call p id r q).dequeues = c.dequeues := by
  show ((c.trace ++ _).map Prod.snd).countP _ = _
  rw [List.map_append, List.countP_append]
  rfl

/-- What the call of thread `p` returns. -/
theorem ProgramInv.result (h : ProgramInv w s) (hcode : code.Fifo) (hw : w.keys < 2 ^ 31)
    {c : ClientState code} {id : ℕ} {op : Operation} {r : Option ℤ}
    (hrun : s.clients.run p = some (c, some r)) (hbusy : s.clients.busy p = some id)
    (hcall : (p, .call id op) ∈ s.clients.trace) : r.isSome = op.is_dequeue := by
  have hreach : Reachable (client_threads code) c :=
    h.clients.step (l := (p, ThreadStep.run)) ⟨_, hrun⟩
  obtain ⟨id', queue, hbusy', -, ⟨hr, -⟩ | ⟨r', hr, rfl⟩⟩ := ClientState.run_cases hrun
  · cases hr
  · cases hr
    obtain rfl : id = id' := Option.some.inj (hbusy.symm.trans hbusy')
    have hret : (p, .ret id r) ∈ (s.clients.return_call p id r queue).trace :=
      List.mem_append_right _ (by simp)
    refine call_result hcode hreach ?_ ?_ hret (List.mem_append_left _ hcall)
    · rw [enqueues_return_call]
      exact Nat.lt_of_le_of_lt h.enqueues_le hw
    · rw [dequeues_return_call]
      exact Nat.lt_of_le_of_lt h.dequeues_le hw

/-- Thread `p` goes on, and it neither marks a key nor starts to. -/
theorem Program.Marked.keep (h : s.Marked) (hflag : s'.flag_verification = s.flag_verification)
    (hreceived : received s'.clients.trace = received s.clients.trace)
    (hothers : ∀ q, q ≠ p → s'.worker q = s.worker q)
    (hp : ∀ key, (s.worker p).point ≠ .mark key) (hp' : ∀ key, (s'.worker p).point ≠ .mark key) :
    s'.Marked where
  done := by
    intro key hkey
    rw [hreceived] at hkey
    rw [hflag]
    rcases h.done key hkey with hdone | ⟨q, hq⟩
    · exact .inl hdone
    · have hne : q ≠ p := fun heq => hp key (heq ▸ hq)
      exact .inr ⟨q, by rw [hothers q hne, hq]⟩
  pending := by
    intro q key hq
    rw [hreceived]
    by_cases heq : q = p
    · exact absurd (heq ▸ hq) (hp' key)
    · exact h.pending q key (by rw [← hothers q heq, hq])

/-- Thread `p` has gone on, and the other threads have not. -/
theorem ProgramInv.move (h : ProgramInv w s) (hborn : (s.worker p).point ≠ .unborn)
    (hgoes : (s.worker p).point ≠ .returned)
    (hclients : Reachable (client_threads code) s'.clients)
    (hothers : ∀ q, q ≠ p → s'.worker q = s.worker q ∧ s'.clients.busy q = s.clients.busy q ∧
      ops_of q s'.clients.trace = ops_of q s.clients.trace)
    (hp : ThreadOk w p (s'.worker p) (s'.clients.busy p) (ops_of p s'.clients.trace))
    (hborn' : (s'.worker p).point ≠ .unborn) (hmarked : s'.Marked)
    (hbounds : s'.out_of_bounds = false) (hmain : s'.main = s.main)
    (hprinted : s'.printed = s.printed) : ProgramInv w s' where
  clients := hclients
  thread := by
    intro q
    by_cases heq : q = p
    · exact heq ▸ hp
    · obtain ⟨hworker, hbusy, hops⟩ := hothers q heq
      rw [hworker, hbusy, hops]
      exact h.thread q
  marked := hmarked
  bounds := hbounds
  main := h.main.set_worker ((h.thread p).born hborn) hborn hgoes hmain hprinted
    (fun q hne => (hothers q hne).1) hborn'

theorem set_worker_of_ne {q : ℕ} {t : WorkerState} (hne : q ≠ p) :
    (s.set_worker p t).worker q = s.worker q :=
  Function.update_of_ne hne _ _

theorem set_worker_self {t : WorkerState} : (s.set_worker p t).worker p = t :=
  Function.update_self _ _ _

/-- The local variables of thread `p` and the shared queue have changed. -/
theorem ProgramInv.move_clients (h : ProgramInv w s) {c : ClientState code} {t : WorkerState}
    (hborn : (s.worker p).point ≠ .unborn) (hgoes : (s.worker p).point ≠ .returned)
    (hclients : Reachable (client_threads code) c)
    (hothers : ∀ q, q ≠ p → c.busy q = s.clients.busy q ∧
      ops_of q c.trace = ops_of q s.clients.trace)
    (hp : ThreadOk w p t (c.busy p) (ops_of p c.trace)) (hborn' : t.point ≠ .unborn)
    (hmarked : { s.set_worker p t with clients := c }.Marked) :
    ProgramInv w { s.set_worker p t with clients := c } := by
  have hself : { s.set_worker p t with clients := c }.worker p = t := set_worker_self
  refine h.move (p := p) hborn hgoes hclients (fun q hne => ⟨set_worker_of_ne hne, hothers q hne⟩)
    ?_ ?_ hmarked h.bounds rfl rfl
  · rw [hself]
    exact hp
  · rwa [hself]

theorem ProgramInv.thread_step (h : ProgramInv w s) (hcode : code.Fifo) (hw : w.keys < 2 ^ 31)
    (hstep : ThreadMoves w s p s') : ProgramInv w s' := by
  have hok := h.thread p
  have hclients : ∀ {c r}, s.clients.run p = some (c, r) → Reachable (client_threads code) c :=
    fun hrun => h.clients.step (l := (p, ThreadStep.run)) ⟨_, hrun⟩
  cases hstep with
  | call hpoint hi =>
    have hbusy : s.clients.busy p = none := by
      by_contra hcon
      rw [hok.busy.mp hcon] at hpoint
      cases hpoint
    refine h.move_clients (by simp [hpoint]) (by simp [hpoint]) ?_
      (fun q hne => clients_others hne) ?_ (by simp) ?_
    · exact h.clients.step (l := (p, ThreadStep.call _)) ⟨hbusy, rfl⟩
    · have hself := hok.call hpoint hi s.clients.calls
      show ThreadOk w p _ (Function.update s.clients.busy p (some s.clients.calls) p)
        (ops_of p (s.clients.trace ++ _))
      rwa [Function.update_self, ops_of_call, if_pos rfl]
    · exact h.marked.keep rfl received_call (fun q => set_worker_of_ne) (by simp [hpoint])
        (by simp [Program.set_worker])
  | leave hpoint hi =>
    refine h.move (p := p) (by simp [hpoint]) (by simp [hpoint]) h.clients
      (fun q hne => ⟨set_worker_of_ne hne, rfl, rfl⟩) ?_ ?_ ?_ h.bounds rfl rfl
    · rw [set_worker_self]
      exact hok.leave hpoint hi
    · simp [set_worker_self]
    · exact h.marked.keep rfl rfl (fun q => set_worker_of_ne) (by simp [hpoint])
        (by simp [Program.set_worker])
  | @quiet c hpoint hrun =>
    obtain ⟨id, queue, hbusy, -, ⟨-, rfl⟩ | ⟨r', hr', -⟩⟩ := ClientState.run_cases hrun
    · exact ⟨hclients hrun, h.thread, ⟨h.marked.done, h.marked.pending⟩, h.bounds, h.main⟩
    · cases hr'
  | @enqueued c r hpoint hp hrun =>
    obtain ⟨hbusy', hops⟩ := clients_run_others hrun
    have hreach := hclients hrun
    obtain ⟨id, queue, hbusy, -, ⟨hr, -⟩ | ⟨r', hr, rfl⟩⟩ := ClientState.run_cases hrun
    · cases hr
    · cases hr
      refine h.move_clients (by simp [hpoint]) (by simp [hpoint]) hreach
        (fun q hne => ⟨hbusy' q hne, hops q⟩) ?_ (by simp) ?_
      · have hself := hok.enqueued hpoint hp hw
        rw [hops]
        show ThreadOk w p _ (Function.update s.clients.busy p none p) _
        rwa [Function.update_self]
      · -- An enqueue does not bring a key.
        obtain ⟨op, hop⟩ := (client_inv_reachable h.clients).one_at_a_time.open_call hbusy
        obtain ⟨j, -, rfl, -⟩ := h.called hop
        have hr := h.result hcode hw hrun hbusy hop
        rw [Workload.nth_producer hp] at hr
        have hr : r = none := Option.not_isSome_iff_eq_none.mp (by simp [hr, Operation.is_dequeue])
        refine h.marked.keep rfl ?_ (fun q => set_worker_of_ne) (by simp [hpoint])
          (by simp [Program.set_worker])
        show received (s.clients.trace ++ _) = _
        rw [received_ret, hr]
        exact List.append_nil _
  | @dequeued c key hpoint hp hrun =>
    obtain ⟨hbusy', hops⟩ := clients_run_others hrun
    have hreach := hclients hrun
    obtain ⟨id, queue, hbusy, -, ⟨hr, -⟩ | ⟨r', hr, rfl⟩⟩ := ClientState.run_cases hrun
    · cases hr
    · cases hr
      have hreceived : received (s.clients.return_call p id (some key) queue).trace =
          received s.clients.trace ++ [key] := received_ret
      refine h.move_clients (by simp [hpoint]) (by simp [hpoint]) hreach
        (fun q hne => ⟨hbusy' q hne, hops q⟩) ?_ (by simp) ⟨?_, ?_⟩
      · have hself := hok.dequeued hpoint hp key
        rw [hops]
        show ThreadOk w p _ (Function.update s.clients.busy p none p) _
        rwa [Function.update_self]
      · intro k hk
        change k ∈ received (s.clients.return_call p id (some key) queue).trace at hk
        rw [hreceived, List.mem_append, List.mem_singleton] at hk
        rcases hk with hk | rfl
        · rcases h.marked.done k hk with hdone | ⟨q, hq⟩
          · exact .inl hdone
          · have hne : q ≠ p := by
              intro heq
              rw [heq, hpoint] at hq
              cases hq
            exact .inr ⟨q, (congrArg WorkerState.point (set_worker_of_ne hne)).trans hq⟩
        · exact .inr ⟨p, congrArg WorkerState.point set_worker_self⟩
      · intro q k hq
        show k ∈ received (s.clients.return_call p id (some key) queue).trace
        rw [hreceived]
        by_cases heq : q = p
        · rw [heq] at hq
          have hk : WorkerPoint.mark key = .mark k :=
            (congrArg WorkerState.point set_worker_self).symm.trans hq
          cases hk
          exact List.mem_append_right _ (by simp)
        · have hq' : (s.worker q).point = .mark k :=
            (congrArg WorkerState.point (set_worker_of_ne heq)).symm.trans hq
          exact List.mem_append_left _ (h.marked.pending q k hq')
  | @mark key hpoint hp =>
    have hbounds := h.received_bounds hcode hw (h.marked.pending p key hpoint)
    refine h.move (p := p) (by simp [hpoint]) (by simp [hpoint]) h.clients
      (fun q hne => ⟨set_worker_of_ne hne, rfl, rfl⟩) ?_ ?_ ⟨?_, ?_⟩ ?_ rfl rfl
    · have hself := hok.mark hpoint hp
      show ThreadOk w p ((s.set_worker p _).worker p) _ _
      rwa [set_worker_self]
    · show ((s.set_worker p _).worker p).point ≠ _
      rw [set_worker_self]
      simp
    · intro k hk
      show Function.update s.flag_verification key true k = true ∨ _
      by_cases heq : k = key
      · rw [heq, Function.update_self]
        exact .inl rfl
      · rw [Function.update_of_ne heq]
        rcases h.marked.done k hk with hdone | ⟨q, hq⟩
        · exact .inl hdone
        · have hne : q ≠ p := by
            intro hqp
            rw [hqp, hpoint] at hq
            cases hq
            exact heq rfl
          exact .inr ⟨q, (congrArg WorkerState.point (set_worker_of_ne hne)).trans hq⟩
    · intro q k hq
      by_cases heq : q = p
      · rw [heq] at hq
        have hk : WorkerPoint.loop = .mark k :=
          (congrArg WorkerState.point set_worker_self).symm.trans hq
        cases hk
      · exact h.marked.pending q k
          ((congrArg WorkerState.point (set_worker_of_ne heq)).symm.trans hq)
    · simp [h.bounds, hbounds.1, hbounds.2]

theorem ProgramInv.main_step (h : ProgramInv w s) (hcode : code.Fifo) (hw : w.keys < 2 ^ 31)
    (hstep : MainMoves w s s') : ProgramInv w s' := by
  have hmain := h.main
  unfold Program.main_ok at hmain
  cases hstep with
  | @create i heq hi =>
    rw [heq] at hmain
    obtain ⟨hunborn, hborn, hprinted⟩ := hmain
    have hpoint := hunborn i le_rfl
    refine ⟨h.clients, ?_, ?_, h.bounds, ?_⟩
    · intro q
      show ThreadOk w q ((s.set_worker i _).worker q) _ _
      by_cases hq : q = i
      · rw [hq, set_worker_self]
        exact (h.thread i).create hpoint hi hw
      · rw [set_worker_of_ne hq]
        exact h.thread q
    · refine h.marked.keep rfl rfl (fun q => set_worker_of_ne) (by simp [hpoint]) ?_
      intro key
      show ((s.set_worker i _).worker i).point ≠ _
      rw [set_worker_self, (start_worker_loop w i).1]
      simp
    · refine ⟨?_, ?_, hprinted⟩
      · intro q hq
        show ((s.set_worker i _).worker q).point = _
        rw [set_worker_of_ne (by omega)]
        exact hunborn q (by omega)
      · intro q hq
        show ((s.set_worker i _).worker q).point ≠ _
        by_cases hqi : q = i
        · rw [hqi, set_worker_self, (start_worker_loop w i).1]
          simp
        · rw [set_worker_of_ne hqi]
          exact hborn q (by omega)
  | @created i heq hi =>
    rw [heq] at hmain
    refine ⟨h.clients, h.thread, ⟨h.marked.done, h.marked.pending⟩, h.bounds, ?_⟩
    exact ⟨fun q hq => hmain.2.1 q (by omega), fun q hq => absurd hq (Nat.not_lt_zero q),
      hmain.2.2⟩
  | @join i heq hi hpoint =>
    rw [heq] at hmain
    refine ⟨h.clients, h.thread, ⟨h.marked.done, h.marked.pending⟩, h.bounds, ?_⟩
    refine ⟨hmain.1, ?_, hmain.2.2⟩
    intro q hq
    by_cases hqi : q = i
    · exact hqi ▸ hpoint
    · exact hmain.2.1 q (by omega)
  | @joined i heq hi =>
    rw [heq] at hmain
    refine ⟨h.clients, h.thread, ⟨h.marked.done, h.marked.pending⟩, h.bounds, ?_⟩
    exact ⟨fun q hq => hmain.2.1 q (by omega), hmain.2.2⟩
  | @incorrect i heq hi hflag =>
    -- All threads have returned, so the key was received and marked.
    rw [heq] at hmain
    obtain ⟨hall, -⟩ := hmain
    rcases h.marked.done i (h.all_received hcode hw hall hi) with hdone | ⟨p, hp⟩
    · rw [hflag] at hdone
      cases hdone
    · rw [hall p ((h.thread p).born (by simp [hp]))] at hp
      cases hp
  | @verify i heq hi =>
    rw [heq] at hmain
    exact ⟨h.clients, h.thread, ⟨h.marked.done, h.marked.pending⟩, h.bounds, hmain⟩
  | @correct i heq =>
    rw [heq] at hmain
    exact ⟨h.clients, h.thread, ⟨h.marked.done, h.marked.pending⟩, h.bounds, hmain.1, rfl⟩

theorem ProgramInv.initial : ProgramInv w (.initial : Program code) where
  clients := .init rfl
  thread := by
    intro p
    exact ⟨rfl, Nat.zero_le _, by simp [Program.initial], by simp [Program.initial],
      by simp [Program.initial], by simp [Program.initial], by simp [Program.initial]⟩
  marked := ⟨by simp [Program.initial, received], by simp [Program.initial]⟩
  bounds := rfl
  main := ⟨fun _ _ => rfl, fun q hq => absurd hq (Nat.not_lt_zero q), rfl⟩

theorem ProgramInv.step (h : ProgramInv w s) (hcode : code.Fifo) (hw : w.keys < 2 ^ 31)
    {a : Actor} (hstep : (executions code w).step s a s') : ProgramInv w s' := by
  match a with
  | .main => exact h.main_step hcode hw (main_moves_of_next hstep)
  | .thread p => exact h.thread_step hcode hw (thread_moves_of_next hstep)

theorem program_inv_reachable (hcode : code.Fifo) (hw : w.keys < 2 ^ 31)
    (h : Reachable (executions code w) s) : ProgramInv w s := by
  apply h.invariant
  · intro s hinit
    cases hinit
    exact .initial
  · intro s a s' _ ih hstep
    exact ih.step hcode hw hstep

end Runs

end Lab13
