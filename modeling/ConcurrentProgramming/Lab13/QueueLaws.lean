import ConcurrentProgramming.Lab13.ProducerConsumer
import ConcurrentProgramming.Framework.Threads

/-! # What the Test Program Needs of a Queue

    `QueueCode.Fifo` has two laws.  The calls and returns of a queue are those of
    a run of critical sections of the queue with the giant lock.  And whenever
    there are calls going on, the threads can go on until one of them returns,
    unless all of them wait for an enqueue or all of them wait for a dequeue that
    nobody has called.  The queue with the giant lock keeps the laws (`giant_fifo`).
-/

namespace Lab13

open LTS Linearizability Threads Relation

/-! ## Section 1: The laws -/

namespace ClientState

variable {code : QueueCode}

/-- Some thread is in a call of an operation with `P`. -/
def calling (c : ClientState code) (P : Operation → Bool) : Prop :=
  ∃ p id op, c.busy p = some id ∧ (p, .call id op) ∈ c.trace ∧ P op = true

/-- A step within a call that does not end it. -/
def quiet (c c' : ClientState code) : Prop := ∃ p, c.run p = some (c', none)

/-- The calls can go on until one of them returns. -/
def can_return (c : ClientState code) : Prop :=
  ∃ c₁ p c₂ result, ReflTransGen quiet c c₁ ∧ c₁.run p = some (c₂, some result)

theorem can_return.of_quiet {c c' : ClientState code} (hstep : c.quiet c') (h : c'.can_return) :
    c.can_return := by
  obtain ⟨c₁, p, c₂, result, hsteps, hret⟩ := h
  exact ⟨c₁, p, c₂, result, .head hstep hsteps, hret⟩

theorem can_return.of_run {c c' : ClientState code} {p : ℕ} {result : Option ℤ}
    (h : c.run p = some (c', some result)) : c.can_return :=
  ⟨c, p, c', result, .refl, h⟩

/-- What a step within a call does. -/
theorem run_cases {c c' : ClientState code} {p : ℕ} {result : Option (Option ℤ)}
    (h : c.run p = some (c', result)) :
    ∃ id queue, c.busy p = some id ∧ code.run c.queue p = some (queue, result) ∧
      (result = none ∧ c' = { c with queue := queue } ∨
        ∃ r, result = some r ∧ c' = c.return_call p id r queue) := by
  unfold run at h
  split at h
  · next id queue hbusy hrun =>
    cases h
    exact ⟨id, queue, hbusy, hrun, .inl ⟨rfl, rfl⟩⟩
  · next id queue r hbusy hrun =>
    cases h
    exact ⟨id, queue, hbusy, hrun, .inr ⟨r, rfl, rfl⟩⟩
  · cases h

theorem run_eq_none {c : ClientState code} {p id : ℕ} {queue : code.State}
    (hbusy : c.busy p = some id) (hrun : code.run c.queue p = some (queue, none)) :
    c.run p = some ({ c with queue := queue }, none) := by
  unfold run
  rw [hbusy, hrun]

theorem run_eq_some {c : ClientState code} {p id : ℕ} {queue : code.State} {r : Option ℤ}
    (hbusy : c.busy p = some id) (hrun : code.run c.queue p = some (queue, some r)) :
    c.run p = some (c.return_call p id r queue, some r) := by
  unfold run
  rw [hbusy, hrun]

end ClientState

structure QueueCode.Fifo (code : QueueCode) : Prop where
  linearizes : ∀ c : ClientState code, Reachable (client_threads code) c →
    c.enqueues < 2 ^ 31 → c.dequeues < 2 ^ 31 → ∃ L, Linearizes giant (c.trace.map Prod.snd) L
  progress : ∀ c : ClientState code, Reachable (client_threads code) c →
    c.enqueues < 2 ^ 31 → c.dequeues < 2 ^ 31 → (∃ p, c.busy p ≠ none) →
    c.can_return ∨ ¬ c.calling Operation.is_enqueue ∧ c.enqueues < c.dequeues ∨
      ¬ c.calling Operation.is_dequeue ∧ c.dequeues + QUEUE_SIZE < c.enqueues

/-! ## Section 2: Calls and returns -/

section Clients

variable {code : QueueCode} {c c' : ClientState code} {p id : ℕ} {op : Operation}

/-- The threads make one call at a time, and the ids are given out in order. -/
structure ClientInv (c : ClientState code) : Prop where
  one_at_a_time : OneAtATime c.trace c.busy
  ids           : ∀ p id op, (p, .call id op) ∈ c.trace → id < c.calls

theorem ClientInv.call (h : ClientInv c) (hp : c.busy p = none) : ClientInv (c.call p op) where
  one_at_a_time := h.one_at_a_time.call p c.calls op hp
    fun q op' hq => Nat.lt_irrefl _ (h.ids q c.calls op' hq)
  ids := by
    intro q id op' hq
    show id < c.calls + 1
    rcases List.mem_append.mp hq with hq | hq
    · exact Nat.lt_succ_of_lt (h.ids q id op' hq)
    · cases List.mem_singleton.mp hq
      exact Nat.lt_succ_self _

theorem ClientInv.run (h : ClientInv c) {result : Option (Option ℤ)}
    (hrun : c.run p = some (c', result)) : ClientInv c' := by
  obtain ⟨id, queue, hbusy, -, ⟨-, rfl⟩ | ⟨r, -, rfl⟩⟩ := ClientState.run_cases hrun
  · exact ⟨h.one_at_a_time, h.ids⟩
  · refine ⟨h.one_at_a_time.ret p id r hbusy, ?_⟩
    intro q id' op hq
    rcases List.mem_append.mp hq with hq | hq
    · exact h.ids q id' op hq
    · cases List.mem_singleton.mp hq

theorem client_inv_reachable (h : Reachable (client_threads code) c) : ClientInv c := by
  apply h.invariant
  · intro c hinit
    cases hinit
    exact ⟨.start, by simp⟩
  · intro c l c' _ ih hstep
    obtain ⟨p, l⟩ := l
    match l with
    | .call op =>
      obtain ⟨hp, rfl⟩ := hstep
      exact ih.call hp
    | .run =>
      obtain ⟨result, hrun⟩ := hstep
      exact ih.run hrun

theorem ClientInv.calling (h : ClientInv c) (hp : c.busy p ≠ none) :
    c.calling Operation.is_enqueue ∨ c.calling Operation.is_dequeue := by
  obtain ⟨id, hid⟩ := Option.ne_none_iff_exists'.mp hp
  obtain ⟨op, hop⟩ := h.one_at_a_time.open_call hid
  match op, hop with
  | .enqueue key, hop => exact .inl ⟨p, id, _, hid, hop, rfl⟩
  | .dequeue, hop => exact .inr ⟨p, id, _, hid, hop, rfl⟩

/-- If nobody is in an operation with `P`, all of them are in the order. -/
theorem ClientInv.count (h : ClientInv c) {L : List (Entry Operation (Option ℤ))}
    (hlin : Linearizes giant (c.trace.map Prod.snd) L) {P : Operation → Bool}
    (hP : ¬ c.calling P) :
    (c.trace.map Prod.snd).countP (Event.is_call P) = L.countP fun e => P e.op := by
  apply hlin.countP_calls h.one_at_a_time P
  intro p id op hp hop
  by_contra hcon
  exact hP ⟨p, id, op, hp, hop, by simpa using hcon⟩

end Clients

/-! ## Section 3: Runs of critical sections -/

def Operation.put : Operation → Option ℤ
  | .enqueue key => some key
  | .dequeue => none

/-- The keys that the operations of an order put into the queue. -/
def put_keys (L : List (Entry Operation (Option ℤ))) : List ℤ := L.filterMap fun e => e.op.put

/-- The keys that they take out of it. -/
def got_keys (L : List (Entry Operation (Option ℤ))) : List ℤ := L.filterMap fun e => e.res

/-- The queue after the operations of `L`. -/
structure GiantShape (L : List (Entry Operation (Option ℤ))) (q : GiantQueue) : Prop where
  rear     : q.rear = (put_keys L).length
  front    : q.front = (got_keys L).length
  le       : q.front ≤ q.rear
  room     : q.rear ≤ q.front + QUEUE_SIZE
  order    : got_keys L <+: put_keys L
  contents : ∀ j, q.front ≤ j → j < q.rear → (put_keys L)[j]? = some (q.queue (j % QUEUE_SIZE))
  enqueues : L.countP (fun e => e.op.is_enqueue) = q.rear
  dequeues : L.countP (fun e => e.op.is_dequeue) = q.front
  results  : ∀ e ∈ L, e.res.isSome = e.op.is_dequeue

namespace GiantShape

variable {L : List (Entry Operation (Option ℤ))} {q q' : GiantQueue} {id : ℕ}

theorem start : GiantShape [] .init_queue where
  rear := rfl
  front := rfl
  le := Nat.le_refl _
  room := Nat.zero_le _
  order := List.prefix_rfl
  contents := by
    intro j _ hj
    exact absurd hj (Nat.not_lt_zero j)
  enqueues := rfl
  dequeues := rfl
  results := by simp

theorem put_keys_concat {e : Entry Operation (Option ℤ)} :
    put_keys (L ++ [e]) = put_keys L ++ e.op.put.toList := by
  rw [put_keys, List.filterMap_append, put_keys]
  cases h : e.op.put <;> simp [h]

theorem got_keys_concat {e : Entry Operation (Option ℤ)} :
    got_keys (L ++ [e]) = got_keys L ++ e.res.toList := by
  rw [got_keys, List.filterMap_append, got_keys]
  cases h : e.res <;> simp [h]

theorem enqueue {key : ℤ} (h : GiantShape L q) (hlt : q.rear < 2 ^ 31)
    (hstep : q.enqueue key = some q') : GiantShape (L ++ [⟨id, .enqueue key, none⟩]) q' := by
  have hle := h.le
  have hmod : (q.front + QUEUE_SIZE) % 2 ^ 64 = q.front + QUEUE_SIZE := by
    unfold QUEUE_SIZE
    exact Nat.mod_eq_of_lt (by omega)
  have hmod' : (q.rear + 1) % 2 ^ 64 = q.rear + 1 := Nat.mod_eq_of_lt (by omega)
  unfold GiantQueue.enqueue at hstep
  rw [hmod, hmod'] at hstep
  split at hstep
  · cases hstep
  · next hroom =>
    cases hstep
    have hput : put_keys (L ++ [⟨id, .enqueue key, none⟩]) = put_keys L ++ [key] :=
      put_keys_concat
    have hgot : got_keys (L ++ [⟨id, .enqueue key, none⟩]) = got_keys L := by
      rw [got_keys_concat]
      exact List.append_nil _
    refine ⟨?_, ?_, ?_, ?_, ?_, ?_, ?_, ?_, ?_⟩
    · rw [hput, List.length_append, List.length_singleton, ← h.rear]
    · rw [hgot]
      exact h.front
    · show q.front ≤ q.rear + 1
      omega
    · show q.rear + 1 ≤ q.front + QUEUE_SIZE
      omega
    · rw [hgot, hput]
      exact h.order.trans (List.prefix_append _ _)
    · intro j hj hj'
      change j < q.rear + 1 at hj'
      rw [hput]
      by_cases heq : j = q.rear
      · have hlast : (put_keys L ++ [key])[q.rear]? = some key := by
          rw [h.rear]
          exact List.getElem?_concat_length
        rw [heq, hlast]
        exact congrArg some (Function.update_self (q.rear % QUEUE_SIZE) key q.queue).symm
      · -- The other keys are in other slots.
        have hslot : j % QUEUE_SIZE ≠ q.rear % QUEUE_SIZE := by
          have hj : q.front ≤ j := hj
          unfold QUEUE_SIZE at *
          omega
        rw [List.getElem?_append_left (by rw [← h.rear]; omega), h.contents j hj (by omega)]
        exact congrArg some (Function.update_of_ne hslot _ _).symm
    · rw [List.countP_append, h.enqueues]
      rfl
    · rw [List.countP_append, h.dequeues]
      rfl
    · intro e he
      rcases List.mem_append.mp he with he | he
      · exact h.results e he
      · rw [List.mem_singleton.mp he]
        rfl

theorem dequeue {key : ℤ} (h : GiantShape L q) (hlt : q.rear < 2 ^ 31)
    (hstep : q.dequeue = some (key, q')) : GiantShape (L ++ [⟨id, .dequeue, some key⟩]) q' := by
  have hle := h.le
  have hroom := h.room
  have hmod : (q.front + 1) % 2 ^ 64 = q.front + 1 := Nat.mod_eq_of_lt (by omega)
  unfold GiantQueue.dequeue at hstep
  rw [hmod] at hstep
  split at hstep
  · cases hstep
  · next hne =>
    cases hstep
    have hput : put_keys (L ++ [⟨id, .dequeue, some (q.queue (q.front % QUEUE_SIZE))⟩]) =
        put_keys L := by
      rw [put_keys_concat]
      exact List.append_nil _
    have hgot : got_keys (L ++ [⟨id, .dequeue, some (q.queue (q.front % QUEUE_SIZE))⟩]) =
        got_keys L ++ [q.queue (q.front % QUEUE_SIZE)] := got_keys_concat
    refine ⟨?_, ?_, ?_, ?_, ?_, ?_, ?_, ?_, ?_⟩
    · rw [hput]
      exact h.rear
    · rw [hgot, List.length_append, List.length_singleton, ← h.front]
    · show q.front + 1 ≤ q.rear
      omega
    · show q.rear ≤ q.front + 1 + QUEUE_SIZE
      omega
    · -- The next key of the queue is the next one that was put.
      rw [hput, hgot]
      obtain ⟨rest, hrest⟩ := h.order
      have hnext := h.contents q.front le_rfl (by omega)
      rw [← hrest, h.front, List.getElem?_append_right le_rfl, Nat.sub_self,
        ← List.head?_eq_getElem?] at hnext
      obtain ⟨rest', rfl⟩ := List.head?_eq_some_iff.mp hnext
      exact ⟨rest', by rw [← hrest, h.front, List.append_assoc, List.singleton_append]⟩
    · intro j hj hj'
      rw [hput]
      exact h.contents j (by change q.front + 1 ≤ j at hj; omega) hj'
    · rw [List.countP_append, h.enqueues]
      rfl
    · rw [List.countP_append, h.dequeues]
      rfl
    · intro e he
      rcases List.mem_append.mp he with he | he
      · exact h.results e he
      · rw [List.mem_singleton.mp he]
        rfl

/-- The shape of the queue after any run of critical sections with fewer than
    `2 ^ 31` enqueues. -/
theorem of_runs (h : giant.runs .init_queue L q)
    (hlt : L.countP (fun e => e.op.is_enqueue) < 2 ^ 31) : GiantShape L q := by
  induction L using List.reverseRecOn generalizing q with
  | nil =>
    cases h
    exact .start
  | append_singleton L e ih =>
    obtain ⟨q₁, hruns, hstep⟩ := Object.runs_concat_inv h
    rw [List.countP_append] at hlt
    have hshape := ih hruns (by omega)
    have hrear : q₁.rear < 2 ^ 31 := by
      rw [← hshape.enqueues]
      omega
    obtain ⟨id, op, res⟩ := e
    match op, hstep with
    | .enqueue key, hstep =>
      obtain ⟨rfl, hq⟩ := hstep
      exact hshape.enqueue hrear hq
    | .dequeue, hstep =>
      obtain ⟨key, rfl, hq⟩ := hstep
      exact hshape.dequeue hrear hq

end GiantShape

/-! ## Section 4: The queue with the giant lock -/

/-- The calls of the giant queue and the order of its critical sections. -/
structure GiantLink (c : ClientState giant_code) (L : List (Entry Operation (Option ℤ))) :
    Prop where
  tracked : Tracked giant (c.trace.map Prod.snd) L c.queue.shared
  thread  : ∀ p id, c.busy p = some id → ∃ gc, c.queue.thread p = some gc ∧
    (p, .call id gc.op) ∈ c.trace ∧ (gc.result = none → id ∉ L.map Entry.id) ∧
      ∀ r, gc.result = some r → ⟨id, gc.op, r⟩ ∈ L

namespace GiantLink

variable {c c' : ClientState giant_code} {L : List (Entry Operation (Option ℤ))} {p id : ℕ}
  {op : Operation}

theorem call (h : GiantLink c L) (hinv : ClientInv c) (hp : c.busy p = none) :
    GiantLink (c.call p op) L where
  tracked := by
    have hnew : ∀ op', .call c.calls op' ∉ c.trace.map Prod.snd := by
      intro op' hmem
      obtain ⟨q, hq⟩ := mem_history.mp hmem
      exact Nat.lt_irrefl _ (hinv.ids q c.calls op' hq)
    have := h.tracked.call c.calls op hnew
    rwa [← List.map_singleton (f := Prod.snd) (a := (p, _)), ← List.map_append] at this
  thread := by
    intro q id hq
    rcases update_some hq with ⟨rfl, rfl⟩ | ⟨hne, hq⟩
    · refine ⟨⟨op, none⟩, Function.update_self _ _ _, List.mem_append_right _ (by simp), ?_, ?_⟩
      · -- The order has only calls with earlier ids.
        intro _ hmem
        obtain ⟨e, he, heq⟩ := List.mem_map.mp hmem
        obtain ⟨q', hq'⟩ := mem_history.mp (h.tracked.called e he)
        have := hinv.ids q' e.id e.op hq'
        omega
      · intro r hr
        cases hr
    · obtain ⟨gc, hgc, hcall, hrest⟩ := h.thread q id hq
      exact ⟨gc, (Function.update_of_ne hne _ _).trans hgc, List.mem_append_left _ hcall, hrest⟩

section Steps

variable {s : GiantThreads} {gc : GiantCall} {q q' : GiantQueue} {r : Option ℤ}

theorem run_returns (hp : s.thread p = some gc) (hres : gc.result = some r) :
    giant_code.run s p = some ({ s with thread := Function.update s.thread p none }, some r) := by
  show GiantThreads.run s p = _
  simp only [GiantThreads.run, hp, Option.map_some, hres]
  rfl

theorem run_waits (hp : s.thread p = some gc) (hres : gc.result = none)
    (hatt : GiantThreads.attempt s.shared gc.op = none) :
    giant_code.run s p = some (s, none) := by
  show GiantThreads.run s p = _
  simp only [GiantThreads.run, hp, Option.map_some, hres, hatt]

theorem run_effect (hp : s.thread p = some gc) (hres : gc.result = none)
    (hatt : GiantThreads.attempt s.shared gc.op = some (q, r)) :
    giant_code.run s p =
      some (⟨q, Function.update s.thread p (some { gc with result := some r })⟩, none) := by
  show GiantThreads.run s p = _
  simp only [GiantThreads.run, hp, Option.map_some, hres, hatt]
  rfl

theorem step_of_attempt (h : GiantThreads.attempt q op = some (q', r)) :
    giant.step q op r q' := by
  cases op with
  | enqueue key =>
    simp only [GiantThreads.attempt, Option.map_eq_some_iff, Prod.mk.injEq] at h
    obtain ⟨q₁, hq₁, rfl, rfl⟩ := h
    exact ⟨rfl, hq₁⟩
  | dequeue =>
    simp only [GiantThreads.attempt, Option.map_eq_some_iff, Prod.mk.injEq] at h
    obtain ⟨d, hd, rfl, rfl⟩ := h
    exact ⟨d.1, rfl, hd⟩

end Steps

theorem run (h : GiantLink c L) (hinv : ClientInv c) {result : Option (Option ℤ)}
    (hrun : c.run p = some (c', result)) : ∃ L', GiantLink c' L' := by
  obtain ⟨id, queue, hbusy, hcode, hcase⟩ := ClientState.run_cases hrun
  obtain ⟨gc, hgc, hcall, hwaits, hdone⟩ := h.thread p id hbusy
  -- Two threads are in different calls.
  have hids : ∀ q, c.busy q = some id → q = p := by
    intro q hq
    obtain ⟨op, hop⟩ := hinv.one_at_a_time.open_call hq
    exact (hinv.one_at_a_time.call_unique hop hcall).1
  match hres : gc.result with
  | some r =>
    -- The call returns.
    rw [run_returns hgc hres] at hcode
    cases hcode
    obtain ⟨hnone, -⟩ | ⟨r', hr', rfl⟩ := hcase
    · cases hnone
    · cases hr'
      refine ⟨L, ?_, ?_⟩
      · have := h.tracked.ret id gc.op r (hdone r hres)
        rwa [← List.map_singleton (f := Prod.snd) (a := (p, _)), ← List.map_append] at this
      · intro q id' hq
        obtain ⟨hne, hq⟩ := update_none hq
        obtain ⟨gc', hgc', hcall', hrest⟩ := h.thread q id' hq
        exact ⟨gc', (Function.update_of_ne hne _ _).trans hgc', List.mem_append_left _ hcall',
          hrest⟩
  | none =>
    match hatt : GiantThreads.attempt c.queue.shared gc.op with
    | none =>
      -- The queue is full or empty, and the loop goes on.
      rw [run_waits hgc hres hatt] at hcode
      cases hcode
      obtain ⟨-, rfl⟩ | ⟨r', hr', -⟩ := hcase
      · exact ⟨L, h⟩
      · cases hr'
    | some (q', r) =>
      rw [run_effect hgc hres hatt] at hcode
      cases hcode
      obtain ⟨-, rfl⟩ | ⟨r', hr', -⟩ := hcase
      · refine ⟨L ++ [⟨id, gc.op, r⟩], ?_, ?_⟩
        · exact h.tracked.effect id gc.op r (mem_history.mpr ⟨p, hcall⟩) (hwaits hres)
            (step_of_attempt hatt)
        · intro q id' hq
          by_cases heq : q = p
          · subst heq
            have hid : id = id' := by
              rw [hbusy] at hq
              exact Option.some.inj hq
            subst hid
            refine ⟨{ gc with result := some r }, Function.update_self _ _ _, hcall, ?_, ?_⟩
            · intro hnone
              cases hnone
            · intro r' hr'
              cases hr'
              exact List.mem_append_right _ List.mem_cons_self
          · obtain ⟨gc', hgc', hcall', hwaits', hdone'⟩ := h.thread q id' hq
            refine ⟨gc', (Function.update_of_ne heq _ _).trans hgc', hcall', ?_, ?_⟩
            · intro hnone hmem
              rw [List.map_append, List.mem_append] at hmem
              rcases hmem with hmem | hmem
              · exact hwaits' hnone hmem
              · have hid : id' = id := by simpa using hmem
                exact heq (hids q (hid ▸ hq))
            · exact fun r' hr' => List.mem_append_left _ (hdone' r' hr')
      · cases hr'

end GiantLink

theorem giant_link_reachable {c : ClientState giant_code}
    (h : Reachable (client_threads giant_code) c) : ∃ L, GiantLink c L := by
  apply h.invariant
  · intro c hinit
    cases hinit
    exact ⟨[], .start, by simp⟩
  · intro c l c' hreach ih hstep
    obtain ⟨L, hL⟩ := ih
    have hinv := client_inv_reachable hreach
    obtain ⟨p, l⟩ := l
    match l with
    | .call op =>
      obtain ⟨hp, rfl⟩ := hstep
      exact ⟨L, hL.call hinv hp⟩
    | .run =>
      obtain ⟨result, hrun⟩ := hstep
      exact hL.run hinv hrun

section Waiting

variable {L : List (Entry Operation (Option ℤ))} {q : GiantQueue}

/-- An enqueue waits only if the queue is full. -/
theorem GiantShape.full (h : GiantShape L q) (hlt : q.rear < 2 ^ 31) {key : ℤ}
    (hatt : GiantThreads.attempt q (.enqueue key) = none) : q.rear = q.front + QUEUE_SIZE := by
  have hroom := h.room
  have hle := h.le
  simp only [GiantThreads.attempt, Option.map_eq_none_iff, GiantQueue.enqueue,
    ite_eq_left_iff, reduceCtorEq, imp_false, not_not] at hatt
  rw [Nat.mod_eq_of_lt (by unfold QUEUE_SIZE; omega)] at hatt
  omega

/-- A dequeue waits only if the queue is empty. -/
theorem GiantShape.empty (hatt : GiantThreads.attempt q .dequeue = none) : q.rear = q.front := by
  simpa only [GiantThreads.attempt, Option.map_eq_none_iff, GiantQueue.dequeue,
    ite_eq_left_iff, reduceCtorEq, imp_false, not_not] using hatt

end Waiting

/-- A call that is past its loop, or can leave it, can return. -/
theorem giant_can_return {c : ClientState giant_code} {p id : ℕ} (hp : c.busy p = some id)
    {gc : GiantCall} (hgc : c.queue.thread p = some gc)
    (hgo : gc.result = none → GiantThreads.attempt c.queue.shared gc.op ≠ none) :
    c.can_return := by
  match hres : gc.result with
  | some r => exact .of_run (ClientState.run_eq_some hp (GiantLink.run_returns hgc hres))
  | none =>
    match hatt : GiantThreads.attempt c.queue.shared gc.op with
    | none => exact absurd hatt (hgo hres)
    | some (q', r) =>
      refine .of_quiet ⟨p, ClientState.run_eq_none hp (GiantLink.run_effect hgc hres hatt)⟩ ?_
      have hself := Function.update_self p (some { gc with result := some r }) c.queue.thread
      have hret : giant_code.run (⟨q', Function.update c.queue.thread p (some ⟨gc.op, some r⟩)⟩ :
          GiantThreads) p = some (_, some r) := GiantLink.run_returns hself rfl
      exact .of_run (ClientState.run_eq_some (p := p) hp hret)

/-- **The queue with the giant lock keeps the laws.** -/
theorem giant_fifo : giant_code.Fifo where
  linearizes := by
    intro c hreach _ _
    obtain ⟨L, hL⟩ := giant_link_reachable hreach
    exact ⟨L, hL.tracked.linearizes⟩
  progress := by
    intro c hreach henq hdeq hbusy
    obtain ⟨p₀, hbusy⟩ := hbusy
    obtain ⟨L, hL⟩ := giant_link_reachable hreach
    have hinv := client_inv_reachable hreach
    have hlin := hL.tracked.linearizes
    have hshape := GiantShape.of_runs hL.tracked.runs
      (Nat.lt_of_le_of_lt (hlin.countP_le_calls _) henq)
    have hrear : c.queue.shared.rear < 2 ^ 31 := by
      rw [← hshape.enqueues]
      exact Nat.lt_of_le_of_lt (hlin.countP_le_calls _) henq
    by_cases hgo : ∃ p id gc, c.busy p = some id ∧ c.queue.thread p = some gc ∧
        (gc.result = none → GiantThreads.attempt c.queue.shared gc.op ≠ none)
    · obtain ⟨p, id, gc, hp, hgc, hgo⟩ := hgo
      exact .inl (giant_can_return hp hgc hgo)
    · -- Every call finds the queue full, or every call finds it empty.
      have hstuck : ∀ p id op, c.busy p = some id → (p, .call id op) ∈ c.trace →
          id ∉ L.map Entry.id ∧ GiantThreads.attempt c.queue.shared op = none := by
        intro p id op hp hop
        obtain ⟨gc, hgc, hcall, hwaits, -⟩ := hL.thread p id hp
        obtain ⟨-, rfl⟩ := hinv.one_at_a_time.call_unique hop hcall
        by_contra hcon
        refine hgo ⟨p, id, gc, hp, hgc, fun hnone hatt => hcon ⟨hwaits hnone, hatt⟩⟩
      right
      by_cases henqs : c.calling Operation.is_enqueue
      · obtain ⟨p, id, op, hp, hop, hkind⟩ := henqs
        obtain ⟨hnew, hatt⟩ := hstuck p id op hp hop
        have hfull : c.queue.shared.rear = c.queue.shared.front + QUEUE_SIZE := by
          cases op with
          | enqueue key => exact hshape.full hrear hatt
          | dequeue => cases hkind
        have hnodeq : ¬ c.calling Operation.is_dequeue := by
          intro hdeqs
          obtain ⟨p', id', op', hp', hop', hkind'⟩ := hdeqs
          cases op' with
          | enqueue key => cases hkind'
          | dequeue =>
            have := GiantShape.empty (hstuck p' id' _ hp' hop').2
            unfold QUEUE_SIZE at hfull
            omega
        refine .inr ⟨hnodeq, ?_⟩
        rw [ClientState.dequeues, hinv.count hlin hnodeq, hshape.dequeues, ← hfull,
          ← hshape.enqueues]
        exact hlin.countP_lt_calls hop hkind hnew
      · obtain ⟨p, id, op, hp, hop, hkind⟩ := (hinv.calling hbusy).resolve_left henqs
        obtain ⟨hnew, hatt⟩ := hstuck p id op hp hop
        have hempty : c.queue.shared.rear = c.queue.shared.front := by
          cases op with
          | enqueue key => cases hkind
          | dequeue => exact GiantShape.empty hatt
        refine .inl ⟨henqs, ?_⟩
        rw [ClientState.enqueues, hinv.count hlin henqs, hshape.enqueues, hempty,
          ← hshape.dequeues]
        exact hlin.countP_lt_calls hop hkind hnew

end Lab13
