import ConcurrentProgramming.Framework.Threads
import ConcurrentProgramming.Lab13.ConcurrentQueue
import Mathlib.Data.List.Perm.Subperm

/-! # The Ticket Queue Refines the Giant-Lock Queue

    An operation takes effect as soon as both it and the operation it depends on
    have their tickets: the enqueue with ticket `t` depends on the dequeue with
    ticket `t - QUEUE_SIZE`, the dequeue with ticket `t` on the enqueue with
    ticket `t`.  So after `rear` enqueue tickets and `front` dequeue tickets,
    exactly the first `min rear (front + QUEUE_SIZE)` enqueues and the first
    `min front rear` dequeues have taken effect, in the order of their tickets.

    All of this happens at fetch-and-adds.  The waiting at the slots is only
    needed for an operation not to return before it has taken effect, and for a
    dequeue to find the key of its enqueue.
-/

namespace Lab13

open LTS CInt Linearizability Threads TicketQueue

/-! ## Section 1: Tickets -/

/-- The operations that took the tickets. -/
structure Tickets where
  enq_id  : ℕ → ℕ
  enq_key : ℕ → ℤ
  deq_id  : ℕ → ℕ

/-- The enqueue with ticket `t`. -/
def Tickets.enqueue (g : Tickets) (t : ℕ) : Entry Operation (Option ℤ) :=
  ⟨g.enq_id t, .enqueue (g.enq_key t), none⟩

/-- The dequeue with ticket `t`, which returns the key of the enqueue. -/
def Tickets.dequeue (g : Tickets) (t : ℕ) : Entry Operation (Option ℤ) :=
  ⟨g.deq_id t, .dequeue, some (g.enq_key t)⟩

/-- The order `L` has the first `E` enqueues and the first `D` dequeues. -/
structure Ledger (g : Tickets) (H : List (Event Operation (Option ℤ)))
    (L : List (Entry Operation (Option ℤ))) (q : GiantQueue) (E D : ℕ) : Prop where
  tracked : Tracked giant H L q
  rear    : q.rear = E
  front   : q.front = D
  keys    : ∀ t, D ≤ t → t < E → q.queue (t % QUEUE_SIZE) = g.enq_key t
  mem     : ∀ e, e ∈ L ↔ (∃ t < E, e = g.enqueue t) ∨ ∃ t < D, e = g.dequeue t

namespace Ledger

variable {g g' : Tickets} {H : List (Event Operation (Option ℤ))}
  {L : List (Entry Operation (Option ℤ))} {q : GiantQueue} {E D : ℕ}

theorem start : Ledger g [] [] .init_queue 0 0 where
  tracked := .start
  rear := rfl
  front := rfl
  keys := by simp
  mem := by simp

/-- Only the tickets of the operations in the order matter. -/
theorem congr (h : Ledger g H L q E D) (hDE : D ≤ E)
    (henq : ∀ t < E, g'.enqueue t = g.enqueue t)
    (hdeq : ∀ t < D, g'.deq_id t = g.deq_id t) : Ledger g' H L q E D := by
  have hkey : ∀ t < E, g'.enq_key t = g.enq_key t := by
    intro t ht
    have := henq t ht
    simp only [Tickets.enqueue, Entry.mk.injEq, Operation.enqueue.injEq] at this
    exact this.2.1
  have hdeq' : ∀ t < D, g'.dequeue t = g.dequeue t := by
    intro t ht
    simp only [Tickets.dequeue, hdeq t ht, hkey t (by omega)]
  refine ⟨h.tracked, h.rear, h.front, ?_, ?_⟩
  · intro t hD hE
    rw [h.keys t hD hE, hkey t hE]
  · intro e
    rw [h.mem]
    constructor
    · intro hcase
      rcases hcase with ⟨t, ht, rfl⟩ | ⟨t, ht, rfl⟩
      · exact .inl ⟨t, ht, (henq t ht).symm⟩
      · exact .inr ⟨t, ht, (hdeq' t ht).symm⟩
    · intro hcase
      rcases hcase with ⟨t, ht, rfl⟩ | ⟨t, ht, rfl⟩
      · exact .inl ⟨t, ht, henq t ht⟩
      · exact .inr ⟨t, ht, hdeq' t ht⟩

theorem call {id : ℕ} {o : Operation} (h : Ledger g H L q E D) (hnew : ∀ o', .call id o' ∉ H) :
    Ledger g (H ++ [.call id o]) L q E D :=
  ⟨h.tracked.call id o hnew, h.rear, h.front, h.keys, h.mem⟩

theorem ret {id : ℕ} {o : Operation} {r : Option ℤ} (h : Ledger g H L q E D)
    (hmem : ⟨id, o, r⟩ ∈ L) : Ledger g (H ++ [.ret id r]) L q E D :=
  ⟨h.tracked.ret id o r hmem, h.rear, h.front, h.keys, h.mem⟩

/-- An operation that is none of those in the order. -/
theorem fresh (h : Ledger g H L q E D) {id : ℕ} (henq : ∀ t < E, g.enq_id t ≠ id)
    (hdeq : ∀ t < D, g.deq_id t ≠ id) : id ∉ L.map Entry.id := by
  intro hmem
  obtain ⟨e, he, rfl⟩ := List.mem_map.mp hmem
  rcases (h.mem e).mp he with ⟨t, ht, rfl⟩ | ⟨t, ht, rfl⟩
  · exact henq t ht rfl
  · exact hdeq t ht rfl

/-- The next enqueue takes effect. -/
theorem enqueue (h : Ledger g H L q E D) (hroom : E < D + QUEUE_SIZE) (hDE : D ≤ E)
    (hE : E < 2 ^ 32)
    (hcall : .call (g.enq_id E) (.enqueue (g.enq_key E)) ∈ H)
    (hnew : g.enq_id E ∉ L.map Entry.id) :
    ∃ q', Ledger g H (L ++ [g.enqueue E]) q' (E + 1) D := by
  have hstep : q.enqueue (g.enq_key E) = some { q with
      queue := Function.update q.queue (E % QUEUE_SIZE) (g.enq_key E)
      rear := E + 1 } := by
    have hfull : ¬ E ≥ (D + QUEUE_SIZE) % 2 ^ 64 := by
      unfold QUEUE_SIZE at *
      omega
    have hmod : (E + 1) % 2 ^ 64 = E + 1 := Nat.mod_eq_of_lt (by omega)
    simp only [GiantQueue.enqueue, h.rear, h.front, if_neg hfull, hmod]
  refine ⟨_, h.tracked.effect _ _ none hcall hnew ⟨rfl, hstep⟩, rfl, h.front, ?_, ?_⟩
  · intro t hD ht
    by_cases heq : t = E
    · subst heq
      exact Function.update_self _ _ _
    · -- Tickets less than `QUEUE_SIZE` apart have different slots.
      have hslot : t % QUEUE_SIZE ≠ E % QUEUE_SIZE := by
        unfold QUEUE_SIZE at *
        omega
      exact (Function.update_of_ne hslot _ _).trans (h.keys t hD (by omega))
  · intro e
    rw [List.mem_append, List.mem_singleton, h.mem]
    constructor
    · intro hcase
      rcases hcase with (⟨t, ht, rfl⟩ | ⟨t, ht, rfl⟩) | rfl
      · exact .inl ⟨t, by omega, rfl⟩
      · exact .inr ⟨t, ht, rfl⟩
      · exact .inl ⟨E, by omega, rfl⟩
    · intro hcase
      rcases hcase with ⟨t, ht, rfl⟩ | ⟨t, ht, rfl⟩
      · by_cases heq : t = E
        · exact .inr (by rw [heq])
        · exact .inl (.inl ⟨t, by omega, rfl⟩)
      · exact .inl (.inr ⟨t, ht, rfl⟩)

/-- The next dequeue takes effect. -/
theorem dequeue (h : Ledger g H L q E D) (hDE : D < E) (hE : E < 2 ^ 32)
    (hcall : .call (g.deq_id D) .dequeue ∈ H) (hnew : g.deq_id D ∉ L.map Entry.id) :
    ∃ q', Ledger g H (L ++ [g.dequeue D]) q' E (D + 1) := by
  have hstep : q.dequeue = some (g.enq_key D, { q with front := D + 1 }) := by
    have hne : ¬ E = D := by omega
    have hmod : (D + 1) % 2 ^ 64 = D + 1 := Nat.mod_eq_of_lt (by omega)
    simp only [GiantQueue.dequeue, h.rear, h.front, if_neg hne, hmod, h.keys D le_rfl hDE]
  refine ⟨_, h.tracked.effect _ _ (some (g.enq_key D)) hcall hnew ⟨_, rfl, hstep⟩, h.rear, rfl,
    ?_, ?_⟩
  · intro t hD ht
    exact h.keys t (by omega) ht
  · intro e
    rw [List.mem_append, List.mem_singleton, h.mem]
    constructor
    · intro hcase
      rcases hcase with (⟨t, ht, rfl⟩ | ⟨t, ht, rfl⟩) | rfl
      · exact .inl ⟨t, ht, rfl⟩
      · exact .inr ⟨t, by omega, rfl⟩
      · exact .inr ⟨D, by omega, rfl⟩
    · intro hcase
      rcases hcase with ⟨t, ht, rfl⟩ | ⟨t, ht, rfl⟩
      · exact .inl (.inl ⟨t, ht, rfl⟩)
      · by_cases heq : t = D
        · exact .inr (by rw [heq])
        · exact .inl (.inr ⟨t, by omega, rfl⟩)

end Ledger

/-! ## Section 2: Slots -/

theorem idx_natCast (t : ℕ) : idx t = (t % QUEUE_SIZE : ℕ) := by
  rw [idx, Int.tmod_eq_emod_of_nonneg (by omega)]
  exact (Int.natCast_emod t QUEUE_SIZE).symm

theorem idx_eq_iff {t t' : ℕ} : idx t = idx t' ↔ t % QUEUE_SIZE = t' % QUEUE_SIZE := by
  rw [idx_natCast, idx_natCast, Int.natCast_inj]

theorem ticket_inj {t u : ℕ} (h : some (t : ℤ) = some (u : ℤ)) : t = u :=
  Int.ofNat.inj (Option.some.inj h)

/-- The value of `flag` at which the operation with ticket `t` has its turn. -/
def turn (op : Operation) (t : ℕ) : ℤ :=
  match op with
  | .enqueue _ => 2 * (t / QUEUE_SIZE : ℕ)
  | .dequeue => 2 * (t / QUEUE_SIZE : ℕ) + 1

theorem wanted_eq_turn {op : Operation} {t : ℕ} (ht : t < 2 ^ 31) : wanted op t = turn op t := by
  have hround : round t = (t / QUEUE_SIZE : ℕ) := by
    rw [round, Int.tdiv_eq_ediv_of_nonneg (by omega)]
    exact (Int.natCast_ediv t QUEUE_SIZE).symm
  have hsmall : t / QUEUE_SIZE < 2 ^ 21 := by
    unfold QUEUE_SIZE
    omega
  cases op with
  | enqueue key =>
    simp only [wanted, hround, turn]
    generalize t / QUEUE_SIZE = r at hsmall
    rw [to_int_of_nonneg (by omega) (by omega)]
    omega
  | dequeue =>
    simp only [wanted, hround, turn]
    generalize t / QUEUE_SIZE = r at hsmall
    rw [to_int_of_nonneg (x := _ * 2) (by omega) (by omega), to_int_of_nonneg (by omega) (by omega)]
    omega

/-- Two operations of the same kind that share a slot and have their turn at the
    same time have the same ticket. -/
theorem ticket_unique {t t' : ℕ} (hidx : idx t = idx t')
    (hround : t / QUEUE_SIZE = t' / QUEUE_SIZE) : t = t' := by
  rw [idx_eq_iff] at hidx
  rw [← Nat.div_add_mod t QUEUE_SIZE, ← Nat.div_add_mod t' QUEUE_SIZE, hidx, hround]

namespace Point

/-- The ticket a call holds. -/
def ticket : Point → Option ℤ
  | .take_ticket => none
  | .load_parity t => some t
  | .load_round t => some t
  | .access_key t => some t
  | .clear_key t _ => some t
  | .load_flag t _ => some t
  | .store_flag t _ _ => some t
  | .finished _ => none

/-- Has the call left the spin loop? -/
def owns : Point → Bool
  | .access_key _ => true
  | .clear_key _ _ => true
  | .load_flag _ _ => true
  | .store_flag _ _ _ => true
  | _ => false

/-- Has the call cleared the key? -/
def cleared : Point → Bool
  | .load_flag _ _ => true
  | .store_flag _ _ _ => true
  | _ => false

end Point

/-- The slot of ticket `t`. -/
def TicketQueue.slot (s : TicketQueue) (t : ℕ) : QueueNode := s.queue (idx t)

/-- The call `c` took the ticket `t`. -/
def Tickets.took (g : Tickets) (s : TicketQueue) (c : Call) (t : ℕ) : Prop :=
  match c.op with
  | .enqueue key => t < s.rear ∧ g.enq_id t = c.id ∧ g.enq_key t = key
  | .dequeue => t < s.front ∧ g.deq_id t = c.id

/-- What a call that has left the spin loop knows about its slot and about the
    key of its ticket. -/
def access_ok (node : QueueNode) (enq_key : ℤ) : Operation → Point → Prop
  | .enqueue _, .clear_key _ _ => False
  | .enqueue key, .load_flag _ result => result = none ∧ node.key = key
  | .enqueue key, .store_flag _ result flag => result = none ∧ node.key = key ∧ flag = node.flag
  | .dequeue, .clear_key _ ret_key => ret_key = enq_key
  | .dequeue, .load_flag _ result => result = some enq_key
  | .dequeue, .store_flag _ result flag => result = some enq_key ∧ flag = node.flag
  | _, _ => True

structure CallOk (g : Tickets) (s : TicketQueue) (L : List (Entry Operation (Option ℤ)))
    (c : Call) : Prop where
  called   : .call c.id c.op ∈ s.history
  unused   : c.point = .take_ticket →
    (∀ t < s.rear, g.enq_id t ≠ c.id) ∧ ∀ t < s.front, g.deq_id t ≠ c.id
  ticket   : ∀ x, c.point.ticket = some x → ∃ t : ℕ, x = t ∧ g.took s c t
  waiting  : ∀ t : ℕ, c.point.ticket = some (t : ℤ) → (s.slot t).flag ≤ turn c.op t
  owner    : ∀ t : ℕ, c.point.ticket = some (t : ℤ) → c.point.owns → (s.slot t).flag = turn c.op t
  access   : ∀ t : ℕ, c.point.ticket = some (t : ℤ) →
    access_ok (s.slot t) (g.enq_key t) c.op c.point
  finished : ∀ r, c.point = .finished r → ⟨c.id, c.op, r⟩ ∈ L

/-- The invariant of the ticket queue. -/
structure QueueInv (g : Tickets) (s : TicketQueue) (L : List (Entry Operation (Option ℤ)))
    (q : GiantQueue) : Prop where
  ledger     : Ledger g s.history L q (min s.rear (s.front + QUEUE_SIZE)) (min s.front s.rear)
  ids        : ∀ id o, .call id o ∈ s.history → id < s.calls
  enq_called : ∀ t < s.rear, .call (g.enq_id t) (.enqueue (g.enq_key t)) ∈ s.history
  deq_called : ∀ t < s.front, .call (g.deq_id t) .dequeue ∈ s.history
  enq_inj    : ∀ t < s.rear, ∀ t' < s.rear, g.enq_id t = g.enq_id t' → t = t'
  deq_inj    : ∀ t < s.front, ∀ t' < s.front, g.deq_id t = g.deq_id t' → t = t'
  disjoint   : ∀ t < s.rear, ∀ t' < s.front, g.enq_id t ≠ g.deq_id t'
  thread_ids : ∀ p c p' c', s.thread p = some c → s.thread p' = some c' → c.id = c'.id → p = p'
  thread     : ∀ p c, s.thread p = some c → CallOk g s L c
  /-- A slot that was filled for round `r` had an enqueue for it. -/
  filled     : ∀ t : ℕ, turn .dequeue t ≤ (s.slot t).flag → t < s.rear
  /-- A slot that was emptied for round `r` had a dequeue for it. -/
  emptied    : ∀ t : ℕ, turn .dequeue t < (s.slot t).flag → t < s.front
  /-- A filled slot has the key of its enqueue until its dequeue clears it. -/
  key        : ∀ t : ℕ, (s.slot t).flag = turn .dequeue t → (s.slot t).key = g.enq_key t ∨
    ∃ p c, s.thread p = some c ∧ c.op = .dequeue ∧ c.point.ticket = some (t : ℤ) ∧ c.point.cleared

/-! ## Section 3: Who may touch a slot -/

theorem turn_bounds (op : Operation) {t : ℕ} (ht : t < 2 ^ 31) :
    0 ≤ turn op t ∧ turn op t < 2 ^ 23 := by
  have hsmall : t / QUEUE_SIZE < 2 ^ 21 := by
    unfold QUEUE_SIZE
    omega
  generalize hr : t / QUEUE_SIZE = r at hsmall
  cases op <;> simp only [turn, hr] <;> omega

theorem access_ok_of_spinning {node : QueueNode} {k : ℤ} {op : Operation} {pt : Point}
    (h : pt.owns = false) : access_ok node k op pt := by
  cases pt <;> cases op <;> trivial

theorem slot_congr {s : TicketQueue} {t t' : ℕ} (h : idx t = idx t') : s.slot t = s.slot t' := by
  rw [slot, slot, h]

namespace QueueInv

variable {g : Tickets} {s : TicketQueue} {L : List (Entry Operation (Option ℤ))}
  {q : GiantQueue} {p p' : ℕ} {c c' : Call}

/-- Two calls of the same thread kind with one ticket belong to one thread. -/
theorem took_unique (h : QueueInv g s L q) (hp : s.thread p = some c)
    (hp' : s.thread p' = some c') {t : ℕ} (ht : g.took s c t) (ht' : g.took s c' t)
    (hturn : turn c.op t = turn c'.op t) : p = p' := by
  apply h.thread_ids p c p' c' hp hp'
  unfold Tickets.took at ht ht'
  cases hop : c.op <;> cases hop' : c'.op <;> simp only [hop, hop', turn] at ht ht' hturn
  · rw [← ht.2.1, ht'.2.1]
  · omega
  · omega
  · rw [← ht.2, ht'.2]

/-- The turns of two operations at one slot differ, unless their tickets are the
    same. -/
theorem ticket_of_turn {op op' : Operation} {t t' : ℕ} (hidx : idx t = idx t')
    (hturn : turn op t = turn op' t') : t = t' := by
  apply ticket_unique hidx
  cases op <;> cases op' <;> simp only [turn] at hturn <;> omega

/-- Only one call has its turn at a slot. -/
theorem owner_unique (h : QueueInv g s L q) (hp : s.thread p = some c)
    (hp' : s.thread p' = some c') {t t' : ℕ} (ht : c.point.ticket = some (t : ℤ))
    (ht' : c'.point.ticket = some (t' : ℤ)) (hidx : idx t = idx t')
    (hturn : (s.slot t).flag = turn c.op t) (hturn' : (s.slot t').flag = turn c'.op t') :
    p = p' := by
  rw [slot_congr hidx, hturn'] at hturn
  have heq := ticket_of_turn hidx hturn.symm
  subst heq
  obtain ⟨u, hu, htook⟩ := (h.thread p c hp).ticket _ ht
  obtain ⟨u', hu', htook'⟩ := (h.thread p' c' hp').ticket _ ht'
  obtain rfl : t = u := by omega
  obtain rfl : t = u' := by omega
  exact h.took_unique hp hp' htook htook' hturn.symm

theorem distinct (h : QueueInv g s L q) : Distinct s.thread fun c => some c.id :=
  fun p c p' c' _ hp hp' hid hid' =>
    h.thread_ids p c p' c' hp hp' (Option.some.inj (hid.trans hid'.symm))

theorem ids_of_distinct {thread : ℕ → Option Call} (h : Distinct thread fun c => some c.id) :
    ∀ p c p' c', thread p = some c → thread p' = some c' → c.id = c'.id → p = p' :=
  fun p c p' c' hp hp' hid => h p c p' c' c'.id hp hp' (congrArg some hid) rfl

/-- A filled slot after thread `p` has moved; `hself` is about the case that this
    thread has cleared the slot. -/
theorem key_of_move (h : QueueInv g s L q) {thread' : ℕ → Option Call} {t : ℕ}
    (hothers : ∀ p', p' ≠ p → thread' p' = s.thread p')
    (hself : ∀ c, s.thread p = some c → c.op = .dequeue → c.point.ticket = some (t : ℤ) →
      c.point.cleared → ∃ c', thread' p = some c' ∧ c'.op = .dequeue ∧
        c'.point.ticket = some (t : ℤ) ∧ c'.point.cleared)
    (ht : (s.slot t).flag = turn .dequeue t) : (s.slot t).key = g.enq_key t ∨
    ∃ p c, thread' p = some c ∧ c.op = .dequeue ∧ c.point.ticket = some (t : ℤ) ∧
      c.point.cleared := by
  rcases h.key t ht with hkey | ⟨p', c, hp', hop, htick, hcleared⟩
  · exact .inl hkey
  · by_cases heq : p' = p
    · subst heq
      exact .inr ⟨p', hself c hp' hop htick hcleared⟩
    · exact .inr ⟨p', c, (hothers p' heq).trans hp', hop, htick, hcleared⟩

end QueueInv

/-- Only the slots, the counters and the events so far matter. -/
theorem CallOk.of_history {g : Tickets} {s s' : TicketQueue}
    {L : List (Entry Operation (Option ℤ))} {c : Call} (h : CallOk g s L c)
    (hqueue : s'.queue = s.queue) (hrear : s'.rear = s.rear) (hfront : s'.front = s.front)
    (hhistory : ∀ e ∈ s.history, e ∈ s'.history) : CallOk g s' L c := by
  have hslot : ∀ t, s'.slot t = s.slot t := by
    intro t
    rw [slot, slot, hqueue]
  refine ⟨hhistory _ h.called, ?_, ?_, ?_, ?_, ?_, h.finished⟩
  · rw [hrear, hfront]
    exact h.unused
  · unfold Tickets.took
    rw [hrear, hfront]
    exact h.ticket
  all_goals
    simp only [hslot]
  · exact h.waiting
  · exact h.owner
  · exact h.access

theorem CallOk.go {g : Tickets} {s : TicketQueue} {L : List (Entry Operation (Option ℤ))}
    {p : ℕ} {c c' : Call} {pt : Point} (h : CallOk g s L c') :
    CallOk g (s.go p c pt) L c' :=
  h.of_history rfl rfl rfl (fun _ he => he)

/-- A call that goes on with its ticket, after a change of its slot. -/
theorem CallOk.advance {g : Tickets} {s : TicketQueue} {L : List (Entry Operation (Option ℤ))}
    {c : Call} {pt : Point} {t : ℕ} {node : QueueNode} (h : CallOk g s L c)
    (ht : c.point.ticket = some (t : ℤ)) (hpt : pt.ticket = some (t : ℤ))
    (hwait : node.flag ≤ turn c.op t) (howner : pt.owns → node.flag = turn c.op t)
    (haccess : access_ok node (g.enq_key t) c.op pt) :
    CallOk g (s.set_node (idx t) node) L { c with point := pt } := by
  have hslot : (s.set_node (idx t) node).slot t = node := Function.update_self _ _ _
  refine ⟨h.called, ?_, ?_, ?_, ?_, ?_, ?_⟩
  · intro hpoint
    simp only at hpoint
    rw [hpoint] at hpt
    cases hpt
  · intro x hx
    obtain rfl : (t : ℤ) = x := by simpa [hpt] using hx
    exact h.ticket _ ht
  · intro u hu
    obtain rfl := ticket_inj (hpt.symm.trans hu)
    rw [hslot]
    exact hwait
  · intro u hu howns
    obtain rfl := ticket_inj (hpt.symm.trans hu)
    rw [hslot]
    exact howner howns
  · intro u hu
    obtain rfl := ticket_inj (hpt.symm.trans hu)
    rw [hslot]
    exact haccess
  · intro r hpoint
    simp only at hpoint
    rw [hpoint] at hpt
    cases hpt

theorem set_node_slot {s : TicketQueue} {t : ℕ} : s.set_node (idx t) (s.slot t) = s := by
  simp [set_node, slot]

theorem thread_go_of_ne {s : TicketQueue} {p p' : ℕ} {c : Call} {pt : Point} (h : p' ≠ p) :
    (s.go p c pt).thread p' = s.thread p' :=
  Function.update_of_ne h _ _

theorem thread_go_self {s : TicketQueue} {p : ℕ} {c : Call} {pt : Point} :
    (s.go p c pt).thread p = some { c with point := pt } :=
  Function.update_self _ _ _

theorem slot_go {s : TicketQueue} {p : ℕ} {c : Call} {pt : Point} {t : ℕ} :
    (s.go p c pt).slot t = s.slot t :=
  rfl

theorem slot_set_node_of_eq {s : TicketQueue} {t t' : ℕ} {node : QueueNode}
    (h : idx t' = idx t) : (s.set_node (idx t) node).slot t' = node := by
  rw [slot, set_node, h]
  exact Function.update_self _ _ _

theorem slot_set_node_of_ne {s : TicketQueue} {t t' : ℕ} {node : QueueNode}
    (h : idx t' ≠ idx t) : (s.set_node (idx t) node).slot t' = s.slot t' :=
  Function.update_of_ne h _ _

/-! ## Section 4: Steps of one thread -/

namespace QueueInv

variable {g : Tickets} {s : TicketQueue} {L : List (Entry Operation (Option ℤ))}
  {q : GiantQueue} {p : ℕ} {c : Call} {pt : Point}

theorem thread_ids_go (h : QueueInv g s L q) (hp : s.thread p = some c) :
    ∀ p₁ c₁ p₂ c₂, (s.go p c pt).thread p₁ = some c₁ → (s.go p c pt).thread p₂ = some c₂ →
      c₁.id = c₂.id → p₁ = p₂ := by
  apply ids_of_distinct
  exact h.distinct.update fun id hid => .inl ⟨c, hp, hid⟩

/-- A step that changes nothing but the point of thread `p`. -/
theorem go (h : QueueInv g s L q) (hp : s.thread p = some c)
    (hok : CallOk g s L { c with point := pt })
    (hclear : c.point.cleared → pt.ticket = c.point.ticket ∧ pt.cleared) :
    QueueInv g (s.go p c pt) L q where
  ledger := h.ledger
  ids := h.ids
  enq_called := h.enq_called
  deq_called := h.deq_called
  enq_inj := h.enq_inj
  deq_inj := h.deq_inj
  disjoint := h.disjoint
  thread_ids := h.thread_ids_go hp
  thread := by
    intro p' c' hp'
    rcases update_some hp' with ⟨rfl, rfl⟩ | ⟨-, hp'⟩
    · exact hok.go
    · exact (h.thread p' c' hp').go
  filled := h.filled
  emptied := h.emptied
  key := by
    intro t
    refine h.key_of_move (fun _ => thread_go_of_ne) ?_
    intro c' hp' hop htick hcleared
    obtain rfl : c = c' := by simpa [hp] using hp'
    obtain ⟨htick', hcleared'⟩ := hclear hcleared
    exact ⟨_, thread_go_self, hop, htick'.trans htick, hcleared'⟩

/-- A call that has its turn changes its slot. -/
theorem update_slot (h : QueueInv g s L q) (hp : s.thread p = some c) {t : ℕ}
    (ht : c.point.ticket = some (t : ℤ)) (hown : c.point.owns) {node : QueueNode}
    (hok : CallOk g (s.set_node (idx t) node) L { c with point := pt })
    (hflag : node.flag ≤ (s.slot t).flag + 1)
    (hfilled : ∀ t' : ℕ, idx t' = idx t → turn .dequeue t' ≤ node.flag → t' < s.rear)
    (hemptied : ∀ t' : ℕ, idx t' = idx t → turn .dequeue t' < node.flag → t' < s.front)
    (hkey : ∀ t' : ℕ, idx t' = idx t → node.flag = turn .dequeue t' → node.key = g.enq_key t' ∨
      c.op = .dequeue ∧ pt.ticket = some (t' : ℤ) ∧ pt.cleared) :
    QueueInv g ((s.set_node (idx t) node).go p c pt) L q where
  ledger := h.ledger
  ids := h.ids
  enq_called := h.enq_called
  deq_called := h.deq_called
  enq_inj := h.enq_inj
  deq_inj := h.deq_inj
  disjoint := h.disjoint
  thread_ids := h.thread_ids_go hp
  thread := by
    intro p' c' hp'
    rcases update_some hp' with ⟨rfl, rfl⟩ | ⟨hne, hp'⟩
    · exact hok.go
    · have hok' := h.thread p' c' hp'
      -- The other calls at this slot still wait for their turn.
      have hother : ∀ t' : ℕ, c'.point.ticket = some (t' : ℤ) → idx t' = idx t →
          (s.slot t').flag ≠ turn c'.op t' := fun t' ht' hidx hturn =>
        hne (h.owner_unique hp' hp ht' ht hidx hturn ((h.thread p c hp).owner t ht hown))
      have hspin : ∀ t' : ℕ, c'.point.ticket = some (t' : ℤ) → idx t' = idx t →
          c'.point.owns = false := by
        intro t' ht' hidx
        by_contra howns
        exact hother t' ht' hidx (hok'.owner t' ht' (by simpa using howns))
      refine ⟨hok'.called, hok'.unused, hok'.ticket, ?_, ?_, ?_, hok'.finished⟩
      · intro t' ht'
        by_cases hidx : idx t' = idx t
        · have hle := hok'.waiting t' ht'
          have hne' := hother t' ht' hidx
          rw [slot_congr hidx] at hle hne'
          -- Its turn has not come, and the flag is increased by one at most.
          rw [slot_go, slot_set_node_of_eq hidx]
          omega
        · rw [slot_go, slot_set_node_of_ne hidx]
          exact hok'.waiting t' ht'
      · intro t' ht' howns
        by_cases hidx : idx t' = idx t
        · rw [hspin t' ht' hidx] at howns
          cases howns
        · rw [slot_go, slot_set_node_of_ne hidx]
          exact hok'.owner t' ht' howns
      · intro t' ht'
        by_cases hidx : idx t' = idx t
        · exact access_ok_of_spinning (hspin t' ht' hidx)
        · rw [slot_go, slot_set_node_of_ne hidx]
          exact hok'.access t' ht'
  filled := by
    intro t'
    by_cases hidx : idx t' = idx t
    · rw [slot_go, slot_set_node_of_eq hidx]
      exact hfilled t' hidx
    · rw [slot_go, slot_set_node_of_ne hidx]
      exact h.filled t'
  emptied := by
    intro t'
    by_cases hidx : idx t' = idx t
    · rw [slot_go, slot_set_node_of_eq hidx]
      exact hemptied t' hidx
    · rw [slot_go, slot_set_node_of_ne hidx]
      exact h.emptied t'
  key := by
    intro t'
    by_cases hidx : idx t' = idx t
    · rw [slot_go, slot_set_node_of_eq hidx]
      intro hturn
      rcases hkey t' hidx hturn with hkey | ⟨hop, htick, hcleared⟩
      · exact .inl hkey
      · exact .inr ⟨p, _, thread_go_self, hop, htick, hcleared⟩
    · rw [slot_go, slot_set_node_of_ne hidx]
      refine h.key_of_move (fun _ => thread_go_of_ne) ?_
      -- The ticket of thread `p` is for another slot.
      intro c' hp' _ htick _
      obtain rfl : c = c' := by simpa [hp] using hp'
      rw [ht, Option.some.injEq] at htick
      exact absurd (by rw [htick]) hidx

/-- A call that has a ticket goes on without a change of the shared variables. -/
theorem go_on (h : QueueInv g s L q) (hp : s.thread p = some c) {t : ℕ}
    (ht : c.point.ticket = some (t : ℤ)) (hpt : pt.ticket = some (t : ℤ))
    (howner : pt.owns → (s.slot t).flag = turn c.op t)
    (haccess : access_ok (s.slot t) (g.enq_key t) c.op pt) (hclear : c.point.cleared → pt.cleared) :
    QueueInv g (s.go p c pt) L q := by
  have hok := h.thread p c hp
  have hok' := hok.advance ht hpt (hok.waiting t ht) howner haccess
  rw [set_node_slot] at hok'
  exact h.go hp hok' fun hc => ⟨hpt.trans ht.symm, hclear hc⟩

/-- The ticket of a call is within the range of `int`. -/
theorem ticket_lt (h : QueueInv g s L q) (hp : s.thread p = some c) (hrear : s.rear < 2 ^ 31)
    (hfront : s.front < 2 ^ 31) {t : ℕ} (ht : c.point.ticket = some (t : ℤ)) :
    g.took s c t ∧ t < 2 ^ 31 := by
  obtain ⟨u, hu, htook⟩ := (h.thread p c hp).ticket _ ht
  obtain rfl : t = u := by omega
  refine ⟨htook, ?_⟩
  unfold Tickets.took at htook
  split at htook <;> omega

/-- A call that has its turn changes the key of its slot. -/
theorem store_key (h : QueueInv g s L q) (hp : s.thread p = some c) {t : ℕ} {k : ℤ}
    (ht : c.point.ticket = some (t : ℤ)) (hown : c.point.owns) (hpt : pt.ticket = some (t : ℤ))
    (haccess : access_ok { s.slot t with key := k } (g.enq_key t) c.op pt)
    (hclear : c.op = .dequeue → pt.cleared) :
    QueueInv g ((s.set_node (idx t) { s.slot t with key := k }).go p c pt) L q := by
  have hok := h.thread p c hp
  have hturn := hok.owner t ht hown
  apply h.update_slot hp ht hown
  · exact hok.advance ht hpt (Int.le_of_eq hturn) (fun _ => hturn) haccess
  · exact (by omega : (s.slot t).flag ≤ (s.slot t).flag + 1)
  · intro t' hidx hle
    exact h.filled t' (by rwa [slot_congr hidx])
  · intro t' hidx hlt
    exact h.emptied t' (by rwa [slot_congr hidx])
  · intro t' hidx heq
    have hturns : turn c.op t = turn .dequeue t' := hturn.symm.trans heq
    obtain rfl := ticket_of_turn hidx.symm hturns
    cases hop : c.op with
    | enqueue key =>
      -- An enqueue has its turn at even values.
      simp only [hop, turn] at hturns
      omega
    | dequeue => exact .inr ⟨rfl, hpt, hclear hop⟩

/-- What `flag++` stores: `flag` stays far below the range of `int`. -/
theorem stored_flag (h : QueueInv g s L q) (hp : s.thread p = some c) (hrear : s.rear < 2 ^ 31)
    (hfront : s.front < 2 ^ 31) {t : ℕ} {r : Option ℤ} {flag : ℤ}
    (hpoint : c.point = .store_flag t r flag) :
    (s.slot t).flag = turn c.op t ∧ to_int (flag + 1) = turn c.op t + 1 := by
  have ht : c.point.ticket = some (t : ℤ) := by rw [hpoint, Point.ticket]
  have hok := h.thread p c hp
  have hturn := hok.owner t ht (by rw [hpoint, Point.owns])
  have hflag : flag = (s.slot t).flag := by
    have haccess := hok.access t ht
    rw [hpoint] at haccess
    cases hop : c.op <;> simp only [hop, access_ok] at haccess
    · exact haccess.2.2
    · exact haccess.2
  have hbounds := turn_bounds c.op (h.ticket_lt hp hrear hfront ht).2
  refine ⟨hturn, ?_⟩
  rw [hflag, hturn]
  exact to_int_of_nonneg (by omega) (by omega)

/-- `flag++`: the call is over. -/
theorem store_flag (h : QueueInv g s L q) (hp : s.thread p = some c) (hrear : s.rear < 2 ^ 31)
    (hfront : s.front < 2 ^ 31) {t : ℕ} {r : Option ℤ} {flag : ℤ}
    (hpoint : c.point = .store_flag t r flag) :
    QueueInv g ((s.set_node (idx t) { s.slot t with flag := to_int (flag + 1) }).go p c
      (.finished r)) L q := by
  have ht : c.point.ticket = some (t : ℤ) := by rw [hpoint, Point.ticket]
  have hown : c.point.owns := by rw [hpoint, Point.owns]
  have hok := h.thread p c hp
  obtain ⟨hturn, hnew⟩ := h.stored_flag hp hrear hfront hpoint
  obtain ⟨htook, hlt⟩ := h.ticket_lt hp hrear hfront ht
  have haccess := hok.access t ht
  rw [hnew]
  apply h.update_slot hp ht hown
  · refine ⟨hok.called, by simp, by simp [Point.ticket], by simp [Point.ticket],
      by simp [Point.ticket], by simp [Point.ticket], ?_⟩
    -- The call has taken effect: its ticket and the one it depends on are taken.
    intro r' hr'
    obtain rfl : r = r' := by simpa using hr'
    apply (h.ledger.mem _).mpr
    cases hop : c.op with
    | enqueue key =>
      simp only [Tickets.took, hop] at htook
      rw [hpoint, hop] at haccess
      -- The slot was emptied in the round before, so this dequeue has its ticket.
      have hroom : t < s.front + QUEUE_SIZE := by
        by_cases hfirst : t < QUEUE_SIZE
        · omega
        · have hturn' : turn .dequeue (t - QUEUE_SIZE) < (s.slot (t - QUEUE_SIZE)).flag := by
            have hidx : idx ((t - QUEUE_SIZE : ℕ) : ℤ) = idx t := by
              rw [idx_eq_iff]
              unfold QUEUE_SIZE at *
              omega
            rw [slot_congr hidx, hturn, hop]
            simp only [turn, QUEUE_SIZE] at *
            omega
          have := h.emptied _ hturn'
          omega
      refine .inl ⟨t, by omega, ?_⟩
      rw [Tickets.enqueue, htook.2.1, htook.2.2, haccess.1]
    | dequeue =>
      simp only [Tickets.took, hop] at htook
      rw [hpoint, hop] at haccess
      have hfilled : t < s.rear := h.filled t (Int.le_of_eq (by rw [hturn, hop]))
      refine .inr ⟨t, by omega, ?_⟩
      rw [Tickets.dequeue, htook.2, haccess.1]
  · exact Int.le_of_eq (by rw [hturn])
  · intro t' hidx hle
    change _ ≤ turn c.op t + 1 at hle
    by_cases hle' : turn .dequeue t' ≤ turn c.op t
    · exact h.filled t' (by rwa [slot_congr hidx, hturn])
    · -- The enqueue with ticket `t` has filled the slot.
      cases hop : c.op with
      | enqueue key =>
        simp only [Tickets.took, hop] at htook
        obtain rfl : t' = t := by
          apply ticket_unique hidx
          simp only [hop, turn] at hle hle'
          omega
        exact htook.1
      | dequeue =>
        simp only [hop, turn] at hle hle'
        omega
  · intro t' hidx hlt'
    change _ < turn c.op t + 1 at hlt'
    by_cases hlt'' : turn .dequeue t' < turn c.op t
    · exact h.emptied t' (by rwa [slot_congr hidx, hturn])
    · -- The dequeue with ticket `t` has emptied the slot.
      have hturns : turn .dequeue t' = turn c.op t := by omega
      obtain rfl := ticket_of_turn hidx hturns
      cases hop : c.op with
      | enqueue key =>
        simp only [hop, turn] at hturns
        omega
      | dequeue =>
        simp only [Tickets.took, hop] at htook
        exact htook.1
  · intro t' hidx heq
    change turn c.op t + 1 = _ at heq
    cases hop : c.op with
    | enqueue key =>
      simp only [Tickets.took, hop] at htook
      rw [hpoint, hop] at haccess
      obtain rfl : t' = t := by
        apply ticket_unique hidx
        simp only [hop, turn] at heq
        omega
      exact .inl (haccess.2.1.trans htook.2.2.symm)
    | dequeue =>
      simp only [hop, turn] at heq
      omega

end QueueInv

/-! ## Section 5: Tickets are taken -/

/-- `g'` has the tickets of `g`, and of those that were taken since. -/
structure ExtendsTickets (g g' : Tickets) (s s' : TicketQueue) (id : ℕ) : Prop where
  enq     : ∀ t < s.rear, g'.enqueue t = g.enqueue t
  deq     : ∀ t < s.front, g'.deq_id t = g.deq_id t
  enq_new : ∀ t, s.rear ≤ t → t < s'.rear → g'.enq_id t = id
  deq_new : ∀ t, s.front ≤ t → t < s'.front → g'.deq_id t = id

namespace ExtendsTickets

variable {g g' : Tickets} {s s' : TicketQueue} {id : ℕ}

theorem enq_id (h : ExtendsTickets g g' s s' id) {t : ℕ} (ht : t < s.rear) :
    g'.enq_id t = g.enq_id t :=
  congrArg Entry.id (h.enq t ht)

theorem enq_key (h : ExtendsTickets g g' s s' id) {t : ℕ} (ht : t < s.rear) :
    g'.enq_key t = g.enq_key t := by
  have hop := congrArg Entry.op (h.enq t ht)
  simpa only [Tickets.enqueue, Operation.enqueue.injEq] using hop

end ExtendsTickets

/-- The tickets still belong to different calls when one more is taken by the call
    `id`. -/
theorem inj_of_new {f f' : ℕ → ℕ} {m m' id : ℕ} (hle : m' ≤ m + 1)
    (hold : ∀ t < m, f' t = f t) (hnew : ∀ t, m ≤ t → t < m' → f' t = id)
    (hinj : ∀ t < m, ∀ t' < m, f t = f t' → t = t') (hunused : ∀ t < m, f t ≠ id) :
    ∀ t < m', ∀ t' < m', f' t = f' t' → t = t' := by
  intro t ht t' ht' heq
  by_cases hlt : t < m
  · rw [hold t hlt] at heq
    by_cases hlt' : t' < m
    · rw [hold t' hlt'] at heq
      exact hinj t hlt t' hlt' heq
    · rw [hnew t' (by omega) ht'] at heq
      exact absurd heq (hunused t hlt)
  · rw [hnew t (by omega) ht] at heq
    by_cases hlt' : t' < m
    · rw [hold t' hlt'] at heq
      exact absurd heq.symm (hunused t' hlt')
    · omega

/-- The other calls when thread `p` takes a ticket. -/
theorem CallOk.extend {g g' : Tickets} {s s' : TicketQueue}
    {L L' : List (Entry Operation (Option ℤ))} {id : ℕ} {c : Call} (h : CallOk g s L c)
    (hg : ExtendsTickets g g' s s' id) (hqueue : s'.queue = s.queue)
    (hhistory : s'.history = s.history) (hrear : s.rear ≤ s'.rear) (hfront : s.front ≤ s'.front)
    (hL : ∀ e ∈ L, e ∈ L') (hid : c.id ≠ id)
    (hfilled : ∀ t : ℕ, turn .dequeue t ≤ (s.slot t).flag → t < s.rear) :
    CallOk g' s' L' c := by
  have hslot : ∀ t, s'.slot t = s.slot t := by
    intro t
    rw [slot, slot, hqueue]
  refine ⟨hhistory ▸ h.called, ?_, ?_, ?_, ?_, ?_, fun r hr => hL _ (h.finished r hr)⟩
  · intro hpoint
    obtain ⟨henq, hdeq⟩ := h.unused hpoint
    constructor
    · intro t ht
      by_cases hlt : t < s.rear
      · rw [hg.enq_id hlt]
        exact henq t hlt
      · rw [hg.enq_new t (by omega) ht]
        exact hid.symm
    · intro t ht
      by_cases hlt : t < s.front
      · rw [hg.deq t hlt]
        exact hdeq t hlt
      · rw [hg.deq_new t (by omega) ht]
        exact hid.symm
  · intro x hx
    obtain ⟨t, ht, htook⟩ := h.ticket x hx
    refine ⟨t, ht, ?_⟩
    unfold Tickets.took at htook ⊢
    split at htook
    · rw [hg.enq_id htook.1, hg.enq_key htook.1]
      exact ⟨by omega, htook.2⟩
    · rw [hg.deq t htook.1]
      exact ⟨by omega, htook.2⟩
  · intro t ht
    rw [hslot]
    exact h.waiting t ht
  · intro t ht hown
    rw [hslot]
    exact h.owner t ht hown
  · intro t ht
    by_cases hown : c.point.owns = true
    · -- A call whose turn it is has a ticket that was taken before.
      have hlt : t < s.rear := by
        obtain ⟨u, hu, htook⟩ := h.ticket _ ht
        obtain rfl : t = u := by omega
        cases hop : c.op with
        | enqueue key =>
          simp only [Tickets.took, hop] at htook
          exact htook.1
        | dequeue => exact hfilled t (Int.le_of_eq (by rw [h.owner t ht hown, hop]))
      rw [hslot, hg.enq_key hlt]
      exact h.access t ht
    · exact access_ok_of_spinning (by simpa using hown)

namespace QueueInv

variable {g g' : Tickets} {s s' : TicketQueue} {L L' : List (Entry Operation (Option ℤ))}
  {q q' : GiantQueue} {p : ℕ} {c : Call} {pt : Point}

/-- Thread `p` takes one ticket. -/
theorem extend (h : QueueInv g s L q) (hp : s.thread p = some c)
    (hpoint : c.point = .take_ticket) (hg : ExtendsTickets g g' s s' c.id)
    (hgo : s'.thread = (s.go p c pt).thread) (hqueue : s'.queue = s.queue)
    (hhistory : s'.history = s.history) (hcalls : s'.calls = s.calls)
    (hrear : s.rear ≤ s'.rear) (hfront : s.front ≤ s'.front)
    (hone : s'.rear + s'.front = s.rear + s.front + 1) (hL : ∀ e ∈ L, e ∈ L')
    (hledger : Lab13.Ledger g' s'.history L' q' (min s'.rear (s'.front + QUEUE_SIZE))
      (min s'.front s'.rear))
    (henq : ∀ t < s'.rear, .call (g'.enq_id t) (.enqueue (g'.enq_key t)) ∈ s'.history)
    (hdeq : ∀ t < s'.front, .call (g'.deq_id t) .dequeue ∈ s'.history)
    (hok : CallOk g' s' L' { c with point := pt }) :
    QueueInv g' s' L' q' := by
  obtain ⟨hunused, hunused'⟩ := (h.thread p c hp).unused hpoint
  have hslot : ∀ t, s'.slot t = s.slot t := by
    intro t
    rw [slot, slot, hqueue]
  refine ⟨hledger, ?_, henq, hdeq, ?_, ?_, ?_, ?_, ?_, ?_, ?_, ?_⟩
  · rw [hhistory, hcalls]
    exact h.ids
  · exact inj_of_new (by omega) (fun t ht => hg.enq_id ht) hg.enq_new h.enq_inj hunused
  · exact inj_of_new (by omega) hg.deq hg.deq_new h.deq_inj hunused'
  · intro t ht t' ht' heq
    by_cases hlt : t < s.rear
    · rw [hg.enq_id hlt] at heq
      by_cases hlt' : t' < s.front
      · rw [hg.deq t' hlt'] at heq
        exact h.disjoint t hlt t' hlt' heq
      · rw [hg.deq_new t' (by omega) ht'] at heq
        exact hunused t hlt heq
    · rw [hg.enq_new t (by omega) ht, hg.deq t' (by omega)] at heq
      exact hunused' t' (by omega) heq.symm
  · rw [hgo]
    exact h.thread_ids_go hp
  · intro p' c' hp'
    rw [hgo] at hp'
    rcases update_some hp' with ⟨rfl, rfl⟩ | ⟨hne, hp'⟩
    · exact hok
    · apply (h.thread p' c' hp').extend hg hqueue hhistory hrear hfront hL _ h.filled
      exact fun hid => hne (h.thread_ids p' c' p c hp' hp hid)
  · intro t ht
    rw [hslot] at ht
    exact lt_of_lt_of_le (h.filled t ht) hrear
  · intro t ht
    rw [hslot] at ht
    exact lt_of_lt_of_le (h.emptied t ht) hfront
  · intro t ht
    rw [hslot] at ht ⊢
    rw [hg.enq_key (h.filled t (Int.le_of_eq ht.symm)), hgo]
    refine h.key_of_move (fun _ => thread_go_of_ne) ?_ ht
    intro c' hp' _ htick _
    obtain rfl : c = c' := by simpa [hp] using hp'
    rw [hpoint] at htick
    cases htick

/-- The new enqueue takes effect if there is room, and then the dequeue that
    waits for it. -/
theorem enqueue_ledger (h : QueueInv g s L q) (hrear : s.rear < 2 ^ 31)
    (hsame : Lab13.Ledger g' s.history L q (min s.rear (s.front + QUEUE_SIZE)) (min s.front s.rear))
    (hdeq : g'.deq_id = g.deq_id)
    (hcall : .call (g'.enq_id s.rear) (.enqueue (g'.enq_key s.rear)) ∈ s.history)
    (henq_new : ∀ t < s.rear, g'.enq_id t ≠ g'.enq_id s.rear)
    (hdisjoint : ∀ t < s.rear + 1, ∀ t' < s.front, g'.enq_id t ≠ g'.deq_id t') :
    ∃ L' q', (∀ e ∈ L, e ∈ L') ∧ Lab13.Ledger g' s.history L' q'
      (min (s.rear + 1) (s.front + QUEUE_SIZE)) (min s.front (s.rear + 1)) := by
  have hfresh : g'.enq_id s.rear ∉ L.map Entry.id :=
    hsame.fresh (fun t ht => henq_new t (by omega))
      (fun t ht heq => hdisjoint s.rear (by omega) t (by omega) heq.symm)
  by_cases hroom : s.rear < s.front + QUEUE_SIZE
  · rw [Nat.min_eq_left (by omega : s.rear ≤ s.front + QUEUE_SIZE)] at hsame
    rw [Nat.min_eq_left (by omega : s.rear + 1 ≤ s.front + QUEUE_SIZE)]
    have hroom' : s.rear < min s.front s.rear + QUEUE_SIZE := by
      unfold QUEUE_SIZE at *
      omega
    obtain ⟨q₁, h₁⟩ := hsame.enqueue hroom' (by omega) (by omega) hcall hfresh
    by_cases hwait : s.rear < s.front
    · -- The dequeue with this ticket is there already, and has waited for a key.
      rw [Nat.min_eq_right (by omega : s.rear ≤ s.front)] at h₁
      rw [Nat.min_eq_right (by omega : s.rear + 1 ≤ s.front)]
      have hfresh₁ := h₁.fresh (fun t ht => hdisjoint t ht s.rear hwait) (by
        intro t ht heq
        rw [hdeq] at heq
        have := h.deq_inj t (by omega) s.rear hwait heq
        omega)
      obtain ⟨q₂, h₂⟩ := h₁.dequeue (by omega) (by omega)
        (by rw [hdeq]; exact h.deq_called _ hwait) hfresh₁
      exact ⟨_, q₂, fun e he => List.mem_append_left _ (List.mem_append_left _ he), h₂⟩
    · rw [Nat.min_eq_left (by omega : s.front ≤ s.rear)] at h₁
      rw [Nat.min_eq_left (by omega : s.front ≤ s.rear + 1)]
      exact ⟨_, q₁, fun e he => List.mem_append_left _ he, h₁⟩
  · -- The queue is full.
    rw [Nat.min_eq_right (by omega : s.front + QUEUE_SIZE ≤ s.rear),
      Nat.min_eq_left (by omega : s.front ≤ s.rear)] at hsame
    rw [Nat.min_eq_right (by omega : s.front + QUEUE_SIZE ≤ s.rear + 1),
      Nat.min_eq_left (by omega : s.front ≤ s.rear + 1)]
    exact ⟨L, q, fun e he => he, hsame⟩

/-- The new dequeue takes effect if there is a key, and then the enqueue that
    waits for the slot. -/
theorem dequeue_ledger (h : QueueInv g s L q) (hrear : s.rear < 2 ^ 31)
    (hsame : Lab13.Ledger g' s.history L q (min s.rear (s.front + QUEUE_SIZE)) (min s.front s.rear))
    (henq : g'.enq_id = g.enq_id) (hkey : g'.enq_key = g.enq_key)
    (hcall : .call (g'.deq_id s.front) .dequeue ∈ s.history)
    (hdeq_new : ∀ t < s.front, g'.deq_id t ≠ g'.deq_id s.front)
    (hdisjoint : ∀ t < s.rear, ∀ t' < s.front + 1, g'.enq_id t ≠ g'.deq_id t') :
    ∃ L' q', (∀ e ∈ L, e ∈ L') ∧ Lab13.Ledger g' s.history L' q'
      (min s.rear (s.front + 1 + QUEUE_SIZE)) (min (s.front + 1) s.rear) := by
  have hfresh : g'.deq_id s.front ∉ L.map Entry.id :=
    hsame.fresh (fun t ht => hdisjoint t (by omega) s.front (by omega))
      (fun t ht => hdeq_new t (by omega))
  by_cases hfull : s.front < s.rear
  · rw [Nat.min_eq_left (by omega : s.front ≤ s.rear)] at hsame
    rw [Nat.min_eq_left (by omega : s.front + 1 ≤ s.rear)]
    have hkeys : s.front < min s.rear (s.front + QUEUE_SIZE) := by
      unfold QUEUE_SIZE at *
      omega
    obtain ⟨q₁, h₁⟩ := hsame.dequeue hkeys (by omega) hcall hfresh
    by_cases hwait : s.front + QUEUE_SIZE < s.rear
    · -- The enqueue for the next round is there already, and has waited for the slot.
      rw [Nat.min_eq_right (by omega : s.front + QUEUE_SIZE ≤ s.rear)] at h₁
      rw [Nat.min_eq_right (by omega : s.front + 1 + QUEUE_SIZE ≤ s.rear)]
      have hfresh₁ := h₁.fresh
        (by
          intro t ht heq
          rw [henq] at heq
          have := h.enq_inj t (by omega) (s.front + QUEUE_SIZE) hwait heq
          omega)
        (fun t ht heq => hdisjoint _ hwait t ht heq.symm)
      obtain ⟨q₂, h₂⟩ := h₁.enqueue (by omega) (by unfold QUEUE_SIZE; omega) (by omega)
        (by rw [henq, hkey]; exact h.enq_called _ hwait) hfresh₁
      rw [show s.front + 1 + QUEUE_SIZE = s.front + QUEUE_SIZE + 1 by omega]
      exact ⟨_, q₂, fun e he => List.mem_append_left _ (List.mem_append_left _ he), h₂⟩
    · rw [Nat.min_eq_left (by omega : s.rear ≤ s.front + QUEUE_SIZE)] at h₁
      rw [Nat.min_eq_left (by omega : s.rear ≤ s.front + 1 + QUEUE_SIZE)]
      exact ⟨_, q₁, fun e he => List.mem_append_left _ he, h₁⟩
  · -- The queue is empty.
    rw [Nat.min_eq_left (by omega : s.rear ≤ s.front + QUEUE_SIZE),
      Nat.min_eq_right (by omega : s.rear ≤ s.front)] at hsame
    rw [Nat.min_eq_left (by omega : s.rear ≤ s.front + 1 + QUEUE_SIZE),
      Nat.min_eq_right (by omega : s.rear ≤ s.front + 1)]
    exact ⟨L, q, fun e he => he, hsame⟩

theorem take_enqueue (h : QueueInv g s L q) (hp : s.thread p = some c)
    (hpoint : c.point = .take_ticket) {key : ℤ} (hop : c.op = .enqueue key)
    (hrear : s.rear < 2 ^ 31) : ∃ g' L' q', QueueInv g' (s.take_ticket p c) L' q' := by
  have hok := h.thread p c hp
  obtain ⟨hunused, hunused'⟩ := hok.unused hpoint
  have hcalled := hop ▸ hok.called
  have htake : s.take_ticket p c =
      ⟨s.queue, s.front, s.rear + 1, (s.go p c (.load_parity s.rear)).thread, s.calls,
        s.history⟩ := by
    have hmod : (s.rear + 1) % 2 ^ 64 = s.rear + 1 := Nat.mod_eq_of_lt (by omega)
    simp only [take_ticket, hop, hmod, to_int_of_nonneg (x := s.rear) (by omega) (by omega)]
    rfl
  rw [htake]
  let g' : Tickets := ⟨Function.update g.enq_id s.rear c.id, Function.update g.enq_key s.rear key,
    g.deq_id⟩
  have hid : g'.enq_id s.rear = c.id := Function.update_self _ _ _
  have hkey : g'.enq_key s.rear = key := Function.update_self _ _ _
  have hg : ExtendsTickets g g' s
      ⟨s.queue, s.front, s.rear + 1, (s.go p c (.load_parity s.rear)).thread, s.calls, s.history⟩
      c.id := by
    refine ⟨?_, fun _ _ => rfl, ?_, fun t ht ht' => absurd ht' (Nat.not_lt.mpr ht)⟩
    · intro t ht
      simp only [Tickets.enqueue, g', Function.update_of_ne (Nat.ne_of_lt ht)]
    · intro t ht ht'
      obtain rfl : t = s.rear := Nat.le_antisymm (Nat.le_of_lt_succ ht') ht
      exact hid
  have hdisjoint : ∀ t < s.rear + 1, ∀ t' < s.front, g'.enq_id t ≠ g'.deq_id t' := by
    intro t ht t' ht'
    by_cases hlt : t < s.rear
    · rw [hg.enq_id hlt]
      exact h.disjoint t hlt t' ht'
    · rw [hg.enq_new t (by omega) ht]
      exact (hunused' t' ht').symm
  have hsame : Lab13.Ledger g' s.history L q (min s.rear (s.front + QUEUE_SIZE))
      (min s.front s.rear) :=
    h.ledger.congr (by omega) (fun t ht => hg.enq t (by omega)) (fun _ _ => rfl)
  obtain ⟨L', q', hL, hledger⟩ := h.enqueue_ledger hrear hsame rfl
    (by rw [hid, hkey]; exact hcalled)
    (fun t ht => by
      rw [hg.enq_id ht, hid]
      exact hunused t ht)
    hdisjoint
  refine ⟨g', L', q', h.extend hp hpoint hg rfl rfl rfl rfl (Nat.le_succ _) (Nat.le_refl _)
    (by simp only; omega) hL hledger ?_ h.deq_called ?_⟩
  · intro t ht
    by_cases hlt : t < s.rear
    · rw [hg.enq_id hlt, hg.enq_key hlt]
      exact h.enq_called t hlt
    · obtain rfl : t = s.rear := Nat.le_antisymm (Nat.le_of_lt_succ ht) (Nat.not_lt.mp hlt)
      rw [hid, hkey]
      exact hcalled
  · refine ⟨hok.called, by simp, ?_, ?_, by simp [Point.owns], ?_, by simp⟩
    · intro x hx
      obtain rfl : (s.rear : ℤ) = x := Option.some.inj hx
      refine ⟨s.rear, rfl, ?_⟩
      simp only [Tickets.took, hop]
      exact ⟨Nat.lt_succ_self _, hid, hkey⟩
    · intro t ht
      obtain rfl := ticket_inj ht
      -- A flag beyond the turn means that the ticket was taken before.
      by_contra hgt
      change ¬ (s.slot s.rear).flag ≤ turn c.op s.rear at hgt
      have hlt : s.rear < s.rear := h.filled s.rear (by
        simp only [hop, turn] at hgt ⊢
        omega)
      omega
    · exact fun t ht => access_ok_of_spinning rfl

theorem take_dequeue (h : QueueInv g s L q) (hp : s.thread p = some c)
    (hpoint : c.point = .take_ticket) (hop : c.op = .dequeue) (hrear : s.rear < 2 ^ 31)
    (hfront : s.front < 2 ^ 31) : ∃ g' L' q', QueueInv g' (s.take_ticket p c) L' q' := by
  have hok := h.thread p c hp
  obtain ⟨hunused, hunused'⟩ := hok.unused hpoint
  have hcalled := hop ▸ hok.called
  have htake : s.take_ticket p c =
      ⟨s.queue, s.front + 1, s.rear, (s.go p c (.load_parity s.front)).thread, s.calls,
        s.history⟩ := by
    have hmod : (s.front + 1) % 2 ^ 64 = s.front + 1 := Nat.mod_eq_of_lt (by omega)
    simp only [take_ticket, hop, hmod, to_int_of_nonneg (x := s.front) (by omega) (by omega)]
    rfl
  rw [htake]
  let g' : Tickets := ⟨g.enq_id, g.enq_key, Function.update g.deq_id s.front c.id⟩
  have hid : g'.deq_id s.front = c.id := Function.update_self _ _ _
  have hg : ExtendsTickets g g' s
      ⟨s.queue, s.front + 1, s.rear, (s.go p c (.load_parity s.front)).thread, s.calls, s.history⟩
      c.id := by
    refine ⟨fun _ _ => rfl, ?_, fun t ht ht' => absurd ht' (Nat.not_lt.mpr ht), ?_⟩
    · intro t ht
      exact Function.update_of_ne (Nat.ne_of_lt ht) _ _
    · intro t ht ht'
      obtain rfl : t = s.front := Nat.le_antisymm (Nat.le_of_lt_succ ht') ht
      exact hid
  have hdisjoint : ∀ t < s.rear, ∀ t' < s.front + 1, g'.enq_id t ≠ g'.deq_id t' := by
    intro t ht t' ht'
    by_cases hlt : t' < s.front
    · rw [hg.deq t' hlt]
      exact h.disjoint t ht t' hlt
    · rw [hg.deq_new t' (by omega) ht']
      exact hunused t ht
  have hsame : Lab13.Ledger g' s.history L q (min s.rear (s.front + QUEUE_SIZE))
      (min s.front s.rear) :=
    h.ledger.congr (by omega) (fun _ _ => rfl) (fun t ht => hg.deq t (by omega))
  obtain ⟨L', q', hL, hledger⟩ := h.dequeue_ledger hrear hsame rfl rfl
    (by rw [hid]; exact hcalled)
    (fun t ht => by
      rw [hg.deq t ht, hid]
      exact hunused' t ht)
    hdisjoint
  refine ⟨g', L', q', h.extend hp hpoint hg rfl rfl rfl rfl (Nat.le_refl _) (Nat.le_succ _)
    (by simp only; omega) hL hledger h.enq_called ?_ ?_⟩
  · intro t ht
    by_cases hlt : t < s.front
    · rw [hg.deq t hlt]
      exact h.deq_called t hlt
    · obtain rfl : t = s.front := Nat.le_antisymm (Nat.le_of_lt_succ ht) (Nat.not_lt.mp hlt)
      rw [hid]
      exact hcalled
  · refine ⟨hok.called, by simp, ?_, ?_, by simp [Point.owns], ?_, by simp⟩
    · intro x hx
      obtain rfl : (s.front : ℤ) = x := Option.some.inj hx
      refine ⟨s.front, rfl, ?_⟩
      simp only [Tickets.took, hop]
      exact ⟨Nat.lt_succ_self _, hid⟩
    · intro t ht
      obtain rfl := ticket_inj ht
      by_contra hgt
      change ¬ (s.slot s.front).flag ≤ turn c.op s.front at hgt
      have hlt : s.front < s.front := h.emptied s.front (by
        simp only [hop] at hgt
        omega)
      omega
    · exact fun t ht => access_ok_of_spinning rfl

end QueueInv

/-! ## Section 6: Whole runs -/

/-- Different elements of a list are counted one by one. -/
theorem le_countP {α : Type} {P : α → Bool} {l : List α} {f : ℕ → α} {n : ℕ}
    (hinj : ∀ t < n, ∀ t' < n, f t = f t' → t = t') (hmem : ∀ t < n, f t ∈ l)
    (hP : ∀ t < n, P (f t)) : n ≤ l.countP P := by
  have hnodup : ((List.range n).map f).Nodup := by
    apply List.Nodup.map_on _ List.nodup_range
    intro t ht t' ht' heq
    exact hinj t (List.mem_range.mp ht) t' (List.mem_range.mp ht') heq
  have hsub : (List.range n).map f ⊆ l := by
    intro e he
    obtain ⟨t, ht, rfl⟩ := List.mem_map.mp he
    exact hmem t (List.mem_range.mp ht)
  have hcount : ((List.range n).map f).countP P = n := by
    rw [List.countP_eq_length.mpr, List.length_map, List.length_range]
    intro e he
    obtain ⟨t, ht, rfl⟩ := List.mem_map.mp he
    exact hP t (List.mem_range.mp ht)
  rw [← hcount]
  exact (List.subperm_of_subset hnodup hsub).countP_le P

/-- A step of a call extends the history, if at all. -/
theorem history_run {s : TicketQueue} {p : ℕ} {c : Call} :
    s.history <+: (s.run p c).history := by
  unfold TicketQueue.run
  split
  · unfold take_ticket
    split <;> exact List.prefix_rfl
  · split <;> exact List.prefix_rfl
  · split <;> exact List.prefix_rfl
  · split <;> exact List.prefix_rfl
  · exact List.prefix_rfl
  · exact List.prefix_rfl
  · exact List.prefix_rfl
  · exact List.prefix_append _ _

theorem history_step {s s' : TicketQueue} {l : ℕ × ThreadStep} (h : ticket_threads.step s l s') :
    s.history <+: s'.history := by
  obtain ⟨p, l⟩ := l
  cases l with
  | call op =>
    obtain ⟨-, rfl⟩ := h
    exact List.prefix_append _ _
  | run =>
    obtain ⟨c, -, rfl⟩ := h
    exact history_run

theorem enqueues_step {s s' : TicketQueue} {l : ℕ × ThreadStep}
    (h : ticket_threads.step s l s') : s.enqueues ≤ s'.enqueues :=
  (history_step h).sublist.countP_le

theorem dequeues_step {s s' : TicketQueue} {l : ℕ × ThreadStep}
    (h : ticket_threads.step s l s') : s.dequeues ≤ s'.dequeues :=
  (history_step h).sublist.countP_le

namespace QueueInv

variable {g : Tickets} {s : TicketQueue} {L : List (Entry Operation (Option ℤ))}
  {q : GiantQueue} {p : ℕ} {c : Call}

theorem of_init : QueueInv ⟨fun _ => 0, fun _ => 0, fun _ => 0⟩
    ⟨fun _ => ⟨0, 0⟩, 0, 0, fun _ => none, 0, []⟩ [] .init_queue where
  ledger := .start
  ids := by simp
  enq_called := by simp
  deq_called := by simp
  enq_inj := by simp
  deq_inj := by simp
  disjoint := by simp
  thread_ids := by simp
  thread := by simp
  filled := by
    intro t ht
    simp only [turn, slot] at ht
    generalize t / QUEUE_SIZE = r at ht
    omega
  emptied := by
    intro t ht
    simp only [turn, slot] at ht
    generalize t / QUEUE_SIZE = r at ht
    omega
  key := by
    intro t ht
    simp only [turn, slot] at ht
    generalize t / QUEUE_SIZE = r at ht
    omega

theorem start (h : QueueInv g s L q) (hp : s.thread p = none) (op : Operation) :
    QueueInv g (s.start p op) L q := by
  have hhistory : ∀ e ∈ s.history, e ∈ (s.start p op).history := fun e he =>
    List.mem_append_left _ he
  have hfresh : ∀ p' c', s.thread p' = some c' → c'.id ≠ s.calls := fun p' c' hp' =>
    Nat.ne_of_lt (h.ids _ _ (h.thread p' c' hp').called)
  refine ⟨h.ledger.call fun o ho => ?_, ?_, fun t ht => hhistory _ (h.enq_called t ht),
    fun t ht => hhistory _ (h.deq_called t ht), h.enq_inj, h.deq_inj, h.disjoint, ?_, ?_,
    h.filled, h.emptied, ?_⟩
  · exact absurd (h.ids _ _ ho) (Nat.lt_irrefl _)
  · intro id o hcall
    rcases List.mem_append.mp hcall with hcall | hcall
    · exact Nat.lt_succ_of_lt (h.ids id o hcall)
    · obtain ⟨rfl, -⟩ : id = s.calls ∧ o = op := by simpa using hcall
      exact Nat.lt_succ_self _
  · apply ids_of_distinct
    refine h.distinct.update fun id hid => .inr fun p' c' hp' hid' => ?_
    exact hfresh p' c' hp' (Option.some.inj (hid'.trans hid.symm))
  · intro p' c' hp'
    rcases update_some hp' with ⟨rfl, rfl⟩ | ⟨-, hp''⟩
    · refine ⟨by simp [TicketQueue.start], ?_, by simp [Point.ticket], by simp [Point.ticket],
        by simp [Point.ticket], by simp [Point.ticket], by simp⟩
      intro _
      exact ⟨fun t ht => Nat.ne_of_lt (h.ids _ _ (h.enq_called t ht)),
        fun t ht => Nat.ne_of_lt (h.ids _ _ (h.deq_called t ht))⟩
    · exact (h.thread p' c' hp'').of_history rfl rfl rfl hhistory
  · intro t
    refine h.key_of_move (fun _ hne => Function.update_of_ne hne _ _) ?_
    intro c' hp'
    rw [hp] at hp'
    cases hp'

theorem return_call (h : QueueInv g s L q) (hp : s.thread p = some c) {r : Option ℤ}
    (hpoint : c.point = .finished r) : QueueInv g (s.return_call p c r) L q := by
  have hhistory : ∀ e ∈ s.history, e ∈ (s.return_call p c r).history := fun e he =>
    List.mem_append_left _ he
  refine ⟨h.ledger.ret ((h.thread p c hp).finished r hpoint), ?_,
    fun t ht => hhistory _ (h.enq_called t ht), fun t ht => hhistory _ (h.deq_called t ht),
    h.enq_inj, h.deq_inj, h.disjoint, ?_, ?_, h.filled, h.emptied, ?_⟩
  · intro id o hcall
    rcases List.mem_append.mp hcall with hcall | hcall
    · exact h.ids id o hcall
    · simp at hcall
  · exact ids_of_distinct h.distinct.finish
  · intro p' c' hp'
    exact (h.thread p' c' (update_none hp').2).of_history rfl rfl rfl hhistory
  · intro t
    refine h.key_of_move (fun _ hne => Function.update_of_ne hne _ _) ?_
    intro c' hp' _ htick _
    obtain rfl : c = c' := by simpa [hp] using hp'
    rw [hpoint] at htick
    cases htick

/-- A step of a call, by where the call is. -/
theorem run (h : QueueInv g s L q) (hp : s.thread p = some c) (hrear : s.rear < 2 ^ 31)
    (hfront : s.front < 2 ^ 31) : ∃ g' L' q', QueueInv g' (s.run p c) L' q' := by
  have hok := h.thread p c hp
  unfold TicketQueue.run
  cases hpoint : c.point with
  | take_ticket =>
    cases hop : c.op with
    | enqueue key => exact h.take_enqueue hp hpoint hop hrear
    | dequeue => exact h.take_dequeue hp hpoint hop hrear hfront
  | load_parity x =>
    obtain ⟨t, rfl, -⟩ := hok.ticket x (by rw [hpoint]; rfl)
    have ht : c.point.ticket = some (t : ℤ) := by rw [hpoint]; rfl
    have hclear : c.point.cleared → False := by simp [hpoint, Point.cleared]
    simp only
    split
    · exact ⟨g, L, q, h.go_on hp ht rfl (by simp [Point.owns]) (access_ok_of_spinning rfl)
        (fun hc => absurd hc hclear)⟩
    · exact ⟨g, L, q, h.go_on hp ht rfl (by simp [Point.owns]) (access_ok_of_spinning rfl)
        (fun hc => absurd hc hclear)⟩
  | load_round x =>
    obtain ⟨t, rfl, -⟩ := hok.ticket x (by rw [hpoint]; rfl)
    have ht : c.point.ticket = some (t : ℤ) := by rw [hpoint]; rfl
    have hclear : c.point.cleared → False := by simp [hpoint, Point.cleared]
    have hlt := (h.ticket_lt hp hrear hfront ht).2
    simp only
    split
    · exact ⟨g, L, q, h.go_on hp ht rfl (by simp [Point.owns]) (access_ok_of_spinning rfl)
        (fun hc => absurd hc hclear)⟩
    · next hround =>
      -- The wait is over: the flag has the value of the ticket's turn.
      refine ⟨g, L, q, h.go_on hp ht rfl (fun _ => ?_) ?_ (fun hc => absurd hc hclear)⟩
      · rw [← wanted_eq_turn hlt]
        exact not_not.mp hround
      · cases c.op <;> trivial
  | access_key x =>
    obtain ⟨t, rfl, -⟩ := hok.ticket x (by rw [hpoint]; rfl)
    have ht : c.point.ticket = some (t : ℤ) := by rw [hpoint]; rfl
    have hown : c.point.owns := by rw [hpoint]; rfl
    have hturn := hok.owner t ht hown
    simp only
    cases hop : c.op with
    | enqueue key =>
      refine ⟨g, L, q, h.store_key hp ht hown rfl ?_ (by simp [hop])⟩
      rw [hop]
      exact ⟨rfl, rfl⟩
    | dequeue =>
      refine ⟨g, L, q, h.go_on hp ht rfl (fun _ => hturn) ?_ (by simp [hpoint, Point.cleared])⟩
      rw [hop]
      rw [hop] at hturn
      rcases h.key t hturn with hkey | ⟨p', c', hp', hop', ht', hcleared⟩
      · exact hkey
      · -- Only the call itself can clear the key, and it has not done so.
        obtain rfl := h.owner_unique hp hp' ht ht' rfl (hop ▸ hturn) (hop' ▸ hturn)
        obtain rfl : c = c' := by simpa [hp] using hp'
        simp [hpoint, Point.cleared] at hcleared
  | clear_key x ret_key =>
    obtain ⟨t, rfl, -⟩ := hok.ticket x (by rw [hpoint]; rfl)
    have ht : c.point.ticket = some (t : ℤ) := by rw [hpoint]; rfl
    have haccess := hok.access t ht
    rw [hpoint] at haccess
    refine ⟨g, L, q, h.store_key hp ht (by rw [hpoint]; rfl) rfl ?_ (fun _ => rfl)⟩
    cases hop : c.op <;> rw [hop] at haccess
    · exact absurd haccess id
    · exact congrArg some haccess
  | load_flag x r =>
    obtain ⟨t, rfl, -⟩ := hok.ticket x (by rw [hpoint]; rfl)
    have ht : c.point.ticket = some (t : ℤ) := by rw [hpoint]; rfl
    have haccess := hok.access t ht
    rw [hpoint] at haccess
    refine ⟨g, L, q, h.go_on hp ht rfl (fun _ => hok.owner t ht (by rw [hpoint]; rfl)) ?_
      (fun _ => rfl)⟩
    cases hop : c.op <;> rw [hop] at haccess
    · exact ⟨haccess.1, haccess.2, rfl⟩
    · exact ⟨haccess, rfl⟩
  | store_flag x r flag =>
    obtain ⟨t, rfl, -⟩ := hok.ticket x (by rw [hpoint]; rfl)
    exact ⟨g, L, q, h.store_flag hp hrear hfront hpoint⟩
  | finished r => exact ⟨g, L, q, h.return_call hp hpoint⟩

/-- The tickets belong to different calls. -/
theorem rear_le_enqueues (h : QueueInv g s L q) : s.rear ≤ s.enqueues := by
  apply le_countP (f := fun t => .call (g.enq_id t) (.enqueue (g.enq_key t))) _ h.enq_called
    (fun _ _ => rfl)
  intro t ht t' ht' heq
  obtain ⟨hid, -⟩ := Event.call.inj heq
  exact h.enq_inj t ht t' ht' hid

theorem front_le_dequeues (h : QueueInv g s L q) : s.front ≤ s.dequeues := by
  apply le_countP (f := fun t => .call (g.deq_id t) .dequeue) _ h.deq_called (fun _ _ => rfl)
  intro t ht t' ht' heq
  obtain ⟨hid, -⟩ := Event.call.inj heq
  exact h.deq_inj t ht t' ht' hid

end QueueInv

/-- The invariant holds as long as the tickets are in the range of `int`. -/
theorem queue_inv_reachable {s : TicketQueue} (h : Reachable ticket_threads s) :
    s.enqueues < 2 ^ 31 → s.dequeues < 2 ^ 31 → ∃ g L q, QueueInv g s L q := by
  apply h.invariant
  · intro s hinit _ _
    cases hinit
    exact ⟨_, _, _, QueueInv.of_init⟩
  · intro s l s' _ ih hstep henq hdeq
    have henq' := Nat.lt_of_le_of_lt (enqueues_step hstep) henq
    have hdeq' := Nat.lt_of_le_of_lt (dequeues_step hstep) hdeq
    obtain ⟨g, L, q, hinv⟩ := ih henq' hdeq'
    obtain ⟨p, l⟩ := l
    cases l with
    | call op =>
      obtain ⟨hp, rfl⟩ := hstep
      exact ⟨g, L, q, hinv.start hp op⟩
    | run =>
      obtain ⟨c, hp, rfl⟩ := hstep
      have hrear := hinv.rear_le_enqueues
      have hfront := hinv.front_le_dequeues
      exact hinv.run hp (Nat.lt_of_le_of_lt hrear henq') (Nat.lt_of_le_of_lt hfront hdeq')

/-- **The ticket queue refines the queue with the giant lock.**  As long as fewer
    than `2 ^ 31` enqueues and fewer than `2 ^ 31` dequeues were started, there is
    a run of critical sections of the latter with all completed operations, some
    of those in progress, the same results and the real-time order. -/
theorem ticket_queue_linearizable {s : TicketQueue} (h : Reachable ticket_threads s)
    (henq : s.enqueues < 2 ^ 31) (hdeq : s.dequeues < 2 ^ 31) :
    ∃ L, Linearizes giant s.history L := by
  obtain ⟨g, L, q, hinv⟩ := queue_inv_reachable h henq hdeq
  exact ⟨L, hinv.ledger.tracked.linearizes⟩

/-- The steps of `ticket_threads` as a function. -/
def TicketQueue.next (s : TicketQueue) (l : ℕ × ThreadStep) : Option TicketQueue :=
  match l.2, s.thread l.1 with
  | .call op, none => some (s.start l.1 op)
  | .run, some c => some (s.run l.1 c)
  | _, _ => none

theorem step_of_next {s : TicketQueue} {l : ℕ × ThreadStep} {s' : TicketQueue}
    (h : s.next l = some s') : ticket_threads.step s l s' := by
  obtain ⟨p, l⟩ := l
  unfold TicketQueue.next at h
  cases l with
  | call op =>
    cases hp : s.thread p with
    | none =>
      simp only [hp, Option.some.injEq] at h
      exact ⟨hp, h.symm⟩
    | some c => simp [hp] at h
  | run =>
    cases hp : s.thread p with
    | none => simp [hp] at h
    | some c =>
      simp only [hp, Option.some.injEq] at h
      exact ⟨c, hp, h.symm⟩

/-- Thread 1 takes a ticket for a dequeue and finds the slot empty, thread 0
    enqueues 7, and then thread 1 goes on. -/
def early_dequeue : List (ℕ × ThreadStep) :=
  (1, .call .dequeue) :: (1, .run) :: (1, .run) :: (0, .call (.enqueue 7)) ::
    (List.replicate 7 (0, .run) ++ List.replicate 7 (1, .run))

def early_dequeue_end : TicketQueue :=
  (exec TicketQueue.next ⟨fun _ => ⟨0, 0⟩, 0, 0, fun _ => none, 0, []⟩ early_dequeue).getD
    ⟨fun _ => ⟨0, 0⟩, 0, 0, fun _ => none, 0, []⟩

/-- The dequeue was called first and returns the key that was enqueued later. -/
theorem ticket_queue_early_dequeue :
    .ret 0 (some 7) ∈ early_dequeue_end.history ∧
      ∃ L, Linearizes giant early_dequeue_end.history L := by
  have hrun : exec TicketQueue.next ⟨fun _ => ⟨0, 0⟩, 0, 0, fun _ => none, 0, []⟩ early_dequeue =
      some early_dequeue_end := rfl
  have hreach := (Reachable.init rfl : Reachable ticket_threads _).exec
    (fun _ _ _ => step_of_next) hrun
  exact ⟨by decide +kernel,
    ticket_queue_linearizable hreach (by decide +kernel) (by decide +kernel)⟩

end Lab13
