import ConcurrentProgramming.Lab13.QueueLaws
import ConcurrentProgramming.Lab13.SlotOwnership
import Mathlib.Data.Nat.Find

/-! # The Ticket Queue Does Not Get Stuck

    A ticket whose turn is not over is held by some call (`held_reachable`).  A
    call whose turn has come gets to its end by its own steps (`can_return_of_turn`).
    Look at the smallest ticket for an enqueue and the smallest ticket for a
    dequeue whose turns are not over.  The first of them waits for a dequeue one
    round earlier, the second one for an enqueue with its own number.  So they
    cannot wait for each other: one of them has its turn, or the ticket it waits
    for has not been taken.
-/

namespace Lab13

open LTS CInt Linearizability Threads Relation TicketQueue

/-! ## Section 1: A step of a call -/

/-- How many steps a call has left, if it does not have to wait. -/
def Point.left : Point → ℕ
  | .take_ticket => 8
  | .load_parity _ => 7
  | .load_round _ => 6
  | .access_key _ => 5
  | .clear_key _ _ => 4
  | .load_flag _ _ => 3
  | .store_flag _ _ _ => 2
  | .finished _ => 1

/-- Thread `p` has made a step with the ticket `t`. -/
structure TicketStep (s s' : TicketQueue) (p : ℕ) (c : Call) (t : ℕ) (pt : Point) : Prop where
  thread  : s'.thread = Function.update s.thread p (some { c with point := pt })
  counter : s'.counter = s.counter
  grows   : ∀ u : ℕ, (s.slot u).flag ≤ (s'.slot u).flag
  /-- The call keeps its ticket until it has passed its slot on. -/
  ticket  : pt.ticket = some (t : ℤ) ∧ (s'.slot t).flag = (s.slot t).flag ∨
    (∃ r, pt = .finished r) ∧ turn c.op t < (s'.slot t).flag
  /-- The call comes closer to its end if its turn has come. -/
  closer  : (s.slot t).flag = turn c.op t → pt.left < c.point.left

namespace TicketStep

variable {s : TicketQueue} {p t : ℕ} {c : Call} {pt : Point}

/-- A step that changes no slot. -/
theorem go (hpt : pt.ticket = some (t : ℤ))
    (hcloser : (s.slot t).flag = turn c.op t → pt.left < c.point.left) :
    TicketStep s (s.go p c pt) p c t pt where
  thread := rfl
  counter := by
    funext op
    cases op <;> rfl
  grows := fun _ => Int.le_refl _
  ticket := .inl ⟨hpt, rfl⟩
  closer := hcloser

/-- A step that changes the key of the slot. -/
theorem store_key {k : ℤ} (hpt : pt.ticket = some (t : ℤ)) (hcloser : pt.left < c.point.left) :
    TicketStep s ((s.set_node (idx t) { s.queue (idx t) with key := k }).go p c pt) p c t pt := by
  have hflag : ∀ u : ℕ, (((s.set_node (idx t) { s.queue (idx t) with key := k }).go p c pt).slot
      u).flag = (s.slot u).flag := by
    intro u
    rw [slot_go]
    by_cases hidx : idx u = idx t
    · rw [slot_set_node_of_eq hidx, slot_congr hidx]
      rfl
    · rw [slot_set_node_of_ne hidx]
  refine ⟨rfl, ?_, fun u => Int.le_of_eq (hflag u).symm, .inl ⟨hpt, hflag t⟩, fun _ => hcloser⟩
  funext op
  cases op <;> rfl

end TicketStep

/-- A step of a call with a ticket, by where the call is. -/
theorem run_ticket_step {g : Tickets} {s : TicketQueue} {L : List (Entry Operation (Option ℤ))}
    {q : GiantQueue} {p t : ℕ} {c : Call} (h : QueueInv g s L q) (hp : s.thread p = some c)
    (hrear : s.rear < 2 ^ 31) (hfront : s.front < 2 ^ 31) (ht : c.point.ticket = some (t : ℤ)) :
    ∃ pt, TicketStep s (s.run p c) p c t pt := by
  have hlt := (h.ticket_lt hp hrear hfront ht).2
  unfold TicketQueue.run
  cases hpoint : c.point with
  | take_ticket =>
    rw [hpoint] at ht
    cases ht
  | load_parity x =>
    obtain rfl : x = t := by simpa [hpoint, Point.ticket] using ht
    simp only
    split
    · next hparity =>
      -- The parity is right when the turn has come.
      refine ⟨_, .go rfl fun hturn => ?_⟩
      have hflag : (s.queue (idx t)).flag = turn c.op t := hturn
      rw [hflag] at hparity
      cases hop : c.op <;> simp [hop, turn, wrong_parity] at hparity
    · exact ⟨_, .go rfl fun _ => by simp [hpoint, Point.left]⟩
  | load_round x =>
    obtain rfl : x = t := by simpa [hpoint, Point.ticket] using ht
    simp only
    split
    · next hround =>
      refine ⟨_, .go rfl fun hturn => ?_⟩
      rw [wanted_eq_turn hlt] at hround
      exact absurd hturn hround
    · exact ⟨_, .go rfl fun _ => by simp [hpoint, Point.left]⟩
  | access_key x =>
    obtain rfl : x = t := by simpa [hpoint, Point.ticket] using ht
    simp only
    cases hop : c.op with
    | enqueue key => exact ⟨_, .store_key rfl (by simp [hpoint, Point.left])⟩
    | dequeue => exact ⟨_, .go rfl fun _ => by simp [hpoint, Point.left]⟩
  | clear_key x ret_key =>
    obtain rfl : x = t := by simpa [hpoint, Point.ticket] using ht
    exact ⟨_, .store_key rfl (by simp [hpoint, Point.left])⟩
  | load_flag x r =>
    obtain rfl : x = t := by simpa [hpoint, Point.ticket] using ht
    exact ⟨_, .go rfl fun _ => by simp [hpoint, Point.left]⟩
  | store_flag x r flag =>
    obtain rfl : x = t := by simpa [hpoint, Point.ticket] using ht
    obtain ⟨hturn, hnew⟩ := h.stored_flag hp hrear hfront hpoint
    simp only [hnew]
    have hself : ∀ u : ℕ, idx u = idx t →
        (((s.set_node (idx t) { s.queue (idx t) with flag := turn c.op t + 1 }).go p c
          (.finished r)).slot u).flag = turn c.op t + 1 := by
      intro u hidx
      rw [slot_go, slot_set_node_of_eq hidx]
    refine ⟨_, rfl, ?_, ?_, .inr ⟨⟨r, rfl⟩, ?_⟩, fun _ => by simp [hpoint, Point.left]⟩
    · funext op
      cases op <;> rfl
    · intro u
      by_cases hidx : idx u = idx t
      · rw [hself u hidx, slot_congr hidx, hturn]
        omega
      · exact Int.le_of_eq (by rw [slot_go, slot_set_node_of_ne hidx])
    · rw [hself t rfl]
      omega
  | finished r =>
    rw [hpoint] at ht
    cases ht

/-! ## Section 2: Tickets are held -/

theorem turn_congr {op op' : Operation} (h : op.is_enqueue = op'.is_enqueue) (t : ℕ) :
    turn op t = turn op' t := by
  cases op <;> cases op' <;> first | rfl | cases h

structure Held (s : TicketQueue) : Prop where
  /-- A ticket that was taken and whose turn is not over belongs to a call. -/
  holder : ∀ op t, t < s.counter op → (s.slot t).flag ≤ turn op t →
    ∃ p c, s.thread p = some c ∧ c.op.is_enqueue = op.is_enqueue ∧
      c.point.ticket = some (t : ℤ)
  nonneg : ∀ t : ℕ, 0 ≤ (s.slot t).flag

namespace Held

variable {s s' : TicketQueue} {p : ℕ} {c : Call}

/-- Only a call whose turn is over may lose its ticket. -/
theorem keep (h : Held s) (hcounter : s'.counter = s.counter)
    (hgrows : ∀ t : ℕ, (s.slot t).flag ≤ (s'.slot t).flag)
    (hthread : ∀ p c (t : ℕ), s.thread p = some c → c.point.ticket = some (t : ℤ) →
      (∃ c', s'.thread p = some c' ∧ c'.op = c.op ∧ c'.point.ticket = some (t : ℤ)) ∨
        turn c.op t < (s'.slot t).flag) : Held s' := by
  refine ⟨?_, fun t => Int.le_trans (h.nonneg t) (hgrows t)⟩
  intro op t ht hturn
  rw [hcounter] at ht
  obtain ⟨p, c, hp, hop, htick⟩ := h.holder op t ht (Int.le_trans (hgrows t) hturn)
  rcases hthread p c t hp htick with ⟨c', hp', hop', htick'⟩ | hover
  · exact ⟨p, c', hp', hop' ▸ hop, htick'⟩
  · rw [turn_congr hop] at hover
    omega

theorem start (h : Held s) (hp : s.thread p = none) (op : Operation) : Held (s.start p op) := by
  refine h.keep (by funext op; cases op <;> rfl) (fun _ => Int.le_refl _) ?_
  intro p' c' t hp' ht
  have hne : p' ≠ p := by
    intro heq
    rw [heq, hp] at hp'
    cases hp'
  exact .inl ⟨c', (Function.update_of_ne hne _ _).trans hp', rfl, ht⟩

theorem return_call (h : Held s) (hp : s.thread p = some c) {r : Option ℤ}
    (hpoint : c.point = .finished r) : Held (s.return_call p c r) := by
  refine h.keep (by funext op; cases op <;> rfl) (fun _ => Int.le_refl _) ?_
  intro p' c' t hp' ht
  have hne : p' ≠ p := by
    intro heq
    rw [heq, hp, Option.some.injEq] at hp'
    rw [← hp', hpoint] at ht
    cases ht
  exact .inl ⟨c', (Function.update_of_ne hne _ _).trans hp', rfl, ht⟩

theorem of_ticket_step (h : Held s) (hp : s.thread p = some c) {t : ℕ}
    (ht : c.point.ticket = some (t : ℤ)) {pt : Point} (hstep : TicketStep s s' p c t pt) :
    Held s' := by
  refine h.keep hstep.counter hstep.grows ?_
  intro p' c' u hp' hu
  by_cases heq : p' = p
  · subst heq
    obtain rfl : c = c' := by simpa [hp] using hp'
    obtain rfl := ticket_inj (ht.symm.trans hu)
    rcases hstep.ticket with ⟨hpt, -⟩ | ⟨-, hover⟩
    · exact .inl ⟨{ c with point := pt }, by rw [hstep.thread, Function.update_self], rfl, hpt⟩
    · exact .inr hover
  · exact .inl ⟨c', by rw [hstep.thread, Function.update_of_ne heq, hp'], rfl, hu⟩

/-- The counter after a fetch-and-add. -/
theorem counter_lt_take_ticket {op : Operation} {t : ℕ} (hlt : s.counter c.op < 2 ^ 31)
    (ht : t < (s.take_ticket p c).counter op) :
    t < s.counter op ∨ c.op.is_enqueue = op.is_enqueue ∧ t = s.counter c.op := by
  unfold take_ticket at ht
  cases hop : c.op with
  | enqueue key =>
    rw [hop] at hlt ht
    cases op with
    | enqueue key' =>
      change s.rear < 2 ^ 31 at hlt
      change t < (s.rear + 1) % 2 ^ 64 at ht
      rw [Nat.mod_eq_of_lt (by omega)] at ht
      by_cases heq : t = s.rear
      · exact .inr ⟨rfl, heq⟩
      · exact .inl (show t < s.rear by omega)
    | dequeue => exact .inl ht
  | dequeue =>
    rw [hop] at hlt ht
    cases op with
    | enqueue key' => exact .inl ht
    | dequeue =>
      change s.front < 2 ^ 31 at hlt
      change t < (s.front + 1) % 2 ^ 64 at ht
      rw [Nat.mod_eq_of_lt (by omega)] at ht
      by_cases heq : t = s.front
      · exact .inr ⟨rfl, heq⟩
      · exact .inl (show t < s.front by omega)

theorem take_ticket (h : Held s) (hp : s.thread p = some c) (hpoint : c.point = .take_ticket)
    (hlt : s.counter c.op < 2 ^ 31) : Held (s.take_ticket p c) := by
  have hslot : ∀ t, (s.take_ticket p c).slot t = s.slot t := by
    intro t
    rw [slot, queue_take_ticket, slot]
  refine ⟨?_, fun t => by rw [hslot]; exact h.nonneg t⟩
  intro op t ht hturn
  rw [thread_take_ticket]
  rcases counter_lt_take_ticket hlt ht with hold | ⟨hop, rfl⟩
  · rw [hslot] at hturn
    obtain ⟨p', c', hp', hop', htick⟩ := h.holder op t hold hturn
    have hne : p' ≠ p := by
      intro heq
      rw [heq, hp, Option.some.injEq] at hp'
      rw [← hp', hpoint] at htick
      cases htick
    exact ⟨p', c', (thread_go_of_ne hne).trans hp', hop', htick⟩
  · -- This is the new ticket.
    refine ⟨p, _, thread_go_self, hop, ?_⟩
    rw [to_int_of_nonneg (by omega) (by omega)]
    rfl

theorem run {g : Tickets} {L : List (Entry Operation (Option ℤ))} {q : GiantQueue} (h : Held s)
    (hinv : QueueInv g s L q) (hp : s.thread p = some c) (hrear : s.rear < 2 ^ 31)
    (hfront : s.front < 2 ^ 31) : Held (s.run p c) := by
  cases htick : c.point.ticket with
  | some x =>
    obtain ⟨t, rfl, -⟩ := (hinv.thread p c hp).ticket x htick
    obtain ⟨pt, hstep⟩ := run_ticket_step hinv hp hrear hfront htick
    exact h.of_ticket_step hp htick hstep
  | none =>
    -- Before the ticket is taken, or after the slot was passed on.
    unfold TicketQueue.run
    cases hpoint : c.point with
    | take_ticket =>
      apply h.take_ticket hp hpoint
      cases c.op
      · exact hrear
      · exact hfront
    | finished r => exact h.return_call hp hpoint
    | _ => simp [hpoint, Point.ticket] at htick

end Held

theorem held_reachable {s : TicketQueue} (h : Reachable ticket_threads s) :
    s.enqueues < 2 ^ 31 → s.dequeues < 2 ^ 31 → Held s := by
  apply h.invariant
  · intro s hinit _ _
    rw [hinit]
    refine ⟨?_, fun _ => Int.le_refl 0⟩
    intro op t ht
    cases op <;> exact absurd ht (Nat.not_lt_zero t)
  · intro s l s' hreach ih hstep henq hdeq
    have henq' := Nat.lt_of_le_of_lt (enqueues_step hstep) henq
    have hdeq' := Nat.lt_of_le_of_lt (dequeues_step hstep) hdeq
    have hheld := ih henq' hdeq'
    obtain ⟨p, l⟩ := l
    match l with
    | .call op =>
      obtain ⟨hp, rfl⟩ := hstep
      exact hheld.start hp op
    | .run =>
      obtain ⟨c, hp, rfl⟩ := hstep
      obtain ⟨g, L, q, hinv⟩ := queue_inv_reachable hreach henq' hdeq'
      exact hheld.run hinv hp (Nat.lt_of_le_of_lt hinv.rear_le_enqueues henq')
        (Nat.lt_of_le_of_lt hinv.front_le_dequeues hdeq')

/-! ## Section 3: Waiting calls -/

/-- If every call waits, then all of them are dequeues and the next enqueue has no
    ticket yet, or the other way round. -/
theorem all_waiting {g : Tickets} {s : TicketQueue} {L : List (Entry Operation (Option ℤ))}
    {q : GiantQueue} (hinv : QueueInv g s L q) (hheld : Held s)
    (hwait : ∀ p c, s.thread p = some c →
      ∃ t : ℕ, c.point.ticket = some (t : ℤ) ∧ (s.slot t).flag < turn c.op t)
    (hbusy : ∃ p c, s.thread p = some c) :
    (∀ p c, s.thread p = some c → c.op.is_enqueue = false) ∧ s.rear < s.front ∨
      (∀ p c, s.thread p = some c → c.op.is_enqueue = true) ∧ s.front + QUEUE_SIZE < s.rear := by
  -- A taken ticket whose turn is not over belongs to a call that waits.
  have hwaits : ∀ op t, t < s.counter op → (s.slot t).flag ≤ turn op t →
      (s.slot t).flag < turn op t := by
    intro op t ht hturn
    obtain ⟨p, c, hp, hop, htick⟩ := hheld.holder op t ht hturn
    obtain ⟨u, hu, hlt⟩ := hwait p c hp
    obtain rfl := ticket_inj (htick.symm.trans hu)
    rwa [turn_congr hop] at hlt
  have hdeq : ∀ t, t < s.front → (s.slot t).flag ≤ turn .dequeue t →
      (s.slot t).flag ≤ turn (.enqueue 0) t := by
    intro t ht hturn
    have := hwaits .dequeue t ht hturn
    simp only [turn] at this ⊢
    omega
  -- The ticket of a call, by the kind of the call.
  have hcall : ∀ p c, s.thread p = some c →
      (c.op.is_enqueue = true ∧ ∃ t < s.rear, (s.slot t).flag ≤ turn (.enqueue 0) t) ∨
        (c.op.is_enqueue = false ∧ ∃ t < s.front, (s.slot t).flag ≤ turn .dequeue t) := by
    intro p c hp
    obtain ⟨t, ht, hlt⟩ := hwait p c hp
    obtain ⟨u, hu, htook⟩ := (hinv.thread p c hp).ticket _ ht
    obtain rfl : t = u := by omega
    unfold Tickets.took at htook
    cases hop : c.op with
    | enqueue key =>
      rw [hop] at htook hlt
      exact .inl ⟨rfl, t, htook.1, Int.le_of_lt hlt⟩
    | dequeue =>
      rw [hop] at htook hlt
      exact .inr ⟨rfl, t, htook.1, Int.le_of_lt hlt⟩
  by_cases henq : ∃ t < s.rear, (s.slot t).flag ≤ turn (.enqueue 0) t
  · obtain ⟨t₀, ht₀, hopen₀⟩ := henq
    have hex : ∃ t, (s.slot t).flag ≤ turn (.enqueue 0) t := ⟨t₀, hopen₀⟩
    -- The smallest enqueue that is not over waits for the dequeue one round earlier.
    let e := Nat.find hex
    have hopen : (s.slot e).flag ≤ turn (.enqueue 0) e := Nat.find_spec hex
    have hmin : ∀ t, (s.slot t).flag ≤ turn (.enqueue 0) t → e ≤ t :=
      fun t ht => Nat.find_min' hex ht
    have hrear : e < s.rear := Nat.lt_of_le_of_lt (hmin t₀ hopen₀) ht₀
    have hlt := hwaits (.enqueue 0) e hrear hopen
    have hflag := hheld.nonneg e
    have hround : QUEUE_SIZE ≤ e := by
      by_contra hsmall
      have hzero : e / QUEUE_SIZE = 0 := Nat.div_eq_of_lt (Nat.not_le.mp hsmall)
      simp only [turn, hzero] at hlt
      omega
    have hfront : s.front + QUEUE_SIZE ≤ e := by
      by_contra hcon
      have hidx : idx ((e - QUEUE_SIZE : ℕ) : ℤ) = idx e := by
        rw [idx_eq_iff]
        unfold QUEUE_SIZE at *
        omega
      have hopen' : (s.slot (e - QUEUE_SIZE)).flag ≤ turn .dequeue (e - QUEUE_SIZE) := by
        rw [slot_congr hidx]
        simp only [turn] at hlt ⊢
        unfold QUEUE_SIZE at *
        omega
      have := hmin _ (hdeq (e - QUEUE_SIZE) (by omega) hopen')
      unfold QUEUE_SIZE at *
      omega
    refine .inr ⟨?_, by omega⟩
    intro p c hp
    rcases hcall p c hp with ⟨hkind, -⟩ | ⟨-, t, ht, hturn⟩
    · exact hkind
    · have := hmin t (hdeq t ht hturn)
      omega
  · refine .inl ⟨?_, ?_⟩
    · intro p c hp
      rcases hcall p c hp with ⟨-, henq'⟩ | ⟨hkind, -⟩
      · exact absurd henq' henq
      · exact hkind
    · obtain ⟨p, c, hp⟩ := hbusy
      rcases hcall p c hp with ⟨-, henq'⟩ | ⟨-, t, ht, hturn⟩
      · exact absurd henq' henq
      · by_contra hle
        exact henq ⟨t, by omega, hdeq t ht hturn⟩

/-! ## Section 4: The threads and the queue -/

/-- A step that does not end the call. -/
theorem run_quiet {s : TicketQueue} {p : ℕ} {c : Call} (h : c.point.returns = none) :
    (∃ pt, (s.run p c).thread = Function.update s.thread p (some { c with point := pt })) ∧
      (s.run p c).history = s.history ∧ (s.run p c).calls = s.calls := by
  obtain ⟨id, op, pt⟩ := c
  cases pt with
  | take_ticket => cases op <;> exact ⟨⟨_, rfl⟩, rfl, rfl⟩
  | load_parity t =>
    simp only [TicketQueue.run]
    split <;> exact ⟨⟨_, rfl⟩, rfl, rfl⟩
  | load_round t =>
    simp only [TicketQueue.run]
    split <;> exact ⟨⟨_, rfl⟩, rfl, rfl⟩
  | access_key t => cases op <;> exact ⟨⟨_, rfl⟩, rfl, rfl⟩
  | clear_key t k => exact ⟨⟨_, rfl⟩, rfl, rfl⟩
  | load_flag t r => exact ⟨⟨_, rfl⟩, rfl, rfl⟩
  | store_flag t r flag => exact ⟨⟨_, rfl⟩, rfl, rfl⟩
  | finished r => cases h

theorem run_finished {s : TicketQueue} {p : ℕ} {c : Call} {r : Option ℤ}
    (h : c.point = .finished r) : s.run p c = s.return_call p c r := by
  rw [TicketQueue.run, h]

theorem countP_enqueues (s : TicketQueue) :
    s.history.countP (Event.is_call Operation.is_enqueue) = s.enqueues := by
  apply List.countP_congr
  intro e _
  match e with
  | .call _ (.enqueue _) => rfl
  | .call _ .dequeue => rfl
  | .ret _ _ => rfl

theorem countP_dequeues (s : TicketQueue) :
    s.history.countP (Event.is_call Operation.is_dequeue) = s.dequeues := by
  apply List.countP_congr
  intro e _
  match e with
  | .call _ (.enqueue _) => rfl
  | .call _ .dequeue => rfl
  | .ret _ _ => rfl

/-- The threads of the program are those of the queue. -/
structure TicketLink (c : ClientState ticket_code) : Prop where
  queue   : Reachable ticket_threads c.queue
  history : c.trace.map Prod.snd = c.queue.history
  calls   : c.calls = c.queue.calls
  busy    : ∀ p, c.busy p = (c.queue.thread p).map Call.id

namespace TicketLink

variable {c c' : ClientState ticket_code} {p : ℕ} {cl : Call}

theorem start (h : TicketLink c) (hp : c.busy p = none) (op : Operation) :
    TicketLink (c.call p op) where
  queue := by
    rw [h.busy, Option.map_eq_none_iff] at hp
    exact h.queue.step (l := (p, ThreadStep.call op)) ⟨hp, rfl⟩
  history := by
    show (c.trace ++ _).map Prod.snd = c.queue.history ++ [.call c.queue.calls op]
    rw [List.map_append, h.history, h.calls]
    rfl
  calls := congrArg (· + 1) h.calls
  busy := by
    intro q
    show Function.update c.busy p _ q =
      (Function.update c.queue.thread p (some ⟨c.queue.calls, op, .take_ticket⟩) q).map Call.id
    by_cases heq : q = p
    · subst heq
      rw [Function.update_self, Function.update_self, h.calls]
      rfl
    · rw [Function.update_of_ne heq, Function.update_of_ne heq]
      exact h.busy q

theorem code_run (hp : c.queue.thread p = some cl) :
    ticket_code.run c.queue p = some (c.queue.run p cl, cl.point.returns) := by
  show (c.queue.thread p).map _ = _
  rw [hp]
  rfl

/-- A step of thread `p` inside its call. -/
theorem quiet_of_thread (h : TicketLink c) (hp : c.queue.thread p = some cl)
    (hpt : cl.point.returns = none) :
    c.run p = some ({ c with queue := c.queue.run p cl }, none) := by
  have hbusy : c.busy p = some cl.id := by rw [h.busy, hp]; rfl
  have hcode := code_run hp
  rw [hpt] at hcode
  exact ClientState.run_eq_none hbusy hcode

theorem run (h : TicketLink c) {result : Option (Option ℤ)}
    (hrun : c.run p = some (c', result)) : TicketLink c' := by
  obtain ⟨id, queue, hbusy, hcode, hcase⟩ := ClientState.run_cases hrun
  have hthread := h.busy p
  rw [hbusy] at hthread
  obtain ⟨cl, hcl, rfl⟩ := Option.map_eq_some_iff.mp hthread.symm
  rw [code_run hcl] at hcode
  obtain ⟨rfl, rfl⟩ := Prod.mk.inj (Option.some.inj hcode)
  have hqueue : Reachable ticket_threads (c.queue.run p cl) :=
    h.queue.step (l := (p, ThreadStep.run)) ⟨cl, hcl, rfl⟩
  rcases hcase with ⟨hnone, rfl⟩ | ⟨r, hr, rfl⟩
  · obtain ⟨⟨pt, hthread'⟩, hhistory, hcalls⟩ := run_quiet (s := c.queue) (p := p) hnone
    refine ⟨hqueue, h.history.trans hhistory.symm, h.calls.trans hcalls.symm, ?_⟩
    intro q
    show c.busy q = ((c.queue.run p cl).thread q).map Call.id
    rw [hthread']
    by_cases heq : q = p
    · subst heq
      rw [hbusy, Function.update_self]
      rfl
    · rw [Function.update_of_ne heq]
      exact h.busy q
  · -- The call returns.
    obtain ⟨r', hpoint⟩ : ∃ r', cl.point = .finished r' := by
      cases hpoint : cl.point <;> simp [hpoint, Point.returns] at hr ⊢
    rw [hpoint] at hr
    cases hr
    have hrun' : c.queue.run p cl = c.queue.return_call p cl r := run_finished hpoint
    refine ⟨hqueue, ?_, ?_, ?_⟩
    · show (c.trace ++ _).map Prod.snd = (c.queue.run p cl).history
      rw [hrun', List.map_append, h.history]
      rfl
    · show c.calls = (c.queue.run p cl).calls
      rw [hrun']
      exact h.calls
    · intro q
      show Function.update c.busy p none q = ((c.queue.run p cl).thread q).map Call.id
      rw [hrun']
      show _ = (Function.update c.queue.thread p none q).map Call.id
      by_cases heq : q = p
      · subst heq
        rw [Function.update_self, Function.update_self]
        rfl
      · rw [Function.update_of_ne heq, Function.update_of_ne heq]
        exact h.busy q

theorem enqueues_eq (h : TicketLink c) : c.enqueues = c.queue.enqueues := by
  rw [ClientState.enqueues, h.history]
  exact countP_enqueues c.queue

theorem dequeues_eq (h : TicketLink c) : c.dequeues = c.queue.dequeues := by
  rw [ClientState.dequeues, h.history]
  exact countP_dequeues c.queue

end TicketLink

theorem ticket_link_reachable {c : ClientState ticket_code}
    (h : Reachable (client_threads ticket_code) c) : TicketLink c := by
  apply h.invariant
  · intro c hinit
    cases hinit
    exact ⟨.init rfl, rfl, rfl, fun _ => rfl⟩
  · intro c l c' _ ih hstep
    obtain ⟨p, l⟩ := l
    match l with
    | .call op =>
      obtain ⟨hp, rfl⟩ := hstep
      exact ih.start hp op
    | .run =>
      obtain ⟨result, hrun⟩ := hstep
      exact ih.run hrun

/-! ## Section 5: Some call can return -/

section Progress

variable {c : ClientState ticket_code} {p : ℕ} {cl : Call}

/-- What is known of the queue in a reachable state. -/
theorem ticket_facts (h : Reachable (client_threads ticket_code) c) (henq : c.enqueues < 2 ^ 31)
    (hdeq : c.dequeues < 2 ^ 31) :
    Held c.queue ∧ ∃ g L q, QueueInv g c.queue L q ∧ c.queue.rear ≤ c.enqueues ∧
      c.queue.front ≤ c.dequeues := by
  have hlink := ticket_link_reachable h
  rw [hlink.enqueues_eq] at henq ⊢
  rw [hlink.dequeues_eq] at hdeq ⊢
  obtain ⟨g, L, q, hinv⟩ := queue_inv_reachable hlink.queue henq hdeq
  exact ⟨held_reachable hlink.queue henq hdeq, g, L, q, hinv, hinv.rear_le_enqueues,
    hinv.front_le_dequeues⟩

theorem quiet_reachable {c' : ClientState ticket_code}
    (h : Reachable (client_threads ticket_code) c) (hrun : c.run p = some (c', none)) :
    Reachable (client_threads ticket_code) c' :=
  h.step (l := (p, ThreadStep.run)) ⟨none, hrun⟩

/-- A call that has taken a ticket and holds none is about to return. -/
theorem Point.returns_of_no_ticket {pt : Point} (hpoint : pt ≠ .take_ticket)
    (h : pt.ticket = none) : ∃ r, pt.returns = some r := by
  match pt, h with
  | .take_ticket, _ => exact absurd rfl hpoint
  | .finished r, _ => exact ⟨r, rfl⟩

theorem Point.returns_of_ticket {pt : Point} {t : ℤ} (h : pt.ticket = some t) :
    pt.returns = none := by
  match pt, h with
  | .load_parity _, _ | .load_round _, _ | .access_key _, _ | .clear_key _ _, _
  | .load_flag _ _, _ | .store_flag _ _ _, _ => rfl

/-- A call whose turn has come gets to its end. -/
theorem can_return_of_turn (h : Reachable (client_threads ticket_code) c)
    (henq : c.enqueues < 2 ^ 31) (hdeq : c.dequeues < 2 ^ 31) (hp : c.queue.thread p = some cl)
    (hpoint : cl.point ≠ .take_ticket)
    (hturn : ∀ t : ℕ, cl.point.ticket = some (t : ℤ) → (c.queue.slot t).flag = turn cl.op t) :
    c.can_return := by
  induction hn : cl.point.left using Nat.strongRecOn generalizing c cl with
  | _ n ih =>
    have hlink := ticket_link_reachable h
    cases htick : cl.point.ticket with
    | none =>
      -- The call has passed its slot on, and returns.
      obtain ⟨r, hr⟩ := Point.returns_of_no_ticket hpoint htick
      have hbusy : c.busy p = some cl.id := by rw [hlink.busy, hp]; rfl
      have hcode := TicketLink.code_run hp
      rw [hr] at hcode
      exact .of_run (ClientState.run_eq_some hbusy hcode)
    | some x =>
      obtain ⟨-, g, L, q, hinv, hrear, hfront⟩ := ticket_facts h henq hdeq
      obtain ⟨t, rfl, -⟩ := (hinv.thread p cl hp).ticket x htick
      have hnone : cl.point.returns = none := Point.returns_of_ticket htick
      obtain ⟨pt, hstep⟩ := run_ticket_step hinv hp (by omega) (by omega) htick
      have hrun := hlink.quiet_of_thread hp hnone
      have hnow := hturn t htick
      have hp' : (c.queue.run p cl).thread p = some { cl with point := pt } := by
        rw [hstep.thread, Function.update_self]
      refine .of_quiet ⟨p, hrun⟩ (ih pt.left ?_ (quiet_reachable h hrun) henq hdeq hp' ?_ ?_ rfl)
      · rw [← hn]
        exact hstep.closer hnow
      · rcases hstep.ticket with ⟨hpt, -⟩ | ⟨⟨r, hpt⟩, -⟩
        · intro heq
          change pt = _ at heq
          rw [heq] at hpt
          cases hpt
        · change pt ≠ _
          rw [hpt]
          simp
      · intro u hu
        rcases hstep.ticket with ⟨hpt, hflag⟩ | ⟨⟨r, hpt⟩, -⟩
        · obtain rfl := ticket_inj (hpt.symm.trans hu)
          exact hflag.trans hnow
        · change pt.ticket = _ at hu
          rw [hpt] at hu
          cases hu

/-- How many calls have no ticket yet. -/
def tickets_left (c : ClientState ticket_code) : ℕ :=
  c.enqueues + c.dequeues - (c.queue.rear + c.queue.front)

/-- A call takes its ticket. -/
theorem take_step (h : Reachable (client_threads ticket_code) c) (henq : c.enqueues < 2 ^ 31)
    (hdeq : c.dequeues < 2 ^ 31) (hp : c.queue.thread p = some cl)
    (hpoint : cl.point = .take_ticket) :
    c.run p = some ({ c with queue := c.queue.run p cl }, none) ∧
      tickets_left { c with queue := c.queue.run p cl } < tickets_left c := by
  have hrun := (ticket_link_reachable h).quiet_of_thread hp (by rw [hpoint]; rfl)
  obtain ⟨-, -, -, -, -, hrear, hfront⟩ := ticket_facts h henq hdeq
  obtain ⟨-, -, -, -, -, hrear', hfront'⟩ := ticket_facts (quiet_reachable h hrun) henq hdeq
  refine ⟨hrun, ?_⟩
  have hsum : (c.queue.run p cl).rear + (c.queue.run p cl).front =
      c.queue.rear + c.queue.front + 1 := by
    have hrun' : c.queue.run p cl = c.queue.take_ticket p cl := by
      simp only [TicketQueue.run, hpoint]
    rw [hrun']
    unfold take_ticket
    cases cl.op with
    | enqueue key =>
      show (c.queue.rear + 1) % 2 ^ 64 + c.queue.front = _
      rw [Nat.mod_eq_of_lt (by omega)]
      omega
    | dequeue =>
      show c.queue.rear + (c.queue.front + 1) % 2 ^ 64 = _
      rw [Nat.mod_eq_of_lt (by omega)]
      omega
  change (c.queue.run p cl).rear ≤ c.enqueues at hrear'
  change (c.queue.run p cl).front ≤ c.dequeues at hfront'
  show c.enqueues + c.dequeues - ((c.queue.run p cl).rear + (c.queue.run p cl).front) <
    c.enqueues + c.dequeues - (c.queue.rear + c.queue.front)
  omega

/-- A thread in a call executes the operation that it has called. -/
theorem calling_thread (h : Reachable (client_threads ticket_code) c) (henq : c.enqueues < 2 ^ 31)
    (hdeq : c.dequeues < 2 ^ 31) {P : Operation → Bool} (hcalling : c.calling P) :
    ∃ p cl, c.queue.thread p = some cl ∧ P cl.op = true := by
  have hlink := ticket_link_reachable h
  obtain ⟨-, g, L, q, hinv, -, -⟩ := ticket_facts h henq hdeq
  obtain ⟨p, id, op, hbusy, hop, hP⟩ := hcalling
  rw [hlink.busy] at hbusy
  obtain ⟨cl, hcl, rfl⟩ := Option.map_eq_some_iff.mp hbusy
  have hcalled := (hinv.thread p cl hcl).called
  rw [← hlink.history] at hcalled
  obtain ⟨p', hp'⟩ := mem_history.mp hcalled
  obtain ⟨-, rfl⟩ := (client_inv_reachable h).one_at_a_time.call_unique hop hp'
  exact ⟨p, cl, hcl, hP⟩

/-- The second law: first all calls take their tickets. -/
theorem ticket_progress (h : Reachable (client_threads ticket_code) c) (henq : c.enqueues < 2 ^ 31)
    (hdeq : c.dequeues < 2 ^ 31) (hbusy : ∃ p, c.busy p ≠ none) :
    c.can_return ∨ ¬ c.calling Operation.is_enqueue ∧ c.enqueues < c.dequeues ∨
      ¬ c.calling Operation.is_dequeue ∧ c.dequeues + QUEUE_SIZE < c.enqueues := by
  induction hn : tickets_left c using Nat.strongRecOn generalizing c with
  | _ n ih =>
    by_cases htake : ∃ p cl, c.queue.thread p = some cl ∧ cl.point = .take_ticket
    · obtain ⟨p, cl, hp, hpoint⟩ := htake
      obtain ⟨hrun, hlt⟩ := take_step h henq hdeq hp hpoint
      -- Taking a ticket changes neither the trace nor who is in a call.
      rcases ih _ (hn ▸ hlt) (quiet_reachable h hrun) henq hdeq hbusy rfl with hret | hstuck
      · exact .inl (.of_quiet ⟨p, hrun⟩ hret)
      · exact .inr hstuck
    · by_cases hgo : ∃ p cl, c.queue.thread p = some cl ∧ ∀ t : ℕ,
          cl.point.ticket = some (t : ℤ) → (c.queue.slot t).flag = turn cl.op t
      · obtain ⟨p, cl, hp, hturn⟩ := hgo
        exact .inl (can_return_of_turn h henq hdeq hp (fun hpt => htake ⟨p, cl, hp, hpt⟩) hturn)
      · right
        have hlink := ticket_link_reachable h
        have hclients := client_inv_reachable h
        obtain ⟨hheld, g, L, q, hinv, hrear, hfront⟩ := ticket_facts h henq hdeq
        have hwait : ∀ p cl, c.queue.thread p = some cl →
            ∃ t : ℕ, cl.point.ticket = some (t : ℤ) ∧ (c.queue.slot t).flag < turn cl.op t := by
          intro p cl hp
          by_contra hcon
          refine hgo ⟨p, cl, hp, fun t ht => ?_⟩
          have hle := (hinv.thread p cl hp).waiting t ht
          by_contra hne
          exact hcon ⟨t, ht, by omega⟩
        have hlin : Linearizes giant (c.trace.map Prod.snd) L := by
          rw [hlink.history]
          exact hinv.ledger.tracked.linearizes
        have hshape := GiantShape.of_runs hinv.ledger.tracked.runs
          (Nat.lt_of_le_of_lt (hlin.countP_le_calls _) henq)
        have hbusy' : ∃ p cl, c.queue.thread p = some cl := by
          obtain ⟨p, hp⟩ := hbusy
          rw [hlink.busy, ne_eq, Option.map_eq_none_iff] at hp
          exact ⟨p, Option.ne_none_iff_exists'.mp hp⟩
        rcases all_waiting hinv hheld hwait hbusy' with ⟨hkind, hlt⟩ | ⟨hkind, hlt⟩
        · have hnone : ¬ c.calling Operation.is_enqueue := by
            intro hcalling
            obtain ⟨p, cl, hp, hP⟩ := calling_thread h henq hdeq hcalling
            rw [hkind p cl hp] at hP
            cases hP
          refine .inl ⟨hnone, ?_⟩
          rw [ClientState.enqueues, hclients.count hlin hnone, hshape.enqueues, hinv.ledger.rear]
          omega
        · have hnone : ¬ c.calling Operation.is_dequeue := by
            intro hcalling
            obtain ⟨p, cl, hp, hP⟩ := calling_thread h henq hdeq hcalling
            have hP' := hkind p cl hp
            cases hop : cl.op <;> rw [hop] at hP hP'
            · cases hP
            · cases hP'
          refine .inr ⟨hnone, ?_⟩
          rw [ClientState.dequeues, hclients.count hlin hnone, hshape.dequeues, hinv.ledger.front]
          omega

/-- **The ticket queue keeps the laws.** -/
theorem ticket_fifo : ticket_code.Fifo where
  linearizes := by
    intro c h henq hdeq
    obtain ⟨-, g, L, q, hinv, -, -⟩ := ticket_facts h henq hdeq
    rw [(ticket_link_reachable h).history]
    exact ⟨L, hinv.ledger.tracked.linearizes⟩
  progress := fun _ => ticket_progress

end Progress

theorem SourceFile.fifo (f : SourceFile) : f.code.Fifo := by
  cases f
  · exact ticket_fifo
  · exact giant_fifo

end Lab13
