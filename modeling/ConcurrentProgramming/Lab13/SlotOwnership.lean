import ConcurrentProgramming.Lab13.TicketOrder

/-! # Who Owns a Slot of the Ticket Queue (`concurrent_queue.cpp`)

    A slot is handed from one operation to the next by its `flag`: the enqueue of
    round `r` has its turn at `2 * r`, the dequeue of round `r` at `2 * r + 1`.
    So between the spin loop and the end of `flag++` a call has the slot for
    itself, and the load and the store of `flag++` need not be one atomic step.

    An observer writes down the tickets that are taken and the increments that
    are over.  The value of `flag` is then the number of increments, and it says
    which rounds of the slot were filled and emptied.
-/

namespace Lab13

open LTS CInt Threads TicketQueue

/-! ## Section 1: The observer -/

inductive Note where
  /-- The fetch-and-add of `op` has returned this ticket. -/
  | took (op : Operation) (ticket : ℤ)
  /-- The `flag++` of `op` is over. -/
  | ended (op : Operation) (ticket : ℤ)
  deriving DecidableEq, Repr

/-- The counter an operation takes its ticket from. -/
def TicketQueue.counter (s : TicketQueue) : Operation → ℕ
  | .enqueue _ => s.rear
  | .dequeue => s.front

def TicketQueue.note_call (s : TicketQueue) (c : Call) : List Note :=
  match c.point with
  | .take_ticket => [.took c.op (to_int (s.counter c.op))]
  | .store_flag t _ _ => [.ended c.op t]
  | _ => []

def TicketQueue.note_step (s : TicketQueue) (l : ℕ × ThreadStep) : List Note :=
  match l.2, s.thread l.1 with
  | .run, some c => s.note_call c
  | _, _ => []

/-- The threads and the observer. -/
def watched_threads : System (Observed TicketQueue Note) (ℕ × ThreadStep) :=
  ticket_threads.observe TicketQueue.note_step

/-- How often the flag of slot `i` was increased. -/
def increments (N : List Note) (i : ℤ) : ℕ :=
  N.countP fun n => match n with
    | .ended _ t => idx t = i
    | .took _ _ => false

/-- The enqueue with ticket `t` has filled its slot. -/
def filled (N : List Note) (t : ℕ) : Prop := ∃ key, Note.ended (.enqueue key) t ∈ N

/-- The dequeue with ticket `t` has emptied its slot. -/
def emptied (N : List Note) (t : ℕ) : Prop := Note.ended .dequeue t ∈ N

/-- The call is past its spin loop and before the end of its `flag++`, at slot `i`. -/
def Call.owns_slot (c : Call) (i : ℤ) : Prop :=
  c.point.owns = true ∧ ∃ t, c.point.ticket = some t ∧ idx t = i

/-! ## Section 2: Tickets -/

/-- What the observer knows about tickets. -/
structure TicketNotes (s : TicketQueue) (N : List Note) : Prop where
  holds   : ∀ p c t, s.thread p = some c → c.point.ticket = some t → .took c.op t ∈ N
  numbers : ∀ op (t : ℤ), .took op t ∈ N → ∃ u : ℕ, t = u ∧ u < s.counter op
  key     : ∀ k k' t, .took (.enqueue k) t ∈ N → .took (.enqueue k') t ∈ N → k = k'

/-- No ticket is taken, and no call gets another one. -/
structure KeepsTickets (s s' : TicketQueue) : Prop where
  counter : s'.counter = s.counter
  thread  : ∀ p c' t, s'.thread p = some c' → c'.point.ticket = some t →
    ∃ c, s.thread p = some c ∧ c.op = c'.op ∧ c.point.ticket = some t

section

variable {s s' : TicketQueue} {N N' : List Note} {p : ℕ} {c : Call} {pt : Point}

theorem KeepsTickets.go (hp : s.thread p = some c)
    (hpt : pt.ticket = c.point.ticket ∨ pt.ticket = none) (hqueue : s'.counter = s.counter)
    (hthread : s'.thread = s.thread) : KeepsTickets s (s'.go p c pt) where
  counter := hqueue
  thread := by
    intro p' c' t hp' ht
    rcases update_some hp' with ⟨rfl, rfl⟩ | ⟨-, hp'⟩
    · rcases hpt with hpt | hpt
      · exact ⟨c, hp, rfl, hpt ▸ ht⟩
      · exact absurd (hpt.symm.trans ht) (by simp)
    · exact ⟨c', hthread ▸ hp', rfl, ht⟩

theorem TicketNotes.keep (h : TicketNotes s N) (hs : KeepsTickets s s')
    (hN : ∀ op t, .took op t ∈ N' ↔ .took op t ∈ N) : TicketNotes s' N' where
  holds := by
    intro p c' t hp ht
    obtain ⟨c, hc, hop, hct⟩ := hs.thread p c' t hp ht
    rw [hN, ← hop]
    exact h.holds p c t hc hct
  numbers := by
    intro op t ht
    rw [hs.counter]
    exact h.numbers op t ((hN op t).mp ht)
  key := fun k k' t ht ht' => h.key k k' t ((hN _ _).mp ht) ((hN _ _).mp ht')

/-- The counter of the other operation stays. -/
theorem counter_take_ticket (hlt : s.counter c.op < 2 ^ 31) (op : Operation) :
    s.counter op ≤ (s.take_ticket p c).counter op ∧
      s.counter c.op < (s.take_ticket p c).counter c.op := by
  unfold take_ticket
  cases hc : c.op with
  | enqueue key =>
    simp only [hc, counter] at hlt
    cases op <;> simp only [counter, go] <;> omega
  | dequeue =>
    simp only [hc, counter] at hlt
    cases op <;> simp only [counter, go] <;> omega

theorem thread_take_ticket : (s.take_ticket p c).thread =
    (s.go p c (.load_parity (to_int (s.counter c.op)))).thread := by
  unfold take_ticket
  cases c.op <;> rfl

theorem queue_take_ticket : (s.take_ticket p c).queue = s.queue := by
  unfold take_ticket
  cases c.op <;> rfl

theorem TicketNotes.take_ticket (h : TicketNotes s N) (hlt : s.counter c.op < 2 ^ 31) :
    TicketNotes (s.take_ticket p c) (N ++ [.took c.op (to_int (s.counter c.op))]) := by
  have hnew : to_int (s.counter c.op) = s.counter c.op := to_int_of_nonneg (by omega) (by omega)
  -- A ticket with the number of the counter was not seen before.
  have hfresh : ∀ k op', c.op = .enqueue k → .took (.enqueue op') (s.counter c.op) ∉ N := by
    intro k k' hop hmem
    obtain ⟨u, hu, hlt'⟩ := h.numbers _ _ hmem
    rw [hop] at hu
    simp only [counter] at hu hlt'
    omega
  refine ⟨?_, ?_, ?_⟩
  · intro p' c' t hp' ht
    rw [thread_take_ticket] at hp'
    rcases update_some hp' with ⟨rfl, rfl⟩ | ⟨-, hp'⟩
    · obtain rfl : to_int (s.counter c.op) = t := Option.some.inj ht
      exact List.mem_append_right _ (List.mem_singleton_self _)
    · exact List.mem_append_left _ (h.holds p' c' t hp' ht)
  · intro op t ht
    rcases List.mem_append.mp ht with ht | ht
    · obtain ⟨u, hu, hlt'⟩ := h.numbers op t ht
      exact ⟨u, hu, Nat.lt_of_lt_of_le hlt' (counter_take_ticket hlt op).1⟩
    · obtain ⟨rfl, hnumber⟩ := Note.took.inj (List.mem_singleton.mp ht)
      exact ⟨s.counter c.op, hnumber.trans hnew, (counter_take_ticket hlt c.op).2⟩
  · intro k k' t ht ht'
    rw [hnew] at ht ht'
    rcases List.mem_append.mp ht with ht | ht <;> rcases List.mem_append.mp ht' with ht' | ht'
    · exact h.key k k' t ht ht'
    · obtain ⟨hop, rfl⟩ : .enqueue k' = c.op ∧ t = s.counter c.op := by simpa using ht'
      exact absurd ht (hfresh k' k hop.symm)
    · obtain ⟨hop, rfl⟩ : .enqueue k = c.op ∧ t = s.counter c.op := by simpa using ht
      exact absurd ht' (hfresh k k' hop.symm)
    · obtain ⟨hop, -⟩ : .enqueue k = c.op ∧ t = s.counter c.op := by simpa using ht
      obtain ⟨hop', -⟩ : .enqueue k' = c.op ∧ t = s.counter c.op := by simpa using ht'
      exact Operation.enqueue.inj (hop.trans hop'.symm)

end

/-! ## Section 3: Slots -/

/-- What the observer knows about slots. -/
structure SlotNotes (s : TicketQueue) (N : List Note) : Prop where
  filled  : ∀ t : ℕ, filled N t ↔ turn .dequeue t ≤ (s.slot t).flag
  emptied : ∀ t : ℕ, emptied N t ↔ turn .dequeue t < (s.slot t).flag
  count   : ∀ t : ℕ, (s.slot t).flag = increments N (idx t)
  key     : ∀ t : ℕ, (s.slot t).flag = turn .dequeue t →
    ∃ k, .took (.enqueue k) t ∈ N ∧ ((s.slot t).key = k ∨ ∃ p c, s.thread p = some c ∧
      c.op = .dequeue ∧ c.point.ticket = some (t : ℤ) ∧ c.point.owns)

/-- Thread `p` moves without a change of a flag.  It changes a key only at the slot
    it owns, and it does not give up a slot. -/
structure KeepsFlags (s s' : TicketQueue) (p : ℕ) : Prop where
  flag   : ∀ t : ℕ, (s'.slot t).flag = (s.slot t).flag
  others : ∀ p', p' ≠ p → s'.thread p' = s.thread p'
  owner  : ∀ c t, s.thread p = some c → c.point.ticket = some t → c.point.owns →
    ∃ c', s'.thread p = some c' ∧ c'.op = c.op ∧ c'.point.ticket = some t ∧ c'.point.owns
  key    : ∀ t : ℕ, (s'.slot t).key = (s.slot t).key ∨ ∃ c, ∃ u : ℕ, s.thread p = some c ∧
    c.point.ticket = some (u : ℤ) ∧ c.point.owns ∧ idx t = idx u

section

variable {g : Tickets} {s s' : TicketQueue} {L : List (Linearizability.Entry Operation (Option ℤ))}
  {q : GiantQueue} {N N' : List Note} {p : ℕ} {c : Call} {pt : Point}

theorem KeepsFlags.go (hp : s.thread p = some c) (hpt : pt.ticket = c.point.ticket)
    (howns : c.point.owns → pt.owns) : KeepsFlags s (s.go p c pt) p where
  flag := fun _ => rfl
  others := fun _ => thread_go_of_ne
  owner := by
    intro c' t hp' ht hown
    obtain rfl : c = c' := by simpa [hp] using hp'
    exact ⟨_, thread_go_self, rfl, hpt.trans ht, howns hown⟩
  key := fun _ => .inl rfl

theorem KeepsFlags.store_key (hp : s.thread p = some c) {t : ℕ} {k : ℤ}
    (ht : c.point.ticket = some (t : ℤ)) (hown : c.point.owns)
    (hpt : pt.ticket = some (t : ℤ)) (howns : pt.owns) :
    KeepsFlags s ((s.set_node (idx t) { s.queue (idx t) with key := k }).go p c pt) p where
  flag := by
    intro u
    rw [slot_go]
    by_cases hidx : idx u = idx t
    · rw [slot_set_node_of_eq hidx, slot, hidx]
    · rw [slot_set_node_of_ne hidx]
  others := fun _ => thread_go_of_ne
  owner := by
    intro c' u hp' hu _
    obtain rfl : c = c' := by simpa [hp] using hp'
    exact ⟨_, thread_go_self, rfl, (hpt.trans ht.symm).trans hu, howns⟩
  key := by
    intro u
    rw [slot_go]
    by_cases hidx : idx u = idx t
    · exact .inr ⟨c, t, hp, ht, hown, hidx⟩
    · rw [slot_set_node_of_ne hidx]
      exact .inl rfl

/-- A thread that owns no slot and changes none. -/
theorem KeepsFlags.of_no_ticket (hqueue : s'.queue = s.queue)
    (hothers : ∀ p', p' ≠ p → s'.thread p' = s.thread p')
    (hself : ∀ c, s.thread p = some c → c.point.ticket = none) : KeepsFlags s s' p where
  flag := by
    intro t
    rw [slot, slot, hqueue]
  others := hothers
  owner := by
    intro c t hp ht
    rw [hself c hp] at ht
    cases ht
  key := by
    intro t
    rw [slot, slot, hqueue]
    exact .inl rfl

/-- The key of a filled slot changes only while its dequeue owns the slot. -/
theorem SlotNotes.keep (h : SlotNotes s N) (hinv : QueueInv g s L q)
    (hs : KeepsFlags s s' p) (hfilled : ∀ t, Lab13.filled N' t ↔ Lab13.filled N t)
    (hemptied : ∀ t, Lab13.emptied N' t ↔ Lab13.emptied N t)
    (hcount : ∀ i, increments N' i = increments N i) (hN : ∀ n ∈ N, n ∈ N') :
    SlotNotes s' N' where
  filled := by
    intro t
    rw [hfilled, hs.flag]
    exact h.filled t
  emptied := by
    intro t
    rw [hemptied, hs.flag]
    exact h.emptied t
  count := by
    intro t
    rw [hcount, hs.flag]
    exact h.count t
  key := by
    intro t ht
    rw [hs.flag] at ht
    obtain ⟨k, htook, hkey⟩ := h.key t ht
    refine ⟨k, hN _ htook, ?_⟩
    -- Who owned the slot still owns it.
    have hself : ∀ c, s.thread p = some c → c.op = .dequeue → c.point.ticket = some (t : ℤ) →
        c.point.owns → ∃ p c, s'.thread p = some c ∧ c.op = .dequeue ∧
          c.point.ticket = some (t : ℤ) ∧ c.point.owns := by
      intro c hp hop hct howns
      obtain ⟨c', hp', hop', hct', howns'⟩ := hs.owner c t hp hct howns
      exact ⟨p, c', hp', hop'.trans hop, hct', howns'⟩
    rcases hkey with hkey | ⟨p', c, hp', hop, hct, howns⟩
    · rcases hs.key t with hsame | ⟨c, u, hp, hu, howns, hidx⟩
      · exact .inl (hsame.trans hkey)
      · -- The thread that changes the key has its turn: it is the dequeue.
        have hturn := (hinv.thread p c hp).owner u hu howns
        rw [slot_congr hidx, hturn] at ht
        obtain rfl := QueueInv.ticket_of_turn hidx.symm ht
        refine .inr (hself c hp ?_ hu howns)
        cases hop : c.op with
        | enqueue key =>
          simp only [hop, turn] at ht
          omega
        | dequeue => rfl
    · by_cases heq : p' = p
      · subst heq
        exact .inr (hself c hp' hop hct howns)
      · exact .inr ⟨p', c, (hs.others p' heq).trans hp', hop, hct, howns⟩

theorem increments_ended {op : Operation} {t i : ℤ} :
    increments (N ++ [.ended op t]) i = increments N i + if idx t = i then 1 else 0 := by
  simp [increments, List.countP_append, List.countP_singleton]

theorem filled_ended {op : Operation} {t u : ℕ} :
    filled (N ++ [.ended op t]) u ↔ filled N u ∨ (∃ k, op = .enqueue k) ∧ u = t := by
  simp only [filled, List.mem_append, List.mem_singleton, Note.ended.injEq, Int.natCast_inj,
    exists_or, exists_and_right, eq_comm]

theorem emptied_ended {op : Operation} {t u : ℕ} :
    emptied (N ++ [.ended op t]) u ↔ emptied N u ∨ op = .dequeue ∧ u = t := by
  simp only [emptied, List.mem_append, List.mem_singleton, Note.ended.injEq, Int.natCast_inj,
    eq_comm]

/-- The tickets of one slot differ in their rounds. -/
theorem ticket_eq_iff {t u : ℕ} (hidx : idx u = idx t) :
    u = t ↔ u / QUEUE_SIZE = t / QUEUE_SIZE :=
  ⟨fun heq => by rw [heq], ticket_unique hidx⟩

/-- `flag++`: one more round of the slot is filled or emptied. -/
theorem SlotNotes.store_flag (h : SlotNotes s N) (hinv : QueueInv g s L q)
    (hnotes : TicketNotes s N) (hp : s.thread p = some c) (hrear : s.rear < 2 ^ 31)
    (hfront : s.front < 2 ^ 31) {t : ℕ} {r : Option ℤ} {flag : ℤ}
    (hpoint : c.point = .store_flag t r flag) :
    SlotNotes ((s.set_node (idx t) { s.queue (idx t) with flag := to_int (flag + 1) }).go p c
      (.finished r)) (N ++ [.ended c.op t]) := by
  have ht : c.point.ticket = some (t : ℤ) := by rw [hpoint, Point.ticket]
  -- The flag was the turn of the call, and is one more now.
  obtain ⟨hturn, hnew⟩ := hinv.stored_flag hp hrear hfront hpoint
  have haccess := (hinv.thread p c hp).access t ht
  rw [hpoint] at haccess
  refine ⟨?_, ?_, ?_, ?_⟩
  · intro u
    rw [filled_ended, h.filled, slot_go]
    by_cases hidx : idx u = idx t
    · rw [slot_set_node_of_eq hidx, hnew, slot_congr hidx, hturn, ticket_eq_iff hidx]
      cases hop : c.op with
      | enqueue key =>
        simp only [turn, Operation.enqueue.injEq, exists_eq', true_and]
        omega
      | dequeue =>
        simp only [turn, reduceCtorEq, exists_false, false_and, or_false]
        omega
    · rw [slot_set_node_of_ne hidx]
      have hne : u ≠ t := fun heq => hidx (by rw [heq])
      simp [hne]
  · intro u
    rw [emptied_ended, h.emptied, slot_go]
    by_cases hidx : idx u = idx t
    · rw [slot_set_node_of_eq hidx, hnew, slot_congr hidx, hturn, ticket_eq_iff hidx]
      cases hop : c.op with
      | enqueue key =>
        simp only [turn, reduceCtorEq, false_and, or_false]
        omega
      | dequeue =>
        simp only [turn, true_and]
        omega
    · rw [slot_set_node_of_ne hidx]
      have hne : u ≠ t := fun heq => hidx (by rw [heq])
      simp [hne]
  · intro u
    rw [increments_ended, slot_go]
    by_cases hidx : idx u = idx t
    · have hcount := h.count t
      rw [slot_set_node_of_eq hidx, hnew, hidx, if_pos rfl, Int.natCast_add, ← hcount, hturn]
      rfl
    · rw [slot_set_node_of_ne hidx, if_neg (Ne.symm hidx)]
      exact h.count u
  · intro u hu
    rw [slot_go] at hu ⊢
    by_cases hidx : idx u = idx t
    · rw [slot_set_node_of_eq hidx] at hu ⊢
      change to_int (flag + 1) = _ at hu
      rw [hnew] at hu
      cases hop : c.op with
      | enqueue key =>
        -- The enqueue has stored its key before.
        obtain rfl : u = t := by
          apply ticket_unique hidx
          simp only [hop, turn] at hu
          omega
        rw [hop] at haccess
        have htook := hnotes.holds p c u hp ht
        rw [hop] at htook
        exact ⟨key, List.mem_append_left _ htook, .inl haccess.2.1⟩
      | dequeue =>
        simp only [hop, turn] at hu
        omega
    · rw [slot_set_node_of_ne hidx] at hu ⊢
      obtain ⟨k, htook, hkey⟩ := h.key u hu
      refine ⟨k, List.mem_append_left _ htook, hkey.imp id ?_⟩
      rintro ⟨p', c', hp', hop', hct', howns'⟩
      refine ⟨p', c', (thread_go_of_ne ?_).trans hp', hop', hct', howns'⟩
      -- The ticket of thread `p` is for another slot.
      rintro rfl
      obtain rfl : c = c' := by simpa [hp] using hp'
      rw [ht, Option.some.injEq] at hct'
      exact hidx (by rw [hct'])

end

/-! ## Section 4: Whole runs -/

/-- What the observer knows. -/
structure WatchInv (s : TicketQueue) (N : List Note) : Prop where
  ticket : TicketNotes s N
  slot   : SlotNotes s N

namespace WatchInv

variable {g : Tickets} {s s' : TicketQueue} {L : List (Linearizability.Entry Operation (Option ℤ))}
  {q : GiantQueue} {N : List Note} {p : ℕ} {c : Call}

theorem of_init : WatchInv ⟨fun _ => ⟨0, 0⟩, 0, 0, fun _ => none, 0, []⟩ [] where
  ticket := ⟨by simp, by simp, by simp⟩
  slot := by
    have hturn : ∀ t : ℕ, ¬ turn .dequeue t ≤ 0 := by
      intro t
      simp only [turn]
      generalize t / QUEUE_SIZE = r
      omega
    refine ⟨?_, ?_, fun _ => rfl, ?_⟩
    · exact fun t => iff_of_false (by simp [filled]) (hturn t)
    · exact fun t => iff_of_false (by simp [emptied]) fun hlt => hturn t (Int.le_of_lt hlt)
    · intro t ht
      exact absurd (Int.le_of_eq ht.symm) (hturn t)

/-- The observer has nothing to note. -/
theorem quiet (h : WatchInv s N) (hinv : QueueInv g s L q) (htickets : KeepsTickets s s')
    (hflags : KeepsFlags s s' p) : WatchInv s' (N ++ []) := by
  rw [List.append_nil]
  exact ⟨h.ticket.keep htickets fun _ _ => Iff.rfl,
    h.slot.keep hinv hflags (fun _ => Iff.rfl) (fun _ => Iff.rfl) (fun _ => rfl) fun _ hn => hn⟩

theorem start (h : WatchInv s N) (hinv : QueueInv g s L q) (hp : s.thread p = none)
    (op : Operation) : WatchInv (s.start p op) (N ++ []) := by
  apply h.quiet (p := p) hinv
  · refine ⟨by funext o; cases o <;> rfl, ?_⟩
    intro p' c' t hp' ht
    rcases update_some hp' with ⟨rfl, rfl⟩ | ⟨-, hp'⟩
    · cases ht
    · exact ⟨c', hp', rfl, ht⟩
  · refine KeepsFlags.of_no_ticket rfl (fun _ hne => Function.update_of_ne hne _ _) ?_
    intro c hc
    rw [hp] at hc
    cases hc

theorem return_call (h : WatchInv s N) (hinv : QueueInv g s L q) (hp : s.thread p = some c)
    {r : Option ℤ} (hpoint : c.point = .finished r) :
    WatchInv (s.return_call p c r) (N ++ []) := by
  apply h.quiet (p := p) hinv
  · refine ⟨by funext o; cases o <;> rfl, ?_⟩
    intro p' c' t hp' ht
    exact ⟨c', (update_none hp').2, rfl, ht⟩
  · refine KeepsFlags.of_no_ticket rfl (fun _ hne => Function.update_of_ne hne _ _) ?_
    intro c' hc
    obtain rfl : c = c' := by simpa [hp] using hc
    rw [hpoint, Point.ticket]

theorem take_ticket (h : WatchInv s N) (hinv : QueueInv g s L q) (hp : s.thread p = some c)
    (hpoint : c.point = .take_ticket) (hlt : s.counter c.op < 2 ^ 31) :
    WatchInv (s.take_ticket p c) (N ++ [.took c.op (to_int (s.counter c.op))]) := by
  refine ⟨h.ticket.take_ticket hlt, h.slot.keep (p := p) hinv ?_ ?_ ?_ ?_ ?_⟩
  · apply KeepsFlags.of_no_ticket queue_take_ticket
    · intro p' hne
      rw [thread_take_ticket]
      exact thread_go_of_ne hne
    · intro c' hc
      obtain rfl : c = c' := by simpa [hp] using hc
      rw [hpoint, Point.ticket]
  · simp [filled]
  · simp [emptied]
  · simp [increments, List.countP_append]
  · exact fun _ hn => List.mem_append_left _ hn

/-- The point of thread `p` moves on. -/
theorem go (h : WatchInv s N) (hinv : QueueInv g s L q) (hp : s.thread p = some c) {pt : Point}
    (hpt : pt.ticket = c.point.ticket) (howns : c.point.owns → pt.owns) :
    WatchInv (s.go p c pt) (N ++ []) :=
  h.quiet hinv (.go hp (.inl hpt) rfl rfl) (.go hp hpt howns)

theorem store_key (h : WatchInv s N) (hinv : QueueInv g s L q) (hp : s.thread p = some c)
    {pt : Point} {t k : ℤ} (ht : c.point.ticket = some t) (hown : c.point.owns)
    (hpt : pt.ticket = some t) (howns : pt.owns) :
    WatchInv ((s.set_node (idx t) { s.queue (idx t) with key := k }).go p c pt) (N ++ []) := by
  obtain ⟨u, rfl, -⟩ := (hinv.thread p c hp).ticket t ht
  refine h.quiet hinv (.go hp (.inl (hpt.trans ht.symm)) ?_ rfl) (.store_key hp ht hown hpt howns)
  funext o
  cases o <;> rfl

/-- A step of a call, by where the call is. -/
theorem run (h : WatchInv s N) (hinv : QueueInv g s L q) (hp : s.thread p = some c)
    (hrear : s.rear < 2 ^ 31) (hfront : s.front < 2 ^ 31) :
    WatchInv (s.run p c) (N ++ s.note_call c) := by
  unfold TicketQueue.run note_call
  cases hpoint : c.point with
  | take_ticket =>
    apply h.take_ticket hinv hp hpoint
    cases c.op
    · exact hrear
    · exact hfront
  | load_parity t =>
    simp only
    split
    · exact h.go hinv hp (by rw [hpoint]) (by simp [hpoint, Point.owns])
    · exact h.go hinv hp (by rw [hpoint]; rfl) (by simp [hpoint, Point.owns])
  | load_round t =>
    -- Back into the spin loop, or past it: then the call owns the slot.
    simp only
    split
    · exact h.go hinv hp (by rw [hpoint]; rfl) (by simp [hpoint, Point.owns])
    · exact h.go hinv hp (by rw [hpoint]; rfl) (fun _ => rfl)
  | access_key t =>
    simp only
    cases c.op with
    | enqueue key =>
      exact h.store_key hinv hp (by rw [hpoint]; rfl) (by rw [hpoint]; rfl) rfl rfl
    | dequeue => exact h.go hinv hp (by rw [hpoint]; rfl) (fun _ => rfl)
  | clear_key t ret_key =>
    exact h.store_key hinv hp (by rw [hpoint]; rfl) (by rw [hpoint]; rfl) rfl rfl
  | load_flag t r => exact h.go hinv hp (by rw [hpoint]; rfl) (fun _ => rfl)
  | store_flag t r flag =>
    obtain ⟨u, rfl, -⟩ := (hinv.thread p c hp).ticket t (by rw [hpoint]; rfl)
    refine ⟨h.ticket.keep (.go hp (.inr rfl) ?_ rfl) (by simp),
      h.slot.store_flag hinv h.ticket hp hrear hfront hpoint⟩
    funext o
    cases o <;> rfl
  | finished r => exact h.return_call hinv hp hpoint

end WatchInv

/-- The observer is right as long as the tickets are in the range of `int`. -/
theorem watch_inv_reachable {o : Observed TicketQueue Note} (h : Reachable watched_threads o) :
    o.state.enqueues < 2 ^ 31 → o.state.dequeues < 2 ^ 31 → WatchInv o.state o.notes := by
  apply h.invariant
  · intro o hinit _ _
    obtain ⟨hstate, hnotes⟩ := hinit
    rw [hnotes, hstate]
    exact .of_init
  · intro o l o' hreach ih hstep henq hdeq
    obtain ⟨hstep, hnotes⟩ := hstep
    have henq' := Nat.lt_of_le_of_lt (enqueues_step hstep) henq
    have hdeq' := Nat.lt_of_le_of_lt (dequeues_step hstep) hdeq
    obtain ⟨g, L, q, hinv⟩ := queue_inv_reachable hreach.of_observe henq' hdeq'
    have hwatch := ih henq' hdeq'
    obtain ⟨p, l⟩ := l
    rw [hnotes, note_step]
    cases l with
    | call op =>
      obtain ⟨hp, hs⟩ := hstep
      rw [hs]
      exact hwatch.start hinv hp op
    | run =>
      obtain ⟨c, hp, hs⟩ := hstep
      rw [hs, hp]
      exact hwatch.run hinv hp (Nat.lt_of_le_of_lt hinv.rear_le_enqueues henq')
        (Nat.lt_of_le_of_lt hinv.front_le_dequeues hdeq')

/-- The tickets of slot `i`. -/
theorem slot_round {s : TicketQueue} {i : ℕ} (hi : i < QUEUE_SIZE) (r : ℕ) :
    s.slot (r * QUEUE_SIZE + i) = s.queue i := by
  rw [slot, idx_natCast, Nat.mul_add_mod_of_lt hi]

theorem turn_round {i : ℕ} (hi : i < QUEUE_SIZE) (r : ℕ) :
    turn .dequeue (r * QUEUE_SIZE + i) = 2 * r + 1 := by
  have hdiv : (r * QUEUE_SIZE + i) / QUEUE_SIZE = r := by
    rw [Nat.mul_comm, Nat.mul_add_div (by decide), Nat.div_eq_of_lt hi, Nat.add_zero]
  rw [turn, hdiv]

namespace WatchInv

variable {s : TicketQueue} {N : List Note} {i : ℕ}

theorem count_slot (h : WatchInv s N) (hi : i < QUEUE_SIZE) :
    (s.queue i).flag = increments N i := by
  have hcount := h.slot.count (0 * QUEUE_SIZE + i)
  rwa [slot_round hi, idx_natCast, Nat.mul_add_mod_of_lt hi] at hcount

theorem filled_round (h : WatchInv s N) (hi : i < QUEUE_SIZE) (r : ℕ) :
    filled N (r * QUEUE_SIZE + i) ↔ 2 * r + 1 ≤ (s.queue i).flag := by
  rw [h.slot.filled, slot_round hi, turn_round hi]

theorem emptied_round (h : WatchInv s N) (hi : i < QUEUE_SIZE) (r : ℕ) :
    emptied N (r * QUEUE_SIZE + i) ↔ 2 * r + 1 < (s.queue i).flag := by
  rw [h.slot.emptied, slot_round hi, turn_round hi]

/-- An even flag is twice the number of the rounds that are over. -/
theorem even_flag (h : WatchInv s N) (hi : i < QUEUE_SIZE) (r : ℕ) :
    (s.queue i).flag = 2 * r ↔
      (∀ k < r, filled N (k * QUEUE_SIZE + i) ∧ emptied N (k * QUEUE_SIZE + i)) ∧
        ¬ filled N (r * QUEUE_SIZE + i) := by
  simp only [h.filled_round hi, h.emptied_round hi]
  constructor
  · intro hflag
    refine ⟨fun k hk => ?_, ?_⟩ <;> omega
  · rintro ⟨hover, hopen⟩
    cases r with
    | zero =>
      -- The flag counts increments, so it is not negative.
      have hcount := h.count_slot hi
      omega
    | succ r =>
      obtain ⟨-, hlast⟩ := hover r (Nat.lt_succ_self r)
      omega

end WatchInv

/-- **Who owns a slot, and what its flag says.**  As long as fewer than `2 ^ 31`
    enqueues and fewer than `2 ^ 31` dequeues were started, slot `i` has one owner
    at most; its flag is the number of increments and never decreases; it is
    `2 * r` exactly if the rounds before `r` are over and round `r` was not filled;
    and at `2 * r + 1` the slot has the key of the enqueue of round `r`, unless the
    dequeue of round `r` is past its spin loop. -/
theorem slot_ownership {o : Observed TicketQueue Note} (h : Reachable watched_threads o)
    (henq : o.state.enqueues < 2 ^ 31) (hdeq : o.state.dequeues < 2 ^ 31) {i : ℕ}
    (hi : i < QUEUE_SIZE) :
    (∀ p c p' c', o.state.thread p = some c → o.state.thread p' = some c' →
      c.owns_slot i → c'.owns_slot i → p = p') ∧
    (o.state.queue i).flag = increments o.notes i ∧
    (∀ o', Relation.ReflTransGen watched_threads.next o o' → o'.state.enqueues < 2 ^ 31 →
      o'.state.dequeues < 2 ^ 31 → (o.state.queue i).flag ≤ (o'.state.queue i).flag) ∧
    (∀ r : ℕ, (o.state.queue i).flag = 2 * r ↔
      (∀ k < r, filled o.notes (k * QUEUE_SIZE + i) ∧ emptied o.notes (k * QUEUE_SIZE + i)) ∧
        ¬ filled o.notes (r * QUEUE_SIZE + i)) ∧
    (∀ r : ℕ, (o.state.queue i).flag = 2 * r + 1 →
      ∃ key, .took (.enqueue key) (r * QUEUE_SIZE + i : ℕ) ∈ o.notes ∧
        (∀ key', .took (.enqueue key') (r * QUEUE_SIZE + i : ℕ) ∈ o.notes → key' = key) ∧
        ((o.state.queue i).key = key ∨ ∃ p c, o.state.thread p = some c ∧ c.op = .dequeue ∧
          c.point.ticket = some ((r * QUEUE_SIZE + i : ℕ) : ℤ) ∧ c.point.owns)) := by
  obtain ⟨g, L, q, hinv⟩ := queue_inv_reachable h.of_observe henq hdeq
  have hwatch := watch_inv_reachable h henq hdeq
  refine ⟨?_, hwatch.count_slot hi, ?_, hwatch.even_flag hi, ?_⟩
  · -- Two owners of a slot would both have the turn that its flag says.
    rintro p c p' c' hp hp' ⟨howns, x, hx, hidx⟩ ⟨howns', x', hx', hidx'⟩
    obtain ⟨t, rfl, -⟩ := (hinv.thread p c hp).ticket x hx
    obtain ⟨t', rfl, -⟩ := (hinv.thread p' c' hp').ticket x' hx'
    exact hinv.owner_unique hp hp' hx hx' (hidx.trans hidx'.symm)
      ((hinv.thread p c hp).owner t hx howns) ((hinv.thread p' c' hp').owner t' hx' howns')
  · intro o' hsteps henq' hdeq'
    -- The observer erases nothing, so the number of increments can only grow.
    have hwatch' := watch_inv_reachable (h.steps hsteps) henq' hdeq'
    rw [hwatch.count_slot hi, hwatch'.count_slot hi]
    exact Int.ofNat_le.mpr (System.notes_grow hsteps).sublist.countP_le
  · intro r hflag
    have hturn : (o.state.slot (r * QUEUE_SIZE + i)).flag = turn .dequeue (r * QUEUE_SIZE + i) := by
      rw [slot_round hi, turn_round hi, hflag]
    obtain ⟨key, htook, hkey⟩ := hwatch.slot.key _ hturn
    rw [slot_round hi] at hkey
    exact ⟨key, htook, fun key' htook' => hwatch.ticket.key key' key _ htook' htook, hkey⟩

/-- A dequeue waits at slot 0, and an enqueue has filled the slot with 7. -/
def filled_slot : Observed TicketQueue Note :=
  (exec (observed TicketQueue.next TicketQueue.note_step)
    ⟨⟨fun _ => ⟨0, 0⟩, 0, 0, fun _ => none, 0, []⟩, []⟩ (early_dequeue.take 11)).getD
    ⟨⟨fun _ => ⟨0, 0⟩, 0, 0, fun _ => none, 0, []⟩, []⟩

theorem slot_ownership_filled_slot :
    (filled_slot.state.queue 0).flag = 2 * 0 + 1 ∧
      ∃ key, .took (.enqueue key) 0 ∈ filled_slot.notes ∧ key = 7 ∧
        (filled_slot.state.queue 0).key = key := by
  have hrun : exec (observed TicketQueue.next TicketQueue.note_step)
      ⟨⟨fun _ => ⟨0, 0⟩, 0, 0, fun _ => none, 0, []⟩, []⟩ (early_dequeue.take 11) =
        some filled_slot := rfl
  have hinit : watched_threads.init ⟨⟨fun _ => ⟨0, 0⟩, 0, 0, fun _ => none, 0, []⟩, []⟩ :=
    ⟨rfl, rfl⟩
  have hreach : Reachable watched_threads filled_slot :=
    (Reachable.init hinit).exec (fun _ _ _ => System.step_observed fun _ _ _ => step_of_next) hrun
  obtain ⟨-, -, -, -, hkey⟩ := slot_ownership hreach (by decide +kernel) (by decide +kernel)
    (by decide : 0 < QUEUE_SIZE)
  have hflag : (filled_slot.state.queue 0).flag = 2 * 0 + 1 := by decide +kernel
  obtain ⟨key, htook, hunique, -⟩ := hkey 0 hflag
  have hseven : 7 = key := hunique 7 (by decide +kernel)
  exact ⟨hflag, key, htook, hseven.symm, by rw [← hseven]; decide +kernel⟩

end Lab13
