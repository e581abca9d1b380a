import Mathlib.Data.List.Basic
import Mathlib.Data.List.Nodup
import Mathlib.Data.List.Pairwise
import Mathlib.Data.List.Sublists
import Mathlib.Logic.Function.Basic

/-! # Logs of a Queue of Requests

    What happened at one resource with a queue: requests arrive, are refused or
    granted, and granted ones are released.  Every request has a number of its
    own.

    * `pending`: the requests that have arrived and not left, in the order of
      their arrival.
    * `in_order`: at a grant, all conflicting requests that arrived earlier, and
      were not refused, have been granted and released.
    * `Kept`: the log belongs to a given queue, and all its grants are `in_order`.
      Arrivals, departures, and grants that see no conflicting entry ahead in the
      queue keep this.
-/

namespace ArrivalLog

universe u v

variable {ε : Type u} {α : Type v}

structure Request (ε : Type u) where
  id    : ℕ
  entry : ε
  deriving DecidableEq, Repr

inductive Event (ε : Type u) where
  | enqueue (q : Request ε)
  | refuse (id : ℕ)
  | grant (id : ℕ)
  | release (id : ℕ)
  deriving DecidableEq, Repr

namespace Event

def id : Event ε → ℕ
  | .enqueue q => q.id
  | .refuse id => id
  | .grant id => id
  | .release id => id

def arrival : Event ε → Option (Request ε)
  | .enqueue q => some q
  | _ => none

theorem arrival_eq_some {ev : Event ε} {q : Request ε} : ev.arrival = some q ↔ ev = .enqueue q := by
  cases ev <;> simp [arrival]

end Event

/-- The requests of a log, in the order of their arrival. -/
def arrivals (L : List (Event ε)) : List (Request ε) := L.filterMap Event.arrival

theorem mem_arrivals {L : List (Event ε)} {q : Request ε} : q ∈ arrivals L ↔ .enqueue q ∈ L := by
  simp only [arrivals, List.mem_filterMap, Event.arrival_eq_some]
  exact ⟨fun h => by obtain ⟨ev, hev, rfl⟩ := h; exact hev, fun h => ⟨_, h, rfl⟩⟩

/-- A request has left the queue. -/
def left (L : List (Event ε)) (id : ℕ) : Prop := .refuse id ∈ L ∨ .release id ∈ L

instance [DecidableEq ε] (L : List (Event ε)) (id : ℕ) : Decidable (left L id) :=
  inferInstanceAs (Decidable (_ ∨ _))

section Pending

variable [DecidableEq ε] {L : List (Event ε)} {q : Request ε}

/-- The requests that are in the queue, in the order of their arrival. -/
def pending (L : List (Event ε)) : List (Request ε) :=
  (arrivals L).filter fun q => ¬ left L q.id

theorem mem_pending : q ∈ pending L ↔ .enqueue q ∈ L ∧ ¬ left L q.id := by
  simp [pending, mem_arrivals]

theorem pending_grant (id : ℕ) : pending (L ++ [.grant id]) = pending L := by
  simp [pending, arrivals, Event.arrival, left]

/-- A request with a new number joins at the end. -/
theorem pending_enqueue (hnew : ∀ ev ∈ L, ev.id < q.id) :
    pending (L ++ [.enqueue q]) = pending L ++ [q] := by
  have hrefuse : .refuse q.id ∉ L := fun h => lt_irrefl _ (hnew _ h)
  have hrelease : .release q.id ∉ L := fun h => lt_irrefl _ (hnew _ h)
  simp [pending, arrivals, Event.arrival, left, hrefuse, hrelease]

/-- A request leaves, wherever it is in the queue. -/
theorem pending_leave {ev : Event ε} {id : ℕ} (hev : ev = .refuse id ∨ ev = .release id) :
    pending (L ++ [ev]) = (pending L).filter fun q => q.id ≠ id := by
  have harrival : arrivals (L ++ [ev]) = arrivals L := by
    rcases hev with rfl | rfl <;> simp [arrivals, Event.arrival]
  have hleft : ∀ i, left (L ++ [ev]) i ↔ left L i ∨ i = id := by
    intro i
    rcases hev with rfl | rfl <;> simp [left] <;> tauto
  rw [pending, pending, harrival, List.filter_filter]
  apply List.filter_congr
  intro q _
  simp [hleft, Bool.and_comm]

end Pending

/-- At the end of `before`, where the request `id` is granted: it has arrived, and
    all conflicting requests that arrived earlier and were not refused have been
    granted and released. -/
def in_order (excl : ε → Bool) (before : List (Event ε)) (id : ℕ) : Prop :=
  (∃ e, .enqueue ⟨id, e⟩ ∈ before) ∧
    ∀ l₁ l₂ q e, before = l₁ ++ .enqueue q :: l₂ → .enqueue ⟨id, e⟩ ∈ l₂ →
      (excl q.entry = true ∨ excl e = true) → .refuse q.id ∉ before →
      [.grant q.id, .release q.id].Sublist before

/-- The log `L` belongs to the queue: `n` is the next number, `current` has the
    number of the last request of every owner, and of the entries in the queue
    only those that are `held` have been granted. -/
structure Kept [DecidableEq ε] (owner : ε → α) (excl : ε → Bool) (n : ℕ) (current : α → ℕ)
    (L : List (Event ε)) (queue : List ε) (held : ε → Prop) : Prop where
  fresh    : ∀ ev ∈ L, ev.id < n
  sorted   : (arrivals L).Pairwise fun q q' => q.id < q'.id
  queue_eq : (pending L).map Request.entry = queue
  current  : ∀ q ∈ pending L, current (owner q.entry) = q.id
  granted  : ∀ q ∈ pending L, held q.entry → .grant q.id ∈ L
  released : ∀ id, .release id ∈ L → [.grant id, .release id].Sublist L
  order    : ∀ before after id, L = before ++ .grant id :: after → in_order excl before id

/-- Where an element of a list with a new last element can be. -/
theorem split_concat {β : Type u} {l₁ l₂ L : List β} {x y : β} (h : L ++ [y] = l₁ ++ x :: l₂) :
    (l₁ = L ∧ l₂ = [] ∧ x = y) ∨ ∃ l₂', l₂ = l₂' ++ [y] ∧ L = l₁ ++ x :: l₂' := by
  rcases List.eq_nil_or_concat l₂ with rfl | ⟨l₂', z, rfl⟩
  · obtain ⟨rfl, hy⟩ := List.append_inj' h rfl
    exact .inl ⟨rfl, rfl, (List.singleton_inj.mp hy).symm⟩
  · rw [List.concat_eq_append, ← List.cons_append, ← List.append_assoc] at h
    obtain ⟨rfl, hy⟩ := List.append_inj' h rfl
    rw [List.singleton_inj.mp hy]
    exact .inr ⟨l₂', List.concat_eq_append, rfl⟩

namespace Kept

variable [DecidableEq ε] {owner : ε → α} {excl : ε → Bool} {n : ℕ} {current : α → ℕ}
  {L : List (Event ε)} {queue : List ε} {held : ε → Prop}

theorem start : Kept owner excl n current [] [] held where
  fresh := by simp
  sorted := .nil
  queue_eq := rfl
  current := by simp [pending, arrivals]
  granted := by simp [pending, arrivals]
  released := by simp
  order := by simp

/-- What happens at other resources. -/
theorem frame (h : Kept owner excl n current L queue held) {n' : ℕ} {held' : ε → Prop} (hn : n ≤ n')
    (hheld : ∀ e, held' e → held e) : Kept owner excl n' current L queue held' where
  fresh := fun ev hev => lt_of_lt_of_le (h.fresh ev hev) hn
  sorted := h.sorted
  queue_eq := h.queue_eq
  current := h.current
  granted := fun q hq he => h.granted q hq (hheld _ he)
  released := h.released
  order := h.order

/-- A number stands for one request. -/
theorem eq_of_id (h : Kept owner excl n current L queue held) {q q' : Request ε}
    (hq : .enqueue q ∈ L) (hq' : .enqueue q' ∈ L) (heq : q.id = q'.id) : q = q' := by
  have hnodup : ((arrivals L).map Request.id).Nodup :=
    List.pairwise_map.mpr (h.sorted.imp fun hlt => ne_of_lt hlt)
  exact List.inj_on_of_nodup_map hnodup (mem_arrivals.mpr hq) (mem_arrivals.mpr hq') heq

/-- Events that are not grants keep the order. -/
theorem order_concat (h : Kept owner excl n current L queue held) {ev : Event ε}
    (hev : ∀ id, ev ≠ .grant id) :
    ∀ before after id, L ++ [ev] = before ++ .grant id :: after → in_order excl before id := by
  intro before after id hsplit
  rcases split_concat hsplit with ⟨-, -, hgrant⟩ | ⟨after', -, hold⟩
  · exact absurd hgrant.symm (hev id)
  · exact h.order before after' id hold

/-- **A request arrives.** -/
theorem enqueue [DecidableEq α] (h : Kept owner excl n current L queue held) {e : ε}
    (hnew : owner e ∉ queue.map owner) (hheld : ¬ held e) :
    Kept owner excl (n + 1) (Function.update current (owner e) n) (L ++ [.enqueue ⟨n, e⟩])
      (queue ++ [e]) held where
  fresh := by
    intro ev hev
    rcases List.mem_append.mp hev with hev | hev
    · exact Nat.lt_succ_of_lt (h.fresh ev hev)
    · rw [List.mem_singleton.mp hev]
      exact Nat.lt_succ_self n
  sorted := by
    have harrivals : arrivals (L ++ [.enqueue ⟨n, e⟩]) = arrivals L ++ [⟨n, e⟩] := by
      simp [arrivals, Event.arrival]
    rw [harrivals, List.pairwise_append]
    refine ⟨h.sorted, List.pairwise_singleton _ _, fun q hq q' hq' => ?_⟩
    rw [List.mem_singleton.mp hq']
    exact h.fresh _ (mem_arrivals.mp hq)
  queue_eq := by
    rw [pending_enqueue h.fresh, List.map_append, h.queue_eq]
    rfl
  current := by
    intro q hq
    rw [pending_enqueue h.fresh] at hq
    rcases List.mem_append.mp hq with hq | hq
    · have hne : owner q.entry ≠ owner e := by
        intro heq
        rw [← h.queue_eq, List.map_map] at hnew
        exact hnew (heq ▸ List.mem_map_of_mem hq)
      rw [Function.update_of_ne hne]
      exact h.current q hq
    · rw [List.mem_singleton.mp hq]
      exact Function.update_self _ _ _
  granted := by
    intro q hq he
    rw [pending_enqueue h.fresh] at hq
    rcases List.mem_append.mp hq with hq | hq
    · exact List.mem_append_left _ (h.granted q hq he)
    · rw [List.mem_singleton.mp hq] at he
      exact absurd he hheld
  released := by
    intro id hid
    rcases List.mem_append.mp hid with hid | hid
    · exact (h.released id hid).trans (List.sublist_append_left _ _)
    · simp at hid
  order := h.order_concat (by simp)

/-- **A request leaves**: it is refused, or it was granted and is released. -/
theorem leave (h : Kept owner excl n current L queue held) {ev : Event ε} {id : ℕ}
    (hev : ev = .refuse id ∨ ev = .release id ∧ .grant id ∈ L) (hid : id < n) {queue' : List ε}
    (hqueue : ((pending L).filter fun q => q.id ≠ id).map Request.entry = queue')
    {held' : ε → Prop} (hheld : ∀ e, held' e → held e) :
    Kept owner excl n current (L ++ [ev]) queue' held' := by
  have hpending : pending (L ++ [ev]) = (pending L).filter fun q => q.id ≠ id :=
    pending_leave (hev.imp_right And.left)
  have hmem : ∀ q ∈ pending (L ++ [ev]), q ∈ pending L := by
    intro q hq
    rw [hpending] at hq
    exact List.mem_of_mem_filter hq
  refine ⟨?_, ?_, ?_, ?_, ?_, ?_, ?_⟩
  · intro ev' hev'
    rcases List.mem_append.mp hev' with hev' | hev'
    · exact h.fresh ev' hev'
    · rw [List.mem_singleton.mp hev']
      rcases hev with rfl | ⟨rfl, -⟩ <;> exact hid
  · have harrivals : arrivals (L ++ [ev]) = arrivals L := by
      rcases hev with rfl | ⟨rfl, -⟩ <;> simp [arrivals, Event.arrival]
    rw [harrivals]
    exact h.sorted
  · rw [hpending]
    exact hqueue
  · exact fun q hq => h.current q (hmem q hq)
  · exact fun q hq he => List.mem_append_left _ (h.granted q (hmem q hq) (hheld _ he))
  · intro id' hid'
    rcases List.mem_append.mp hid' with hid' | hid'
    · exact (h.released id' hid').trans (List.sublist_append_left _ _)
    · rcases hev with rfl | ⟨rfl, hgrant⟩
      · simp at hid'
      · cases List.mem_singleton.mp hid'
        exact (List.singleton_sublist.mpr hgrant).append (List.Sublist.refl [Event.release id])
  · apply h.order_concat
    rcases hev with rfl | ⟨rfl, -⟩ <;> simp

/-- A request is refused on arrival. -/
theorem refuse [DecidableEq α] (h : Kept owner excl n current L queue held) {e : ε}
    (hnew : owner e ∉ queue.map owner) (hheld : ¬ held e) :
    Kept owner excl (n + 1) (Function.update current (owner e) n)
      (L ++ [.enqueue ⟨n, e⟩] ++ [.refuse n]) queue held := by
  refine (h.enqueue hnew hheld).leave (.inl rfl) (Nat.lt_succ_self n) ?_ fun _ he => he
  have hold : (pending L).filter (fun q => q.id ≠ n) = pending L :=
    List.filter_eq_self.mpr fun q hq => by
      simpa [Event.id] using (h.fresh _ (mem_pending.mp hq).1).ne
  rw [pending_enqueue h.fresh, List.filter_append, hold, ← h.queue_eq]
  simp

/-- The owner of a granted request leaves. -/
theorem release [DecidableEq α] (h : Kept owner excl n current L queue held) {e : ε}
    (he : e ∈ queue)
    (hheld : held e) {held' : ε → Prop} (hless : ∀ e, held' e → held e) :
    Kept owner excl n current (L ++ [.release (current (owner e))])
      (queue.filter fun x => owner x ≠ owner e) held' := by
  obtain ⟨q₀, hq₀, rfl⟩ : ∃ q₀ ∈ pending L, q₀.entry = e := by
    rw [← h.queue_eq] at he
    exact List.mem_map.mp he
  have hid := h.current q₀ hq₀
  have hold := h.fresh _ (mem_pending.mp hq₀).1
  refine h.leave (.inr ⟨rfl, hid ▸ h.granted q₀ hq₀ hheld⟩) (hid ▸ hold) ?_ hless
  rw [← h.queue_eq, List.filter_map, hid]
  congr 1
  apply List.filter_congr
  intro q hq
  have hiff : q.id ≠ q₀.id ↔ owner q.entry ≠ owner q₀.entry := by
    rw [not_iff_not]
    constructor
    · intro heq
      rw [h.eq_of_id (mem_pending.mp hq).1 (mem_pending.mp hq₀).1 heq]
    · intro heq
      rw [← h.current q hq, heq, hid]
  simp [hiff]

/-- A conflicting request that arrived earlier and was not refused has left, if
    there is no conflicting entry ahead in the queue. -/
theorem in_order_of_ahead (h : Kept owner excl n current L queue held) {e : ε} (he : e ∈ queue)
    (hahead : ∀ front behind, queue = front ++ e :: behind → ∀ x ∈ front,
      excl x = false ∧ excl e = false) : in_order excl L (current (owner e)) := by
  rw [← h.queue_eq] at he
  obtain ⟨q₀, hq₀, rfl⟩ := List.mem_map.mp he
  rw [h.current q₀ hq₀]
  refine ⟨⟨q₀.entry, (mem_pending.mp hq₀).1⟩, ?_⟩
  intro l₁ l₂ q e' hsplit hlater hconflict hrefuse
  have hlater' : .enqueue (⟨q₀.id, e'⟩ : Request ε) ∈ L := by
    rw [hsplit]
    exact List.mem_append_right _ (List.mem_cons_of_mem _ hlater)
  have hsame : (⟨q₀.id, e'⟩ : Request ε) = q₀ :=
    h.eq_of_id hlater' (mem_pending.mp hq₀).1 rfl
  have hentry : e' = q₀.entry := congrArg Request.entry hsame
  -- The earlier request has a smaller number.
  have hlt : q.id < q₀.id := by
    have hsorted := h.sorted
    have harrivals : arrivals L = arrivals l₁ ++ q :: arrivals l₂ := by
      rw [hsplit]
      simp [arrivals, Event.arrival]
    rw [harrivals, List.pairwise_append] at hsorted
    rw [hsame] at hlater
    exact (List.pairwise_cons.mp hsorted.2.1).1 q₀ (mem_arrivals.mpr hlater)
  have hq : .enqueue q ∈ L := by
    rw [hsplit]
    exact List.mem_append_right _ List.mem_cons_self
  by_cases hrelease : .release q.id ∈ L
  · exact h.released q.id hrelease
  · -- Otherwise it is in the queue, and ahead.
    exfalso
    have hpending : q ∈ pending L :=
      mem_pending.mpr ⟨hq, fun hleft => hleft.elim hrefuse hrelease⟩
    obtain ⟨A, B, hAB⟩ := List.append_of_mem hq₀
    have hsorted : (pending L).Pairwise fun q q' => q.id < q'.id := h.sorted.filter _
    have hA : q ∈ A := by
      rw [hAB] at hpending hsorted
      rcases List.mem_append.mp hpending with hA | hB
      · exact hA
      · rcases List.mem_cons.mp hB with rfl | hB
        · exact absurd hlt (lt_irrefl _)
        · have := (List.pairwise_cons.mp (List.pairwise_append.mp hsorted).2.1).1 q hB
          exact absurd this (lt_asymm hlt)
    have hqueue : queue = A.map Request.entry ++ q₀.entry :: B.map Request.entry := by
      rw [← h.queue_eq, hAB]
      simp
    obtain ⟨hx, hx'⟩ := hahead _ _ hqueue q.entry (List.mem_map_of_mem hA)
    rw [hentry, hx, hx'] at hconflict
    simp at hconflict

/-- **A request is granted** that sees no conflicting entry ahead. -/
theorem grant (h : Kept owner excl n current L queue held) {e : ε} (he : e ∈ queue)
    (hahead : ∀ front behind, queue = front ++ e :: behind → ∀ x ∈ front,
      excl x = false ∧ excl e = false)
    {held' : ε → Prop} (hheld : ∀ x, held' x → held x ∨ x = e) :
    Kept owner excl n current (L ++ [.grant (current (owner e))]) queue held' := by
  obtain ⟨q₀, hq₀, hentry⟩ : ∃ q₀ ∈ pending L, q₀.entry = e := by
    rw [← h.queue_eq] at he
    exact List.mem_map.mp he
  refine ⟨?_, ?_, ?_, ?_, ?_, ?_, ?_⟩
  · intro ev hev
    rcases List.mem_append.mp hev with hev | hev
    · exact h.fresh ev hev
    · rw [List.mem_singleton.mp hev, ← hentry, h.current q₀ hq₀]
      exact h.fresh (.enqueue q₀) (mem_pending.mp hq₀).1
  · have harrivals : arrivals (L ++ [.grant (current (owner e))]) = arrivals L := by
      simp [arrivals, Event.arrival]
    rw [harrivals]
    exact h.sorted
  · rw [pending_grant]
    exact h.queue_eq
  · rw [pending_grant]
    exact h.current
  · intro q hq hx
    rw [pending_grant] at hq
    rcases hheld _ hx with hold | rfl
    · exact List.mem_append_left _ (h.granted q hq hold)
    · rw [h.current q hq]
      exact List.mem_append_right _ List.mem_cons_self
  · intro id hid
    rcases List.mem_append.mp hid with hid | hid
    · exact (h.released id hid).trans (List.sublist_append_left _ _)
    · simp at hid
  · intro before after id hsplit
    rcases split_concat hsplit with ⟨rfl, -, hgrant⟩ | ⟨after', -, hold⟩
    · cases hgrant
      exact h.in_order_of_ahead he hahead
    · exact h.order before after' id hold

end Kept

end ArrivalLog
