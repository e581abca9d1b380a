import ConcurrentProgramming.Framework.Threads
import ConcurrentProgramming.Lab11.Optimistic
import ConcurrentProgramming.Lab11.SortedNodes

/-! # The Invariant of the Optimistic List

    `live` are the nodes of the list.  A removed node keeps its pointer, so a
    thread that stands on it can still walk on.  `gone a` numbers the removals,
    and the pointer of a removed node leads to a node that was removed later or is
    still in the list.

    `list_validate` starts at the head, after `prev` and `curr` were locked.  It
    can only reach nodes that were in the list at some time since then.  Nobody
    else can remove a locked node, so a `prev` that it reaches is still in the
    list, and its pointer leads to its neighbour.
-/

namespace Lab11.Optimistic

open LTS CInt Linearizability SortedLinks Threads ListState

/-! ## Section 1: What a thread may rely on -/

namespace Point

/-- The nodes whose mutexes a call holds. -/
def holds : Point → List ℕ
  | .lock_curr prev _ => [prev]
  | .validate prev curr _ => [prev, curr]
  | .check prev curr => [prev, curr]
  | .set_next prev curr => [prev, curr]
  | .link prev curr => [prev, curr]
  | .load_next prev curr => [prev, curr]
  | .unlink prev curr _ => [prev, curr]
  | .unlock_prev prev curr _ => [prev, curr]
  | .unlock_curr curr _ => [curr]
  | _ => []

/-- The two nodes that a call has found for its key. -/
def pair : Point → Option (ℕ × ℕ)
  | .lock_prev prev curr => some (prev, curr)
  | .lock_curr prev curr => some (prev, curr)
  | .validate prev curr _ => some (prev, curr)
  | .check prev curr => some (prev, curr)
  | .set_next prev curr => some (prev, curr)
  | .link prev curr => some (prev, curr)
  | .load_next prev curr => some (prev, curr)
  | .unlink prev curr _ => some (prev, curr)
  | .unlock_prev prev curr _ => some (prev, curr)
  | _ => none

/-- Two nodes that passed `list_validate`. -/
def window : Point → Option (ℕ × ℕ)
  | .check prev curr => some (prev, curr)
  | .set_next prev curr => some (prev, curr)
  | .link prev curr => some (prev, curr)
  | .load_next prev curr => some (prev, curr)
  | .unlink prev curr _ => some (prev, curr)
  | _ => none

/-- The value that a call is about to return. -/
def result : Point → Option Bool
  | .unlock_prev _ _ r => r
  | .unlock_curr _ r => r
  | .finished r => some r
  | _ => none

theorem window_holds {pt : Point} {prev curr : ℕ} (h : pt.window = some (prev, curr)) :
    prev ∈ pt.holds := by
  cases pt <;> simp_all [window, holds]

theorem window_pair {pt : Point} {prev curr : ℕ} (h : pt.window = some (prev, curr)) :
    pt.pair = some (prev, curr) := by
  cases pt <;> simp_all [window, pair]

end Point

/-- The node of a `list_add` that has linked it `n` times. -/
def Call.owned (c : Call) (n : ℕ) : Option ℕ :=
  match c.op, c.point with
  | .add _, .malloc => none
  | .add _, _ => if n = 0 then some c.node else none
  | _, _ => none

theorem owned_go {c : Call} {pt : Point} {n : ℕ} (hc : c.point ≠ .malloc) (hpt : pt ≠ .malloc) :
    ({ c with point := pt } : Call).owned n = c.owned n := by
  unfold Call.owned
  cases hop : c.op with
  | add k =>
    cases hpt' : pt <;> cases hc' : c.point <;> simp_all
  | remove k => rfl
  | contains k => rfl

/-- The node is in the list or was removed from it. -/
def known (live : Finset ℕ) (gone : ℕ → Option ℕ) (a : ℕ) : Prop := a ∈ live ∨ ∃ t, gone a = some t

/-- Since a moment between the lock of `prev` and now, `it` has been in the list
    for some time; if `prev` was removed, then before this moment. -/
def walks (live : Finset ℕ) (gone : ℕ → Option ℕ) (n prev it : ℕ) : Prop :=
  ∃ t ≤ n, (prev ∈ live ∨ ∃ u < t, gone prev = some u) ∧ (it ∈ live ∨ ∃ u, gone it = some u ∧ t ≤ u)

/-- What a call knows at its point. -/
def point_ok (live : Finset ℕ) (gone : ℕ → Option ℕ) (n : ℕ) (h : Heap) (c : Call) : Prop :=
  match c.point with
  | .malloc => ∃ k, c.op = .add k
  | .test prev curr => known live gone prev ∧ h.rank prev < c.op.key ∧ known live gone curr ∧
      curr ≠ head
  | .advance curr => known live gone curr ∧ h.rank curr < c.op.key
  | .validate prev _ it => walks live gone n prev it
  | .set_next _ curr => (∃ k, c.op = .add k) ∧ c.op.key < h.key curr
  | .link _ curr => (∃ k, c.op = .add k) ∧ c.op.key < h.key curr ∧ h.next c.node = some curr
  | .load_next _ curr => (∃ k, c.op = .remove k) ∧ h.key curr = c.op.key
  | .unlink _ curr next => (∃ k, c.op = .remove k) ∧ h.key curr = c.op.key ∧ h.next curr = next
  | _ => True

/-- `links` says how often the call has linked its node. -/
structure ThreadOk (live : Finset ℕ) (gone : ℕ → Option ℕ) (n : ℕ) (h : Heap)
    (H : List (Event Operation Bool)) (L : List (Entry Operation Bool)) (links : ℕ) (c : Call) :
    Prop where
  called  : .call c.id c.op ∈ H
  range   : c.op.in_range
  pending : c.point.result = none → links = 0 → c.id ∉ L.map Entry.id
  effect  : ∀ r, c.point.result = some r → ⟨c.id, c.op, r⟩ ∈ L
  again   : links ≠ 0 → c.point.result = none ∧ c.point.window = none
  pair    : ∀ prev curr, c.point.pair = some (prev, curr) →
    known live gone prev ∧ known live gone curr ∧ h.rank prev < c.op.key ∧ c.op.key ≤ h.rank curr
  window  : ∀ prev curr, c.point.window = some (prev, curr) → Adjacent live h.rank prev curr
  point   : point_ok live gone n h c
  owned   : ∀ a, c.owned links = some a →
    a ∉ live ∧ gone a = none ∧ h.allocated a ∧ h.key a = c.op.key

/-- A removed node. -/
structure GoneOk (live : Finset ℕ) (gone : ℕ → Option ℕ) (n : ℕ) (h : Heap) (a t : ℕ) : Prop where
  past      : t < n
  not_live  : a ∉ live
  allocated : h.allocated a
  next      : ∃ b, h.next a = some b ∧ b ≠ head ∧ (b ∈ live ∨ ∃ u, gone b = some u ∧ t < u)

section nodes

variable {live : Finset ℕ} {gone : ℕ → Option ℕ} {n : ℕ} {h h' : Heap} {a b t prev it : ℕ}

/-- When `a` is removed at the time `n`, a node that is in the list or was removed
    at a time with `P` still is. -/
theorem live_or_gone_erase {P : ℕ → Prop} (hn : P n)
    (hb : b ∈ live ∨ ∃ u, gone b = some u ∧ P u) :
    b ∈ live.erase a ∨ ∃ u, Function.update gone a (some n) b = some u ∧ P u := by
  by_cases heq : b = a
  · exact .inr ⟨n, by rw [heq, Function.update_self], hn⟩
  · rw [Function.update_of_ne heq]
    exact hb.imp_left fun hlive => Finset.mem_erase.mpr ⟨heq, hlive⟩

theorem known.insert (hb : known live gone b) : known (insert a live) gone b :=
  hb.imp_left Finset.mem_insert_of_mem

theorem known.erase (hb : known live gone b) :
    known (live.erase a) (Function.update gone a (some n)) b := by
  unfold known at hb ⊢
  simpa only [and_true] using
    live_or_gone_erase (P := fun _ => True) trivial (by simpa only [and_true] using hb)

theorem walks.insert (hw : walks live gone n prev it) : walks (insert a live) gone n prev it := by
  obtain ⟨t, ht, hprev, hit⟩ := hw
  exact ⟨t, ht, hprev.imp_left Finset.mem_insert_of_mem, hit.imp_left Finset.mem_insert_of_mem⟩

/-- A walk from a node that is not removed goes on. -/
theorem walks.erase (hw : walks live gone n prev it) (hne : prev ≠ a) :
    walks (live.erase a) (Function.update gone a (some n)) (n + 1) prev it := by
  obtain ⟨t, ht, hprev, hit⟩ := hw
  refine ⟨t, Nat.le_succ_of_le ht, ?_, live_or_gone_erase ht hit⟩
  rw [Function.update_of_ne hne]
  exact hprev.imp_left fun hlive => Finset.mem_erase.mpr ⟨hne, hlive⟩

theorem GoneOk.congr (ha : GoneOk live gone n h a t) (halloc : h.allocated a → h'.allocated a)
    (hnext : h'.next a = h.next a) : GoneOk live gone n h' a t where
  past := ha.past
  not_live := ha.not_live
  allocated := halloc ha.allocated
  next := by
    rw [hnext]
    exact ha.next

theorem GoneOk.insert (hb : GoneOk live gone n h b t) (hne : b ≠ a) :
    GoneOk (insert a live) gone n h b t where
  past := hb.past
  not_live := by
    rw [Finset.mem_insert]
    exact not_or.mpr ⟨hne, hb.not_live⟩
  allocated := hb.allocated
  next := by
    obtain ⟨d, hd, hhead, hrest⟩ := hb.next
    exact ⟨d, hd, hhead, hrest.imp_left Finset.mem_insert_of_mem⟩

theorem GoneOk.erase (hb : GoneOk live gone n h b t) :
    GoneOk (live.erase a) (Function.update gone a (some n)) (n + 1) h b t where
  past := Nat.lt_succ_of_lt hb.past
  not_live := fun hmem => hb.not_live (Finset.mem_of_mem_erase hmem)
  allocated := hb.allocated
  next := by
    obtain ⟨d, hd, hhead, hrest⟩ := hb.next
    exact ⟨d, hd, hhead, live_or_gone_erase hb.past hrest⟩

end nodes

/-- The invariant of the list. -/
structure OptInv (live : Finset ℕ) (gone : ℕ → Option ℕ) (n : ℕ) (L : List (Entry Operation Bool))
    (s : ListState) : Prop where
  sorted     : SortedNodes live s.heap
  head_key   : s.heap.key head = INT_MIN
  next       : ∀ a ∈ live, a ≠ tail → ∃ b, s.heap.next a = some b ∧ Adjacent live s.heap.rank a b
  removed    : ∀ a t, gone a = some t → GoneOk live gone n s.heap a t
  locks      : Locked s.heap.mutex s.thread fun c => c.point.holds
  ids        : ∀ id o, .call id o ∈ s.history → id < s.calls
  thread_ids : Distinct s.thread fun c => some c.id
  owned_inj  : Distinct s.thread fun c => c.owned (s.links c.id)
  thread     : ∀ p c, s.thread p = some c →
    ThreadOk live gone n s.heap s.history L (s.links c.id) c
  tracked    : Tracked key_set s.history L (live_keys live s.heap)
  once       : ∀ id, s.links id ≤ 1
  linked     : ∀ id, s.links id ≠ 0 → ∃ k, ⟨id, .add k, true⟩ ∈ L
  results    : ∀ id k r, ⟨id, .add k, r⟩ ∈ L → (r = true ↔ s.links id = 1)

/-! ## Section 2: Steps of the other threads -/

namespace ThreadOk

variable {live live' : Finset ℕ} {gone gone' : ℕ → Option ℕ} {n n' : ℕ} {h h' : Heap}
  {H H' : List (Event Operation Bool)} {L L' : List (Entry Operation Bool)} {links : ℕ} {c : Call}

/-- What a step of another call, with another `id`, may change. -/
theorem frame (hok : ThreadOk live gone n h H L links c) {id : ℕ} (hid : c.id ≠ id)
    (hH : ∀ e ∈ H, e ∈ H') (hL : ∀ e ∈ L, e ∈ L') (hL' : ∀ e ∈ L', e ∈ L ∨ e.id = id)
    (hknown : ∀ a, known live gone a → known live' gone' a)
    (hkey : ∀ a, known live gone a → h'.key a = h.key a)
    (hwalks : ∀ prev curr it, c.point = .validate prev curr it →
      walks live gone n prev it → walks live' gone' n' prev it)
    (hwindow : ∀ prev curr, c.point.window = some (prev, curr) →
      Adjacent live h.rank prev curr → Adjacent live' h'.rank prev curr)
    (hnext : ∀ a ∈ c.point.holds, known live gone a → h'.next a = h.next a)
    (howned : ∀ a, c.owned links = some a → a ∉ live' ∧ gone' a = none ∧ h'.allocated a ∧
      h'.key a = h.key a ∧ h'.next a = h.next a) :
    ThreadOk live' gone' n' h' H' L' links c where
  called := hH _ hok.called
  range := hok.range
  pending := by
    intro hr hlinks hmem
    obtain ⟨e, he, heq⟩ := List.mem_map.mp hmem
    rcases hL' e he with he' | he'
    · exact hok.pending hr hlinks (List.mem_map.mpr ⟨e, he', heq⟩)
    · exact hid (heq.symm.trans he')
  effect := fun r hr => hL _ (hok.effect r hr)
  again := hok.again
  pair := by
    intro prev curr hpair
    obtain ⟨hprev, hcurr, hlt, hle⟩ := hok.pair prev curr hpair
    rw [Heap.rank_congr (hkey prev hprev), Heap.rank_congr (hkey curr hcurr)]
    exact ⟨hknown prev hprev, hknown curr hcurr, hlt, hle⟩
  window := fun prev curr hw => hwindow prev curr hw (hok.window prev curr hw)
  point := by
    have hpoint := hok.point
    have hcurr : ∀ prev curr, c.point.pair = some (prev, curr) → h'.key curr = h.key curr :=
      fun prev curr hpair => hkey curr (hok.pair prev curr hpair).2.1
    unfold point_ok at hpoint ⊢
    split at hpoint <;> rename_i hc
    · exact hpoint
    · obtain ⟨hprev, hlt, hcurr, hhead⟩ := hpoint
      rw [Heap.rank_congr (hkey _ hprev)]
      exact ⟨hknown _ hprev, hlt, hknown _ hcurr, hhead⟩
    · rw [Heap.rank_congr (hkey _ hpoint.1)]
      exact ⟨hknown _ hpoint.1, hpoint.2⟩
    · exact hwalks _ _ _ hc hpoint
    · rwa [hcurr _ _ (by rw [hc]; rfl)]
    · obtain ⟨⟨k, hk⟩, hlt, hnode⟩ := hpoint
      rw [hcurr _ _ (by rw [hc]; rfl)]
      refine ⟨⟨k, hk⟩, hlt, ?_⟩
      by_cases hlinks : links = 0
      · rw [(howned c.node (by simp [Call.owned, hk, hc, hlinks])).2.2.2.2]
        exact hnode
      · -- A call that has linked its node does not come here.
        have := (hok.again hlinks).2
        rw [hc] at this
        cases this
    · rwa [hcurr _ _ (by rw [hc]; rfl)]
    · rwa [hcurr _ _ (by rw [hc]; rfl), hnext _ (by rw [hc]; simp [Point.holds])
        (hok.pair _ _ (by rw [hc]; rfl)).2.1]
    · trivial
  owned := by
    intro a ha
    obtain ⟨hlive, hgone, halloc, hkey', -⟩ := howned a ha
    exact ⟨hlive, hgone, halloc, hkey'.trans (hok.owned a ha).2.2.2⟩

/-- A step of the call itself that changes no node of the list. -/
theorem go (hok : ThreadOk live gone n h H L links c) {pt : Optimistic.Point}
    (hkeep : Heap.KeepsNodes h h') (hresult : pt.result = c.point.result)
    (howned : ({ c with point := pt } : Call).owned links = c.owned links)
    (hagain : links ≠ 0 → pt.window = none)
    (hpair : ∀ prev curr, pt.pair = some (prev, curr) → known live gone prev ∧
      known live gone curr ∧ h.rank prev < c.op.key ∧ c.op.key ≤ h.rank curr)
    (hwindow : ∀ prev curr, pt.window = some (prev, curr) → Adjacent live h.rank prev curr)
    (hpoint : point_ok live gone n h' { c with point := pt }) :
    ThreadOk live gone n h' H L links { c with point := pt } where
  called := hok.called
  range := hok.range
  pending := fun hr => hok.pending (hresult ▸ hr)
  effect := fun r hr => hok.effect r (hresult ▸ hr)
  again := fun hlinks => ⟨hresult.trans (hok.again hlinks).1, hagain hlinks⟩
  pair := by
    intro prev curr hp
    rw [Heap.rank_congr (hkeep.key prev), Heap.rank_congr (hkeep.key curr)]
    exact hpair prev curr hp
  window := fun prev curr hw => hkeep.adjacent (hwindow prev curr hw)
  point := hpoint
  owned := by
    intro a ha
    rw [howned] at ha
    obtain ⟨hlive, hgone, halloc, hkey⟩ := hok.owned a ha
    exact ⟨hlive, hgone, (hkeep.allocated a).mpr halloc, (hkeep.key a).trans hkey⟩

end ThreadOk

/-! ## Section 3: A step of one thread -/

namespace OptInv

variable {live live' : Finset ℕ} {gone gone' : ℕ → Option ℕ} {n n' : ℕ}
  {L L' : List (Entry Operation Bool)} {s : ListState} {h' : Heap} {p q : ℕ} {c c' cq : Call}
  {pt : Point} {a b : ℕ}

theorem ids_ne (h : OptInv live gone n L s) (hp : s.thread p = some c) (hq : s.thread q = some cq)
    (hne : q ≠ p) : cq.id ≠ c.id := fun heq =>
  hne (h.thread_ids q cq p c c.id hq hp (congrArg some heq) rfl)

theorem known_allocated (h : OptInv live gone n L s) (ha : known live gone a) :
    s.heap.allocated a := by
  rcases ha with ha | ⟨t, ht⟩
  · exact h.sorted.allocated a ha
  · exact (h.removed a t ht).allocated

/-- The pointer of a node leads to another one, which is not the head. -/
theorem known_next (h : OptInv live gone n L s) (ha : known live gone a) (htail : a ≠ tail)
    (hnext : s.heap.next a = some b) : known live gone b ∧ b ≠ head := by
  rcases ha with ha | ⟨t, ht⟩
  · obtain ⟨b', hb', hadj⟩ := h.next a ha htail
    rw [hnext, Option.some.injEq] at hb'
    subst hb'
    exact ⟨.inl hadj.right, h.sorted.ne_head hadj⟩
  · obtain ⟨b', hb', hhead, hb⟩ := (h.removed a t ht).next
    rw [hnext, Option.some.injEq] at hb'
    subst hb'
    rcases hb with hb | ⟨u, hu, -⟩
    · exact ⟨.inl hb, hhead⟩
    · exact ⟨.inr ⟨u, hu⟩, hhead⟩

/-- The nodes of a call are different. -/
theorem pair_ne (h : OptInv live gone n L s) (hp : s.thread p = some c) {prev curr : ℕ}
    (hpair : c.point.pair = some (prev, curr)) : prev ≠ curr := by
  obtain ⟨-, -, hlt, hle⟩ := (h.thread p c hp).pair prev curr hpair
  intro heq
  rw [heq] at hlt
  omega

theorem ne_tail (h : OptInv live gone n L s) (hp : s.thread p = some c)
    (hlt : s.heap.rank a < c.op.key) : a ≠ tail := by
  intro heq
  have hmax := (h.thread p c hp).range.2
  rw [heq, h.sorted.rank_tail] at hlt
  omega

/-- The invariant after a step of thread `p`. -/
theorem step_of (h : OptInv live gone n L s) (c' : Call) (links' : ℕ → ℕ)
    (hp : s.thread p = some c) (hid : c'.id = c.id) (hsorted : SortedNodes live' h')
    (hkeys : ∀ a, known live gone a → h'.key a = s.heap.key a)
    (hnext : ∀ a ∈ live', a ≠ tail → ∃ b, h'.next a = some b ∧ Adjacent live' h'.rank a b)
    (hremoved : ∀ a t, gone' a = some t → GoneOk live' gone' n' h' a t)
    (hmutex : ∀ b, h'.mutex b = if b ∈ c'.point.holds then some p
      else if b ∈ c.point.holds then none else s.heap.mutex b)
    (hfree : ∀ b ∈ c'.point.holds, b ∉ c.point.holds → s.heap.mutex b = none)
    (hlinks : ∀ id, id ≠ c.id → links' id = s.links id)
    (howned : ∀ a, c'.owned (links' c.id) = some a → c.owned (s.links c.id) = some a ∨
      ∀ q cq, s.thread q = some cq → cq.owned (s.links cq.id) ≠ some a)
    (hself : ThreadOk live' gone' n' h' s.history L' (links' c.id) c')
    (hothers : ∀ q cq, q ≠ p → s.thread q = some cq →
      ThreadOk live' gone' n' h' s.history L' (s.links cq.id) cq)
    (htracked : Tracked key_set s.history L' (live_keys live' h'))
    (honce : links' c.id ≤ 1) (hlinked : ∀ id, links' id ≠ 0 → ∃ k, ⟨id, .add k, true⟩ ∈ L')
    (hresults : ∀ id k r, ⟨id, .add k, r⟩ ∈ L' → (r = true ↔ links' id = 1)) :
    OptInv live' gone' n' L'
      ⟨h', Function.update s.thread p (some c'), s.calls, s.history, links'⟩ where
  sorted := hsorted
  head_key := (hkeys head (.inl h.sorted.head_mem)).trans h.head_key
  next := hnext
  removed := hremoved
  locks := h.locks.update hp hmutex hfree
  ids := h.ids
  thread_ids := h.thread_ids.update fun a ha => .inl ⟨c, hp, hid ▸ ha⟩
  owned_inj := by
    refine h.owned_inj.update_of (fun q cq hne hq => ?_) (fun a ha => ?_)
    · change cq.owned (links' cq.id) = _
      rw [hlinks cq.id (h.ids_ne hp hq hne)]
    · change c'.owned (links' c'.id) = some a at ha
      rw [hid] at ha
      rcases howned a ha with ha | hnew
      · exact .inl ⟨c, hp, ha⟩
      · exact .inr hnew
  thread := by
    intro q cq hq
    rcases update_some hq with ⟨rfl, rfl⟩ | ⟨hne, hq'⟩
    · change ThreadOk live' gone' n' h' s.history L' (links' cq.id) cq
      rw [hid]
      exact hself
    · change ThreadOk live' gone' n' h' s.history L' (links' cq.id) cq
      rw [hlinks cq.id (h.ids_ne hp hq' hne)]
      exact hothers q cq hne hq'
  tracked := htracked
  once := by
    intro id
    by_cases heq : id = c.id
    · rw [heq]
      exact honce
    · change links' id ≤ 1
      rw [hlinks id heq]
      exact h.once id
  linked := hlinked
  results := hresults

end OptInv

end Lab11.Optimistic
