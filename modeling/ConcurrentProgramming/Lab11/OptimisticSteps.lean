import ConcurrentProgramming.Lab11.OptimisticInvariant

/-! # Every Step of the Optimistic List Keeps the Invariant

    A call takes effect

    * at `prev->next = node`, if `list_add` links its node,
    * at the store of `prev->next = curr->next`, if `list_remove` unlinks a node,
    * at the comparison of the keys behind a successful `list_validate` in all
      other cases.

    A `list_add` that has linked its node goes on walking through the list, but as
    long as it does not pass `list_validate` again, it changes nothing.
-/

namespace Lab11.Optimistic

open LTS CInt Linearizability SortedLinks Threads ListState

namespace OptInv

variable {live live' : Finset ℕ} {gone gone' : ℕ → Option ℕ} {n n' : ℕ}
  {L L' : List (Entry Operation Bool)} {s s' : ListState} {h' : Heap}
  {p q fresh prev curr it : ℕ} {c c' cq : Call} {pt : Point} {a b : ℕ} {op : Operation}

/-! ## Section 1: Steps that change no pointer -/

/-- A step that changes no key and no pointer. -/
theorem quiet (h : OptInv live gone n L s) (hp : s.thread p = some c)
    (hkeep : Heap.KeepsNodes s.heap h') (hnext : ∀ b, h'.next b = s.heap.next b)
    (hmutex : ∀ b, h'.mutex b = if b ∈ pt.holds then some p
      else if b ∈ c.point.holds then none else s.heap.mutex b)
    (hfree : ∀ b ∈ pt.holds, b ∉ c.point.holds → s.heap.mutex b = none)
    (howned : ({ c with point := pt } : Call).owned (s.links c.id) = c.owned (s.links c.id))
    (hL : ∀ e ∈ L, e ∈ L') (hL' : ∀ e ∈ L', e ∈ L ∨ e.id = c.id)
    (htracked : Tracked key_set s.history L' (live_keys live s.heap))
    (hresults : ∀ id k r, ⟨id, .add k, r⟩ ∈ L' → (r = true ↔ s.links id = 1))
    (hself : ThreadOk live gone n h' s.history L' (s.links c.id) { c with point := pt }) :
    OptInv live gone n L' (s.go p c h' pt) := by
  apply h.step_of { c with point := pt } s.links hp rfl
  · exact h.sorted.keep hkeep
  · exact fun a _ => hkeep.key a
  · intro a ha htail
    obtain ⟨b, hb, hab⟩ := h.next a ha htail
    exact ⟨b, (hnext a).trans hb, hkeep.adjacent hab⟩
  · exact fun a t ht => (h.removed a t ht).congr (hkeep.allocated a).mpr (hnext a)
  · exact hmutex
  · exact hfree
  · exact fun _ _ => rfl
  · exact fun a ha => .inl (howned ▸ ha)
  · exact hself
  · intro q cq hne hq
    have hokq := h.thread q cq hq
    apply hokq.frame (h.ids_ne hp hq hne) (fun e he => he) hL hL' (fun a ha => ha)
      (fun a _ => hkeep.key a) (fun _ _ _ _ hw => hw) (fun _ _ _ => hkeep.adjacent)
      (fun a _ _ => hnext a)
    intro a ha
    obtain ⟨hlive, hgone, halloc, -⟩ := hokq.owned a ha
    exact ⟨hlive, hgone, (hkeep.allocated a).mpr halloc, hkeep.key a, hnext a⟩
  · rw [SortedNodes.live_keys_congr fun a _ => hkeep.key a]
    exact htracked
  · exact h.once c.id
  · intro id hid
    obtain ⟨k, hk⟩ := h.linked id hid
    exact ⟨k, hL _ hk⟩
  · exact hresults

/-- A step that reads the memory. -/
theorem read (h : OptInv live gone n L s) (hp : s.thread p = some c)
    (hholds : pt.holds = c.point.holds) (hresult : pt.result = c.point.result)
    (howned : ({ c with point := pt } : Call).owned (s.links c.id) = c.owned (s.links c.id))
    (hagain : s.links c.id ≠ 0 → pt.window = none)
    (hpair : ∀ prev curr, pt.pair = some (prev, curr) → known live gone prev ∧
      known live gone curr ∧ s.heap.rank prev < c.op.key ∧ c.op.key ≤ s.heap.rank curr)
    (hwindow : ∀ prev curr, pt.window = some (prev, curr) → Adjacent live s.heap.rank prev curr)
    (hok : point_ok live gone n s.heap { c with point := pt }) :
    OptInv live gone n L (s.go p c s.heap pt) := by
  have hkeep : Heap.KeepsNodes s.heap s.heap := ⟨fun _ => rfl, fun _ => Iff.rfl⟩
  apply h.quiet hp hkeep (fun _ => rfl) (h.locks.same hp hholds fun _ => rfl) _ howned
    (fun _ he => he) (fun _ he => .inl he) h.tracked h.results
  · exact (h.thread p c hp).go hkeep hresult howned hagain hpair hwindow hok
  · intro b hb hb'
    rw [hholds] at hb
    exact absurd hb hb'

/-- The same for a thread that has come to a window. -/
theorem read_window (h : OptInv live gone n L s) (hp : s.thread p = some c)
    (hw : pt.window = some (prev, curr)) (hzero : s.links c.id = 0)
    (hholds : pt.holds = c.point.holds) (hresult : pt.result = c.point.result)
    (howned : ({ c with point := pt } : Call).owned (s.links c.id) = c.owned (s.links c.id))
    (hpair : known live gone prev ∧ known live gone curr ∧ s.heap.rank prev < c.op.key ∧
      c.op.key ≤ s.heap.rank curr)
    (hadj : Adjacent live s.heap.rank prev curr)
    (hok : point_ok live gone n s.heap { c with point := pt }) :
    OptInv live gone n L (s.go p c s.heap pt) := by
  apply h.read hp hholds hresult howned (fun hne => absurd hzero hne) _ _ hok
  · intro prev' curr' hp'
    rw [Point.window_pair hw] at hp'
    cases hp'
    exact hpair
  · intro prev' curr' hw'
    rw [hw] at hw'
    cases hw'
    exact hadj

/-- A thread takes the mutex of a node. -/
theorem lock (h : OptInv live gone n L s) (hp : s.thread p = some c)
    (hlock : s.heap.lock p a = some h') (hholds : ∀ b, b ∈ pt.holds ↔ b = a ∨ b ∈ c.point.holds)
    (hresult : pt.result = c.point.result)
    (howned : ({ c with point := pt } : Call).owned (s.links c.id) = c.owned (s.links c.id))
    (hpair : pt.pair = c.point.pair) (hwindow : pt.window = none)
    (hok : point_ok live gone n h' { c with point := pt }) :
    OptInv live gone n L (s.go p c h' pt) := by
  obtain ⟨hfree, -, hkeep, hnext, hmutex, -⟩ := Heap.lock_spec hlock
  apply h.quiet hp hkeep hnext _ _ howned (fun _ he => he) (fun _ he => .inl he) h.tracked
    h.results
  · apply (h.thread p c hp).go hkeep hresult howned (fun _ => hwindow) _ _ hok
    · rw [hpair]
      exact (h.thread p c hp).pair
    · intro prev curr hw
      rw [hwindow] at hw
      cases hw
  · exact h.locks.lock hp hholds hmutex
  · intro b hb hb'
    rcases (hholds b).mp hb with rfl | hb
    · exact hfree
    · exact absurd hb hb'

/-- A thread releases a mutex. -/
theorem unlock (h : OptInv live gone n L s) (hp : s.thread p = some c)
    (hunlock : s.heap.unlock p a = some h')
    (hholds : ∀ b, b ∈ pt.holds ↔ b ≠ a ∧ b ∈ c.point.holds) (hmem : a ∈ c.point.holds)
    (hresult : pt.result = c.point.result)
    (howned : ({ c with point := pt } : Call).owned (s.links c.id) = c.owned (s.links c.id))
    (hpair : pt.pair = none) (hwindow : pt.window = none)
    (hok : point_ok live gone n h' { c with point := pt }) :
    OptInv live gone n L (s.go p c h' pt) := by
  obtain ⟨-, hkeep, hnext, hmutex, -⟩ := Heap.unlock_spec hunlock
  apply h.quiet hp hkeep hnext _ _ howned (fun _ he => he) (fun _ he => .inl he) h.tracked
    h.results
  · apply (h.thread p c hp).go hkeep hresult howned (fun _ => hwindow) _ _ hok
    · intro prev curr hw
      rw [hpair] at hw
      cases hw
    · intro prev curr hw
      rw [hwindow] at hw
      cases hw
  · exact h.locks.unlock hp hholds hmem hmutex
  · intro b hb hb'
    exact absurd ((hholds b).mp hb).2 hb'

/-! ## Section 2: The walk without locks -/

theorem load_first (h : OptInv live gone n L s) (hp : s.thread p = some c)
    (hc : c.point = .load_first) (hnext : s.heap.next head = some curr) :
    OptInv live gone n L (s.go p c s.heap (.test head curr)) := by
  have hhead : known live gone head := .inl h.sorted.head_mem
  obtain ⟨hcurr, hne⟩ := h.known_next hhead (by decide) hnext
  apply h.read hp
  · simp [hc, Point.holds]
  · simp [hc, Point.result]
  · exact owned_go (by simp [hc]) (by simp)
  · exact fun _ => rfl
  · intro prev' curr' hw
    cases hw
  · intro prev' curr' hw
    cases hw
  · refine ⟨hhead, ?_, hcurr, hne⟩
    rw [Heap.rank_head]
    have := (h.thread p c hp).range.1
    change INT_MIN - 1 < c.op.key
    omega

theorem test (h : OptInv live gone n L s) (hp : s.thread p = some c)
    (hc : c.point = .test prev curr) :
    OptInv live gone n L (s.go p c s.heap
      (if s.heap.key curr < c.op.key then .advance curr else .lock_prev prev curr)) := by
  have hpoint := (h.thread p c hp).point
  rw [point_ok, hc] at hpoint
  obtain ⟨hprev, hlt, hcurr, hne⟩ := hpoint
  have hrank : s.heap.rank curr = s.heap.key curr := Heap.rank_of_ne hne
  split
  · next hless =>
    apply h.read hp
    · simp [hc, Point.holds]
    · simp [hc, Point.result]
    · exact owned_go (by simp [hc]) (by simp)
    · exact fun _ => rfl
    · intro prev' curr' hw
      cases hw
    · intro prev' curr' hw
      cases hw
    · exact ⟨hcurr, hrank ▸ hless⟩
  · next hge =>
    apply h.read hp
    · simp [hc, Point.holds]
    · simp [hc, Point.result]
    · exact owned_go (by simp [hc]) (by simp)
    · exact fun _ => rfl
    · intro prev' curr' hw
      cases hw
      exact ⟨hprev, hcurr, hlt, hrank ▸ Int.not_lt.mp hge⟩
    · intro prev' curr' hw
      cases hw
    · trivial

theorem advance (h : OptInv live gone n L s) (hp : s.thread p = some c)
    (hc : c.point = .advance curr) {next : ℕ} (hnext : s.heap.next curr = some next) :
    OptInv live gone n L (s.go p c s.heap (.test curr next)) := by
  have hpoint := (h.thread p c hp).point
  rw [point_ok, hc] at hpoint
  obtain ⟨hcurr, hlt⟩ := hpoint
  obtain ⟨hknown, hne⟩ := h.known_next hcurr (h.ne_tail hp hlt) hnext
  apply h.read hp
  · simp [hc, Point.holds]
  · simp [hc, Point.result]
  · exact owned_go (by simp [hc]) (by simp)
  · exact fun _ => rfl
  · intro prev' curr' hw
    cases hw
  · intro prev' curr' hw
    cases hw
  · exact ⟨hcurr, hlt, hknown, hne⟩

theorem lock_prev (h : OptInv live gone n L s) (hp : s.thread p = some c)
    (hc : c.point = .lock_prev prev curr) (hlock : s.heap.lock p prev = some h') :
    OptInv live gone n L (s.go p c h' (.lock_curr prev curr)) := by
  apply h.lock hp hlock
  · simp [hc, Point.holds]
  · simp [hc, Point.result]
  · exact owned_go (by simp [hc]) (by simp)
  · simp [hc, Point.pair]
  · rfl
  · trivial

/-- `list_validate` starts at the head. -/
theorem lock_curr (h : OptInv live gone n L s) (hp : s.thread p = some c)
    (hc : c.point = .lock_curr prev curr) (hlock : s.heap.lock p curr = some h') :
    OptInv live gone n L (s.go p c h' (.validate prev curr head)) := by
  obtain ⟨hprev, -, -, -⟩ := (h.thread p c hp).pair prev curr (by rw [hc]; rfl)
  apply h.lock hp hlock
  · intro b
    simp [hc, Point.holds, or_comm]
  · simp [hc, Point.result]
  · exact owned_go (by simp [hc]) (by simp)
  · simp [hc, Point.pair]
  · rfl
  · refine ⟨n, le_rfl, ?_, .inl h.sorted.head_mem⟩
    rcases hprev with hprev | ⟨u, hu⟩
    · exact .inl hprev
    · exact .inr ⟨u, (h.removed prev u hu).past, hu⟩

theorem unlock_prev (h : OptInv live gone n L s) (hp : s.thread p = some c) {r : Option Bool}
    (hc : c.point = .unlock_prev prev curr r) (hunlock : s.heap.unlock p prev = some h') :
    OptInv live gone n L (s.go p c h' (.unlock_curr curr r)) := by
  have hpair : c.point.pair = some (prev, curr) := by rw [hc]; rfl
  have hne := h.pair_ne hp hpair
  have hmem : prev ∈ c.point.holds := by simp [hc, Point.holds]
  apply h.unlock hp hunlock _ hmem
  · simp [hc, Point.result]
  · exact owned_go (by simp [hc]) (by simp)
  · rfl
  · rfl
  · trivial
  · intro b
    simp only [hc, Point.holds, List.mem_cons, List.not_mem_nil, or_false]
    constructor
    · exact fun hb => ⟨hb ▸ hne.symm, .inr hb⟩
    · exact fun hb => hb.2.resolve_left hb.1

theorem unlock_curr (h : OptInv live gone n L s) (hp : s.thread p = some c) {r : Option Bool}
    (hc : c.point = .unlock_curr curr r) (hunlock : s.heap.unlock p curr = some h') :
    OptInv live gone n L (s.go p c h' (after_unlock r)) := by
  have hmem : curr ∈ c.point.holds := by simp [hc, Point.holds]
  have hafter : (after_unlock r).holds = [] ∧ (after_unlock r).pair = none ∧
      (after_unlock r).window = none ∧ (after_unlock r).result = r ∧
      (∀ k, ({ c with point := after_unlock r } : Call).owned k = c.owned k) ∧
      point_ok live gone n h' { c with point := after_unlock r } := by
    unfold Call.owned
    rw [hc]
    cases r <;> cases c.op <;> simp [after_unlock, Point.holds, Point.pair, Point.window,
      Point.result, point_ok]
  obtain ⟨hholds, hpair, hwindow, hresult, howned, hok⟩ := hafter
  apply h.unlock hp hunlock _ hmem _ (howned _) hpair hwindow hok
  · intro b
    rw [hholds, hc]
    simp [Point.holds]
  · rw [hresult, hc]
    rfl

/-! ## Section 3: Validation -/

/-- The next node of a walk. -/
theorem walks_next (h : OptInv live gone n L s) (hw : walks live gone n prev it)
    (htail : it ≠ tail) (hnext : s.heap.next it = some b) : walks live gone n prev b := by
  obtain ⟨t, ht, hprev, hit⟩ := hw
  refine ⟨t, ht, hprev, ?_⟩
  rcases hit with hit | ⟨u, hu, htu⟩
  · obtain ⟨b', hb', hadj⟩ := h.next it hit htail
    rw [hnext, Option.some.injEq] at hb'
    exact .inl (hb' ▸ hadj.right)
  · obtain ⟨b', hb', -, hrest⟩ := (h.removed it u hu).next
    rw [hnext, Option.some.injEq] at hb'
    subst hb'
    rcases hrest with hlive | ⟨u', hu', hlt⟩
    · exact .inl hlive
    · exact .inr ⟨u', hu', htu.trans hlt.le⟩

/-- A walk that reaches `prev` shows that `prev` is in the list. -/
theorem live_of_walks (hw : walks live gone n prev prev) : prev ∈ live := by
  obtain ⟨t, -, hprev, hit⟩ := hw
  rcases hprev with hprev | ⟨u, hut, hu⟩
  · exact hprev
  · rcases hit with hit | ⟨u', hu', htu⟩
    · exact hit
    · rw [hu, Option.some.injEq] at hu'
      omega

/-- `list_validate` returns `false`. -/
theorem give_up (h : OptInv live gone n L s) (hp : s.thread p = some c)
    (hc : c.point = .validate prev curr it) :
    OptInv live gone n L (s.go p c s.heap (.unlock_prev prev curr none)) := by
  apply h.read hp
  · simp [hc, Point.holds]
  · simp [hc, Point.result]
  · exact owned_go (by simp [hc]) (by simp)
  · exact fun _ => rfl
  · intro prev' curr' hw
    cases hw
    exact (h.thread p c hp).pair prev curr (by rw [hc]; rfl)
  · intro prev' curr' hw
    cases hw
  · trivial

/-- The loop of `list_validate` does not run past the tail. -/
theorem walk_ne_tail (h : OptInv live gone n L s) (hp : s.thread p = some c)
    (hlt : s.heap.rank prev < c.op.key) (hle : s.heap.key it ≤ s.heap.key prev) : it ≠ tail := by
  intro heq
  have hmax := (h.thread p c hp).range.2
  rw [heq, h.sorted.tail_key] at hle
  by_cases hhead : prev = head
  · rw [hhead, h.head_key] at hle
    exact absurd hle (by decide)
  · rw [Heap.rank_of_ne hhead] at hlt
    omega

/-- One round of `list_validate`. -/
theorem validate (h : OptInv live gone n L s) (hp : s.thread p = some c)
    (hc : c.point = .validate prev curr it) (hpt : list_validate s.heap prev curr it = some pt)
    (hvalid : 0 < s.links c.id → c.validates s.heap = false) :
    OptInv live gone n L (s.go p c s.heap pt) := by
  have hok := h.thread p c hp
  have hwalks := hok.point
  rw [point_ok, hc] at hwalks
  have hpair := hok.pair prev curr (by rw [hc]; rfl)
  have htail := h.ne_tail hp hpair.2.2.1
  unfold list_validate at hpt
  split at hpt
  · next i m hi hm =>
    have hnext : s.heap.next it = i.next := by simp [Heap.next, hi]
    split at hpt
    · next hle =>
      split at hpt
      · next heq =>
        subst heq
        cases hpt
        split
        · next hcurr =>
          -- `it == prev` and `it->next == curr`: the two nodes are neighbours.
          have hlive := live_of_walks hwalks
          obtain ⟨b, hb, hadj⟩ := h.next it hlive htail
          rw [hnext, hcurr, Option.some.injEq] at hb
          subst hb
          have hzero : s.links c.id = 0 := by
            by_contra hpos
            have := hvalid (Nat.pos_of_ne_zero hpos)
            rw [Call.validates, hc] at this
            simp [hnext, hcurr] at this
          apply h.read_window hp rfl hzero
          · simp [hc, Point.holds]
          · simp [hc, Point.result]
          · exact owned_go (by simp [hc]) (by simp)
          · exact hpair
          · exact hadj
          · trivial
        · exact h.give_up hp hc
      · next hne =>
        obtain ⟨b, hb, rfl⟩ := Option.map_eq_some_iff.mp hpt
        have hit : it ≠ tail := by
          apply h.walk_ne_tail hp hpair.2.2.1
          simpa [Heap.key, hi, hm] using hle
        apply h.read hp
        · simp [hc, Point.holds]
        · simp [hc, Point.result]
        · exact owned_go (by simp [hc]) (by simp)
        · exact fun _ => rfl
        · intro prev' curr' hw
          cases hw
          exact hpair
        · intro prev' curr' hw
          cases hw
        · exact h.walks_next hwalks hit (hnext.trans hb)
    · cases hpt
      exact h.give_up hp hc
  · cases hpt

/-! ## Section 4: The comparison of the keys -/

/-- A call behind `list_validate` has not linked its node. -/
theorem links_eq_zero (h : OptInv live gone n L s) (hp : s.thread p = some c)
    (hw : c.point.window = some (prev, curr)) : s.links c.id = 0 := by
  by_contra hne
  have := ((h.thread p c hp).again hne).2
  rw [hw] at this
  cases this

theorem curr_ne_head (h : OptInv live gone n L s) (hp : s.thread p = some c)
    (hw : c.point.window = some (prev, curr)) : s.heap.rank curr = s.heap.key curr :=
  Heap.rank_of_ne (h.sorted.ne_head ((h.thread p c hp).window prev curr hw))

/-- What the window of a call says about its key. -/
theorem key_mem_iff (h : OptInv live gone n L s) (hp : s.thread p = some c)
    (hw : c.point.window = some (prev, curr)) :
    c.op.key ∈ live_keys live s.heap ↔ s.heap.key curr = c.op.key := by
  have hok := h.thread p c hp
  obtain ⟨-, -, hlt, hle⟩ := hok.pair prev curr (Point.window_pair hw)
  rw [h.curr_ne_head hp hw] at hle
  exact h.sorted.mem_iff (hok.window prev curr hw) hok.range.1 hok.range.2 hlt hle

/-- A call that is not a `list_add` takes effect, or a `list_add` with the result
    `false`. -/
theorem results_concat (h : OptInv live gone n L s) {r : Bool}
    (hzero : s.links c.id = 0) (hadd : ∀ k, c.op = .add k → r = false) :
    ∀ id k r', ⟨id, .add k, r'⟩ ∈ L ++ [⟨c.id, c.op, r⟩] → (r' = true ↔ s.links id = 1) := by
  intro id k r' hmem
  rcases List.mem_append.mp hmem with hmem | hmem
  · exact h.results id k r' hmem
  · have heq := List.mem_singleton.mp hmem
    simp only [Entry.mk.injEq] at heq
    obtain ⟨rfl, hop, rfl⟩ := heq
    rw [hadd k hop.symm, hzero]
    simp

/-- A call takes effect without changing the list. -/
theorem effect_here (h : OptInv live gone n L s) (hp : s.thread p = some c)
    (hc : c.point = .check prev curr) {r : Bool}
    (hr : r = c.op.result (decide (c.op.key ∈ live_keys live s.heap)))
    (hset : c.op.update (live_keys live s.heap) = live_keys live s.heap)
    (hadd : ∀ k, c.op = .add k → r = false) :
    OptInv live gone n (L ++ [⟨c.id, c.op, r⟩])
      (s.go p c s.heap (.unlock_prev prev curr (some r))) := by
  have hok := h.thread p c hp
  have hwindow : c.point.window = some (prev, curr) := by rw [hc]; rfl
  have hzero := h.links_eq_zero hp hwindow
  have howned : ({ c with point := .unlock_prev prev curr (some r) } : Call).owned (s.links c.id) =
      c.owned (s.links c.id) := owned_go (by simp [hc]) (by simp)
  apply h.quiet hp ⟨fun _ => rfl, fun _ => Iff.rfl⟩ (fun _ => rfl)
    (h.locks.same hp (by simp [hc, Point.holds]) fun _ => rfl)
  · intro b hb hb'
    rw [hc] at hb'
    exact absurd hb hb'
  · exact howned
  · exact fun e he => List.mem_append_left _ he
  · exact Entry.mem_or_id
  · exact h.tracked.effect c.id c.op r hok.called (hok.pending (by rw [hc]; rfl) hzero)
      ⟨hr, hset.symm⟩
  · exact h.results_concat hzero hadd
  · refine ⟨hok.called, hok.range, (fun hnone => by cases hnone), ?_, fun hne => absurd hzero hne,
      ?_, (fun prev' curr' hw => by cases hw), trivial, ?_⟩
    · intro r' hr'
      cases hr'
      exact List.mem_append_right _ List.mem_cons_self
    · intro prev' curr' hw
      cases hw
      exact hok.pair prev curr (by rw [hc]; rfl)
    · rw [howned]
      exact hok.owned

theorem check (h : OptInv live gone n L s) (hp : s.thread p = some c)
    (hc : c.point = .check prev curr) :
    ∃ L', OptInv live gone n L' (s.go p c s.heap
      (after_check c.op prev curr (s.heap.key curr = c.op.key))) := by
  have hok := h.thread p c hp
  have hw : c.point.window = some (prev, curr) := by
    rw [hc]
    rfl
  have hadj := hok.window prev curr hw
  have hpair := hok.pair prev curr (Point.window_pair hw)
  have hmem := h.key_mem_iff hp hw
  have hzero := h.links_eq_zero hp hw
  have hrank := h.curr_ne_head hp hw
  cases hop : c.op with
  | add k =>
    rw [hop] at hmem
    by_cases hkey : s.heap.key curr = k
    · refine ⟨L ++ [⟨c.id, c.op, false⟩], ?_⟩
      simp only [after_check, Operation.key, hkey, decide_true, if_true]
      apply h.effect_here hp hc
      · rw [hop, decide_eq_true (hmem.mpr hkey)]
        rfl
      · rw [hop]
        exact Finset.insert_eq_of_mem (hmem.mpr hkey)
      · exact fun _ _ => rfl
    · refine ⟨L, ?_⟩
      simp only [after_check, Operation.key, hkey, decide_false, Bool.false_eq_true, if_false]
      apply h.read_window hp rfl hzero
      · simp [hc, Point.holds]
      · simp [hc, Point.result]
      · exact owned_go (by simp [hc]) (by simp)
      · exact hpair
      · exact hadj
      · refine ⟨⟨k, hop⟩, ?_⟩
        have hle := hpair.2.2.2
        rw [hrank, hop] at hle
        rw [hop]
        exact lt_of_le_of_ne hle (Ne.symm hkey)
  | remove k =>
    rw [hop] at hmem
    by_cases hkey : s.heap.key curr = k
    · refine ⟨L, ?_⟩
      simp only [after_check, Operation.key, hkey, decide_true, if_true]
      apply h.read_window hp rfl hzero
      · simp [hc, Point.holds]
      · simp [hc, Point.result]
      · exact owned_go (by simp [hc]) (by simp)
      · exact hpair
      · exact hadj
      · refine ⟨⟨k, hop⟩, ?_⟩
        rw [hop]
        exact hkey
    · refine ⟨L ++ [⟨c.id, c.op, false⟩], ?_⟩
      simp only [after_check, Operation.key, hkey, decide_false, Bool.false_eq_true, if_false]
      apply h.effect_here hp hc
      · rw [hop, decide_eq_false (fun hin => hkey (hmem.mp hin))]
        rfl
      · rw [hop]
        exact Finset.erase_eq_of_notMem fun hin => hkey (hmem.mp hin)
      · exact fun _ _ => rfl
  | contains k =>
    refine ⟨L ++ [⟨c.id, c.op, decide (s.heap.key curr = k)⟩], ?_⟩
    rw [hop] at hmem
    apply h.effect_here hp hc
    · rw [hop]
      exact (decide_eq_decide.mpr hmem).symm
    · rw [hop]
      rfl
    · intro k' hk'
      rw [hop] at hk'
      cases hk'

/-! ## Section 5: Linking a node -/

theorem malloc (h : OptInv live gone n L s) (hp : s.thread p = some c) (hc : c.point = .malloc)
    (hm : s.heap.malloc fresh c.op.key = some h') :
    OptInv live gone n L (s.go p { c with node := fresh } h' .load_first) := by
  obtain ⟨hnew, hat, hother⟩ := Heap.malloc_spec hm
  obtain ⟨hnext, hmutex⟩ := Heap.malloc_fields hm
  have hok := h.thread p c hp
  obtain ⟨k, hk⟩ : ∃ k, c.op = .add k := by
    have hpoint := hok.point
    rwa [point_ok, hc] at hpoint
  have hunused : ∀ a, s.heap.allocated a → a ≠ fresh := fun a ha heq => hnew (heq ▸ ha)
  have hcell : ∀ a, s.heap.allocated a → h' a = s.heap a := fun a ha => hother a (hunused a ha)
  have halloc : ∀ a, s.heap.allocated a → h'.allocated a := by
    intro a ha
    rwa [Heap.allocated, hcell a ha]
  have hkey : ∀ a, s.heap.allocated a → h'.key a = s.heap.key a := by
    intro a ha
    rw [Heap.key, Heap.key, hcell a ha]
  have hlive : ∀ a ∈ live, h'.key a = s.heap.key a := fun a ha => hkey a (h.sorted.allocated a ha)
  have hadj : ∀ {a b}, Adjacent live s.heap.rank a b → Adjacent live h'.rank a b := fun hadj =>
    hadj.congr fun a ha => Heap.rank_congr (hlive a ha)
  have howner : ∀ a, ({ c with node := fresh, point := .load_first } : Call).owned
      (s.links c.id) = some a → a = fresh := by
    intro a ha
    simp only [Call.owned, hk, Option.ite_none_right_eq_some, Option.some.injEq] at ha
    exact ha.2.symm
  apply h.step_of { c with node := fresh, point := .load_first } s.links hp rfl
  · exact h.sorted.congr hlive fun a ha => halloc a (h.sorted.allocated a ha)
  · exact fun a ha => hkey a (h.known_allocated ha)
  · intro a ha htail
    obtain ⟨b, hb, hab⟩ := h.next a ha htail
    exact ⟨b, (hnext a).trans hb, hadj hab⟩
  · exact fun a t ht => (h.removed a t ht).congr (halloc a) (hnext a)
  · exact h.locks.same hp (by simp [hc, Point.holds]) hmutex
  · exact fun b hb => by simp [Point.holds] at hb
  · exact fun _ _ => rfl
  · intro a ha
    refine .inr fun q cq hq hqa => ?_
    exact hunused a ((h.thread q cq hq).owned a hqa).2.2.1 (howner a ha)
  · refine ⟨hok.called, hok.range, fun _ => hok.pending (by rw [hc]; rfl),
      (fun r hr => by cases hr), fun _ => ⟨rfl, rfl⟩, (fun prev' curr' hw => by cases hw),
      (fun prev' curr' hw => by cases hw), trivial, ?_⟩
    intro a ha
    rw [howner a ha]
    refine ⟨fun hmem => hunused fresh (h.sorted.allocated fresh hmem) rfl, ?_, ?_, ?_⟩
    · cases hg : gone fresh with
      | none => rfl
      | some t => exact absurd rfl (hunused fresh (h.removed fresh t hg).allocated)
    · rw [Heap.allocated, hat]
      exact Option.some_ne_none _
    · simp [Heap.key, hat]
  · intro q cq hne hq
    have hokq := h.thread q cq hq
    apply hokq.frame (h.ids_ne hp hq hne) (fun e he => he) (fun e he => he)
      (fun e he => .inl he) (fun a ha => ha) (fun a ha => hkey a (h.known_allocated ha))
      (fun _ _ _ _ hw => hw) (fun _ _ _ => hadj) (fun a _ _ => hnext a)
    intro a ha
    obtain ⟨hnot, hgone, ha', -⟩ := hokq.owned a ha
    exact ⟨hnot, hgone, halloc a ha', hkey a ha', hnext a⟩
  · rw [SortedNodes.live_keys_congr hlive]
    exact h.tracked
  · exact h.once c.id
  · exact h.linked
  · exact h.results

/-- The node of a call that is about to link it. -/
theorem owner (h : OptInv live gone n L s) (hp : s.thread p = some c) {k : ℤ} (hk : c.op = .add k)
    (hw : c.point.window = some (prev, curr)) : c.owned (s.links c.id) = some c.node := by
  rw [h.links_eq_zero hp hw]
  unfold Call.owned
  rw [hk]
  cases hc : c.point <;> simp_all [Point.window]

theorem set_next (h : OptInv live gone n L s) (hp : s.thread p = some c)
    (hc : c.point = .set_next prev curr) (hstore : s.heap.store_next c.node (some curr) = some h') :
    OptInv live gone n L (s.go p c h' (.link prev curr)) := by
  obtain ⟨hkeep, hmutex, hnext, -⟩ := Heap.store_next_spec hstore
  have hok := h.thread p c hp
  have hw : c.point.window = some (prev, curr) := by
    rw [hc]
    rfl
  have hpoint := hok.point
  rw [point_ok, hc] at hpoint
  obtain ⟨⟨k, hk⟩, hlt⟩ := hpoint
  have howner := h.owner hp hk hw
  obtain ⟨hnode, hgone, -, -⟩ := hok.owned c.node howner
  have hother : ∀ a, known live gone a → h'.next a = s.heap.next a := by
    intro a ha
    rw [hnext, if_neg]
    intro heq
    rw [heq] at ha
    rcases ha with ha | ⟨t, ht⟩
    · exact hnode ha
    · rw [hgone] at ht
      cases ht
  have howned : ({ c with point := .link prev curr } : Call).owned (s.links c.id) =
      c.owned (s.links c.id) := owned_go (by simp [hc]) (by simp)
  apply h.step_of { c with point := .link prev curr } s.links hp rfl
  · exact h.sorted.keep hkeep
  · exact fun a _ => hkeep.key a
  · intro a ha htail
    obtain ⟨b, hb, hab⟩ := h.next a ha htail
    exact ⟨b, (hother a (.inl ha)).trans hb, hkeep.adjacent hab⟩
  · intro a t ht
    exact (h.removed a t ht).congr (hkeep.allocated a).mpr (hother a (.inr ⟨t, ht⟩))
  · exact h.locks.same hp (by simp [hc, Point.holds]) hmutex
  · intro b hb hb'
    rw [hc] at hb'
    exact absurd hb hb'
  · exact fun _ _ => rfl
  · exact fun a ha => .inl (howned ▸ ha)
  · apply hok.go hkeep
    · simp [hc, Point.result]
    · exact howned
    · exact fun hne => absurd (h.links_eq_zero hp hw) hne
    · intro prev' curr' hw'
      cases hw'
      exact hok.pair prev curr (Point.window_pair hw)
    · intro prev' curr' hw'
      cases hw'
      exact hok.window prev curr hw
    · refine ⟨⟨k, hk⟩, ?_, ?_⟩
      · rw [hkeep.key]
        exact hlt
      · rw [hnext, if_pos rfl]
  · intro q cq hne hq
    have hokq := h.thread q cq hq
    apply hokq.frame (h.ids_ne hp hq hne) (fun e he => he) (fun e he => he)
      (fun e he => .inl he) (fun a ha => ha) (fun a _ => hkeep.key a)
      (fun _ _ _ _ hw => hw) (fun _ _ _ => hkeep.adjacent)
    · exact fun a _ => hother a
    · intro a ha
      obtain ⟨hnot, hgone', ha', -⟩ := hokq.owned a ha
      refine ⟨hnot, hgone', (hkeep.allocated a).mpr ha', hkeep.key a, ?_⟩
      rw [hnext, if_neg]
      exact fun heq => hne (h.owned_inj q cq p c a hq hp ha (heq ▸ howner))
  · rw [SortedNodes.live_keys_congr fun a _ => hkeep.key a]
    exact h.tracked
  · exact h.once c.id
  · exact h.linked
  · exact h.results

/-- `list_add` takes effect: the node is in the list. -/
theorem link (h : OptInv live gone n L s) (hp : s.thread p = some c)
    (hc : c.point = .link prev curr) (hstore : s.heap.store_next prev (some c.node) = some h') :
    OptInv (insert c.node live) gone n (L ++ [⟨c.id, c.op, true⟩])
      { s.go p c h' (.unlock_prev prev curr none) with
        links := Function.update s.links c.id (s.links c.id + 1) } := by
  obtain ⟨hkeep, hmutex, hnext, -⟩ := Heap.store_next_spec hstore
  have hok := h.thread p c hp
  have hw : c.point.window = some (prev, curr) := by
    rw [hc]
    rfl
  have hadj := hok.window prev curr hw
  have hpair := hok.pair prev curr (Point.window_pair hw)
  have hzero := h.links_eq_zero hp hw
  have hpoint := hok.point
  rw [point_ok, hc] at hpoint
  obtain ⟨⟨k, hk⟩, hlt', hcurr⟩ := hpoint
  have howner := h.owner hp hk hw
  obtain ⟨hnode, hgone, halloc, hkey⟩ := hok.owned c.node howner
  have hhead : c.node ≠ head := fun heq => hnode (heq ▸ h.sorted.head_mem)
  have hrank : s.heap.rank c.node = c.op.key := (Heap.rank_of_ne hhead).trans hkey
  have hlt : s.heap.rank prev < s.heap.rank c.node := hrank ▸ hpair.2.2.1
  have hrank' : s.heap.rank c.node < s.heap.rank curr := by
    rw [hrank, h.curr_ne_head hp hw]
    exact hlt'
  have hsorted : SortedNodes (insert c.node live) s.heap :=
    h.sorted.insert hadj (hkey ▸ hok.range.1) (hkey ▸ hok.range.2) hnode halloc
      (hkey ▸ hpair.2.2.1) (hkey ▸ hlt')
  have hold : ∀ {a b}, Adjacent live s.heap.rank a b → a ≠ prev →
      Adjacent (insert c.node live) h'.rank a b := fun hab hne =>
    hkeep.adjacent (hadj.insert_ne h.sorted.ranked hlt hrank' hab hne)
  have hlinks : Function.update s.links c.id (s.links c.id + 1) c.id = 1 := by
    rw [Function.update_self, hzero]
  have hlinks' : ∀ id, id ≠ c.id →
      Function.update s.links c.id (s.links c.id + 1) id = s.links id :=
    fun id hid => Function.update_of_ne hid _ _
  have howned : ({ c with point := .unlock_prev prev curr none } : Call).owned 1 = none := by
    simp [Call.owned, hk]
  have hnew : c.id ∉ L.map Entry.id := hok.pending (by rw [hc]; rfl) hzero
  change OptInv _ gone n _ ⟨h', Function.update s.thread p
    (some { c with point := .unlock_prev prev curr none }), s.calls, s.history,
    Function.update s.links c.id (s.links c.id + 1)⟩
  apply h.step_of { c with point := .unlock_prev prev curr none }
    (Function.update s.links c.id (s.links c.id + 1)) hp rfl
  · exact hsorted.keep hkeep
  · exact fun a _ => hkeep.key a
  · -- The pointers: from `prev` to the node, from the node to `curr`.
    intro a ha htail
    rcases Finset.mem_insert.mp ha with rfl | ha
    · have hne : c.node ≠ prev := fun heq => hnode (heq ▸ hadj.left)
      exact ⟨curr, by rw [hnext, if_neg hne, hcurr], hkeep.adjacent (hadj.insert_right hlt hrank')⟩
    · by_cases heq : a = prev
      · subst heq
        exact ⟨c.node, by rw [hnext, if_pos rfl], hkeep.adjacent (hadj.insert_left hlt hrank')⟩
      · obtain ⟨b, hb, hab⟩ := h.next a ha htail
        exact ⟨b, by rw [hnext, if_neg heq, hb], hold hab heq⟩
  · intro a t ht
    have ha := h.removed a t ht
    have hnode' : a ≠ c.node := by
      intro heq
      rw [heq, hgone] at ht
      cases ht
    have hprev : a ≠ prev := fun heq => ha.not_live (heq ▸ hadj.left)
    refine (ha.insert hnode').congr (hkeep.allocated a).mpr ?_
    rw [hnext, if_neg hprev]
  · exact h.locks.same hp (by simp [hc, Point.holds]) hmutex
  · intro b hb hb'
    rw [hc] at hb'
    exact absurd hb hb'
  · exact hlinks'
  · intro a ha
    rw [hlinks, howned] at ha
    cases ha
  · rw [hlinks]
    refine ⟨hok.called, hok.range, (fun _ hone => by cases hone), (fun r hr => by cases hr),
      fun _ => ⟨rfl, rfl⟩, ?_, (fun prev' curr' hw' => by cases hw'), trivial, ?_⟩
    · intro prev' curr' hpr
      cases hpr
      rw [Heap.rank_congr (hkeep.key prev), Heap.rank_congr (hkeep.key curr)]
      exact ⟨hpair.1.insert, hpair.2.1.insert, hpair.2.2⟩
    · intro a ha
      rw [howned] at ha
      cases ha
  · intro q cq hne hq
    have hokq := h.thread q cq hq
    have hprev_held : prev ∈ c.point.holds := Point.window_holds hw
    have hforeign : ∀ a, cq.owned (s.links cq.id) = some a → a ≠ c.node := fun a ha heq =>
      hne (h.owned_inj q cq p c a hq hp ha (heq ▸ howner))
    apply hokq.frame (h.ids_ne hp hq hne) (fun e he => he)
      (fun e he => List.mem_append_left _ he) Entry.mem_or_id (fun _ => known.insert)
      (fun a _ => hkeep.key a) (fun _ _ _ _ => walks.insert)
    · -- A window of another thread is not the one that is split: `prev` is locked.
      intro prev' curr' hw' hab
      refine hold hab fun heq => ?_
      exact h.locks.not_held hp hq hne hprev_held (heq ▸ Point.window_holds hw')
    · intro a ha _
      rw [hnext, if_neg]
      exact fun heq => h.locks.not_held hp hq hne hprev_held (heq ▸ ha)
    · intro a ha
      obtain ⟨hnot, hgone', ha', -⟩ := hokq.owned a ha
      refine ⟨fun hmem => ?_, hgone', (hkeep.allocated a).mpr ha', hkeep.key a, ?_⟩
      · rcases Finset.mem_insert.mp hmem with heq | hmem
        · exact hforeign a ha heq
        · exact hnot hmem
      · rw [hnext, if_neg]
        exact fun heq => hnot (heq ▸ hadj.left)
  · apply h.tracked.effect c.id c.op true hok.called hnew
    have hmem := h.key_mem_iff hp hw
    rw [hk] at hkey hmem hlt' ⊢
    exact h.sorted.add_effect hkeep hnode hkey fun hin => hlt'.ne (hmem.mp hin).symm
  · exact hlinks.le
  · intro id hid
    by_cases heq : id = c.id
    · -- The call has linked its node, and is in the order with the result `true`.
      exact ⟨k, List.mem_append_right _ (List.mem_singleton.mpr (by rw [heq, hk]))⟩
    · rw [hlinks' id heq] at hid
      obtain ⟨k', hk'⟩ := h.linked id hid
      exact ⟨k', List.mem_append_left _ hk'⟩
  · intro id k' r hmem
    rcases List.mem_append.mp hmem with hmem | hmem
    · have hid : id ≠ c.id := fun heq => hnew (heq ▸ List.mem_map_of_mem hmem)
      rw [hlinks' id hid]
      exact h.results id k' r hmem
    · have heq := List.mem_singleton.mp hmem
      simp only [Entry.mk.injEq] at heq
      obtain ⟨rfl, -, rfl⟩ := heq
      exact iff_of_true rfl hlinks

/-! ## Section 6: Unlinking a node -/

theorem load_next (h : OptInv live gone n L s) (hp : s.thread p = some c)
    (hc : c.point = .load_next prev curr) :
    OptInv live gone n L (s.go p c s.heap (.unlink prev curr (s.heap.next curr))) := by
  have hok := h.thread p c hp
  have hw : c.point.window = some (prev, curr) := by
    rw [hc]
    rfl
  have hpoint := hok.point
  rw [point_ok, hc] at hpoint
  apply h.read hp
  · simp [hc, Point.holds]
  · simp [hc, Point.result]
  · exact owned_go (by simp [hc]) (by simp)
  · exact fun hne => absurd (h.links_eq_zero hp hw) hne
  · intro prev' curr' hw'
    cases hw'
    exact hok.pair prev curr (Point.window_pair hw)
  · intro prev' curr' hw'
    cases hw'
    exact hok.window prev curr hw
  · exact ⟨hpoint.1, hpoint.2, rfl⟩

/-- `list_remove` takes effect: the node is not in the list any more. -/
theorem unlink (h : OptInv live gone n L s) (hp : s.thread p = some c) {next : Option ℕ}
    (hc : c.point = .unlink prev curr next) (hstore : s.heap.store_next prev next = some h') :
    OptInv (live.erase curr) (Function.update gone curr (some n)) (n + 1)
      (L ++ [⟨c.id, c.op, true⟩]) (s.go p c h' (.unlock_prev prev curr (some true))) := by
  obtain ⟨hkeep, hmutex, hnext, -⟩ := Heap.store_next_spec hstore
  have hok := h.thread p c hp
  have hw : c.point.window = some (prev, curr) := by
    rw [hc]
    rfl
  have hadj := hok.window prev curr hw
  have hpair := hok.pair prev curr (Point.window_pair hw)
  have hzero := h.links_eq_zero hp hw
  have hpoint := hok.point
  rw [point_ok, hc] at hpoint
  obtain ⟨⟨k, hk⟩, hkey, hcurr⟩ := hpoint
  have hhead := h.sorted.ne_head hadj
  have htail := h.sorted.ne_tail_of_key hkey hok.range.2
  obtain ⟨d, hd, hadj'⟩ := h.next curr hadj.right htail
  have hsorted : SortedNodes (live.erase curr) s.heap := h.sorted.erase hhead htail
  have hgone' : ∀ a, a ≠ curr → Function.update gone curr (some n) a = gone a :=
    fun a ha => Function.update_of_ne ha _ _
  have hprev_held : prev ∈ c.point.holds := Point.window_holds hw
  have hcurr_held : curr ∈ c.point.holds := by simp [hc, Point.holds]
  have howned : ∀ m, ({ c with point := .unlock_prev prev curr (some true) } : Call).owned m =
      none := by
    intro m
    simp [Call.owned, hk]
  apply h.step_of { c with point := .unlock_prev prev curr (some true) } s.links hp rfl
  · exact hsorted.keep hkeep
  · exact fun a _ => hkeep.key a
  · intro a ha htail'
    rw [Finset.mem_erase] at ha
    by_cases heq : a = prev
    · subst heq
      exact ⟨d, by rw [hnext, if_pos rfl, ← hcurr, hd],
        hkeep.adjacent (hadj.erase h.sorted.ranked hadj')⟩
    · obtain ⟨b, hb, hab⟩ := h.next a ha.2 htail'
      exact ⟨b, by rw [hnext, if_neg heq, hb],
        hkeep.adjacent (hadj.erase_ne h.sorted.ranked hab heq ha.1)⟩
  · intro a t ht
    by_cases heq : a = curr
    · subst heq
      rw [Function.update_self, Option.some.injEq] at ht
      subst ht
      -- The removed node keeps its pointer, which leads back into the list.
      refine ⟨Nat.lt_succ_self n, Finset.notMem_erase a live,
        (hkeep.allocated a).mpr (h.sorted.allocated a hadj.right), d, ?_,
        h.sorted.ne_head hadj', ?_⟩
      · rw [hnext, if_neg hadj.ne.symm, hd]
      · exact .inl (Finset.mem_erase.mpr ⟨hadj'.ne.symm, hadj'.right⟩)
    · rw [hgone' a heq] at ht
      have ha := h.removed a t ht
      have hprev : a ≠ prev := fun heq => ha.not_live (heq ▸ hadj.left)
      refine ha.erase.congr (hkeep.allocated a).mpr ?_
      rw [hnext, if_neg hprev]
  · exact h.locks.same hp (by simp [hc, Point.holds]) hmutex
  · intro b hb hb'
    rw [hc] at hb'
    exact absurd hb hb'
  · exact fun _ _ => rfl
  · intro a ha
    rw [howned] at ha
    cases ha
  · refine ⟨hok.called, hok.range, (fun hnone => by cases hnone), ?_, fun hne => absurd hzero hne,
      ?_, (fun prev' curr' hw' => by cases hw'), trivial, ?_⟩
    · intro r hr
      cases hr
      exact List.mem_append_right _ List.mem_cons_self
    · intro prev' curr' hpr
      cases hpr
      rw [Heap.rank_congr (hkeep.key prev), Heap.rank_congr (hkeep.key curr)]
      exact ⟨hpair.1.erase, hpair.2.1.erase, hpair.2.2⟩
    · intro a ha
      rw [howned] at ha
      cases ha
  · intro q cq hne hq
    have hokq := h.thread q cq hq
    have hheld : ∀ a ∈ cq.point.holds, a ≠ prev ∧ a ≠ curr := by
      intro a ha
      exact ⟨fun heq => h.locks.not_held hp hq hne hprev_held (heq ▸ ha),
        fun heq => h.locks.not_held hp hq hne hcurr_held (heq ▸ ha)⟩
    apply hokq.frame (h.ids_ne hp hq hne) (fun e he => he)
      (fun e he => List.mem_append_left _ he) Entry.mem_or_id (fun _ => known.erase)
      (fun a _ => hkeep.key a)
    · -- The thread holds its `prev`, so it is not the node that is removed.
      intro prev' curr' it' hcq hwalks
      exact hwalks.erase (hheld prev' (by simp [hcq, Point.holds])).2
    · intro prev' curr' hw' hab
      obtain ⟨hp₁, hp₂⟩ := hheld prev' (Point.window_holds hw')
      exact hkeep.adjacent (hadj.erase_ne h.sorted.ranked hab hp₁ hp₂)
    · intro a ha _
      rw [hnext, if_neg (hheld a ha).1]
    · intro a ha
      obtain ⟨hnot, hnone, ha', -⟩ := hokq.owned a ha
      have hap : a ≠ prev := fun heq => hnot (heq ▸ hadj.left)
      have hac : a ≠ curr := fun heq => hnot (heq ▸ hadj.right)
      refine ⟨fun hmem => hnot (Finset.mem_of_mem_erase hmem), (hgone' a hac).trans hnone,
        (hkeep.allocated a).mpr ha', hkeep.key a, ?_⟩
      rw [hnext, if_neg hap]
  · apply h.tracked.effect c.id c.op true hok.called (hok.pending (by rw [hc]; rfl) hzero)
    have hmem := h.key_mem_iff hp hw
    rw [hk] at hkey hmem ⊢
    exact h.sorted.remove_effect hkeep hadj.right hhead hkey (hmem.mpr hkey)
  · exact h.once c.id
  · intro id hid
    obtain ⟨k', hk'⟩ := h.linked id hid
    exact ⟨k', List.mem_append_left _ hk'⟩
  · apply h.results_concat hzero
    intro k' hk'
    rw [hk] at hk'
    cases hk'

/-! ## Section 7: Whole runs -/

/-- **Every step inside a call keeps the invariant**, unless a `list_add` that has
    linked its node passes `list_validate` again. -/
theorem run (h : OptInv live gone n L s) (hp : s.thread p = some c)
    (hvalid : 0 < s.links c.id → c.validates s.heap = false)
    (hpoint : ∀ r, c.point ≠ .finished r) (hrun : s.run p c fresh = some s') :
    ∃ live' gone' n' L', OptInv live' gone' n' L' s' := by
  cases hc : c.point with
  | malloc =>
    simp only [ListState.run, hc, Option.map_eq_some_iff] at hrun
    obtain ⟨h', hm, rfl⟩ := hrun
    exact ⟨live, gone, n, L, h.malloc hp hc hm⟩
  | load_first =>
    simp only [ListState.run, hc, Option.map_eq_some_iff] at hrun
    obtain ⟨curr, hnext, rfl⟩ := hrun
    exact ⟨live, gone, n, L, h.load_first hp hc hnext⟩
  | test prev curr =>
    simp only [ListState.run, hc, Option.map_eq_some_iff] at hrun
    obtain ⟨i, hi, rfl⟩ := hrun
    have htest := h.test hp hc
    rw [Heap.key, hi] at htest
    exact ⟨live, gone, n, L, htest⟩
  | advance curr =>
    simp only [ListState.run, hc, Option.map_eq_some_iff] at hrun
    obtain ⟨next, hnext, rfl⟩ := hrun
    exact ⟨live, gone, n, L, h.advance hp hc hnext⟩
  | lock_prev prev curr =>
    simp only [ListState.run, hc, Option.map_eq_some_iff] at hrun
    obtain ⟨h', hlock, rfl⟩ := hrun
    exact ⟨live, gone, n, L, h.lock_prev hp hc hlock⟩
  | lock_curr prev curr =>
    simp only [ListState.run, hc, Option.map_eq_some_iff] at hrun
    obtain ⟨h', hlock, rfl⟩ := hrun
    exact ⟨live, gone, n, L, h.lock_curr hp hc hlock⟩
  | validate prev curr it =>
    simp only [ListState.run, hc, Option.map_eq_some_iff] at hrun
    obtain ⟨pt, hpt, rfl⟩ := hrun
    exact ⟨live, gone, n, L, h.validate hp hc hpt hvalid⟩
  | check prev curr =>
    simp only [ListState.run, hc, Option.map_eq_some_iff] at hrun
    obtain ⟨i, hi, rfl⟩ := hrun
    have hcheck := h.check hp hc
    rw [Heap.key, hi] at hcheck
    exact ⟨live, gone, n, hcheck⟩
  | set_next prev curr =>
    simp only [ListState.run, hc, Option.map_eq_some_iff] at hrun
    obtain ⟨h', hstore, rfl⟩ := hrun
    exact ⟨live, gone, n, L, h.set_next hp hc hstore⟩
  | link prev curr =>
    simp only [ListState.run, hc, Option.map_eq_some_iff] at hrun
    obtain ⟨h', hstore, rfl⟩ := hrun
    exact ⟨_, _, _, _, h.link hp hc hstore⟩
  | load_next prev curr =>
    simp only [ListState.run, hc, Option.map_eq_some_iff] at hrun
    obtain ⟨i, hi, rfl⟩ := hrun
    have hload := h.load_next hp hc
    rw [Heap.next, hi] at hload
    exact ⟨live, gone, n, L, hload⟩
  | unlink prev curr next =>
    simp only [ListState.run, hc, Option.map_eq_some_iff] at hrun
    obtain ⟨h', hstore, rfl⟩ := hrun
    exact ⟨_, _, _, _, h.unlink hp hc hstore⟩
  | unlock_prev prev curr r =>
    simp only [ListState.run, hc, Option.map_eq_some_iff] at hrun
    obtain ⟨h', hunlock, rfl⟩ := hrun
    exact ⟨live, gone, n, L, h.unlock_prev hp hc hunlock⟩
  | unlock_curr curr r =>
    simp only [ListState.run, hc, Option.map_eq_some_iff] at hrun
    obtain ⟨h', hunlock, rfl⟩ := hrun
    exact ⟨live, gone, n, L, h.unlock_curr hp hc hunlock⟩
  | finished r => exact absurd hc (hpoint r)

/-- A thread calls an operation. -/
theorem start (h : OptInv live gone n L s) (hp : s.thread p = none) (hrange : op.in_range) :
    OptInv live gone n L (s.start p op) := by
  have hnew : ∀ o, .call s.calls o ∉ s.history := fun o ho => absurd (h.ids _ _ ho) (lt_irrefl _)
  have hid : ∀ q cq, s.thread q = some cq → cq.id < s.calls := fun q cq hq =>
    h.ids _ _ (h.thread q cq hq).called
  have hfirst : (first_point op).holds = [] ∧ (first_point op).window = none ∧
      (first_point op).pair = none ∧ (first_point op).result = none ∧
      (∀ m, (⟨s.calls, op, head, first_point op⟩ : Call).owned m = none) ∧
      point_ok live gone n s.heap ⟨s.calls, op, head, first_point op⟩ := by
    cases op <;> simp [first_point, Point.holds, Point.window, Point.pair, Point.result, Call.owned,
      point_ok]
  obtain ⟨hholds, hwindow, hpair, hresult, howned, hok⟩ := hfirst
  refine ⟨h.sorted, h.head_key, h.next, h.removed, h.locks.start hp hholds, ?_, ?_, ?_, ?_, ?_,
    h.once, h.linked, h.results⟩
  · intro id o hmem
    change id < s.calls + 1
    rcases List.mem_append.mp hmem with hmem | hmem
    · exact Nat.lt_succ_of_lt (h.ids id o hmem)
    · cases List.mem_singleton.mp hmem
      exact Nat.lt_succ_self _
  · refine h.thread_ids.update fun a ha => .inr fun q cq hq heq => ?_
    cases ha
    exact (hid q cq hq).ne (Option.some.inj heq)
  · refine h.owned_inj.update fun a ha => ?_
    rw [howned] at ha
    cases ha
  · intro q cq hq
    rcases update_some hq with ⟨rfl, rfl⟩ | ⟨hne, hq'⟩
    · refine ⟨List.mem_append_right _ List.mem_cons_self, hrange, ?_, ?_, ?_, ?_, ?_, hok, ?_⟩
      · intro _ _ hmem
        obtain ⟨e, he, heq⟩ := List.mem_map.mp hmem
        have hcalled := h.tracked.called e he
        rw [heq] at hcalled
        exact hnew _ hcalled
      · intro r hr
        rw [hresult] at hr
        cases hr
      · exact fun _ => ⟨hresult, hwindow⟩
      · intro prev curr hw
        rw [hpair] at hw
        cases hw
      · intro prev curr hw
        rw [hwindow] at hw
        cases hw
      · intro a ha
        rw [howned] at ha
        cases ha
    · have hokq := h.thread q cq hq'
      apply hokq.frame (hid q cq hq').ne (fun e he => List.mem_append_left _ he)
        (fun e he => he) (fun e he => .inl he) (fun a ha => ha) (fun _ _ => rfl)
        (fun _ _ _ _ hw => hw) (fun _ _ _ hadj => hadj) (fun _ _ _ => rfl)
      intro a ha
      obtain ⟨hnot, hgone, halloc, -⟩ := hokq.owned a ha
      exact ⟨hnot, hgone, halloc, rfl, rfl⟩
  · exact h.tracked.call s.calls op hnew

/-- A call returns. -/
theorem return_call (h : OptInv live gone n L s) (hp : s.thread p = some c) {r : Bool}
    (hc : c.point = .finished r) : OptInv live gone n L (s.return_call p c r) := by
  refine ⟨h.sorted, h.head_key, h.next, h.removed, h.locks.finish hp (by rw [hc]; rfl), ?_,
    h.thread_ids.finish, h.owned_inj.finish, ?_, ?_, h.once, h.linked, h.results⟩
  · intro id o hmem
    rcases List.mem_append.mp hmem with hmem | hmem
    · exact h.ids id o hmem
    · cases List.mem_singleton.mp hmem
  · intro q cq hq
    have hq' := (update_none hq).2
    have hokq := h.thread q cq hq'
    apply hokq.frame (Nat.succ_ne_self cq.id).symm (fun e he => List.mem_append_left _ he)
      (fun e he => he) (fun e he => .inl he) (fun a ha => ha) (fun _ _ => rfl)
      (fun _ _ _ _ hw => hw) (fun _ _ _ hadj => hadj) (fun _ _ _ => rfl)
    intro a ha
    obtain ⟨hnot, hgone, halloc, -⟩ := hokq.owned a ha
    exact ⟨hnot, hgone, halloc, rfl, rfl⟩
  · exact h.tracked.ret c.id c.op r ((h.thread p c hp).effect r (by rw [hc]; rfl))

theorem initially : OptInv {head, tail} (fun _ => none) 0 [] initial where
  sorted := sorted_nodes_init
  head_key := rfl
  next := fun a ha htail => next_init a ha htail
  removed := by
    intro a t ht
    cases ht
  locks := by
    intro a p
    constructor
    · intro hm
      rw [initial, Heap.mutex_init] at hm
      cases hm
    · intro hq
      obtain ⟨c, hc, -⟩ := hq
      cases hc
  ids := by
    intro id o hmem
    cases hmem
  thread_ids := by
    intro p c q cq a hp
    cases hp
  owned_inj := by
    intro p c q cq a hp
    cases hp
  thread := by
    intro p c hp
    cases hp
  tracked := Tracked.start
  once := fun _ => Nat.zero_le 1
  linked := fun _ hid => absurd rfl hid
  results := by
    intro id k r hmem
    cases hmem

end OptInv

/-- **The invariant holds in every state of a run that links at most once in every
    call.** -/
theorem opt_inv_of_reachable {s : ListState} (h : Reachable (list_threads.restrict links_once) s) :
    ∃ live gone n L, OptInv live gone n L s := by
  apply h.invariant
  · intro s hs
    have hinit : s = initial := hs
    subst hinit
    exact ⟨_, _, _, _, OptInv.initially⟩
  · intro s l s' _ hinv hstep
    obtain ⟨live, gone, n, L, hinv⟩ := hinv
    obtain ⟨hok, hstep⟩ := hstep
    obtain ⟨p, l⟩ := l
    cases l with
    | call op =>
      obtain ⟨hp, hrange, rfl⟩ := hstep
      exact ⟨live, gone, n, L, hinv.start hp hrange⟩
    | run fresh =>
      obtain ⟨c, hp, hrun⟩ := hstep
      cases hc : c.point with
      | finished r =>
        simp only [ListState.run, hc, Option.some.injEq] at hrun
        subst hrun
        exact ⟨live, gone, n, L, hinv.return_call hp hc⟩
      | _ => exact hinv.run hp (hok c hp) (by simp [hc]) hrun

end Lab11.Optimistic
