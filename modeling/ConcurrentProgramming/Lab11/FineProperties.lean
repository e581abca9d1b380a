import ConcurrentProgramming.Lab11.FineSteps

/-! # Properties of the Fine-Grained List

    * **Linearizability** (`fine_list_linearizable`): the nodes from the head to
      the tail are sorted, a removed node is not used any more, and the results
      are those of a set.
    * **No deadlock** (`fine_list_no_deadlock`): threads lock in the order of the
      list, so the last node that anybody waits for is held by a thread that can
      go on.
-/

namespace Lab11.Fine

open LTS Linearizability SortedLinks Threads ListState

/-! ## Section 1: The chain of nodes -/

/-- Where `a->next` leads.  The pointer of a node that `list_add` has linked but
    not completed yet is not set; it will lead to the `curr` of this call. -/
def follows (s : ListState) (a b : ℕ) : Prop :=
  s.heap.next a = some b ∨
    ∃ p c prev, s.thread p = some c ∧ c.point = .set_next prev b ∧ c.node = a

/-- The nodes that the pointers of a call lead to, also the one it waits for. -/
def Point.uses : Point → List ℕ
  | .malloc => []
  | .lock_head => [head]
  | .load_first => [head]
  | .lock_curr prev curr => [prev, curr]
  | .test prev curr => [prev, curr]
  | .unlock_prev prev curr => [prev, curr]
  | .advance curr => [curr]
  | .check prev curr => [prev, curr]
  | .link prev curr => [prev, curr]
  | .set_next prev curr => [prev, curr]
  | .load_next prev curr => [prev, curr]
  | .unlink prev curr next => prev :: curr :: next.toList
  | .unlock_both prev curr _ => [prev, curr]
  | .unlock_curr curr _ => [curr]
  | .free a _ => [a]
  | .finished _ => []

/-- The node that `list_remove` has unlinked and not freed yet. -/
def Call.removed (c : Call) : Option ℕ :=
  match c.op, c.point with
  | .remove _, .unlock_both _ curr true => some curr
  | .remove _, .unlock_curr curr true => some curr
  | .remove _, .free a _ => some a
  | _, _ => none

theorem Call.owned_of_removed {c : Call} {a : ℕ} (h : c.removed = some a) :
    c.owned = some a ∧ ∃ k, c.op = .remove k := by
  obtain ⟨id, op, node, pt⟩ := c
  unfold Call.removed at h
  split at h
  · next hop hpt =>
    cases hop
    cases hpt
    exact ⟨h, _, rfl⟩
  · next hop hpt =>
    cases hop
    cases hpt
    exact ⟨h, _, rfl⟩
  · next hop hpt =>
    cases hop
    cases hpt
    exact ⟨h, _, rfl⟩
  · cases h

namespace FineInv

variable {live : Finset ℕ} {L : List (Entry Operation Bool)} {s : ListState} {p : ℕ} {c : Call}

theorem set_next_owned (h : FineInv live L s) (hp : s.thread p = some c) {prev curr : ℕ}
    (hc : c.point = .set_next prev curr) : ∃ k, c.op = .add k ∧ c.owned = some c.node ∧
      s.heap c.node = some ⟨k, none, none⟩ := by
  have hpoint := (h.thread p c hp).point
  rw [point_ok, hc] at hpoint
  obtain ⟨⟨k, hk⟩, -, -⟩ := hpoint
  have howner : c.owned = some c.node := by simp [Call.owned, hk, hc]
  exact ⟨k, hk, howner, ((h.thread p c hp).owned c.node howner).2.2 k hk⟩

/-- At most one node follows another one. -/
theorem follows_unique (h : FineInv live L s) {a b b' : ℕ} (hb : follows s a b)
    (hb' : follows s a b') : b = b' := by
  have hunset : ∀ {p c prev curr}, s.thread p = some c → c.point = .set_next prev curr →
      s.heap.next c.node = none := by
    intro p c prev curr hp hc
    obtain ⟨k, -, -, hcell⟩ := h.set_next_owned hp hc
    simp [Heap.next, hcell]
  rcases hb with hnext | ⟨p, c, prev, hp, hc, rfl⟩
  · rcases hb' with hnext' | ⟨p', c', prev', hp', hc', rfl⟩
    · rw [hnext, Option.some.injEq] at hnext'
      exact hnext'
    · rw [hunset hp' hc'] at hnext
      cases hnext
  · rcases hb' with hnext' | ⟨p', c', prev', hp', hc', hnode⟩
    · rw [hunset hp hc] at hnext'
      cases hnext'
    · obtain ⟨-, -, howner, -⟩ := h.set_next_owned hp hc
      obtain ⟨-, -, howner', -⟩ := h.set_next_owned hp' hc'
      have hpp := h.owned_inj p c p' c' c.node hp hp' howner (hnode ▸ howner')
      rw [hpp, hp', Option.some.injEq] at hp
      rw [hp, hc] at hc'
      cases hc'
      rfl

/-- A node of the chain is in the list, or `list_add` is about to complete it. -/
def chained (live : Finset ℕ) (s : ListState) (a : ℕ) : Prop :=
  a ∈ live ∨ ∃ p c k, s.thread p = some c ∧ c.op = .add k ∧ c.owned = some a

/-- From every node of the list a sorted chain leads to the tail. -/
theorem chain (h : FineInv live L s) : ∀ a ∈ live, ∃ l, Path (follows s) a l tail ∧
    (l.map s.heap.key).Pairwise (· < ·) ∧ (∀ b ∈ l, s.heap.rank a < s.heap.key b) ∧
    ∀ b ∈ l, chained live s b := by
  refine h.sorted.from_tail ?_ ?_
  · exact ⟨[], .refl tail, List.Pairwise.nil, by simp, by simp⟩
  · intro a b hadj hb
    obtain ⟨l, hpath, hsorted, habove, hchained⟩ := hb
    have hrank : s.heap.rank b = s.heap.key b := Heap.rank_of_ne (h.sorted.ne_head hadj)
    have hlt : s.heap.rank a < s.heap.key b := hrank ▸ hadj.lt
    have hsorted' : ((b :: l).map s.heap.key).Pairwise (· < ·) := by
      rw [List.map_cons, List.pairwise_cons]
      refine ⟨fun k hk => ?_, hsorted⟩
      obtain ⟨x, hx, rfl⟩ := List.mem_map.mp hk
      exact hrank ▸ habove x hx
    have habove' : ∀ {k : ℤ}, k ≤ s.heap.rank b → ∀ x ∈ l, k < s.heap.key x :=
      fun hk x hx => lt_of_le_of_lt hk (habove x hx)
    rcases h.links a hadj.left (h.sorted.left_ne_tail hadj) with
      ⟨b', hnext, hadj'⟩ | ⟨p, c, curr, hp, hc, hnext⟩
    · obtain rfl := hadj'.right_unique h.sorted.ranked hadj
      refine ⟨b' :: l, .step (.inl hnext) hpath, hsorted', ?_, ?_⟩
      · exact List.forall_mem_cons.mpr ⟨hlt, habove' hadj.lt.le⟩
      · exact List.forall_mem_cons.mpr ⟨.inl hadj.right, hchained⟩
    · -- A node is being linked: the chain passes it on the way to `b`.
      obtain ⟨hwin, hprev⟩ := (h.thread p c hp).window a curr (by rw [hc]; rfl)
      obtain rfl := hwin.right_unique h.sorted.ranked hadj
      obtain ⟨k, hk, howner, hcell⟩ := h.set_next_owned hp hc
      have hpoint := (h.thread p c hp).point
      rw [point_ok, hc] at hpoint
      have hkey : s.heap.key c.node = c.op.key := by simp [Heap.key, hcell, hk, Operation.key]
      have hbelow : s.heap.key c.node < s.heap.key curr := hkey ▸ hpoint.2.1
      have hnode : s.heap.rank a < s.heap.key c.node := hkey ▸ hprev
      refine ⟨c.node :: curr :: l, .step (.inl hnext)
        (.step (.inr ⟨p, c, a, hp, hc, rfl⟩) hpath), ?_, ?_, ?_⟩
      · rw [List.map_cons, List.pairwise_cons]
        refine ⟨fun k hk => ?_, hsorted'⟩
        obtain ⟨x, hx, rfl⟩ := List.mem_map.mp hk
        rcases List.mem_cons.mp hx with rfl | hx
        · exact hbelow
        · exact habove' (hrank ▸ hbelow.le) x hx
      · exact List.forall_mem_cons.mpr ⟨hnode,
          List.forall_mem_cons.mpr ⟨hlt, habove' hadj.lt.le⟩⟩
      · exact List.forall_mem_cons.mpr ⟨.inr ⟨p, c, k, hp, hk, howner⟩,
          List.forall_mem_cons.mpr ⟨.inl hadj.right, hchained⟩⟩

/-! ## Section 2: Removed nodes -/

/-- A call uses nodes of the list, or its own. -/
theorem uses_ok (h : FineInv live L s) (hp : s.thread p = some c) :
    ∀ a ∈ c.point.uses, a ∈ live ∨ c.owned = some a := by
  have hok := h.thread p c hp
  have hheld := hok.held
  have hwin : ∀ prev curr, c.point.window = some (prev, curr) → prev ∈ live ∧ curr ∈ live :=
    fun prev curr hw => ⟨(hok.window prev curr hw).1.left, (hok.window prev curr hw).1.right⟩
  have hpoint := hok.point
  cases hc : c.point with
  | malloc => simp [Point.uses]
  | finished r => simp [Point.uses]
  | lock_head => simpa [Point.uses] using .inl h.sorted.head_mem
  | load_first => simpa [Point.uses] using .inl h.sorted.head_mem
  | advance curr =>
    rw [point_ok, hc] at hpoint
    simpa [Point.uses] using .inl hpoint.1
  | unlock_both prev curr r =>
    rw [hc] at hheld
    exact hheld
  | unlock_curr curr r =>
    rw [hc] at hheld
    exact hheld
  | free a r =>
    rw [point_ok, hc] at hpoint
    simpa [Point.uses] using .inr hpoint
  | unlink prev curr next =>
    rw [point_ok, hc] at hpoint
    obtain ⟨⟨k, hk⟩, hkey, hnext⟩ := hpoint
    obtain ⟨hprev, hcurr⟩ := hwin prev curr (by rw [hc]; rfl)
    intro a ha
    simp only [Point.uses, List.mem_cons, Option.mem_toList] at ha
    rcases ha with rfl | rfl | ha
    · exact .inl hprev
    · exact .inl hcurr
    · -- `curr` is not the tail, so its pointer leads to its neighbour.
      have htail := h.sorted.ne_tail_of_key hkey hok.range.2
      exact .inl (h.next_of_held hp (by simp [hc, Point.holds]) hcurr htail (by simp [hc])
        (hnext.trans ha)).right
  | _ prev curr =>
    obtain ⟨hprev, hcurr⟩ := hwin prev curr (by rw [hc]; rfl)
    intro a ha
    simp only [Point.uses, List.mem_cons, List.not_mem_nil, or_false] at ha
    rcases ha with rfl | rfl
    · exact .inl hprev
    · exact .inl hcurr

end FineInv

/-- **The fine-grained list is a linearizable set.**  In every reachable state

    * the nodes that follow the head lead to the tail with strictly increasing
      keys,
    * a node that was removed is not among them, and no other thread uses it or
      waits for it,
    * no thread uses memory that is not allocated,
    * some sequential order of the calls explains their results. -/
theorem fine_list_linearizable {s : ListState} (h : Reachable list_threads s) :
    (∀ a b b', follows s a b → follows s a b' → b = b') ∧
    (∃ l, Path (follows s) head l tail ∧ (l.map s.heap.key).Pairwise (· < ·) ∧
      ∀ p c a, s.thread p = some c → c.removed = some a →
        a ∉ l ∧ ∀ q cq, q ≠ p → s.thread q = some cq → a ∉ cq.point.uses) ∧
    (∀ p c a, s.thread p = some c → a ∈ c.point.uses → s.heap.allocated a) ∧
    ∃ L, Linearizes key_set s.history L := by
  obtain ⟨live, L, hinv⟩ := fine_inv_of_reachable h
  refine ⟨fun a b b' => hinv.follows_unique, ?_, ?_, L, hinv.tracked.linearizes⟩
  · obtain ⟨l, hpath, hsorted, -, hchained⟩ := hinv.chain head hinv.sorted.head_mem
    refine ⟨l, hpath, hsorted, fun p c a hp ha => ?_⟩
    obtain ⟨howner, k, hk⟩ := Call.owned_of_removed ha
    have hnode := ((hinv.thread p c hp).owned a howner).1
    refine ⟨fun hmem => ?_, fun q cq hne hq huse => ?_⟩
    · rcases hchained a hmem with hlive | ⟨q, cq, k', hq, hk', howner'⟩
      · exact hnode hlive
      · obtain rfl := hinv.owned_inj p c q cq a hp hq howner howner'
        rw [hp, Option.some.injEq] at hq
        rw [← hq, hk] at hk'
        cases hk'
    · rcases hinv.uses_ok hq a huse with hlive | howner'
      · exact hnode hlive
      · exact hne (hinv.owned_inj q cq p c a hq hp howner' howner)
  · intro p c a hp ha
    rcases hinv.uses_ok hp a ha with hlive | howner
    · exact hinv.sorted.allocated a hlive
    · exact ((hinv.thread p c hp).owned a howner).2.1

/-- The steps of `list_threads` as a function. -/
def ListState.next (s : ListState) (l : ℕ × ThreadStep) : Option ListState :=
  match l.2, s.thread l.1 with
  | .call op, none => if op.in_range then some (s.start l.1 op) else none
  | .run fresh, some c => s.run l.1 c fresh
  | _, _ => none

theorem step_of_next {s : ListState} {l : ℕ × ThreadStep} {s' : ListState}
    (h : s.next l = some s') : list_threads.step s l s' := by
  obtain ⟨p, l⟩ := l
  unfold ListState.next at h
  cases l with
  | call op =>
    cases hp : s.thread p with
    | none =>
      simp only [hp, Option.ite_none_right_eq_some, Option.some.injEq] at h
      exact ⟨hp, h.1, h.2.symm⟩
    | some c => simp [hp] at h
  | run fresh =>
    cases hp : s.thread p with
    | none => simp [hp] at h
    | some c =>
      simp only [hp] at h
      exact ⟨c, hp, h⟩

theorem reachable_of_exec (ls : List (ℕ × ThreadStep)) {s : ListState}
    (h : exec ListState.next initial ls = some s) : Reachable list_threads s :=
  (Reachable.init rfl : Reachable list_threads initial).exec (fun _ _ _ => step_of_next) h

/-- The first `list_add(5)` up to `prev->next = node`. -/
def half_linked : ListState :=
  (exec ListState.next initial ((0, .call (.add 5)) :: List.replicate 7 (0, .run 2))).getD initial

theorem half_linked_reachable : Reachable list_threads half_linked :=
  reachable_of_exec ((0, .call (.add 5)) :: List.replicate 7 (0, .run 2)) rfl

/-- The pointers themselves need not lead from the head to the tail: between the
    two stores of `list_add` they end at the new node. -/
theorem fine_list_half_linked : Reachable list_threads half_linked ∧
    ¬ ∃ l, Path (fun a b => half_linked.heap.next a = some b) head l tail := by
  refine ⟨half_linked_reachable, fun hpath => ?_⟩
  obtain ⟨l, hpath⟩ := hpath
  have hfirst : half_linked.heap.next head = some 2 := rfl
  have hlast : half_linked.heap.next 2 = none := rfl
  cases hpath with
  | step hnext hrest =>
    rw [hfirst, Option.some.injEq] at hnext
    subst hnext
    cases hrest with
    | step hnext' _ =>
      rw [hlast] at hnext'
      cases hnext'

/-- A `list_add(5)`, and a `list_remove(5)` that has just unlinked the node. -/
def unlinked : ListState :=
  (exec ListState.next initial ((0, .call (.add 5)) :: (List.replicate 11 (0, .run 2) ++
    (1, .call (.remove 5)) :: List.replicate 7 (1, .run 2)))).getD initial

theorem fine_list_unlinked_node :
    (∃ l, Path (follows unlinked) head l tail ∧ 2 ∉ l) ∧
      ∃ L, Linearizes key_set unlinked.history L := by
  have hreach : Reachable list_threads unlinked :=
    reachable_of_exec ((0, .call (.add 5)) :: (List.replicate 11 (0, .run 2) ++
      (1, .call (.remove 5)) :: List.replicate 7 (1, .run 2))) rfl
  obtain ⟨-, ⟨l, hpath, -, hremoved⟩, -, hlin⟩ := fine_list_linearizable hreach
  exact ⟨⟨l, hpath, (hremoved 1 _ 2 rfl rfl).1⟩, hlin⟩

/-! ## Section 3: No deadlock -/

/-- Thread `p` can make a step in its call. -/
def ListState.enabled (s : ListState) (p : ℕ) (c : Call) : Prop :=
  ∃ fresh s', s.run p c fresh = some s'

namespace FineInv

variable {live : Finset ℕ} {L : List (Entry Operation Bool)} {s : ListState} {p : ℕ} {c : Call}

/-- Every node but the tail has a pointer to another one. -/
theorem next_isSome (h : FineInv live L s) {a : ℕ} (ha : a ∈ live) (htail : a ≠ tail) :
    ∃ b, s.heap.next a = some b := by
  rcases h.links a ha htail with ⟨b, hb, -⟩ | ⟨q, cq, curr, -, -, hb⟩
  · exact ⟨b, hb⟩
  · exact ⟨cq.node, hb⟩

/-- A thread can go on, or it waits for a mutex that is held. -/
theorem enabled_or_waits (h : FineInv live L s) (hp : s.thread p = some c) :
    s.enabled p c ∨ (c.point = .lock_head ∧ s.heap.mutex head ≠ none) ∨
      ∃ prev curr, c.point = .lock_curr prev curr ∧ s.heap.mutex curr ≠ none := by
  have hok := h.thread p c hp
  have hpoint := hok.point
  have hunlock : ∀ a ∈ c.point.holds, ∃ h', s.heap.unlock p a = some h' := fun a ha =>
    Heap.unlock_eq_some (h.locks.held hp ha)
  have hnode : ∀ a ∈ live, ∃ n, s.heap a = some n := fun a ha =>
    Option.ne_none_iff_exists'.mp (h.sorted.allocated a ha)
  cases hc : c.point with
  | malloc =>
    obtain ⟨N, hN⟩ := h.bounded
    exact .inl ⟨N, by simp [ListState.run, hc, Heap.malloc, hN N le_rfl]⟩
  | lock_head =>
    by_cases hfree : s.heap.mutex head = none
    · obtain ⟨h', hlock⟩ :=
        Heap.lock_eq_some (p := p) (h.sorted.allocated _ h.sorted.head_mem) hfree
      exact .inl ⟨0, by simp [ListState.run, hc, hlock]⟩
    · exact .inr (.inl ⟨rfl, hfree⟩)
  | load_first =>
    obtain ⟨b, hb⟩ := h.next_isSome h.sorted.head_mem (by decide)
    exact .inl ⟨0, by simp [ListState.run, hc, hb]⟩
  | lock_curr prev curr =>
    have hwin := hok.window prev curr (by rw [hc]; rfl)
    by_cases hfree : s.heap.mutex curr = none
    · obtain ⟨h', hlock⟩ := Heap.lock_eq_some (p := p) (h.sorted.allocated _ hwin.1.right) hfree
      exact .inl ⟨0, by simp [ListState.run, hc, hlock]⟩
    · exact .inr (.inr ⟨prev, curr, rfl, hfree⟩)
  | test prev curr =>
    obtain ⟨n, hn⟩ := hnode curr (hok.window prev curr (by rw [hc]; rfl)).1.right
    exact .inl ⟨0, by simp [ListState.run, hc, hn]⟩
  | unlock_prev prev curr =>
    obtain ⟨h', hu⟩ := hunlock prev (by simp [hc, Point.holds])
    exact .inl ⟨0, by simp [ListState.run, hc, hu]⟩
  | advance curr =>
    rw [point_ok, hc] at hpoint
    have htail : curr ≠ tail := by
      intro heq
      have hmax := hok.range.2
      have hlt := hpoint.2
      rw [heq, h.sorted.rank_tail] at hlt
      omega
    obtain ⟨b, hb⟩ := h.next_isSome hpoint.1 htail
    exact .inl ⟨0, by simp [ListState.run, hc, hb]⟩
  | check prev curr =>
    obtain ⟨n, hn⟩ := hnode curr (hok.window prev curr (by rw [hc]; rfl)).1.right
    exact .inl ⟨0, by simp [ListState.run, hc, hn]⟩
  | link prev curr =>
    obtain ⟨n, hn⟩ := hnode prev (hok.window prev curr (by rw [hc]; rfl)).1.left
    exact .inl ⟨0, by simp [ListState.run, hc, Heap.store_next, hn]⟩
  | set_next prev curr =>
    obtain ⟨k, -, -, hcell⟩ := h.set_next_owned hp hc
    exact .inl ⟨0, by simp [ListState.run, hc, Heap.store_next, hcell]⟩
  | load_next prev curr =>
    obtain ⟨n, hn⟩ := hnode curr (hok.window prev curr (by rw [hc]; rfl)).1.right
    exact .inl ⟨0, by simp [ListState.run, hc, hn]⟩
  | unlink prev curr next =>
    obtain ⟨n, hn⟩ := hnode prev (hok.window prev curr (by rw [hc]; rfl)).1.left
    exact .inl ⟨0, by simp [ListState.run, hc, Heap.store_next, hn]⟩
  | unlock_both prev curr r =>
    obtain ⟨h', hu⟩ := hunlock prev (by simp [hc, Point.holds])
    exact .inl ⟨0, by simp [ListState.run, hc, hu]⟩
  | unlock_curr curr r =>
    obtain ⟨h', hu⟩ := hunlock curr (by simp [hc, Point.holds])
    exact .inl ⟨0, by simp [ListState.run, hc, hu]⟩
  | free a r =>
    rw [point_ok, hc] at hpoint
    obtain ⟨n, hn⟩ := Option.ne_none_iff_exists'.mp (hok.owned a hpoint).2.1
    exact .inl ⟨0, by simp [ListState.run, hc, Heap.free, hn]⟩
  | finished r => exact .inl ⟨0, by simp [ListState.run, hc]⟩

/-- Whoever holds a node of the list can go on, or waits for a thread that can. -/
theorem enabled_of_held (h : FineInv live L s) : ∀ a ∈ live, s.heap.mutex a ≠ none →
    ∃ q cq, s.thread q = some cq ∧ s.enabled q cq := by
  have hholder : ∀ a, s.heap.mutex a ≠ none →
      (∃ q cq, s.thread q = some cq ∧ s.enabled q cq) ∨
        ∃ curr, Adjacent live s.heap.rank a curr ∧ s.heap.mutex curr ≠ none := by
    intro a ha
    obtain ⟨q, hq⟩ := Option.ne_none_iff_exists'.mp ha
    obtain ⟨cq, hq, haq⟩ := h.holder hq
    rcases h.enabled_or_waits hq with hen | ⟨hc, -⟩ | ⟨prev, curr, hc, hcurr⟩
    · exact .inl ⟨q, cq, hq, hen⟩
    · rw [hc] at haq
      simp [Point.holds] at haq
    · rw [hc, Point.holds, List.mem_singleton] at haq
      have hwin := (h.thread q cq hq).window prev curr (by rw [hc]; rfl)
      exact .inr ⟨curr, haq ▸ hwin.1, hcurr⟩
  -- Induction from the tail, which is the last node to be locked.
  refine h.sorted.from_tail ?_ ?_
  · intro htail
    rcases hholder tail htail with hen | ⟨curr, hadj, -⟩
    · exact hen
    · exact absurd rfl (h.sorted.left_ne_tail hadj)
  · intro a b hadj ih ha
    rcases hholder a ha with hen | ⟨curr, hadj', hcurr⟩
    · exact hen
    · exact ih (hadj'.right_unique h.sorted.ranked hadj ▸ hcurr)

end FineInv

/-- **The fine-grained list cannot deadlock**: as long as there is a call, some
    thread can make a step in its call.  A thread whose call has finished holds no
    mutex. -/
theorem fine_list_no_deadlock {s : ListState} (h : Reachable list_threads s) :
    (∀ p c, s.thread p = some c → ∃ q cq, s.thread q = some cq ∧ s.enabled q cq) ∧
    ∀ p, (∀ c, s.thread p = some c → ∃ r, c.point = .finished r) →
      ∀ a, s.heap.mutex a ≠ some p := by
  obtain ⟨live, L, hinv⟩ := fine_inv_of_reachable h
  constructor
  · intro p c hp
    rcases hinv.enabled_or_waits hp with hen | ⟨-, hhead⟩ | ⟨prev, curr, hc, hcurr⟩
    · exact ⟨p, c, hp, hen⟩
    · exact hinv.enabled_of_held head hinv.sorted.head_mem hhead
    · have hwin := (hinv.thread p c hp).window prev curr (by rw [hc]; rfl)
      exact hinv.enabled_of_held curr hwin.1.right hcurr
  · intro p hfinished a hm
    obtain ⟨c, hp, ha⟩ := hinv.holder hm
    obtain ⟨r, hr⟩ := hfinished c hp
    rw [hr] at ha
    simp [Point.holds] at ha

/-- Thread 1 waits for the head while thread 0 links its node. -/
def waiting : ListState := (half_linked.next (1, .call (.contains 5))).getD initial

theorem fine_list_waiting : (∀ c, waiting.thread 1 = some c → ¬ waiting.enabled 1 c) ∧
    ∃ q cq, waiting.thread q = some cq ∧ waiting.enabled q cq := by
  have hstep : half_linked.next (1, .call (.contains 5)) = some waiting := rfl
  have hreach : Reachable list_threads waiting := half_linked_reachable.step (step_of_next hstep)
  refine ⟨fun c hc hen => ?_, (fine_list_no_deadlock hreach).1 1 _ rfl⟩
  obtain ⟨fresh, s', hrun⟩ := hen
  cases hc
  cases hrun

end Lab11.Fine
