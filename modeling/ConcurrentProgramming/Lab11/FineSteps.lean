import ConcurrentProgramming.Lab11.HandOverHand

/-! # Every Step of the Fine-Grained List Keeps the Invariant

    One lemma for each point of a call at which the memory of the list or the
    order of the effects changes; `FineInv.run` puts them together.  A call takes
    effect

    * at `node->next = curr`, if `list_add` links its node,
    * at the store of `prev->next = curr->next`, if `list_remove` unlinks a node,
    * at the comparison of the keys in all other cases.
-/

namespace Lab11.Fine

open LTS Linearizability SortedLinks Threads ListState

namespace FineInv

variable {live live' : Finset ℕ} {L L' : List (Entry Operation Bool)} {s s' : ListState}
  {h' : Heap} {p q fresh prev curr : ℕ} {c cq : Call} {op : Operation}

/-! ## Section 1: Reading and locking -/

/-- A pointer of a node that a thread holds, and is not linking, leads to the
    neighbour. -/
theorem next_of_held (h : FineInv live L s) (hp : s.thread p = some c) {a b : ℕ}
    (hheld : a ∈ c.point.holds) (hlive : a ∈ live) (htail : a ≠ tail)
    (hpoint : ∀ curr, c.point ≠ .set_next a curr) (hnext : s.heap.next a = some b) :
    Adjacent live s.heap.rank a b := by
  rcases h.links a hlive htail with ⟨b', hb', hadj⟩ | ⟨q, cq, curr, hq, hcq, -⟩
  · rw [hnext, Option.some.injEq] at hb'
    exact hb' ▸ hadj
  · -- A thread that is linking behind `a` holds `a`, so it is `p` itself.
    have hqa : a ∈ cq.point.holds := by
      rw [hcq]
      exact List.mem_cons_self
    by_cases hne : q = p
    · subst hne
      rw [hp, Option.some.injEq] at hq
      exact absurd (hq ▸ hcq) (hpoint curr)
    · exact absurd hqa (h.locks.not_held hp hq hne hheld)

theorem load_first (h : FineInv live L s) (hp : s.thread p = some c) (hc : c.point = .load_first)
    (hnext : s.heap.next head = some curr) :
    FineInv live L (s.go p c s.heap (.lock_curr head curr)) := by
  have hadj := h.next_of_held hp (by simp [hc, Point.holds]) h.sorted.head_mem (by decide)
    (by simp [hc]) hnext
  apply h.read hp
  · simp [hc, Point.holds]
  · simp [hc]
  · simp [hc, Point.result]
  · rw [Call.owned, Call.owned, hc]
    cases c.op <;> rfl
  · intro prev' curr' hw
    cases hw
    refine ⟨hadj, ?_⟩
    rw [Heap.rank_head]
    have := (h.thread p c hp).range.1
    omega
  · trivial

theorem test (h : FineInv live L s) (hp : s.thread p = some c) (hc : c.point = .test prev curr) :
    FineInv live L (s.go p c s.heap
      (if s.heap.key curr < c.op.key then .unlock_prev prev curr else .check prev curr)) := by
  have hwin := (h.thread p c hp).window prev curr (by rw [hc]; rfl)
  split
  · next hlt =>
    apply h.read hp
    · simp [hc, Point.holds]
    · simp [hc]
    · simp [hc, Point.result]
    · rw [Call.owned, Call.owned, hc]
      cases c.op <;> rfl
    · intro prev' curr' hw
      cases hw
      exact hwin
    · exact hlt
  · next hge =>
    apply h.read hp
    · simp [hc, Point.holds]
    · simp [hc]
    · simp [hc, Point.result]
    · rw [Call.owned, Call.owned, hc]
      cases c.op <;> rfl
    · intro prev' curr' hw
      cases hw
      exact hwin
    · exact Int.not_lt.mp hge

theorem advance (h : FineInv live L s) (hp : s.thread p = some c) (hc : c.point = .advance curr)
    {next : ℕ} (hnext : s.heap.next curr = some next) :
    FineInv live L (s.go p c s.heap (.lock_curr curr next)) := by
  have hpoint : curr ∈ live ∧ s.heap.rank curr < c.op.key := by
    have hpoint := (h.thread p c hp).point
    rwa [point_ok, hc] at hpoint
  have htail : curr ≠ tail := by
    intro heq
    have hmax := (h.thread p c hp).range.2
    rw [heq, h.sorted.rank_tail] at hpoint
    omega
  have hadj := h.next_of_held hp (by simp [hc, Point.holds]) hpoint.1 htail (by simp [hc]) hnext
  apply h.read hp
  · simp [hc, Point.holds]
  · simp [hc]
  · simp [hc, Point.result]
  · rw [Call.owned, Call.owned, hc]
    cases c.op <;> rfl
  · intro prev' curr' hw
    cases hw
    exact ⟨hadj, hpoint.2⟩
  · trivial

theorem lock_head (h : FineInv live L s) (hp : s.thread p = some c) (hc : c.point = .lock_head)
    (hlock : s.heap.lock p head = some h') : FineInv live L (s.go p c h' .load_first) := by
  apply h.lock hp h.sorted.head_mem hlock
  · simp [hc, Point.holds]
  · simp [hc]
  · simp [hc, Point.result]
  · rw [Call.owned, Call.owned, hc]
    cases c.op <;> rfl
  · intro prev' curr' hw
    cases hw
  · trivial

theorem lock_curr (h : FineInv live L s) (hp : s.thread p = some c)
    (hc : c.point = .lock_curr prev curr) (hlock : s.heap.lock p curr = some h') :
    FineInv live L (s.go p c h' (.test prev curr)) := by
  have hwin := (h.thread p c hp).window prev curr (by rw [hc]; rfl)
  apply h.lock hp hwin.1.right hlock
  · intro b
    simp [hc, Point.holds, or_comm]
  · simp [hc]
  · simp [hc, Point.result]
  · rw [Call.owned, Call.owned, hc]
    cases c.op <;> rfl
  · intro prev' curr' hw
    cases hw
    exact hwin
  · trivial

/-! ## Section 2: Unlocking -/

theorem unlock_prev (h : FineInv live L s) (hp : s.thread p = some c)
    (hc : c.point = .unlock_prev prev curr) (hunlock : s.heap.unlock p prev = some h') :
    FineInv live L (s.go p c h' (.advance curr)) := by
  have hwin := (h.thread p c hp).window prev curr (by rw [hc]; rfl)
  have hpoint := (h.thread p c hp).point
  rw [point_ok, hc] at hpoint
  have hkeep := (Heap.unlock_spec hunlock).2.1
  apply h.unlock hp (.inl hwin.1.left) hunlock
  · intro b
    simp only [hc, Point.holds, List.mem_cons, List.not_mem_nil, or_false]
    constructor
    · exact fun hb => ⟨hb ▸ hwin.1.ne.symm, .inr hb⟩
    · exact fun hb => hb.2.resolve_left hb.1
  · simp [hc, Point.holds]
  · simp [hc]
  · simp [hc, Point.result]
  · rw [Call.owned, Call.owned, hc]
    cases c.op <;> rfl
  · intro prev' curr' hw
    cases hw
  · refine ⟨hwin.1.right, ?_⟩
    rw [Heap.rank_of_ne (h.sorted.ne_head hwin.1), hkeep.key]
    exact hpoint

/-- A node that a call holds is in the list, or `list_remove` has unlinked it. -/
theorem held_or_removed (h : FineInv live L s) (hp : s.thread p = some c) {a : ℕ}
    (ha : a ∈ c.point.holds) : a ∈ live ∨ c.owned = some a ∧ ∀ k, c.op ≠ .add k := by
  rcases (h.thread p c hp).held a ha with hlive | howned
  · exact .inl hlive
  · refine .inr ⟨howned, ?_⟩
    intro k hk
    -- The node of a `list_add` is not locked before it is linked.
    have hnode := ((h.thread p c hp).owned a howned).2.2 k hk
    have hmutex := h.locks.held hp ha
    simp [Heap.mutex, hnode] at hmutex

theorem unlock_both (h : FineInv live L s) (hp : s.thread p = some c) {r : Bool}
    (hc : c.point = .unlock_both prev curr r) (hunlock : s.heap.unlock p prev = some h') :
    FineInv live L (s.go p c h' (.unlock_curr curr r)) := by
  have hne := (h.thread p c hp).point
  rw [point_ok, hc] at hne
  have hmem : prev ∈ c.point.holds := by simp [hc, Point.holds]
  apply h.unlock hp (h.held_or_removed hp hmem) hunlock _ hmem
  · simp [hc]
  · simp [hc, Point.result]
  · rw [Call.owned, Call.owned, hc]
    cases c.op <;> cases r <;> rfl
  · intro prev' curr' hw
    cases hw
  · trivial
  · intro b
    simp only [hc, Point.holds, List.mem_cons, List.not_mem_nil, or_false]
    constructor
    · exact fun hb => ⟨hb ▸ (Ne.symm hne), .inr hb⟩
    · exact fun hb => hb.2.resolve_left hb.1

theorem unlock_curr (h : FineInv live L s) (hp : s.thread p = some c) {r : Bool}
    (hc : c.point = .unlock_curr curr r) (hunlock : s.heap.unlock p curr = some h') :
    FineInv live L (s.go p c h' (after_unlock c curr r)) := by
  have hmem : curr ∈ c.point.holds := by simp [hc, Point.holds]
  have hafter : (after_unlock c curr r).holds = [] ∧ (after_unlock c curr r).window = none ∧
      (after_unlock c curr r).result = some r := by
    unfold after_unlock
    cases c.op <;> cases r <;> exact ⟨rfl, rfl, rfl⟩
  obtain ⟨hholds, hwindow, hresult⟩ := hafter
  apply h.unlock hp (h.held_or_removed hp hmem) hunlock _ hmem
  · simp [hc]
  · rw [hresult, hc]
    rfl
  · unfold Call.owned after_unlock
    rw [hc]
    cases c.op <;> cases r <;> rfl
  · intro prev' curr' hw
    rw [hwindow] at hw
    cases hw
  · unfold point_ok after_unlock Call.owned
    cases c.op <;> cases r <;> simp
  · intro b
    rw [hholds, hc]
    simp [Point.holds]

/-! ## Section 3: The comparison of the keys -/

/-- What the window of a call says about its key. -/
theorem key_mem_iff (h : FineInv live L s) (hp : s.thread p = some c)
    (hw : c.point.window = some (prev, curr)) (hle : c.op.key ≤ s.heap.key curr) :
    c.op.key ∈ live_keys live s.heap ↔ s.heap.key curr = c.op.key := by
  obtain ⟨hadj, hlt⟩ := (h.thread p c hp).window prev curr hw
  have hrange := (h.thread p c hp).range
  exact h.sorted.mem_iff hadj hrange.1 hrange.2 hlt hle

/-- A call takes effect without changing the list. -/
theorem effect_here (h : FineInv live L s) (hp : s.thread p = some c)
    (hc : c.point = .check prev curr) {r : Bool}
    (hr : r = c.op.result (decide (c.op.key ∈ live_keys live s.heap)))
    (hset : c.op.update (live_keys live s.heap) = live_keys live s.heap)
    (howned : ({ c with point := .unlock_both prev curr r } : Call).owned = c.owned) :
    FineInv live (L ++ [⟨c.id, c.op, r⟩]) (s.go p c s.heap (.unlock_both prev curr r)) := by
  have hok := h.thread p c hp
  have hwin := hok.window prev curr (by rw [hc]; rfl)
  have hheld : ∀ a ∈ c.point.holds, a ∈ live ∨ c.owned = some a := hok.held
  rw [hc] at hheld
  apply h.quiet hp ⟨fun _ => rfl, fun _ => Iff.rfl⟩ (fun _ => rfl)
    (h.locks.same hp (by simp [hc, Point.holds]) fun _ => rfl)
  · intro b hb hb'
    rw [hc] at hb'
    exact absurd hb hb'
  · simp [hc]
  · exact fun _ _ _ _ _ _ => rfl
  · exact howned
  · apply hok.take_effect hwin.1.ne
    · rw [howned]
      exact hheld
    · rw [howned]
      exact hok.owned
  · exact fun e he => List.mem_append_left _ he
  · exact Entry.mem_or_id
  · exact h.tracked.effect c.id c.op r hok.called (hok.pending (by rw [hc]; rfl)) ⟨hr, hset.symm⟩

theorem check (h : FineInv live L s) (hp : s.thread p = some c) (hc : c.point = .check prev curr) :
    ∃ L', FineInv live L' (s.go p c s.heap
      (after_check c.op prev curr (s.heap.key curr = c.op.key))) ∧
      (L' = L ∨ ∃ r, L' = L ++ [⟨c.id, c.op, r⟩]) := by
  have hpoint := (h.thread p c hp).point
  rw [point_ok, hc] at hpoint
  have hwin := (h.thread p c hp).window prev curr (by rw [hc]; rfl)
  have hmem := h.key_mem_iff hp (by rw [hc]; rfl) hpoint
  cases hop : c.op with
  | add k =>
    rw [hop] at hmem hpoint
    by_cases hkey : s.heap.key curr = k
    · refine ⟨L ++ [⟨c.id, c.op, false⟩], ?_, .inr ⟨false, by rw [hop]⟩⟩
      simp only [after_check, Operation.key, hkey, decide_true, if_true]
      apply h.effect_here hp hc
      · rw [hop, decide_eq_true (hmem.mpr hkey)]
        rfl
      · rw [hop]
        exact Finset.insert_eq_of_mem (hmem.mpr hkey)
      · simp [Call.owned, hop, hc]
    · refine ⟨L, ?_, .inl rfl⟩
      simp only [after_check, Operation.key, hkey, decide_false, Bool.false_eq_true, if_false]
      apply h.read hp
      · simp [hc, Point.holds]
      · simp [hc]
      · simp [hc, Point.result]
      · simp [Call.owned, hop, hc]
      · intro prev' curr' hw
        cases hw
        exact hwin
      · refine ⟨⟨k, hop⟩, ?_⟩
        rw [hop]
        exact lt_of_le_of_ne hpoint (Ne.symm hkey)
  | remove k =>
    rw [hop] at hmem hpoint
    by_cases hkey : s.heap.key curr = k
    · refine ⟨L, ?_, .inl rfl⟩
      simp only [after_check, Operation.key, hkey, decide_true, if_true]
      apply h.read hp
      · simp [hc, Point.holds]
      · simp [hc]
      · simp [hc, Point.result]
      · simp [Call.owned, hop, hc]
      · intro prev' curr' hw
        cases hw
        exact hwin
      · refine ⟨⟨k, hop⟩, ?_⟩
        rw [hop]
        exact hkey
    · refine ⟨L ++ [⟨c.id, c.op, false⟩], ?_, .inr ⟨false, by rw [hop]⟩⟩
      simp only [after_check, Operation.key, hkey, decide_false, Bool.false_eq_true, if_false]
      apply h.effect_here hp hc
      · rw [hop, decide_eq_false (fun hin => hkey (hmem.mp hin))]
        rfl
      · rw [hop]
        exact Finset.erase_eq_of_notMem fun hin => hkey (hmem.mp hin)
      · simp [Call.owned, hop, hc]
  | contains k =>
    refine ⟨L ++ [⟨c.id, c.op, decide (s.heap.key curr = k)⟩], ?_, .inr ⟨_, by rw [hop]⟩⟩
    rw [hop] at hmem
    apply h.effect_here hp hc
    · rw [hop]
      exact (decide_eq_decide.mpr hmem).symm
    · rw [hop]
      rfl
    · simp [Call.owned, hop, hc]

/-! ## Section 4: Linking a node -/

theorem malloc (h : FineInv live L s) (hp : s.thread p = some c) (hc : c.point = .malloc)
    (hm : s.heap.malloc fresh c.op.key = some h') :
    FineInv live L (s.go p { c with node := fresh } h' .lock_head) := by
  obtain ⟨hnew, hat, hother⟩ := Heap.malloc_spec hm
  obtain ⟨hnext, hmutex⟩ := Heap.malloc_fields hm
  have hok := h.thread p c hp
  obtain ⟨k, hk⟩ : ∃ k, c.op = .add k := by
    have hpoint := hok.point
    rwa [point_ok, hc] at hpoint
  have hunused : ∀ a, s.heap.allocated a → a ≠ fresh := fun a ha heq => hnew (heq ▸ ha)
  have hkey : ∀ a ∈ live, h'.key a = s.heap.key a := by
    intro a ha
    rw [Heap.key, Heap.key, hother a (hunused a (h.sorted.allocated a ha))]
  have hadj : ∀ {a b}, Adjacent live s.heap.rank a b → Adjacent live h'.rank a b := fun hadj =>
    hadj.congr fun a ha => Heap.rank_congr (hkey a ha)
  have howned : ({ c with node := fresh, point := .lock_head } : Call).owned = some fresh := by
    simp [Call.owned, hk]
  apply h.step_of { c with node := fresh, point := .lock_head } hp rfl
  · refine h.sorted.congr hkey fun a ha => ?_
    rw [Heap.allocated, hother a (hunused a (h.sorted.allocated a ha))]
    exact h.sorted.allocated a ha
  · intro a ha htail
    rcases h.links_of _ hp ha htail (by simp [hc]) (hnext a) with ⟨b, hb, hadj'⟩ | hmid
    · exact .inl ⟨b, hb, hadj hadj'⟩
    · exact .inr hmid
  · exact h.locks.same hp (by simp [hc, Point.holds]) hmutex
  · exact fun b hb => by simp [Point.holds] at hb
  · intro a ha
    rw [howned, Option.some.injEq] at ha
    refine .inr fun q cq hq hqa => ?_
    exact hunused a ((h.thread q cq hq).owned a hqa).2.1 ha.symm
  · refine ⟨hok.called, hok.range, fun _ => hok.pending (by rw [hc]; rfl),
      (fun r hr => by cases hr), (fun a ha => by simp [Point.holds] at ha),
      (fun prev' curr' hw => by cases hw), trivial, ?_⟩
    intro a ha
    rw [howned, Option.some.injEq] at ha
    subst ha
    refine ⟨fun ha => hunused fresh (h.sorted.allocated fresh ha) rfl, ?_, ?_⟩
    · rw [Heap.allocated, hat]
      exact Option.some_ne_none _
    · intro k' hk'
      change c.op = .add k' at hk'
      rw [hat, hk']
      rfl
  · intro q cq hne hq
    apply (h.thread q cq hq).frame (h.ids_ne hp hq hne)
      (fun e he => he) (fun e he => he) (fun e he => .inl he) (fun a _ ha => ha) hkey
      (fun _ _ _ => hadj) (fun a _ => hnext a)
    intro a ha
    have hqa := (h.thread q cq hq).owned a ha
    exact ⟨hother a (hunused a hqa.2.1), hqa.1⟩
  · rw [SortedNodes.live_keys_congr hkey]
    exact h.tracked
  · obtain ⟨N, hN⟩ := h.bounded
    refine ⟨max N (fresh + 1), fun a ha => ?_⟩
    rw [hother a (by omega)]
    exact hN a (by omega)

theorem link (h : FineInv live L s) (hp : s.thread p = some c) (hc : c.point = .link prev curr)
    (hstore : s.heap.store_next prev (some c.node) = some h') :
    FineInv live L (s.go p c h' (.set_next prev curr)) := by
  obtain ⟨hkeep, hmutex, hnext, hother⟩ := Heap.store_next_spec hstore
  have hok := h.thread p c hp
  have hwin := hok.window prev curr (by rw [hc]; rfl)
  have hpoint := hok.point
  rw [point_ok, hc] at hpoint
  have hheld : ∀ a ∈ c.point.holds, a ∈ live ∨ c.owned = some a := hok.held
  rw [hc] at hheld
  have hprev : ∀ q cq, s.thread q = some cq → ∀ a, cq.owned = some a → h' a = s.heap a := by
    intro q cq hq a ha
    exact hother a fun heq => ((h.thread q cq hq).owned a ha).1 (heq ▸ hwin.1.left)
  have howned : ({ c with point := .set_next prev curr } : Call).owned = c.owned := by
    rw [Call.owned, Call.owned, hc]
    cases c.op <;> rfl
  apply h.still hp hkeep _ _ (h.locks.same hp (by simp [hc, Point.holds]) hmutex) _
    (fun q cq _ => hprev q cq) howned _ (fun _ he => he) (fun _ he => .inl he) h.tracked
  · intro a ha htail
    by_cases heq : a = prev
    · subst heq
      exact .inr ⟨p, _, curr, Function.update_self _ _ _, rfl, by rw [hnext, if_pos rfl]⟩
    · exact h.links_of _ hp ha htail (by simp [hc]) (by rw [hnext, if_neg heq])
  · intro b hb
    rw [hnext, if_neg]
    intro heq
    rw [hc, heq] at hb
    exact hb List.mem_cons_self
  · intro b hb hb'
    rw [hc] at hb'
    exact absurd hb hb'
  · apply hok.go (fun a _ => hkeep.key a)
    · simp [hc, Point.result]
    · exact howned
    · exact fun a ha => ⟨(hkeep.allocated a).mpr (hok.owned a ha).2.1, fun _ _ => hprev p c hp a ha⟩
    · exact hheld
    · intro prev' curr' hw
      cases hw
      exact hwin
    · refine ⟨hpoint.1, ?_, ?_⟩
      · rw [hkeep.key]
        exact hpoint.2
      · rw [hnext, if_pos rfl]

/-- `list_add` takes effect: the node is in the list. -/
theorem set_next (h : FineInv live L s) (hp : s.thread p = some c)
    (hc : c.point = .set_next prev curr) (hstore : s.heap.store_next c.node (some curr) = some h') :
    FineInv (insert c.node live) (L ++ [⟨c.id, c.op, true⟩])
      (s.go p c h' (.unlock_both prev curr true)) := by
  obtain ⟨hkeep, hmutex, hnext, hother⟩ := Heap.store_next_spec hstore
  have hok := h.thread p c hp
  obtain ⟨hadj, hlt⟩ := hok.window prev curr (by rw [hc]; rfl)
  have hpoint := hok.point
  rw [point_ok, hc] at hpoint
  obtain ⟨⟨k, hk⟩, hlt', hprev⟩ := hpoint
  have howner : c.owned = some c.node := by simp [Call.owned, hk, hc]
  obtain ⟨hnode, halloc, hinit⟩ := hok.owned c.node howner
  have hcell := hinit k hk
  have hkey : s.heap.key c.node = c.op.key := by simp [Heap.key, hcell, hk, Operation.key]
  have hhead : c.node ≠ head := fun heq => hnode (heq ▸ h.sorted.head_mem)
  have hrank : s.heap.rank c.node = c.op.key := (Heap.rank_of_ne hhead).trans hkey
  have hrank' : s.heap.rank c.node < s.heap.rank curr := by
    rw [hrank, Heap.rank_of_ne (h.sorted.ne_head hadj)]
    exact hlt'
  have hsorted : SortedNodes (insert c.node live) s.heap :=
    h.sorted.insert hadj (hkey ▸ hok.range.1) (hkey ▸ hok.range.2) hnode halloc (hkey ▸ hlt)
      (hkey ▸ hlt')
  have hold : ∀ {a b}, Adjacent live s.heap.rank a b → a ≠ prev →
      Adjacent (insert c.node live) h'.rank a b := fun hab hne =>
    hkeep.adjacent (hadj.insert_ne h.sorted.ranked (hrank ▸ hlt) hrank' hab hne)
  apply h.step_of { c with point := .unlock_both prev curr true } hp rfl
  · exact hsorted.keep hkeep
  · -- The pointers: from `prev` to the node, from the node to `curr`.
    intro a ha htail
    rcases Finset.mem_insert.mp ha with rfl | ha
    · exact .inl ⟨curr, by rw [hnext, if_pos rfl],
        hkeep.adjacent (hadj.insert_right (hrank ▸ hlt) hrank')⟩
    · have hne : a ≠ c.node := fun heq => hnode (heq ▸ ha)
      by_cases heq : a = prev
      · subst heq
        exact .inl ⟨c.node, by rw [hnext, if_neg hne, hprev],
          hkeep.adjacent (hadj.insert_left (hrank ▸ hlt) hrank')⟩
      · have hpoint : ∀ curr', c.point ≠ .set_next a curr' := by
          intro curr' hc'
          rw [hc] at hc'
          cases hc'
          exact heq rfl
        rcases h.links_of _ hp ha htail hpoint (by rw [hnext, if_neg hne]) with ⟨b, hb, hab⟩ | hmid
        · exact .inl ⟨b, hb, hold hab heq⟩
        · exact .inr hmid
  · exact h.locks.same hp (by simp [hc, Point.holds]) hmutex
  · intro b hb hb'
    rw [hc] at hb'
    exact absurd hb hb'
  · intro a ha
    simp [Call.owned, hk] at ha
  · apply hok.take_effect hadj.ne
    · intro a ha
      simp only [List.mem_cons, List.not_mem_nil, or_false] at ha
      rcases ha with rfl | rfl
      · exact .inl (Finset.mem_insert_of_mem hadj.left)
      · exact .inl (Finset.mem_insert_of_mem hadj.right)
    · intro a ha
      simp [Call.owned, hk] at ha
  · intro q cq hne hq
    have hokq := h.thread q cq hq
    have hforeign : ∀ a, cq.owned = some a → a ≠ c.node := fun a ha heq =>
      hne (h.owned_inj q cq p c a hq hp ha (heq ▸ howner))
    have hprev_held : prev ∈ c.point.holds := by simp [hc, Point.holds]
    apply hokq.frame (h.ids_ne hp hq hne) (fun e he => he)
      (fun e he => List.mem_append_left _ he) Entry.mem_or_id
    · exact fun a _ ha => Finset.mem_insert_of_mem ha
    · exact fun a _ => hkeep.key a
    · -- A window of another thread is not the one that is split: `prev` is locked.
      intro prev' curr' hw hab
      refine hold hab fun heq => ?_
      exact h.locks.not_held hp hq hne hprev_held (heq ▸ Point.window_holds hw)
    · intro a ha
      rw [hnext, if_neg]
      intro heq
      rcases hokq.held a ha with hlive | howned
      · exact hnode (heq ▸ hlive)
      · exact hforeign a howned heq
    · intro a ha
      refine ⟨hother a (hforeign a ha), fun hmem => ?_⟩
      rcases Finset.mem_insert.mp hmem with heq | hmem
      · exact hforeign a ha heq
      · exact (hokq.owned a ha).1 hmem
  · apply h.tracked.effect c.id c.op true hok.called (hok.pending (by rw [hc]; rfl))
    have hmem := h.key_mem_iff hp (by rw [hc]; rfl) hlt'.le
    rw [hk] at hkey hmem hlt' ⊢
    exact h.sorted.add_effect hkeep hnode hkey fun hin => hlt'.ne (hmem.mp hin).symm
  · exact Heap.bounded_of_allocated hkeep.allocated h.bounded

/-! ## Section 5: Unlinking a node -/

theorem load_next (h : FineInv live L s) (hp : s.thread p = some c)
    (hc : c.point = .load_next prev curr) :
    FineInv live L (s.go p c s.heap (.unlink prev curr (s.heap.next curr))) := by
  have hwin := (h.thread p c hp).window prev curr (by rw [hc]; rfl)
  have hpoint := (h.thread p c hp).point
  rw [point_ok, hc] at hpoint
  apply h.read hp
  · simp [hc, Point.holds]
  · simp [hc]
  · simp [hc, Point.result]
  · rw [Call.owned, Call.owned, hc]
    cases c.op <;> rfl
  · intro prev' curr' hw
    cases hw
    exact hwin
  · exact ⟨hpoint.1, hpoint.2, rfl⟩

/-- `list_remove` takes effect: the node is not in the list any more. -/
theorem unlink (h : FineInv live L s) (hp : s.thread p = some c) {next : Option ℕ}
    (hc : c.point = .unlink prev curr next) (hstore : s.heap.store_next prev next = some h') :
    FineInv (live.erase curr) (L ++ [⟨c.id, c.op, true⟩])
      (s.go p c h' (.unlock_both prev curr true)) := by
  obtain ⟨hkeep, hmutex, hnext, hother⟩ := Heap.store_next_spec hstore
  have hok := h.thread p c hp
  obtain ⟨hadj, hlt⟩ := hok.window prev curr (by rw [hc]; rfl)
  have hpoint := hok.point
  rw [point_ok, hc] at hpoint
  obtain ⟨⟨k, hk⟩, hkey, hcurr⟩ := hpoint
  have htail := h.sorted.ne_tail_of_key hkey hok.range.2
  have hhead := h.sorted.ne_head hadj
  have hprev_held : prev ∈ c.point.holds := by simp [hc, Point.holds]
  have hcurr_held : curr ∈ c.point.holds := by simp [hc, Point.holds]
  -- `curr` is locked, so no `list_add` is between its two stores there.
  obtain ⟨d, hd, hadj'⟩ : ∃ d, next = some d ∧ Adjacent live s.heap.rank curr d := by
    rcases h.links_of c hp hadj.right htail (by simp [hc]) rfl with
      ⟨d, hd, hadj'⟩ | ⟨q, cq, curr', hq, hcq, -⟩
    · exact ⟨d, hcurr.symm.trans hd, hadj'⟩
    · have hcurr' : curr ∈ cq.point.holds := by simp [hcq, Point.holds]
      rcases update_some hq with ⟨rfl, rfl⟩ | ⟨hne, hq'⟩
      · rw [hc] at hcq
        cases hcq
      · exact absurd hcurr' (h.locks.not_held hp hq' hne hcurr_held)
  have hsorted : SortedNodes (live.erase curr) s.heap := h.sorted.erase hhead htail
  have howned : ({ c with point := .unlock_both prev curr true } : Call).owned = some curr := by
    simp [Call.owned, hk]
  apply h.step_of { c with point := .unlock_both prev curr true } hp rfl
  · exact hsorted.keep hkeep
  · intro a ha htail'
    rw [Finset.mem_erase] at ha
    by_cases heq : a = prev
    · subst heq
      exact .inl ⟨d, by rw [hnext, if_pos rfl, hd],
        hkeep.adjacent (hadj.erase h.sorted.ranked hadj')⟩
    · rcases h.links_of _ hp ha.2 htail' (by simp [hc]) (by rw [hnext, if_neg heq]) with
        ⟨b, hb, hab⟩ | hmid
      · exact .inl ⟨b, hb, hkeep.adjacent (hadj.erase_ne h.sorted.ranked hab heq ha.1)⟩
      · exact .inr hmid
  · exact h.locks.same hp (by simp [hc, Point.holds]) hmutex
  · intro b hb hb'
    rw [hc] at hb'
    exact absurd hb hb'
  · intro a ha
    rw [howned, Option.some.injEq] at ha
    refine .inr fun q cq hq hqa => ?_
    exact ((h.thread q cq hq).owned a hqa).1 (ha ▸ hadj.right)
  · apply hok.take_effect hadj.ne
    · intro a ha
      simp only [List.mem_cons, List.not_mem_nil, or_false] at ha
      rcases ha with rfl | rfl
      · exact .inl (Finset.mem_erase.mpr ⟨hadj.ne, hadj.left⟩)
      · exact .inr howned
    · intro a ha
      rw [howned, Option.some.injEq] at ha
      subst ha
      refine ⟨Finset.notMem_erase curr live,
        (hkeep.allocated curr).mpr (h.sorted.allocated curr hadj.right), ?_⟩
      intro k' hk'
      rw [hk] at hk'
      cases hk'
  · intro q cq hne hq
    have hokq := h.thread q cq hq
    have hforeign : ∀ a, cq.owned = some a → a ≠ prev := fun a ha heq =>
      (hokq.owned a ha).1 (heq ▸ hadj.left)
    apply hokq.frame (h.ids_ne hp hq hne) (fun e he => he)
      (fun e he => List.mem_append_left _ he) Entry.mem_or_id
    · -- Nobody else holds `curr`, so what the others hold stays in the list.
      intro a ha hlive
      refine Finset.mem_erase.mpr ⟨fun heq => ?_, hlive⟩
      exact h.locks.not_held hp hq hne hcurr_held (heq ▸ ha)
    · exact fun a _ => hkeep.key a
    · intro prev' curr' hw hab
      have hprev' := Point.window_holds hw
      apply hkeep.adjacent (hadj.erase_ne h.sorted.ranked hab _ _)
      · exact fun heq => h.locks.not_held hp hq hne hprev_held (heq ▸ hprev')
      · exact fun heq => h.locks.not_held hp hq hne hcurr_held (heq ▸ hprev')
    · intro a ha
      rw [hnext, if_neg]
      exact fun heq => h.locks.not_held hp hq hne hprev_held (heq ▸ ha)
    · intro a ha
      exact ⟨hother a (hforeign a ha),
        fun hmem => (hokq.owned a ha).1 (Finset.mem_of_mem_erase hmem)⟩
  · apply h.tracked.effect c.id c.op true hok.called (hok.pending (by rw [hc]; rfl))
    have hmem := h.key_mem_iff hp (by rw [hc]; rfl) hkey.ge
    rw [hk] at hkey hmem ⊢
    exact h.sorted.remove_effect hkeep hadj.right hhead hkey (hmem.mpr hkey)
  · exact Heap.bounded_of_allocated hkeep.allocated h.bounded

/-- A node is freed that nobody else can reach. -/
theorem free (h : FineInv live L s) (hp : s.thread p = some c) {a : ℕ} {r : Bool}
    (hc : c.point = .free a r) (hfree : s.heap.free a = some h') :
    FineInv live L (s.go p c h' (.finished r)) := by
  obtain ⟨-, hat, hother⟩ := Heap.free_spec hfree
  have hok := h.thread p c hp
  have howner := hok.point
  rw [point_ok, hc] at howner
  have hnode := (hok.owned a howner).1
  have hlive : ∀ b ∈ live, b ≠ a := fun b hb heq => hnode (heq ▸ hb)
  have hforeign : ∀ q cq, q ≠ p → s.thread q = some cq → ∀ b, cq.owned = some b → b ≠ a :=
    fun q cq hne hq b hb heq => hne (h.owned_inj q cq p c b hq hp hb (heq ▸ howner))
  have hheld : ∀ q cq, s.thread q = some cq → a ∉ cq.point.holds := by
    intro q cq hq ha
    by_cases hne : q = p
    · subst hne
      rw [hp, Option.some.injEq] at hq
      rw [← hq, hc] at ha
      simp [Point.holds] at ha
    · rcases (h.thread q cq hq).held a ha with hl | ho
      · exact hnode hl
      · exact hforeign q cq hne hq a ho rfl
  have hunlocked : s.heap.mutex a = none := h.locks.free hheld
  have hmutex : ∀ b, h'.mutex b = s.heap.mutex b := by
    intro b
    by_cases hb : b = a
    · rw [hb, hunlocked]
      simp [Heap.mutex, hat]
    · rw [Heap.mutex, Heap.mutex, hother b hb]
  have hkey : ∀ b ∈ live, h'.key b = s.heap.key b := by
    intro b hb
    rw [Heap.key, Heap.key, hother b (hlive b hb)]
  have hnext : ∀ b, b ≠ a → h'.next b = s.heap.next b := by
    intro b hb
    rw [Heap.next, Heap.next, hother b hb]
  have hadj : ∀ {b d}, Adjacent live s.heap.rank b d → Adjacent live h'.rank b d := fun hadj =>
    hadj.congr fun b hb => Heap.rank_congr (hkey b hb)
  have howned : ({ c with point := .finished r } : Call).owned = none := by
    simp only [Call.owned]
  apply h.step_of { c with point := .finished r } hp rfl
  · refine h.sorted.congr hkey fun b hb => ?_
    rw [Heap.allocated, hother b (hlive b hb)]
    exact h.sorted.allocated b hb
  · intro b hb htail
    rcases h.links_of _ hp hb htail (by simp [hc]) (hnext b (hlive b hb)) with ⟨d, hd, hadj'⟩ | hmid
    · exact .inl ⟨d, hd, hadj hadj'⟩
    · exact .inr hmid
  · exact h.locks.same hp (by simp [hc, Point.holds]) hmutex
  · exact fun b hb => by simp [Point.holds] at hb
  · intro b hb
    rw [howned] at hb
    cases hb
  · refine ⟨hok.called, hok.range, (fun hnone => by cases hnone), ?_,
      (fun b hb => by simp [Point.holds] at hb), (fun prev' curr' hw => by cases hw), trivial, ?_⟩
    · intro r' hr'
      exact hok.effect r' (by rw [hc]; exact hr')
    · intro b hb
      rw [howned] at hb
      cases hb
  · intro q cq hne hq
    apply (h.thread q cq hq).frame (h.ids_ne hp hq hne)
      (fun e he => he) (fun e he => he) (fun e he => .inl he) (fun a _ ha => ha) hkey
      (fun _ _ _ => hadj)
    · exact fun b hb => hnext b fun heq => hheld q cq hq (heq ▸ hb)
    · intro b hb
      exact ⟨hother b (hforeign q cq hne hq b hb), ((h.thread q cq hq).owned b hb).1⟩
  · rw [SortedNodes.live_keys_congr hkey]
    exact h.tracked
  · obtain ⟨N, hN⟩ := h.bounded
    refine ⟨N, fun b hb => ?_⟩
    by_cases hba : b = a
    · rw [hba, hat]
    · rw [hother b hba, hN b hb]

/-! ## Section 6: Whole runs -/

/-- **Every step inside a call keeps the invariant**, and at most this call takes
    effect. -/
theorem run (h : FineInv live L s) (hp : s.thread p = some c)
    (hpoint : ∀ r, c.point ≠ .finished r) (hrun : s.run p c fresh = some s') :
    ∃ live' L', FineInv live' L' s' ∧ (L' = L ∨ ∃ r, L' = L ++ [⟨c.id, c.op, r⟩]) := by
  cases hc : c.point with
  | malloc =>
    simp only [ListState.run, hc, Option.map_eq_some_iff] at hrun
    obtain ⟨h', hm, rfl⟩ := hrun
    exact ⟨live, L, h.malloc hp hc hm, .inl rfl⟩
  | lock_head =>
    simp only [ListState.run, hc, Option.map_eq_some_iff] at hrun
    obtain ⟨h', hlock, rfl⟩ := hrun
    exact ⟨live, L, h.lock_head hp hc hlock, .inl rfl⟩
  | load_first =>
    simp only [ListState.run, hc, Option.map_eq_some_iff] at hrun
    obtain ⟨curr, hnext, rfl⟩ := hrun
    exact ⟨live, L, h.load_first hp hc hnext, .inl rfl⟩
  | lock_curr prev curr =>
    simp only [ListState.run, hc, Option.map_eq_some_iff] at hrun
    obtain ⟨h', hlock, rfl⟩ := hrun
    exact ⟨live, L, h.lock_curr hp hc hlock, .inl rfl⟩
  | test prev curr =>
    simp only [ListState.run, hc, Option.map_eq_some_iff] at hrun
    obtain ⟨n, hn, rfl⟩ := hrun
    have htest := h.test hp hc
    rw [Heap.key, hn] at htest
    exact ⟨live, L, htest, .inl rfl⟩
  | unlock_prev prev curr =>
    simp only [ListState.run, hc, Option.map_eq_some_iff] at hrun
    obtain ⟨h', hunlock, rfl⟩ := hrun
    exact ⟨live, L, h.unlock_prev hp hc hunlock, .inl rfl⟩
  | advance curr =>
    simp only [ListState.run, hc, Option.map_eq_some_iff] at hrun
    obtain ⟨next, hnext, rfl⟩ := hrun
    exact ⟨live, L, h.advance hp hc hnext, .inl rfl⟩
  | check prev curr =>
    simp only [ListState.run, hc, Option.map_eq_some_iff] at hrun
    obtain ⟨n, hn, rfl⟩ := hrun
    have hcheck := h.check hp hc
    rw [Heap.key, hn] at hcheck
    exact ⟨live, hcheck⟩
  | link prev curr =>
    simp only [ListState.run, hc, Option.map_eq_some_iff] at hrun
    obtain ⟨h', hstore, rfl⟩ := hrun
    exact ⟨live, L, h.link hp hc hstore, .inl rfl⟩
  | set_next prev curr =>
    simp only [ListState.run, hc, Option.map_eq_some_iff] at hrun
    obtain ⟨h', hstore, rfl⟩ := hrun
    exact ⟨_, _, h.set_next hp hc hstore, .inr ⟨true, rfl⟩⟩
  | load_next prev curr =>
    simp only [ListState.run, hc, Option.map_eq_some_iff] at hrun
    obtain ⟨n, hn, rfl⟩ := hrun
    have hload := h.load_next hp hc
    rw [Heap.next, hn] at hload
    exact ⟨live, L, hload, .inl rfl⟩
  | unlink prev curr next =>
    simp only [ListState.run, hc, Option.map_eq_some_iff] at hrun
    obtain ⟨h', hstore, rfl⟩ := hrun
    exact ⟨_, _, h.unlink hp hc hstore, .inr ⟨true, rfl⟩⟩
  | unlock_both prev curr r =>
    simp only [ListState.run, hc, Option.map_eq_some_iff] at hrun
    obtain ⟨h', hunlock, rfl⟩ := hrun
    exact ⟨live, L, h.unlock_both hp hc hunlock, .inl rfl⟩
  | unlock_curr curr r =>
    simp only [ListState.run, hc, Option.map_eq_some_iff] at hrun
    obtain ⟨h', hunlock, rfl⟩ := hrun
    exact ⟨live, L, h.unlock_curr hp hc hunlock, .inl rfl⟩
  | free a r =>
    simp only [ListState.run, hc, Option.map_eq_some_iff] at hrun
    obtain ⟨h', hfree, rfl⟩ := hrun
    exact ⟨live, L, h.free hp hc hfree, .inl rfl⟩
  | finished r => exact absurd hc (hpoint r)

/-- A thread calls an operation. -/
theorem start (h : FineInv live L s) (hp : s.thread p = none) (hrange : op.in_range) :
    FineInv live L (s.start p op) := by
  have hnew : ∀ o, .call s.calls o ∉ s.history := fun o ho => absurd (h.ids _ _ ho) (lt_irrefl _)
  have hid : ∀ q cq, s.thread q = some cq → cq.id < s.calls := fun q cq hq =>
    h.ids _ _ (h.thread q cq hq).called
  have hfirst : (first_point op).holds = [] ∧ (first_point op).window = none ∧
      (first_point op).result = none ∧
      (⟨s.calls, op, head, first_point op⟩ : Call).owned = none ∧
      point_ok live s.heap ⟨s.calls, op, head, first_point op⟩ := by
    cases op <;> simp [first_point, Point.holds, Point.window, Point.result, Call.owned, point_ok]
  obtain ⟨hholds, hwindow, hresult, howned, hok⟩ := hfirst
  refine ⟨h.sorted, ?_, ?_, ?_, ?_, ?_, ?_, ?_, h.bounded⟩
  · intro a ha htail
    rcases h.links a ha htail with hnext | ⟨q, cq, curr, hq, hcq, hb⟩
    · exact .inl hnext
    · have hne : q ≠ p := by
        intro heq
        rw [heq, hp] at hq
        cases hq
      exact .inr ⟨q, cq, curr, (Function.update_of_ne hne _ _).trans hq, hcq, hb⟩
  · exact h.locks.start hp hholds
  · intro id o hmem
    change id < s.calls + 1
    rcases List.mem_append.mp hmem with hmem | hmem
    · exact Nat.lt_succ_of_lt (h.ids id o hmem)
    · cases List.mem_singleton.mp hmem
      exact Nat.lt_succ_self _
  · refine h.thread_ids.update fun a ha => .inr fun q cq hq heq => ?_
    cases ha
    exact (hid q cq hq).ne (Option.some.inj heq)
  · refine h.owned_inj.update fun a ha => ?_
    rw [howned] at ha
    cases ha
  · intro q cq hq
    rcases update_some hq with ⟨rfl, rfl⟩ | ⟨hne, hq'⟩
    · refine ⟨List.mem_append_right _ List.mem_cons_self, hrange, ?_, ?_, ?_, ?_, hok, ?_⟩
      · intro _ hmem
        obtain ⟨e, he, heq⟩ := List.mem_map.mp hmem
        have hcalled := h.tracked.called e he
        rw [heq] at hcalled
        exact hnew _ hcalled
      · intro r hr
        rw [hresult] at hr
        cases hr
      · intro a ha
        rw [hholds] at ha
        simp at ha
      · intro prev curr hw
        rw [hwindow] at hw
        cases hw
      · intro a ha
        rw [howned] at ha
        cases ha
    · apply (h.thread q cq hq').frame (hid q cq hq').ne (fun e he => List.mem_append_left _ he)
        (fun e he => he) (fun e he => .inl he) (fun a _ ha => ha) (fun _ _ => rfl)
        (fun _ _ _ hadj => hadj) (fun _ _ => rfl)
      exact fun a ha => ⟨rfl, ((h.thread q cq hq').owned a ha).1⟩
  · exact h.tracked.call s.calls op hnew

/-- A call returns. -/
theorem return_call (h : FineInv live L s) (hp : s.thread p = some c) {r : Bool}
    (hc : c.point = .finished r) : FineInv live L (s.return_call p c r) := by
  have hstay : ∀ {q cq}, s.thread q = some cq → cq.point ≠ .finished r →
      Function.update s.thread p none q = some cq := by
    intro q cq hq hcq
    rw [Function.update_of_ne _ _ _, hq]
    intro heq
    rw [heq, hp, Option.some.injEq] at hq
    exact hcq (hq ▸ hc)
  refine ⟨h.sorted, ?_, ?_, ?_, ?_, ?_, ?_, ?_, h.bounded⟩
  · intro a ha htail
    rcases h.links a ha htail with hnext | ⟨q, cq, curr, hq, hcq, hb⟩
    · exact .inl hnext
    · exact .inr ⟨q, cq, curr, hstay hq (by simp [hcq]), hcq, hb⟩
  · exact h.locks.finish hp (by rw [hc]; rfl)
  · intro id o hmem
    rcases List.mem_append.mp hmem with hmem | hmem
    · exact h.ids id o hmem
    · cases List.mem_singleton.mp hmem
  · exact h.thread_ids.finish
  · exact h.owned_inj.finish
  · intro q cq hq
    have hq' := (update_none hq).2
    apply (h.thread q cq hq').frame (Nat.succ_ne_self cq.id).symm
      (fun e he => List.mem_append_left _ he) (fun e he => he) (fun e he => .inl he)
      (fun a _ ha => ha) (fun _ _ => rfl) (fun _ _ _ hadj => hadj) (fun _ _ => rfl)
    exact fun a ha => ⟨rfl, ((h.thread q cq hq').owned a ha).1⟩
  · exact h.tracked.ret c.id c.op r ((h.thread p c hp).effect r (by rw [hc]; rfl))

theorem initially : FineInv {head, tail} [] initial where
  sorted := sorted_nodes_init
  links := fun a ha htail => .inl (next_init a ha htail)
  locks := by
    intro a p
    constructor
    · intro hm
      rw [initial, Heap.mutex_init] at hm
      cases hm
    · intro hq
      obtain ⟨c, hc, -⟩ := hq
      cases hc
  ids := by
    intro id o hmem
    cases hmem
  thread_ids := by
    intro p c q cq a hp
    cases hp
  owned_inj := by
    intro p c q cq a hp
    cases hp
  thread := by
    intro p c hp
    cases hp
  tracked := Tracked.start
  bounded := by
    refine ⟨2, fun a ha => ?_⟩
    have hhead : a ≠ 0 := by omega
    have htail : a ≠ 1 := by omega
    simp [initial, list_init, hhead, htail]

end FineInv

/-- **The invariant holds in every reachable state.** -/
theorem fine_inv_of_reachable {s : ListState} (h : Reachable list_threads s) :
    ∃ live L, FineInv live L s := by
  apply h.invariant
  · intro s hs
    subst hs
    exact ⟨_, _, FineInv.initially⟩
  · intro s l s' _ hinv hstep
    obtain ⟨live, L, hinv⟩ := hinv
    obtain ⟨p, l⟩ := l
    cases l with
    | call op =>
      obtain ⟨hp, hrange, rfl⟩ := hstep
      exact ⟨live, L, hinv.start hp hrange⟩
    | run fresh =>
      obtain ⟨c, hp, hrun⟩ := hstep
      cases hc : c.point with
      | finished r =>
        simp only [ListState.run, hc, Option.some.injEq] at hrun
        subst hrun
        exact ⟨live, L, hinv.return_call hp hc⟩
      | _ =>
        obtain ⟨live', L', hinv', -⟩ := hinv.run hp (by simp [hc]) hrun
        exact ⟨live', L', hinv'⟩

end Lab11.Fine
