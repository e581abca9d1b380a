import ConcurrentProgramming.Framework.Threads
import ConcurrentProgramming.Lab11.FineGrained
import ConcurrentProgramming.Lab11.SortedNodes

/-! # The Invariant of the Fine-Grained List

    `live` are the nodes of the list.  A thread holds the mutex of the node whose
    link it relies on: for a window `prev`, `curr` it holds `prev`, so nobody else
    can link a node between the two or unlink `curr`.

    A node belongs to one thread alone (`owned`) from `malloc` until it is in the
    list, and from the moment it is unlinked until it is freed.

    A node is in the list when `node->next = curr` has been executed.  Before this
    store, and after `prev->next = node`, the pointer of `prev` leads outside of
    the list, but `prev` is locked.
-/

namespace Lab11.Fine

open LTS Linearizability SortedLinks Threads ListState

/-! ## Section 1: What a thread may rely on -/

namespace Point

/-- The nodes whose mutexes a call holds. -/
def holds : Point → List ℕ
  | .malloc => []
  | .lock_head => []
  | .load_first => [head]
  | .lock_curr prev _ => [prev]
  | .test prev curr => [prev, curr]
  | .unlock_prev prev curr => [prev, curr]
  | .advance curr => [curr]
  | .check prev curr => [prev, curr]
  | .link prev curr => [prev, curr]
  | .set_next prev curr => [prev, curr]
  | .load_next prev curr => [prev, curr]
  | .unlink prev curr _ => [prev, curr]
  | .unlock_both prev curr _ => [prev, curr]
  | .unlock_curr curr _ => [curr]
  | .free _ _ => []
  | .finished _ => []

/-- Two neighbours of the list. -/
def window : Point → Option (ℕ × ℕ)
  | .lock_curr prev curr => some (prev, curr)
  | .test prev curr => some (prev, curr)
  | .unlock_prev prev curr => some (prev, curr)
  | .check prev curr => some (prev, curr)
  | .link prev curr => some (prev, curr)
  | .set_next prev curr => some (prev, curr)
  | .load_next prev curr => some (prev, curr)
  | .unlink prev curr _ => some (prev, curr)
  | _ => none

/-- The result of a call that has taken effect. -/
def result : Point → Option Bool
  | .unlock_both _ _ r => some r
  | .unlock_curr _ r => some r
  | .free _ r => some r
  | .finished r => some r
  | _ => none

theorem window_holds {pt : Point} {prev curr : ℕ} (h : pt.window = some (prev, curr)) :
    prev ∈ pt.holds := by
  cases pt <;> simp_all [window, holds]

end Point

/-- The node that belongs to a call alone. -/
def Call.owned (c : Call) : Option ℕ :=
  match c.op, c.point with
  | _, .malloc => none
  | _, .finished _ => none
  | .add _, .unlock_both _ _ true => none
  | .add _, .unlock_curr _ true => none
  | .add _, _ => some c.node
  | .remove _, .unlock_both _ curr true => some curr
  | .remove _, .unlock_curr curr true => some curr
  | .remove _, .free a _ => some a
  | _, _ => none

/-- What a call knows at its point. -/
def point_ok (live : Finset ℕ) (h : Heap) (c : Call) : Prop :=
  match c.point with
  | .malloc => ∃ k, c.op = .add k
  | .unlock_prev _ curr => h.key curr < c.op.key
  | .advance curr => curr ∈ live ∧ h.rank curr < c.op.key
  | .check _ curr => c.op.key ≤ h.key curr
  | .link _ curr => (∃ k, c.op = .add k) ∧ c.op.key < h.key curr
  | .set_next prev curr =>
      (∃ k, c.op = .add k) ∧ c.op.key < h.key curr ∧ h.next prev = some c.node
  | .load_next _ curr => (∃ k, c.op = .remove k) ∧ h.key curr = c.op.key
  | .unlink _ curr next => (∃ k, c.op = .remove k) ∧ h.key curr = c.op.key ∧ h.next curr = next
  | .unlock_both prev curr _ => prev ≠ curr
  | .free a _ => c.owned = some a
  | _ => True

structure ThreadOk (live : Finset ℕ) (h : Heap) (H : List (Event Operation Bool))
    (L : List (Entry Operation Bool)) (c : Call) : Prop where
  called  : .call c.id c.op ∈ H
  range   : c.op.in_range
  pending : c.point.result = none → c.id ∉ L.map Entry.id
  effect  : ∀ r, c.point.result = some r → ⟨c.id, c.op, r⟩ ∈ L
  held    : ∀ a ∈ c.point.holds, a ∈ live ∨ c.owned = some a
  window  : ∀ prev curr, c.point.window = some (prev, curr) →
    Adjacent live h.rank prev curr ∧ h.rank prev < c.op.key
  point   : point_ok live h c
  owned   : ∀ a, c.owned = some a → a ∉ live ∧ h.allocated a ∧
    ∀ k, c.op = .add k → h a = some ⟨k, none, none⟩

/-- The invariant of the list. -/
structure FineInv (live : Finset ℕ) (L : List (Entry Operation Bool)) (s : ListState) :
    Prop where
  sorted     : SortedNodes live s.heap
  /-- The pointer of a node leads to its neighbour, unless a node is being linked
      behind it. -/
  links      : ∀ a ∈ live, a ≠ tail →
    (∃ b, s.heap.next a = some b ∧ Adjacent live s.heap.rank a b) ∨
    ∃ p c curr, s.thread p = some c ∧ c.point = .set_next a curr ∧ s.heap.next a = some c.node
  locks      : Locked s.heap.mutex s.thread fun c => c.point.holds
  ids        : ∀ id o, .call id o ∈ s.history → id < s.calls
  thread_ids : Distinct s.thread fun c => some c.id
  owned_inj  : Distinct s.thread Call.owned
  thread     : ∀ p c, s.thread p = some c → ThreadOk live s.heap s.history L c
  tracked    : Tracked key_set s.history L (live_keys live s.heap)
  bounded    : ∃ N, ∀ a, N ≤ a → s.heap a = none

/-! ## Section 2: Steps of the other threads -/

namespace ThreadOk

variable {live live' : Finset ℕ} {h h' : Heap} {H H' : List (Event Operation Bool)}
  {L L' : List (Entry Operation Bool)} {c : Call}

/-- What a step of another call, with another `id`, may change. -/
theorem frame (hok : ThreadOk live h H L c) {id : ℕ} (hid : c.id ≠ id)
    (hH : ∀ e ∈ H, e ∈ H') (hL : ∀ e ∈ L, e ∈ L') (hL' : ∀ e ∈ L', e ∈ L ∨ e.id = id)
    (hlive : ∀ a ∈ c.point.holds, a ∈ live → a ∈ live')
    (hkey : ∀ a ∈ live, h'.key a = h.key a)
    (hwindow : ∀ prev curr, c.point.window = some (prev, curr) →
      Adjacent live h.rank prev curr → Adjacent live' h'.rank prev curr)
    (hnext : ∀ a ∈ c.point.holds, h'.next a = h.next a)
    (howned : ∀ a, c.owned = some a → h' a = h a ∧ a ∉ live') :
    ThreadOk live' h' H' L' c where
  called := hH _ hok.called
  range := hok.range
  pending := by
    intro hr hmem
    obtain ⟨e, he, heq⟩ := List.mem_map.mp hmem
    rcases hL' e he with he' | he'
    · exact hok.pending hr (List.mem_map.mpr ⟨e, he', heq⟩)
    · exact hid (heq.symm.trans he')
  effect := fun r hr => hL _ (hok.effect r hr)
  held := by
    intro a ha
    rcases hok.held a ha with hl | ho
    · exact .inl (hlive a ha hl)
    · exact .inr ho
  window := by
    intro prev curr hw
    obtain ⟨hadj, hlt⟩ := hok.window prev curr hw
    refine ⟨hwindow prev curr hw hadj, ?_⟩
    rw [Heap.rank_congr (hkey prev hadj.left)]
    exact hlt
  point := by
    have hpoint := hok.point
    have hcurr : ∀ prev curr, c.point.window = some (prev, curr) → h'.key curr = h.key curr :=
      fun prev curr hw => hkey curr (hok.window prev curr hw).1.right
    unfold point_ok at hpoint ⊢
    split at hpoint <;> rename_i hc
    · exact hpoint
    · rwa [hcurr _ _ (by rw [hc]; rfl)]
    · refine ⟨hlive _ (by rw [hc]; simp [Point.holds]) hpoint.1, ?_⟩
      rw [Heap.rank_congr (hkey _ hpoint.1)]
      exact hpoint.2
    · rwa [hcurr _ _ (by rw [hc]; rfl)]
    · rwa [hcurr _ _ (by rw [hc]; rfl)]
    · rwa [hcurr _ _ (by rw [hc]; rfl), hnext _ (by rw [hc]; simp [Point.holds])]
    · rwa [hcurr _ _ (by rw [hc]; rfl)]
    · rwa [hcurr _ _ (by rw [hc]; rfl), hnext _ (by rw [hc]; simp [Point.holds])]
    · exact hpoint
    · exact hpoint
    · trivial
  owned := by
    intro a ha
    obtain ⟨-, halloc, hadd⟩ := hok.owned a ha
    obtain ⟨heq, hlive'⟩ := howned a ha
    exact ⟨hlive', by rwa [Heap.allocated, heq], fun k hk => by rw [heq, hadd k hk]⟩

/-- A step of the call itself that changes no node of the list. -/
theorem go (hok : ThreadOk live h H L c) {pt : Fine.Point} (hkey : ∀ a ∈ live, h'.key a = h.key a)
    (hresult : pt.result = c.point.result)
    (howned : ({ c with point := pt } : Call).owned = c.owned)
    (hnode : ∀ a, c.owned = some a → h'.allocated a ∧ ∀ k, c.op = .add k → h' a = h a)
    (hheld : ∀ a ∈ pt.holds, a ∈ live ∨ c.owned = some a)
    (hwindow : ∀ prev curr, pt.window = some (prev, curr) →
      Adjacent live h.rank prev curr ∧ h.rank prev < c.op.key)
    (hpoint : point_ok live h' { c with point := pt }) :
    ThreadOk live h' H L { c with point := pt } where
  called := hok.called
  range := hok.range
  pending := fun hr => hok.pending (hresult ▸ hr)
  effect := fun r hr => hok.effect r (hresult ▸ hr)
  held := by
    rw [howned]
    exact hheld
  window := by
    intro prev curr hw
    obtain ⟨hadj, hlt⟩ := hwindow prev curr hw
    refine ⟨hadj.congr fun a ha => Heap.rank_congr (hkey a ha), ?_⟩
    rw [Heap.rank_congr (hkey prev hadj.left)]
    exact hlt
  point := hpoint
  owned := by
    intro a ha
    rw [howned] at ha
    obtain ⟨hlive, -, hadd⟩ := hok.owned a ha
    obtain ⟨halloc, heq⟩ := hnode a ha
    exact ⟨hlive, halloc, fun k hk => by rw [heq k hk, hadd k hk]⟩

/-- A step at which the call takes effect. -/
theorem take_effect (hok : ThreadOk live h H L c) {prev curr : ℕ} {r : Bool} (hne : prev ≠ curr)
    (hheld : ∀ a ∈ [prev, curr],
      a ∈ live' ∨ ({ c with point := .unlock_both prev curr r } : Call).owned = some a)
    (howned : ∀ a, ({ c with point := .unlock_both prev curr r } : Call).owned = some a →
      a ∉ live' ∧ h'.allocated a ∧ ∀ k, c.op = .add k → h' a = some ⟨k, none, none⟩) :
    ThreadOk live' h' H (L ++ [⟨c.id, c.op, r⟩]) { c with point := .unlock_both prev curr r } where
  called := hok.called
  range := hok.range
  pending := by
    intro hr
    cases hr
  effect := by
    intro r' hr'
    cases hr'
    exact List.mem_append_right _ List.mem_cons_self
  held := hheld
  window := by
    intro prev' curr' hw
    cases hw
  point := hne
  owned := howned

end ThreadOk

/-! ## Section 3: A step of one thread -/

namespace FineInv

variable {live live' : Finset ℕ} {L L' : List (Entry Operation Bool)} {s : ListState}
  {h' : Heap} {p q : ℕ} {c c' cq : Call} {pt : Point}

theorem holder (h : FineInv live L s) {a : ℕ} (hm : s.heap.mutex a = some p) :
    ∃ c, s.thread p = some c ∧ a ∈ c.point.holds := (h.locks a p).mp hm

theorem ids_ne (h : FineInv live L s) (hp : s.thread p = some c) (hq : s.thread q = some cq)
    (hne : q ≠ p) : cq.id ≠ c.id := fun heq =>
  hne (h.thread_ids q cq p c c.id hq hp (congrArg some heq) rfl)

/-- The invariant after a step of thread `p`. -/
theorem step_of (h : FineInv live L s) (c' : Call) (hp : s.thread p = some c) (hid : c'.id = c.id)
    (hsorted : SortedNodes live' h')
    (hlinks : ∀ a ∈ live', a ≠ tail → (∃ b, h'.next a = some b ∧ Adjacent live' h'.rank a b) ∨
      ∃ q cq curr, Function.update s.thread p (some c') q = some cq ∧
        cq.point = .set_next a curr ∧ h'.next a = some cq.node)
    (hmutex : ∀ b, h'.mutex b = if b ∈ c'.point.holds then some p
      else if b ∈ c.point.holds then none else s.heap.mutex b)
    (hfree : ∀ b ∈ c'.point.holds, b ∉ c.point.holds → s.heap.mutex b = none)
    (howned : ∀ a, c'.owned = some a → c.owned = some a ∨
      ∀ q cq, s.thread q = some cq → cq.owned ≠ some a)
    (hself : ThreadOk live' h' s.history L' c')
    (hothers : ∀ q cq, q ≠ p → s.thread q = some cq → ThreadOk live' h' s.history L' cq)
    (htracked : Tracked key_set s.history L' (live_keys live' h'))
    (hbounded : ∃ N, ∀ a, N ≤ a → h' a = none) :
    FineInv live' L' { s with heap := h', thread := Function.update s.thread p (some c') } where
  sorted := hsorted
  links := hlinks
  locks := h.locks.update hp hmutex hfree
  ids := h.ids
  thread_ids := h.thread_ids.update fun a ha => .inl ⟨c, hp, hid ▸ ha⟩
  owned_inj := by
    apply h.owned_inj.update
    intro a ha
    rcases howned a ha with ha | hnew
    · exact .inl ⟨c, hp, ha⟩
    · exact .inr hnew
  thread := by
    intro q cq hq
    rcases update_some hq with ⟨rfl, rfl⟩ | ⟨hne, hq'⟩
    · exact hself
    · exact hothers q cq hne hq'
  tracked := htracked
  bounded := hbounded

/-- Old links after a step that changes no pointer of theirs. -/
theorem links_of (h : FineInv live L s) (c' : Call) (hp : s.thread p = some c) {a : ℕ}
    (ha : a ∈ live)
    (htail : a ≠ tail) (hpoint : ∀ curr, c.point ≠ .set_next a curr)
    (hnext : h'.next a = s.heap.next a) :
    (∃ b, h'.next a = some b ∧ Adjacent live s.heap.rank a b) ∨
      ∃ q cq curr, Function.update s.thread p (some c') q = some cq ∧
        cq.point = .set_next a curr ∧ h'.next a = some cq.node := by
  rcases h.links a ha htail with ⟨b, hb, hadj⟩ | ⟨q, cq, curr, hq, hcq, hb⟩
  · exact .inl ⟨b, hnext.trans hb, hadj⟩
  · have hne : q ≠ p := by
      intro heq
      subst heq
      rw [hp, Option.some.injEq] at hq
      exact hpoint curr (hq ▸ hcq)
    exact .inr ⟨q, cq, curr, (Function.update_of_ne hne _ _).trans hq, hcq, hnext.trans hb⟩

/-- A step that changes no key and leaves all nodes where they are. -/
theorem still (h : FineInv live L s) (hp : s.thread p = some c)
    (hkeep : Heap.KeepsNodes s.heap h')
    (hlinks : ∀ a ∈ live, a ≠ tail → (∃ b, h'.next a = some b ∧ Adjacent live s.heap.rank a b) ∨
      ∃ q cq curr, Function.update s.thread p (some { c with point := pt }) q = some cq ∧
        cq.point = .set_next a curr ∧ h'.next a = some cq.node)
    (hnext : ∀ b, b ∉ c.point.holds → h'.next b = s.heap.next b)
    (hmutex : ∀ b, h'.mutex b = if b ∈ pt.holds then some p
      else if b ∈ c.point.holds then none else s.heap.mutex b)
    (hfree : ∀ b ∈ pt.holds, b ∉ c.point.holds → s.heap.mutex b = none)
    (hnodes : ∀ q cq, q ≠ p → s.thread q = some cq → ∀ a, cq.owned = some a → h' a = s.heap a)
    (howned : ({ c with point := pt } : Call).owned = c.owned)
    (hself : ThreadOk live h' s.history L' { c with point := pt })
    (hL : ∀ e ∈ L, e ∈ L') (hL' : ∀ e ∈ L', e ∈ L ∨ e.id = c.id)
    (htracked : Tracked key_set s.history L' (live_keys live s.heap)) :
    FineInv live L' (s.go p c h' pt) := by
  have hkey : ∀ a ∈ live, h'.key a = s.heap.key a := fun a _ => hkeep.key a
  apply h.step_of { c with point := pt } hp rfl
  · exact h.sorted.keep hkeep
  · intro a ha htail
    rcases hlinks a ha htail with ⟨b, hb, hadj'⟩ | hmid
    · exact .inl ⟨b, hb, hkeep.adjacent hadj'⟩
    · exact .inr hmid
  · exact hmutex
  · exact hfree
  · exact fun a ha => .inl (howned ▸ ha)
  · exact hself
  · intro q cq hne hq
    apply (h.thread q cq hq).frame (h.ids_ne hp hq hne)
      (fun e he => he) hL hL' (fun a _ ha => ha) hkey (fun _ _ _ => hkeep.adjacent)
    · exact fun a ha => hnext a fun ha' => h.locks.not_held hp hq hne ha' ha
    · exact fun a ha => ⟨hnodes q cq hne hq a ha, ((h.thread q cq hq).owned a ha).1⟩
  · rw [SortedNodes.live_keys_congr hkey]
    exact htracked
  · exact Heap.bounded_of_allocated hkeep.allocated h.bounded

/-- A step that changes no key and no pointer. -/
theorem quiet (h : FineInv live L s) (hp : s.thread p = some c)
    (hkeep : Heap.KeepsNodes s.heap h') (hnext : ∀ b, h'.next b = s.heap.next b)
    (hmutex : ∀ b, h'.mutex b = if b ∈ pt.holds then some p
      else if b ∈ c.point.holds then none else s.heap.mutex b)
    (hfree : ∀ b ∈ pt.holds, b ∉ c.point.holds → s.heap.mutex b = none)
    (hpoint : ∀ a curr, c.point ≠ .set_next a curr)
    (hnodes : ∀ q cq, q ≠ p → s.thread q = some cq → ∀ a, cq.owned = some a → h' a = s.heap a)
    (howned : ({ c with point := pt } : Call).owned = c.owned)
    (hself : ThreadOk live h' s.history L' { c with point := pt })
    (hL : ∀ e ∈ L, e ∈ L') (hL' : ∀ e ∈ L', e ∈ L ∨ e.id = c.id)
    (htracked : Tracked key_set s.history L' (live_keys live s.heap)) :
    FineInv live L' (s.go p c h' pt) :=
  h.still hp hkeep (fun a ha htail => h.links_of _ hp ha htail (hpoint a) (hnext a))
    (fun b _ => hnext b) hmutex hfree hnodes howned hself hL hL' htracked

/-- A step that reads the memory. -/
theorem read (h : FineInv live L s) (hp : s.thread p = some c)
    (hholds : pt.holds = c.point.holds) (hpoint : ∀ a curr, c.point ≠ .set_next a curr)
    (hresult : pt.result = c.point.result)
    (howned : ({ c with point := pt } : Call).owned = c.owned)
    (hwindow : ∀ prev curr, pt.window = some (prev, curr) →
      Adjacent live s.heap.rank prev curr ∧ s.heap.rank prev < c.op.key)
    (hok : point_ok live s.heap { c with point := pt }) :
    FineInv live L (s.go p c s.heap pt) := by
  apply h.quiet hp ⟨fun _ => rfl, fun _ => Iff.rfl⟩ (fun _ => rfl) _ _ hpoint
    (fun _ _ _ _ _ _ => rfl) howned _ (fun _ he => he) (fun _ he => .inl he) h.tracked
  · exact h.locks.same hp hholds fun _ => rfl
  · intro b hb hb'
    rw [hholds] at hb
    exact absurd hb hb'
  · exact (h.thread p c hp).go (fun _ _ => rfl) hresult howned
      (fun a ha => ⟨((h.thread p c hp).owned a ha).2.1, fun _ _ => rfl⟩)
      (hholds ▸ (h.thread p c hp).held) hwindow hok

/-- A thread takes the mutex of a node of the list. -/
theorem lock (h : FineInv live L s) (hp : s.thread p = some c) {a : ℕ} (ha : a ∈ live)
    (hlock : s.heap.lock p a = some h') (hholds : ∀ b, b ∈ pt.holds ↔ b = a ∨ b ∈ c.point.holds)
    (hpoint : ∀ a curr, c.point ≠ .set_next a curr) (hresult : pt.result = c.point.result)
    (howned : ({ c with point := pt } : Call).owned = c.owned)
    (hwindow : ∀ prev curr, pt.window = some (prev, curr) →
      Adjacent live s.heap.rank prev curr ∧ s.heap.rank prev < c.op.key)
    (hok : point_ok live h' { c with point := pt }) :
    FineInv live L (s.go p c h' pt) := by
  obtain ⟨hfree, -, hkeep, hnext, hmutex, hother⟩ := Heap.lock_spec hlock
  have hnode : ∀ q cq, s.thread q = some cq → ∀ b, cq.owned = some b → b ≠ a := by
    intro q cq hq b hb heq
    exact ((h.thread q cq hq).owned b hb).1 (heq ▸ ha)
  apply h.quiet hp hkeep hnext _ _ hpoint
    (fun q cq _ hq b hb => hother b (hnode q cq hq b hb)) howned _ (fun _ he => he)
    (fun _ he => .inl he) h.tracked
  · exact h.locks.lock hp hholds hmutex
  · intro b hb hb'
    rcases (hholds b).mp hb with rfl | hb
    · exact hfree
    · exact absurd hb hb'
  · apply (h.thread p c hp).go (fun b _ => hkeep.key b) hresult howned _ _ hwindow hok
    · intro b hb
      exact ⟨(hkeep.allocated b).mpr ((h.thread p c hp).owned b hb).2.1,
        fun _ _ => hother b (hnode p c hp b hb)⟩
    · intro b hb
      rcases (hholds b).mp hb with rfl | hb
      · exact .inl ha
      · exact (h.thread p c hp).held b hb

/-- A thread releases a mutex. -/
theorem unlock (h : FineInv live L s) (hp : s.thread p = some c) {a : ℕ}
    (ha : a ∈ live ∨ c.owned = some a ∧ ∀ k, c.op ≠ .add k)
    (hunlock : s.heap.unlock p a = some h')
    (hholds : ∀ b, b ∈ pt.holds ↔ b ≠ a ∧ b ∈ c.point.holds) (hmem : a ∈ c.point.holds)
    (hpoint : ∀ a curr, c.point ≠ .set_next a curr) (hresult : pt.result = c.point.result)
    (howned : ({ c with point := pt } : Call).owned = c.owned)
    (hwindow : ∀ prev curr, pt.window = some (prev, curr) →
      Adjacent live s.heap.rank prev curr ∧ s.heap.rank prev < c.op.key)
    (hok : point_ok live h' { c with point := pt }) :
    FineInv live L (s.go p c h' pt) := by
  obtain ⟨-, hkeep, hnext, hmutex, hother⟩ := Heap.unlock_spec hunlock
  have hnode : ∀ q cq, q ≠ p → s.thread q = some cq → ∀ b, cq.owned = some b → b ≠ a := by
    intro q cq hne hq b hb heq
    rcases ha with ha | ⟨ha, -⟩
    · exact ((h.thread q cq hq).owned b hb).1 (heq ▸ ha)
    · exact hne (h.owned_inj q cq p c b hq hp hb (heq ▸ ha))
  apply h.quiet hp hkeep hnext _ _ hpoint
    (fun q cq hne hq b hb => hother b (hnode q cq hne hq b hb)) howned _ (fun _ he => he)
    (fun _ he => .inl he) h.tracked
  · exact h.locks.unlock hp hholds hmem hmutex
  · intro b hb hb'
    exact absurd ((hholds b).mp hb).2 hb'
  · apply (h.thread p c hp).go (fun b _ => hkeep.key b) hresult howned _ _ hwindow hok
    · intro b hb
      refine ⟨(hkeep.allocated b).mpr ((h.thread p c hp).owned b hb).2.1, fun k hk => ?_⟩
      rcases ha with ha | ⟨-, hadd⟩
      · exact hother b fun heq => ((h.thread p c hp).owned b hb).1 (heq ▸ ha)
      · exact absurd hk (hadd k)
    · intro b hb
      exact (h.thread p c hp).held b ((hholds b).mp hb).2

end FineInv

end Lab11.Fine
