import ConcurrentProgramming.Lab11.CoarseInvariant

/-! # Every Step of the Coarse-Grained List Keeps the Invariant

    A `list_add` takes effect when its node is completely linked, a `list_remove`
    that finds its key when the node is unlinked, and all other calls at the
    comparison of the keys.
-/

namespace Lab11.Coarse

open LTS CInt Threads Sequential ListState

namespace CoarseInv

variable {l l' : List ℕ} {D D' : List Effect} {started : ℕ → List Operation} {s s' : ListState}
  {h' : Heap} {p q fresh prev curr : ℕ} {c c' cq : Call} {pt : Point} {op : Operation}

/-! ## Section 1: The thread that holds the mutex -/

theorem mutex_eq (h : CoarseInv l D started s) (hp : s.thread p = some c)
    (hin : c.point.inside = true) : s.mutex = some p :=
  h.locks.held hp (a := ()) (by simp [Call.holds, hin])

/-- Between the two stores of `list_add` its thread holds the mutex. -/
theorem linked_of (h : CoarseInv l D started s) (hp : s.thread p = some c)
    (hmutex : s.mutex = none ∨ c.point.inside = true)
    (hpoint : ∀ prev curr, c.point ≠ .set_next prev curr) : linked s.heap (nodes l) := by
  rcases h.chain with hl | ⟨q, cq, prev, curr, hq, hcq⟩
  · exact hl
  · have hqin : cq.point.inside = true := by
      rw [hcq]
      rfl
    have hq' := h.mutex_eq hq hqin
    rcases hmutex with hnone | hin
    · rw [hnone] at hq'
      cases hq'
    · rw [h.mutex_eq hp hin, Option.some.injEq] at hq'
      subst hq'
      rw [hp, Option.some.injEq] at hq
      exact absurd (hq ▸ hcq) (hpoint prev curr)

/-- A step of the thread that holds the mutex. -/
theorem inside_step (h : CoarseInv l D started s) (hp : s.thread p = some c)
    (hin : c.point.inside = true) (hin' : pt.inside = true) (hnodup : (nodes l').Nodup)
    (halloc : ∀ a ∈ nodes l', h'.allocated a) (htail : h'.key tail = INT_MAX)
    (hbook : Booked D p c { c with point := pt } D')
    (hkeys : l'.map h'.key = final keep_all [] (D'.map Effect.op))
    (hchain : linked h' (nodes l') ∨ ∃ prev curr, pt = .set_next prev curr)
    (howned : ∀ a, ({ c with point := pt } : Call).owned = some a → (c.owned = some a ∨
      a ∈ nodes l) ∧ a ∉ nodes l' ∧ h'.allocated a ∧ ∀ k, c.op = .add k → h'.key a = k)
    (hnodes : ∀ q cq a, q ≠ p → s.thread q = some cq → cq.owned = some a →
      a ∉ nodes l' ∧ h' a = s.heap a)
    (hbounded : ∀ a, h'.allocated a ↔ s.heap.allocated a)
    (hok : point_ok h' l' { c with point := pt }) :
    CoarseInv l' D' started (s.go p c h' pt) := by
  apply h.step_of { c with point := pt } s.mutex hp rfl hnodup halloc htail hbook hkeys
  · rcases hchain with hl | ⟨prev, curr, hpt⟩
    · exact .inl hl
    · exact .inr ⟨p, _, prev, curr, Function.update_self _ _ _, hpt⟩
  · have hmem : () ∈ ({ c with point := pt } : Call).holds := by simp [Call.holds, hin']
    rw [if_pos hmem]
    exact h.mutex_eq hp hin
  · intro _ hnot
    simp [Call.holds, hin] at hnot
  · intro a ha
    rcases (howned a ha).1 with hold | hmem
    · exact .inl hold
    · exact .inr fun q cq hq hqa => (h.owned q cq a hq hqa).1 hmem
  · exact ⟨hok, fun a ha => (howned a ha).2⟩
  · intro q cq hne hq
    have hout := h.outside hp hin hq hne
    exact ⟨point_ok_outside hout (h.thread q cq hq), fun a ha => hnodes q cq a hne hq ha⟩
  · exact Heap.bounded_of_allocated hbounded h.bounded

/-- A step of the thread that holds the mutex which only reads. -/
theorem read (h : CoarseInv l D started s) (hp : s.thread p = some c)
    (hin : c.point.inside = true) (hres : c.point.result = none)
    (hpoint : ∀ prev curr, c.point ≠ .set_next prev curr) (hin' : pt.inside = true)
    (hres' : pt.result = none) (hok : point_ok s.heap l { c with point := pt }) :
    CoarseInv l D started (s.go p c s.heap pt) := by
  have howned : ({ c with point := pt } : Call).owned = c.owned := by
    rw [owned_eq_spare hin hres]
    exact owned_eq_spare hin' hres'
  apply h.inside_step hp hin hin' h.nodup h.allocated h.tail_key (.same (hres'.trans hres.symm))
    h.keys (.inl (h.linked_of hp (.inr hin) hpoint))
  · rw [howned]
    exact fun a ha => ⟨.inl ha, h.owned p c a hp ha⟩
  · exact fun q cq a _ hq ha => ⟨(h.owned q cq a hq ha).1, rfl⟩
  · exact fun _ => Iff.rfl
  · exact hok

/-! ## Section 2: The walk -/

theorem load_first (h : CoarseInv l D started s) (hp : s.thread p = some c)
    (hc : c.point = .load_first) (hnext : s.heap.next head = some curr) :
    CoarseInv l D started (s.go p c s.heap (.test head curr)) := by
  have hin : c.point.inside = true := by rw [hc]; rfl
  have hl := h.linked_of hp (.inr hin) (by simp [hc])
  apply h.read hp hin (by rw [hc]; rfl) (by simp [hc]) rfl rfl
  -- The first pointer leads to the second node.
  unfold linked nodes at hl
  cases hrest : l ++ [tail] with
  | nil => simp at hrest
  | cons x B =>
    rw [hrest] at hl
    have hx := (List.isChain_cons_cons.mp hl).1
    rw [hnext, Option.some.injEq] at hx
    refine ⟨[], B, by rw [nodes, hrest, hx]; rfl, ?_⟩
    intro a ha hne
    exact absurd (List.mem_singleton.mp ha) hne

theorem test (h : CoarseInv l D started s) (hp : s.thread p = some c)
    (hc : c.point = .test prev curr) :
    CoarseInv l D started (s.go p c s.heap
      (if s.heap.key curr < c.op.key then .advance curr else after_loop c.op prev curr)) := by
  have hin : c.point.inside = true := by rw [hc]; rfl
  have hwindow : window s.heap l c.op.key prev curr := by
    have hok := h.thread p c hp
    rwa [point_ok, hc] at hok
  split
  · next hlt =>
    apply h.read hp hin (by rw [hc]; rfl) (by simp [hc]) rfl rfl
    obtain ⟨A, B, hsplit, hbelow⟩ := hwindow
    refine ⟨A ++ [prev], B, by rw [hsplit]; simp, ?_⟩
    intro a ha hne
    rcases List.mem_append.mp ha with ha | ha
    · exact hbelow a ha hne
    · rw [List.mem_singleton.mp ha]
      exact hlt
  · next hge =>
    have hle := Int.not_lt.mp hge
    cases hop : c.op with
    | add k =>
      rw [hop] at hwindow hle
      exact h.read hp hin (by rw [hc]; rfl) (by simp [hc]) rfl rfl
        ⟨⟨k, hop⟩, by rw [hop]; exact hwindow, by rw [hop]; exact hle⟩
    | remove k =>
      rw [hop] at hwindow hle
      exact h.read hp hin (by rw [hc]; rfl) (by simp [hc]) rfl rfl
        ⟨by simp [hop], by rw [hop]; exact hwindow, by rw [hop]; exact hle⟩
    | contains k =>
      rw [hop] at hwindow hle
      exact h.read hp hin (by rw [hc]; rfl) (by simp [hc]) rfl rfl
        ⟨by simp [hop], by rw [hop]; exact hwindow, by rw [hop]; exact hle⟩

/-- The node behind one that is not the tail. -/
theorem next_node {h : Heap} (hl : linked h (nodes l)) {A B : List ℕ}
    (hsplit : nodes l = A ++ curr :: B) (htail : curr ≠ tail) :
    ∃ next B', B = next :: B' ∧ h.next curr = some next := by
  cases B with
  | nil =>
    have hlast : nodes l = (head :: l) ++ [tail] := rfl
    rw [hlast] at hsplit
    have := (List.append_inj' hsplit rfl).2
    exact absurd (List.singleton_inj.mp this).symm htail
  | cons next B =>
    rw [hsplit] at hl
    exact ⟨next, B, rfl, (List.isChain_append_cons_cons.mp hl).2.1⟩

/-- The walk does not go past the tail. -/
theorem ne_tail (h : CoarseInv l D started s) (hp : s.thread p = some c) {A : List ℕ}
    (hbelow : ∀ a ∈ A ++ [curr], a ≠ head → s.heap.key a < c.op.key) : curr ≠ tail := by
  intro heq
  have hlt := hbelow curr (List.mem_append_right _ List.mem_cons_self) (by rw [heq]; decide)
  have := (h.range p c hp).2
  rw [heq, h.tail_key] at hlt
  omega

theorem advance (h : CoarseInv l D started s) (hp : s.thread p = some c)
    (hc : c.point = .advance curr) {next : ℕ} (hnext : s.heap.next curr = some next) :
    CoarseInv l D started (s.go p c s.heap (.test curr next)) := by
  have hin : c.point.inside = true := by rw [hc]; rfl
  have hl := h.linked_of hp (.inr hin) (by simp [hc])
  have hok := h.thread p c hp
  rw [point_ok, hc] at hok
  obtain ⟨A, B, hsplit, hbelow⟩ := hok
  obtain ⟨next', B', rfl, hnext'⟩ := next_node hl hsplit (h.ne_tail hp hbelow)
  rw [hnext, Option.some.injEq] at hnext'
  subst hnext'
  exact h.read hp hin (by rw [hc]; rfl) (by simp [hc]) rfl rfl ⟨A, B', hsplit, hbelow⟩

/-! ## Section 3: The comparison of the keys -/

theorem sorted (h : CoarseInv l D started s) : (l.map s.heap.key).Pairwise (· ≤ ·) := by
  rw [h.keys]
  exact final_sorted List.Pairwise.nil _

/-- The window decides whether a key is in the list. -/
theorem found_iff (h : CoarseInv l D started s) {k : ℤ} (hk : k < INT_MAX)
    (hwindow : window s.heap l k prev curr) (hle : k ≤ s.heap.key curr) :
    k ∈ final keep_all [] (D.map Effect.op) ↔ s.heap.key curr = k := by
  obtain ⟨A, B, hsplit, hbelow⟩ := hwindow
  obtain ⟨l₁, l₂, -, hB, rfl, h₁, h₂⟩ := window_keys h.nodup h.sorted hsplit hbelow hle
  have hsorted := h.sorted
  rw [← h.keys, List.map_append, List.mem_append]
  rw [List.map_append, List.pairwise_append] at hsorted
  cases l₂ with
  | nil =>
    simp only [List.nil_append, List.cons.injEq] at hB
    obtain ⟨rfl, -⟩ := hB
    refine iff_of_false (fun hmem => ?_) (fun heq => ?_)
    · rcases hmem with hmem | hmem
      · exact lt_irrefl k (h₁ k hmem)
      · cases hmem
    · rw [h.tail_key] at heq
      omega
  | cons y l₂ =>
    simp only [List.cons_append, List.cons.injEq] at hB
    obtain ⟨rfl, -⟩ := hB
    rw [List.map_cons, List.mem_cons]
    rw [List.map_cons, List.pairwise_cons] at hsorted
    constructor
    · intro hmem
      rcases hmem with hmem | hmem | hmem
      · exact absurd (h₁ k hmem) (lt_irrefl k)
      · exact hmem.symm
      · exact le_antisymm (hsorted.2.1.1 k hmem) hle
    · exact fun heq => .inr (.inl heq.symm)

/-- A call takes effect without changing the list. -/
theorem effect_here (h : CoarseInv l D started s) (hp : s.thread p = some c)
    (hc : c.point = .check prev curr) {r : Bool}
    (hr : keep_all (final keep_all [] (D.map Effect.op)) c.op =
      (r, final keep_all [] (D.map Effect.op))) :
    CoarseInv l (D ++ [⟨p, c.op, r⟩]) started (s.go p c s.heap (.unlock none r)) := by
  have hin : c.point.inside = true := by rw [hc]; rfl
  apply h.inside_step hp hin rfl h.nodup h.allocated h.tail_key
    (.effect r (by rw [hc]; rfl) rfl (by rw [hr])) _
    (.inl (h.linked_of hp (.inr hin) (by simp [hc])))
  · intro a ha
    simp [Call.owned] at ha
  · exact fun q cq a _ hq ha => ⟨(h.owned q cq a hq ha).1, rfl⟩
  · exact fun _ => Iff.rfl
  · intro a ha
    cases ha
  · rw [List.map_append, List.map_singleton, final_concat, hr]
    exact h.keys

theorem check (h : CoarseInv l D started s) (hp : s.thread p = some c)
    (hc : c.point = .check prev curr) :
    ∃ D', CoarseInv l D' started (s.go p c s.heap
      (after_check c.op prev curr (s.heap.key curr = c.op.key))) := by
  have hin : c.point.inside = true := by rw [hc]; rfl
  have hok := h.thread p c hp
  rw [point_ok, hc] at hok
  obtain ⟨hadd, hwindow, hle⟩ := hok
  have hfound := h.found_iff (h.range p c hp).2 hwindow hle
  cases hop : c.op with
  | add k => exact absurd hop (hadd k)
  | remove k =>
    rw [hop] at hwindow hle hfound
    by_cases hkey : s.heap.key curr = k
    · refine ⟨D, ?_⟩
      simp only [after_check, Operation.key, hkey, decide_true, if_true]
      exact h.read hp hin (by rw [hc]; rfl) (by simp [hc]) rfl rfl
        ⟨⟨k, hop⟩, by rw [hop]; exact hwindow, by rw [hop]; exact hkey⟩
    · refine ⟨D ++ [⟨p, c.op, false⟩], ?_⟩
      simp only [after_check, Operation.key, hkey, decide_false, Bool.false_eq_true, if_false]
      have hnot : k ∉ final keep_all [] (D.map Effect.op) := fun hin => hkey (hfound.mp hin)
      apply h.effect_here hp hc
      rw [hop, keep_all, decide_eq_false hnot, List.erase_of_not_mem hnot]
  | contains k =>
    have hfound' : k ∈ final keep_all [] (D.map Effect.op) ↔ s.heap.key curr = k := by
      rwa [hop] at hfound
    refine ⟨D ++ [⟨p, c.op, decide (s.heap.key curr = k)⟩], ?_⟩
    apply h.effect_here hp hc
    rw [hop, keep_all, decide_eq_decide.mpr hfound']

/-! ## Section 4: Linking a node -/

theorem link (h : CoarseInv l D started s) (hp : s.thread p = some c)
    (hc : c.point = .link prev curr) (hstore : s.heap.store_next prev (some c.node) = some h') :
    CoarseInv l D started (s.go p c h' (.set_next prev curr)) := by
  obtain ⟨hkeep, -, hnext, hother⟩ := Heap.store_next_spec hstore
  have hin : c.point.inside = true := by rw [hc]; rfl
  have hres : c.point.result = none := by rw [hc]; rfl
  have hl := h.linked_of hp (.inr hin) (by simp [hc])
  have hok := h.thread p c hp
  rw [point_ok, hc] at hok
  obtain ⟨hadd, ⟨A, B, hsplit, hbelow⟩, hle⟩ := hok
  have hprev : prev ∈ nodes l := by simp [hsplit]
  have hnodup := h.nodup
  rw [hsplit, List.nodup_append] at hnodup
  rw [hsplit] at hl
  obtain ⟨hA, -, hB⟩ := List.isChain_append_cons_cons.mp hl
  have pt_none : (Point.set_next prev curr).result = none := rfl
  have howned : ({ c with point := .set_next prev curr } : Call).owned = c.owned := by
    rw [owned_eq_spare hin hres]
    exact owned_eq_spare rfl pt_none
  have hkeys : l.map h'.key = l.map s.heap.key := List.map_congr_left fun a _ => hkeep.key a
  apply h.inside_step hp hin rfl h.nodup
    (fun a ha => (hkeep.allocated a).mpr (h.allocated a ha)) ((hkeep.key tail).trans h.tail_key)
    (.same (pt_none.trans hres.symm)) (hkeys.trans h.keys) (.inr ⟨prev, curr, rfl⟩)
  · intro a ha
    rw [howned] at ha
    obtain ⟨hnot, halloc, hkey⟩ := h.owned p c a hp ha
    exact ⟨.inl ha, hnot, (hkeep.allocated a).mpr halloc,
      fun k hk => (hkeep.key a).trans (hkey k hk)⟩
  · intro q cq a _ hq ha
    have hnot := (h.owned q cq a hq ha).1
    exact ⟨hnot, hother a fun heq => hnot (heq ▸ hprev)⟩
  · exact hkeep.allocated
  · refine ⟨hadd, ?_, ?_, A, B, hsplit, ?_, ?_, ?_⟩
    · rw [hkeep.key]
      exact hle
    · rw [hnext, if_pos rfl]
    · intro a ha hne
      rw [hkeep.key]
      exact hbelow a ha hne
    · refine linked_congr hA fun a ha => ?_
      have hne : a ≠ prev := fun heq => hnodup.2.2 a ha prev List.mem_cons_self heq
      rw [hnext, if_neg hne]
    · refine hB.imp_of_mem_imp fun a b ha _ hab => ?_
      have hne : a ≠ prev := fun heq => (List.nodup_cons.mp hnodup.2.1).1 (heq ▸ ha)
      rw [hnext, if_neg hne]
      exact hab

/-- `list_add` takes effect: the node is in the list. -/
theorem set_next (h : CoarseInv l D started s) (hp : s.thread p = some c)
    (hc : c.point = .set_next prev curr) (hstore : s.heap.store_next c.node (some curr) = some h') :
    ∃ l', CoarseInv l' (D ++ [⟨p, c.op, true⟩]) started (s.go p c h' (.unlock none true)) := by
  obtain ⟨hkeep, -, hnext, hother⟩ := Heap.store_next_spec hstore
  have hin : c.point.inside = true := by rw [hc]; rfl
  have hres : c.point.result = none := by rw [hc]; rfl
  have hok := h.thread p c hp
  rw [point_ok, hc] at hok
  obtain ⟨⟨k, hk⟩, hle, hlast, A, B, hsplit, hbelow, hA, hB⟩ := hok
  have howner : c.owned = some c.node := by rw [owned_eq_spare hin hres, Call.spare, hk]
  obtain ⟨hnode, halloc, hkey⟩ := h.owned p c c.node hp howner
  obtain ⟨l₁, l₂, hl₁, hl₂, rfl, h₁, h₂⟩ := window_keys h.nodup h.sorted hsplit hbelow hle
  have hnodes : nodes (l₁ ++ c.node :: l₂) = A ++ prev :: c.node :: curr :: B := by
    have hsplit' : nodes (l₁ ++ c.node :: l₂) = (head :: l₁) ++ c.node :: (l₂ ++ [tail]) := by
      simp [nodes]
    rw [hsplit', ← hl₁, ← hl₂]
    simp
  have hperm := nodes_insert l₁ l₂ c.node
  have hold : ∀ xs, (∀ a ∈ xs, a ∈ nodes (l₁ ++ l₂)) → linked s.heap xs → linked h' xs := by
    intro xs hsub hl
    refine hl.imp_of_mem_imp fun a b ha _ hab => ?_
    have hne : a ≠ c.node := fun heq => hnode (heq ▸ hsub a ha)
    rw [hnext, if_neg hne]
    exact hab
  refine ⟨l₁ ++ c.node :: l₂, ?_⟩
  apply h.inside_step hp hin rfl
  · exact hperm.nodup_iff.mpr (List.nodup_cons.mpr ⟨hnode, h.nodup⟩)
  · intro a ha
    rw [hkeep.allocated]
    rcases List.mem_cons.mp (hperm.mem_iff.mp ha) with rfl | ha
    · exact halloc
    · exact h.allocated a ha
  · exact (hkeep.key tail).trans h.tail_key
  · exact .effect true hres rfl (by rw [hk]; rfl)
  · rw [hk] at h₁ h₂
    have hinsert : final keep_all [] ((D ++ [⟨p, c.op, true⟩] : List Effect).map Effect.op) =
        (l₁.map s.heap.key) ++ k :: l₂.map s.heap.key := by
      rw [List.map_append, List.map_singleton, final_concat, ← h.keys, hk, List.map_append]
      exact orderedInsert_append h₁ h₂
    rw [hinsert, ← hkey k hk, ← List.map_cons, ← List.map_append]
    exact List.map_congr_left fun a _ => hkeep.key a
  · -- All pointers are right again.
    left
    rw [hnodes]
    have hprev : prev ≠ c.node := fun heq => hnode (heq ▸ by simp [hsplit])
    refine List.isChain_append_cons_cons.mpr ⟨hold _ ?_ hA, ?_,
      List.isChain_cons_cons.mpr ⟨?_, hold _ ?_ hB⟩⟩
    · intro a ha
      rw [hsplit, List.append_cons]
      exact List.mem_append_left _ ha
    · rw [hnext, if_neg hprev]
      exact hlast
    · rw [hnext, if_pos rfl]
    · intro a ha
      rw [hsplit, List.append_cons]
      exact List.mem_append_right _ ha
  · intro a ha
    simp [Call.owned] at ha
  · intro q cq a hne hq ha
    have hac : a ≠ c.node := fun heq =>
      hne (h.owned_inj q cq p c a hq hp ha (heq ▸ howner))
    refine ⟨fun hmem => ?_, hother a hac⟩
    rcases List.mem_cons.mp (hperm.mem_iff.mp hmem) with heq | hmem
    · exact hac heq
    · exact (h.owned q cq a hq ha).1 hmem
  · exact hkeep.allocated
  · intro a ha
    cases ha

/-! ## Section 5: Unlinking a node -/

theorem load_next (h : CoarseInv l D started s) (hp : s.thread p = some c)
    (hc : c.point = .load_next prev curr) :
    CoarseInv l D started (s.go p c s.heap (.unlink prev curr (s.heap.next curr))) := by
  have hin : c.point.inside = true := by rw [hc]; rfl
  have hok := h.thread p c hp
  rw [point_ok, hc] at hok
  obtain ⟨hremove, hwindow, hkey⟩ := hok
  exact h.read hp hin (by rw [hc]; rfl) (by simp [hc]) rfl rfl ⟨hremove, hwindow, hkey, rfl⟩

/-- `list_remove` takes effect: the node is out of the list, and belongs to the
    call alone. -/
theorem unlink (h : CoarseInv l D started s) (hp : s.thread p = some c) {next : Option ℕ}
    (hc : c.point = .unlink prev curr next) (hstore : s.heap.store_next prev next = some h') :
    ∃ l', CoarseInv l' (D ++ [⟨p, c.op, true⟩]) started
      (s.go p c h' (.unlock (some curr) true)) := by
  obtain ⟨hkeep, -, hnext, hother⟩ := Heap.store_next_spec hstore
  have hin : c.point.inside = true := by rw [hc]; rfl
  have hl := h.linked_of hp (.inr hin) (by simp [hc])
  have hok := h.thread p c hp
  rw [point_ok, hc] at hok
  obtain ⟨⟨k, hk⟩, ⟨A, B, hsplit, hbelow⟩, hkey, hcurr⟩ := hok
  have hrange := (h.range p c hp).2
  have htail : curr ≠ tail := by
    intro heq
    rw [heq, h.tail_key] at hkey
    omega
  obtain ⟨l₁, l₂, hl₁, hl₂, rfl, h₁, -⟩ :=
    window_keys h.nodup h.sorted hsplit hbelow (le_of_eq hkey.symm)
  -- The second part begins with `curr`.
  obtain ⟨l₂, rfl, rfl⟩ : ∃ l₃, l₂ = curr :: l₃ ∧ B = l₃ ++ [tail] := by
    cases l₂ with
    | nil => exact absurd (List.cons.inj hl₂).1 htail
    | cons y l₃ =>
      obtain ⟨rfl, hB⟩ := List.cons.inj hl₂
      exact ⟨l₃, rfl, hB⟩
  have hperm := nodes_insert l₁ l₂ curr
  have hnodup := List.nodup_cons.mp (hperm.nodup_iff.mp h.nodup)
  have hnodes : nodes (l₁ ++ l₂) = A ++ prev :: (l₂ ++ [tail]) := by
    have hsplit' : nodes (l₁ ++ l₂) = (head :: l₁) ++ (l₂ ++ [tail]) := by simp [nodes]
    rw [hsplit', ← hl₁]
    simp
  have hsub : ∀ a ∈ nodes (l₁ ++ l₂), a ∈ nodes (l₁ ++ curr :: l₂) := fun a ha =>
    hperm.mem_iff.mpr (List.mem_cons_of_mem curr ha)
  have hprev : prev ∈ nodes (l₁ ++ curr :: l₂) := by simp [hsplit]
  refine ⟨l₁ ++ l₂, ?_⟩
  apply h.inside_step hp hin rfl hnodup.2
  · exact fun a ha => (hkeep.allocated a).mpr (h.allocated a (hsub a ha))
  · exact (hkeep.key tail).trans h.tail_key
  · refine .effect true (by rw [hc]; rfl) rfl ?_
    rw [← h.keys, hk, keep_all]
    rw [hk] at hkey
    refine (decide_eq_true ?_).symm
    exact List.mem_map.mpr ⟨curr, by simp, hkey⟩
  · have hmap : (l₁ ++ l₂).map h'.key = (l₁ ++ l₂).map s.heap.key :=
      List.map_congr_left fun a _ => hkeep.key a
    rw [hk] at h₁ hkey
    -- The keys before the window are smaller, so this is the first node with the key.
    have hnot : k ∉ l₁.map s.heap.key := fun hmem => lt_irrefl k (h₁ k hmem)
    rw [hmap, List.map_append, List.map_append, List.map_singleton, final_concat, ← h.keys, hk,
      keep_all, List.map_append, List.erase_append_right _ hnot, List.map_cons, hkey]
    simp [Operation.key]
  · left
    rw [hsplit] at hl
    obtain ⟨hA, -, hB⟩ := List.isChain_append_cons_cons.mp hl
    rw [hnodes] at hnodup ⊢
    have hdisjoint := List.nodup_append.mp hnodup.2
    cases hB' : l₂ ++ [tail] with
    | nil => simp at hB'
    | cons x B =>
      rw [hB'] at hB hdisjoint
      obtain ⟨hx, hB⟩ := List.isChain_cons_cons.mp hB
      refine List.isChain_append_cons_cons.mpr ⟨linked_congr hA fun a ha => ?_, ?_, ?_⟩
      · have hne : a ≠ prev := fun heq => hdisjoint.2.2 a ha prev List.mem_cons_self heq
        rw [hnext, if_neg hne]
      · rw [hnext, if_pos rfl, ← hcurr]
        exact hx
      · refine hB.imp_of_mem_imp fun a b ha _ hab => ?_
        have hne : a ≠ prev := fun heq => (List.nodup_cons.mp hdisjoint.2.1).1 (heq ▸ ha)
        rw [hnext, if_neg hne]
        exact hab
  · intro a ha
    have heq : a = curr := by
      simp only [Call.owned, Option.some.injEq] at ha
      exact ha.symm
    subst heq
    have hmem : a ∈ nodes (l₁ ++ a :: l₂) := by simp [mem_nodes]
    exact ⟨.inr hmem, hnodup.1, (hkeep.allocated a).mpr (h.allocated a hmem),
      fun k' hk' => by rw [hk] at hk'; cases hk'⟩
  · intro q cq a _ hq ha
    have hnot := (h.owned q cq a hq ha).1
    exact ⟨fun hmem => hnot (hsub a hmem), hother a fun heq => hnot (heq ▸ hprev)⟩
  · exact hkeep.allocated
  · intro a _ k' hk'
    rw [hk] at hk'
    cases hk'

/-! ## Section 6: Steps that leave the list alone -/

/-- A step that does not touch the nodes of the list. -/
theorem outer_step (h : CoarseInv l D started s) (c' : Call) (m' : Option ℕ)
    (hp : s.thread p = some c) (hop : c'.op = c.op) (hres : c'.point.result = c.point.result)
    (hpoint : ∀ prev curr, c.point ≠ .set_next prev curr)
    (hsame : ∀ a ∈ nodes l, h' a = s.heap a)
    (hothers : ∀ q cq a, q ≠ p → s.thread q = some cq → cq.owned = some a → h' a = s.heap a)
    (hmutex : m' = if () ∈ c'.holds then some p else if () ∈ c.holds then none else s.mutex)
    (hfree : () ∈ c'.holds → () ∉ c.holds → s.mutex = none)
    (howned : ∀ a, c'.owned = some a → c.owned = some a ∨
      ∀ q cq, s.thread q = some cq → cq.owned ≠ some a)
    (hself : point_ok h' l c' ∧ ∀ a, c'.owned = some a → a ∉ nodes l ∧ h'.allocated a ∧
      ∀ k, c'.op = .add k → h'.key a = k)
    (hbounded : ∃ N, ∀ a, N ≤ a → h' a = none) :
    CoarseInv l D started ⟨h', m', Function.update s.thread p (some c'), s.i, s.returned⟩ := by
  have hkey : ∀ a ∈ nodes l, h'.key a = s.heap.key a := fun a ha => by
    rw [Heap.key, Heap.key, hsame a ha]
  have hkeys : l.map h'.key = l.map s.heap.key :=
    List.map_congr_left fun a ha => hkey a (mem_nodes.mpr (.inr (.inl ha)))
  apply h.step_of c' m' hp hop h.nodup _ ((hkey tail (by simp [mem_nodes])).trans h.tail_key)
    (.same hres) (hkeys.trans h.keys) _ hmutex hfree howned hself _ hbounded
  · intro a ha
    rw [Heap.allocated, hsame a ha]
    exact h.allocated a ha
  · rcases h.chain with hl | ⟨q, cq, prev, curr, hq, hcq⟩
    · refine .inl (hl.imp_of_mem_imp fun a b ha _ hab => ?_)
      rw [Heap.next, hsame a ha]
      exact hab
    · have hne : q ≠ p := by
        intro heq
        rw [heq, hp, Option.some.injEq] at hq
        exact hpoint prev curr (hq ▸ hcq)
      exact .inr ⟨q, cq, prev, curr, (Function.update_of_ne hne _ _).trans hq, hcq⟩
  · intro q cq hne hq
    exact ⟨point_ok_congr (h.thread q cq hq) hsame, fun a ha =>
      ⟨(h.owned q cq a hq ha).1, hothers q cq a hne hq ha⟩⟩

theorem lock (h : CoarseInv l D started s) (hp : s.thread p = some c) (hc : c.point = .lock)
    (hfree : s.mutex = none) :
    CoarseInv l D started { s.go p c s.heap .load_first with mutex := some p } := by
  have howned : ({ c with point := .load_first } : Call).owned = c.owned := by
    unfold Call.owned
    cases c.op <;> simp [hc]
  apply h.outer_step { c with point := .load_first } (some p) hp rfl (by rw [hc]; rfl)
    (by simp [hc]) (fun _ _ => rfl) (fun _ _ _ _ _ _ => rfl) rfl (fun _ _ => hfree)
  · exact fun a ha => .inl (howned ▸ ha)
  · exact ⟨trivial, fun a ha => h.owned p c a hp (howned ▸ ha)⟩
  · exact h.bounded

theorem unlock (h : CoarseInv l D started s) (hp : s.thread p = some c) {garbage : Option ℕ}
    {r : Bool} (hc : c.point = .unlock garbage r) :
    CoarseInv l D started { s.go p c s.heap (after_unlock garbage r) with mutex := none } := by
  have hin : () ∈ c.holds := by
    unfold Call.holds
    rw [hc]
    exact List.mem_cons_self
  have hok : ∀ a, garbage = some a → ∀ k, c.op ≠ .add k := by
    have hok := h.thread p c hp
    rwa [point_ok, hc] at hok
  have howned : c.owned = garbage := by
    unfold Call.owned
    cases c.op <;> simp [hc]
  cases garbage with
  | none =>
    apply h.outer_step { c with point := .finished r } none hp rfl (by rw [hc]; rfl) (by simp [hc])
      (fun _ _ => rfl) (fun _ _ _ _ _ _ => rfl)
    · rw [if_pos hin]
      rfl
    · exact fun _ hnot => absurd hin hnot
    · intro a ha
      simp [Call.owned] at ha
    · refine ⟨trivial, fun a ha => ?_⟩
      simp [Call.owned] at ha
    · exact h.bounded
  | some b =>
    have howned' : ({ c with point := .free b r } : Call).owned = c.owned := by
      rw [howned]
      unfold Call.owned
      cases c.op <;> rfl
    apply h.outer_step { c with point := .free b r } none hp rfl (by rw [hc]; rfl) (by simp [hc])
      (fun _ _ => rfl) (fun _ _ _ _ _ _ => rfl)
    · rw [if_pos hin]
      rfl
    · exact fun _ hnot => absurd hin hnot
    · exact fun a ha => .inl (howned' ▸ ha)
    · exact ⟨hok b rfl, fun a ha => h.owned p c a hp (howned' ▸ ha)⟩
    · exact h.bounded

theorem malloc (h : CoarseInv l D started s) (hp : s.thread p = some c) (hc : c.point = .malloc)
    (hm : s.heap.malloc fresh c.op.key = some h') :
    CoarseInv l D started (s.go p { c with node := fresh } h' .lock) := by
  obtain ⟨hnew, hnode, hother⟩ := Heap.malloc_spec hm
  obtain ⟨k, hk⟩ : ∃ k, c.op = .add k := by
    have hok := h.thread p c hp
    rwa [point_ok, hc] at hok
  have hnodes : fresh ∉ nodes l := fun hmem => hnew (h.allocated fresh hmem)
  apply h.outer_step { c with node := fresh, point := .lock } s.mutex hp rfl (by rw [hc]; rfl)
    (by simp [hc])
  · exact fun a ha => hother a fun heq => hnodes (heq ▸ ha)
  · intro q cq a _ hq ha
    exact hother a fun heq => hnew (heq ▸ (h.owned q cq a hq ha).2.1)
  · simp [Call.holds, hc, Point.inside]
  · intro hin
    simp [Call.holds, Point.inside] at hin
  · intro a ha
    simp only [Call.owned, hk, Option.some.injEq] at ha
    subst ha
    exact .inr fun q cq hq hqa => hnew (h.owned q cq fresh hq hqa).2.1
  · refine ⟨trivial, fun a ha => ?_⟩
    simp only [Call.owned, hk, Option.some.injEq] at ha
    subst ha
    refine ⟨hnodes, by simp [Heap.allocated, hnode], fun k' hk' => ?_⟩
    simp only [hk, Operation.add.injEq] at hk'
    simp [Heap.key, hnode, hk, Operation.key, hk']
  · obtain ⟨N, hN⟩ := h.bounded
    refine ⟨max N (fresh + 1), fun a ha => ?_⟩
    rw [hother a (by omega)]
    exact hN a (by omega)

theorem free (h : CoarseInv l D started s) (hp : s.thread p = some c) {b : ℕ} {r : Bool}
    (hc : c.point = .free b r) (hf : s.heap.free b = some h') :
    CoarseInv l D started (s.go p c h' (.finished r)) := by
  obtain ⟨-, hnone, hother⟩ := Heap.free_spec hf
  have howner : c.owned = some b := by
    unfold Call.owned
    cases c.op <;> simp [hc]
  have hnodes := (h.owned p c b hp howner).1
  apply h.outer_step { c with point := .finished r } s.mutex hp rfl (by rw [hc]; rfl) (by simp [hc])
  · exact fun a ha => hother a fun heq => hnodes (heq ▸ ha)
  · intro q cq a hne hq ha
    exact hother a fun heq => hne (h.owned_inj q cq p c a hq hp ha (heq ▸ howner))
  · simp [Call.holds, hc, Point.inside]
  · intro hin
    simp [Call.holds, Point.inside] at hin
  · intro a ha
    simp [Call.owned] at ha
  · refine ⟨trivial, fun a ha => ?_⟩
    simp [Call.owned] at ha
  · obtain ⟨N, hN⟩ := h.bounded
    refine ⟨N, fun a ha => ?_⟩
    by_cases hab : a = b
    · rw [hab]
      exact hnone
    · rw [hother a hab]
      exact hN a ha

/-! ## Section 7: Calls and returns -/

theorem initially : CoarseInv [] [] (fun _ => []) initial where
  nodup := by decide
  allocated := by decide
  tail_key := rfl
  keys := rfl
  legal := rfl
  chain := .inl (List.isChain_cons_cons.mpr ⟨rfl, List.IsChain.singleton tail⟩)
  locks := by
    intro a p
    simp [initial]
  owned := fun _ _ _ hq => by cases hq
  owned_inj := fun _ _ _ _ _ hp => by cases hp
  order := fun _ => rfl
  returned := fun _ => rfl
  range := fun _ _ hq => by cases hq
  thread := fun _ _ hq => by cases hq
  bounded := by
    refine ⟨2, fun a ha => ?_⟩
    have hhead : a ≠ 0 := by omega
    have htail : a ≠ 1 := by omega
    simp [initial, list_init, hhead, htail]

theorem start (h : CoarseInv l D started s) (hp : s.thread p = none) (hrange : op.in_range) :
    CoarseInv l D (Function.update started p (started p ++ [op])) (s.start p op) where
  nodup := h.nodup
  allocated := h.allocated
  tail_key := h.tail_key
  keys := h.keys
  legal := h.legal
  chain := by
    rcases h.chain with hl | ⟨q, cq, prev, curr, hq, hcq⟩
    · exact .inl hl
    · have hne : q ≠ p := by
        intro heq
        rw [heq, hp] at hq
        cases hq
      exact .inr ⟨q, cq, prev, curr, (Function.update_of_ne hne _ _).trans hq, hcq⟩
  locks := by
    apply h.locks.start hp
    cases op <;> rfl
  owned := by
    intro q cq a hq ha
    rcases update_some hq with ⟨rfl, rfl⟩ | ⟨-, hq'⟩
    · cases op <;> simp [Call.owned, first_point] at ha
    · exact h.owned q cq a hq' ha
  owned_inj := by
    apply h.owned_inj.update
    intro a ha
    cases op <;> simp [Call.owned, first_point] at ha
  order := by
    intro q
    change _ ++ pending (Function.update s.thread p _ q) = _
    have hold := h.order q
    by_cases hq : q = p
    · subst hq
      rw [hp, pending, List.append_nil] at hold
      rw [Function.update_self, Function.update_self, hold]
      cases op <;> rfl
    · rw [Function.update_of_ne hq, Function.update_of_ne hq]
      exact hold
  returned := by
    intro q
    change _ = s.returned q ++ answer (Function.update s.thread p _ q)
    have hold := h.returned q
    by_cases hq : q = p
    · subst hq
      rw [hp] at hold
      rw [Function.update_self, hold]
      cases op <;> rfl
    · rw [Function.update_of_ne hq]
      exact hold
  range := by
    intro q cq hq
    rcases update_some hq with ⟨rfl, rfl⟩ | ⟨-, hq'⟩
    · exact hrange
    · exact h.range q cq hq'
  thread := by
    intro q cq hq
    rcases update_some hq with ⟨rfl, rfl⟩ | ⟨-, hq'⟩
    · cases op with
      | add k => exact ⟨k, rfl⟩
      | remove k => trivial
      | contains k => trivial
    · exact h.thread q cq hq'
  bounded := h.bounded

theorem return_call (h : CoarseInv l D started s) (hp : s.thread p = some c) {r : Bool}
    (hc : c.point = .finished r) : CoarseInv l D started (s.return_call p r) where
  nodup := h.nodup
  allocated := h.allocated
  tail_key := h.tail_key
  keys := h.keys
  legal := h.legal
  chain := by
    rcases h.chain with hl | ⟨q, cq, prev, curr, hq, hcq⟩
    · exact .inl hl
    · have hne : q ≠ p := by
        intro heq
        rw [heq, hp, Option.some.injEq] at hq
        rw [← hq, hc] at hcq
        cases hcq
      exact .inr ⟨q, cq, prev, curr, (Function.update_of_ne hne _ _).trans hq, hcq⟩
  locks := by
    apply h.locks.finish hp
    rw [Call.holds, hc]
    rfl
  owned := fun q cq a hq ha => h.owned q cq a (update_none hq).2 ha
  owned_inj := h.owned_inj.finish
  order := by
    intro q
    change _ ++ pending (Function.update s.thread p none q) = _
    have hold := h.order q
    by_cases hq : q = p
    · subst hq
      rw [hp, pending, hc] at hold
      rw [Function.update_self]
      exact hold
    · rw [Function.update_of_ne hq]
      exact hold
  returned := by
    intro q
    change _ = Function.update s.returned p _ q ++ answer (Function.update s.thread p none q)
    have hold := h.returned q
    by_cases hq : q = p
    · subst hq
      rw [hp, answer, hc] at hold
      rw [Function.update_self, Function.update_self, answer, List.append_nil]
      exact hold
    · rw [Function.update_of_ne hq, Function.update_of_ne hq]
      exact hold
  range := fun q cq hq => h.range q cq (update_none hq).2
  thread := fun q cq hq => h.thread q cq (update_none hq).2
  bounded := h.bounded

end CoarseInv

/-! ## Section 8: All steps -/

/-- How many steps a call still has to go, at most. -/
def steps_left (l : List ℕ) (c : Call) : ℕ :=
  match c.point with
  | .malloc => 2 * (nodes l).length + 12
  | .lock => 2 * (nodes l).length + 11
  | .load_first => 2 * (nodes l).length + 10
  | .test _ curr => 2 * ((nodes l).length - (nodes l).idxOf curr) + 10
  | .advance curr => 2 * ((nodes l).length - (nodes l).idxOf curr) + 9
  | .check _ _ => 7
  | .link _ _ => 6
  | .load_next _ _ => 6
  | .set_next _ _ => 5
  | .unlink _ _ _ => 5
  | .unlock _ _ => 4
  | .free _ _ => 2
  | .finished _ => 1

theorem idxOf_split {A B : List ℕ} {a : ℕ} (h : (A ++ a :: B).Nodup) :
    (A ++ a :: B).idxOf a = A.length := by
  have hnot : a ∉ A := fun ha => (List.nodup_append.mp h).2.2 a ha a List.mem_cons_self rfl
  rw [List.idxOf_append_of_notMem hnot, List.idxOf_cons_self, Nat.add_zero]

/-- The positions of two neighbours. -/
theorem idxOf_window {h : Heap} {l : List ℕ} {k : ℤ} {prev curr : ℕ} (hnodup : (nodes l).Nodup)
    (hwindow : window h l k prev curr) :
    (nodes l).idxOf curr = (nodes l).idxOf prev + 1 ∧
      (nodes l).idxOf curr < (nodes l).length := by
  obtain ⟨A, B, hsplit, -⟩ := hwindow
  have hsplit' : nodes l = (A ++ [prev]) ++ curr :: B := by simp [hsplit]
  have hprev : (nodes l).idxOf prev = A.length := by
    rw [hsplit] at hnodup ⊢
    exact idxOf_split hnodup
  have hcurr : (nodes l).idxOf curr = (A ++ [prev]).length := by
    rw [hsplit'] at hnodup ⊢
    exact idxOf_split hnodup
  rw [hcurr, hprev, hsplit]
  simp

namespace CoarseInv

/-- A step of a call keeps the invariant, and brings the call closer to its end. -/
theorem run (h : CoarseInv l D started s) (hp : s.thread p = some c)
    (hrun : s.run p c fresh = some s') :
    ∃ l' D', CoarseInv l' D' started s' ∧
      ∀ c', s'.thread p = some c' → steps_left l' c' < steps_left l c := by
  have closer : ∀ {l' : List ℕ} {cp : Call}, steps_left l' cp < steps_left l c →
      ∀ c', Function.update s.thread p (some cp) p = some c' →
        steps_left l' c' < steps_left l c := by
    intro l' cp hlt c' hc'
    rw [Function.update_self, Option.some.injEq] at hc'
    exact hc' ▸ hlt
  cases hc : c.point with
  | malloc =>
    simp only [ListState.run, hc, Option.map_eq_some_iff] at hrun
    obtain ⟨h', hm, rfl⟩ := hrun
    exact ⟨l, D, h.malloc hp hc hm, closer (by simp [steps_left, hc])⟩
  | lock =>
    simp only [ListState.run, hc, Option.ite_none_right_eq_some, Option.some.injEq] at hrun
    obtain ⟨hfree, rfl⟩ := hrun
    exact ⟨l, D, h.lock hp hc hfree, closer (by simp [steps_left, hc])⟩
  | load_first =>
    simp only [ListState.run, hc, Option.map_eq_some_iff] at hrun
    obtain ⟨curr, hnext, rfl⟩ := hrun
    have hinv := h.load_first hp hc hnext
    refine ⟨l, D, hinv, closer ?_⟩
    have hwindow : window s.heap l c.op.key head curr :=
      hinv.thread p _ (Function.update_self _ _ _)
    obtain ⟨hidx, hlt⟩ := idxOf_window h.nodup hwindow
    simp only [steps_left, hc]
    omega
  | test prev curr =>
    simp only [ListState.run, hc, Option.map_eq_some_iff] at hrun
    obtain ⟨n, hn, rfl⟩ := hrun
    have htest := h.test hp hc
    rw [Heap.key, hn] at htest
    refine ⟨l, D, htest, closer ?_⟩
    split
    · simp [steps_left, hc]
    · cases c.op <;> simp [steps_left, hc, after_loop]
  | advance curr =>
    simp only [ListState.run, hc, Option.map_eq_some_iff] at hrun
    obtain ⟨next, hnext, rfl⟩ := hrun
    have hinv := h.advance hp hc hnext
    refine ⟨l, D, hinv, closer ?_⟩
    have hwindow : window s.heap l c.op.key curr next :=
      hinv.thread p _ (Function.update_self _ _ _)
    obtain ⟨hidx, hlt⟩ := idxOf_window h.nodup hwindow
    simp only [steps_left, hc]
    omega
  | check prev curr =>
    simp only [ListState.run, hc, Option.map_eq_some_iff] at hrun
    obtain ⟨n, hn, rfl⟩ := hrun
    obtain ⟨D', hcheck⟩ := h.check hp hc
    rw [Heap.key, hn] at hcheck
    refine ⟨l, D', hcheck, closer ?_⟩
    cases c.op with
    | add k => simp [steps_left, hc, after_check]
    | remove k =>
      simp only [after_check]
      split <;> simp [steps_left, hc]
    | contains k => simp [steps_left, hc, after_check]
  | link prev curr =>
    simp only [ListState.run, hc, Option.map_eq_some_iff] at hrun
    obtain ⟨h', hstore, rfl⟩ := hrun
    exact ⟨l, D, h.link hp hc hstore, closer (by simp [steps_left, hc])⟩
  | set_next prev curr =>
    simp only [ListState.run, hc, Option.map_eq_some_iff] at hrun
    obtain ⟨h', hstore, rfl⟩ := hrun
    obtain ⟨l', hset⟩ := h.set_next hp hc hstore
    exact ⟨l', _, hset, closer (by simp [steps_left, hc])⟩
  | load_next prev curr =>
    simp only [ListState.run, hc, Option.map_eq_some_iff] at hrun
    obtain ⟨n, hn, rfl⟩ := hrun
    have hload := h.load_next hp hc
    rw [Heap.next, hn] at hload
    exact ⟨l, D, hload, closer (by simp [steps_left, hc])⟩
  | unlink prev curr next =>
    simp only [ListState.run, hc, Option.map_eq_some_iff] at hrun
    obtain ⟨h', hstore, rfl⟩ := hrun
    obtain ⟨l', hunlink⟩ := h.unlink hp hc hstore
    exact ⟨l', _, hunlink, closer (by simp [steps_left, hc])⟩
  | unlock garbage r =>
    simp only [ListState.run, hc, Option.ite_none_right_eq_some, Option.some.injEq] at hrun
    obtain ⟨-, rfl⟩ := hrun
    refine ⟨l, D, h.unlock hp hc, closer ?_⟩
    cases garbage <;> simp [steps_left, hc, after_unlock]
  | free a r =>
    simp only [ListState.run, hc, Option.map_eq_some_iff] at hrun
    obtain ⟨h', hfree, rfl⟩ := hrun
    exact ⟨l, D, h.free hp hc hfree, closer (by simp [steps_left, hc])⟩
  | finished r =>
    simp only [ListState.run, hc, Option.some.injEq] at hrun
    subst hrun
    refine ⟨l, D, h.return_call hp hc, fun c' hc' => ?_⟩
    change Function.update s.thread p none p = some c' at hc'
    rw [Function.update_self] at hc'
    cases hc'

end CoarseInv

end Lab11.Coarse
