import ConcurrentProgramming.Framework.Threads
import ConcurrentProgramming.Lab11.CoarseGrained
import ConcurrentProgramming.Lab11.KeyList
import Mathlib.Data.List.Chain

/-! # The Invariant of the Coarse-Grained List

    `l` are the nodes between the head and the tail, and `D` are the operations
    that have taken effect, in this order.  The keys of `l` are what `keep_all`
    makes of `D`.

    The thread that holds the mutex works on a window of two neighbouring nodes.
    All other threads only touch nodes of their own, which they have allocated and
    not linked yet, or unlinked and not freed yet.
-/

namespace Lab11.Coarse

open LTS CInt Threads Sequential ListState

/-! ## Section 1: What a thread may rely on -/

/-- A call holds the mutex. -/
def Point.inside : Point → Bool
  | .malloc => false
  | .lock => false
  | .free _ _ => false
  | .finished _ => false
  | _ => true

/-- The result of a call that has taken effect. -/
def Point.result : Point → Option Bool
  | .unlock _ r => some r
  | .free _ r => some r
  | .finished r => some r
  | _ => none

/-- What a call holds of the only mutex. -/
def Call.holds (c : Call) : List Unit := if c.point.inside then [()] else []

/-- The node that belongs to a call alone. -/
def Call.owned (c : Call) : Option ℕ :=
  match c.op, c.point with
  | _, .malloc => none
  | _, .finished _ => none
  | _, .unlock garbage _ => garbage
  | _, .free a _ => some a
  | .add _, _ => some c.node
  | _, _ => none

/-- The node of a `list_add`. -/
def Call.spare (c : Call) : Option ℕ :=
  match c.op with
  | .add _ => some c.node
  | _ => none

/-- Before a call takes effect, only the node of `list_add` belongs to it. -/
theorem owned_eq_spare {c : Call} (hin : c.point.inside = true) (hres : c.point.result = none) :
    c.owned = c.spare := by
  unfold Call.owned Call.spare
  cases hpt : c.point <;> cases c.op <;> simp_all [Point.inside, Point.result]

/-- All nodes, from the head to the tail. -/
def nodes (l : List ℕ) : List ℕ := head :: (l ++ [tail])

/-- The pointers lead through the nodes in this order. -/
def linked (h : Heap) (xs : List ℕ) : Prop := xs.IsChain fun a b => h.next a = some b

/-- `prev` and `curr` are neighbours, and all keys up to `prev` are below `k`. -/
def window (h : Heap) (l : List ℕ) (k : ℤ) (prev curr : ℕ) : Prop :=
  ∃ A B, nodes l = A ++ prev :: curr :: B ∧ ∀ a ∈ A ++ [prev], a ≠ head → h.key a < k

/-- What a call knows at its point. -/
def point_ok (h : Heap) (l : List ℕ) (c : Call) : Prop :=
  match c.point with
  | .malloc => ∃ k, c.op = .add k
  | .test prev curr => window h l c.op.key prev curr
  | .advance curr => ∃ A B, nodes l = A ++ curr :: B ∧
      ∀ a ∈ A ++ [curr], a ≠ head → h.key a < c.op.key
  | .link prev curr => (∃ k, c.op = .add k) ∧ window h l c.op.key prev curr ∧
      c.op.key ≤ h.key curr
  | .set_next prev curr => (∃ k, c.op = .add k) ∧ c.op.key ≤ h.key curr ∧
      h.next prev = some c.node ∧ ∃ A B, nodes l = A ++ prev :: curr :: B ∧
      (∀ a ∈ A ++ [prev], a ≠ head → h.key a < c.op.key) ∧ linked h (A ++ [prev]) ∧
      linked h (curr :: B)
  | .check prev curr => (∀ k, c.op ≠ .add k) ∧ window h l c.op.key prev curr ∧
      c.op.key ≤ h.key curr
  | .load_next prev curr => (∃ k, c.op = .remove k) ∧ window h l c.op.key prev curr ∧
      h.key curr = c.op.key
  | .unlink prev curr next => (∃ k, c.op = .remove k) ∧ window h l c.op.key prev curr ∧
      h.key curr = c.op.key ∧ h.next curr = next
  | .unlock garbage _ => ∀ a, garbage = some a → ∀ k, c.op ≠ .add k
  | .free _ _ => ∀ k, c.op ≠ .add k
  | _ => True

/-- An operation of a thread that has taken effect, with its result. -/
structure Effect where
  thread : ℕ
  op     : Operation
  result : Bool

/-- The operation that a thread has called and that has not taken effect yet. -/
def pending (o : Option Call) : List Operation :=
  match o with
  | some c => if c.point.result = none then [c.op] else []
  | none => []

/-- The result that a call is about to return. -/
def answer (o : Option Call) : List Bool :=
  match o with
  | some c => c.point.result.toList
  | none => []

/-- The invariant of the list; `started` are the operations that each thread has
    called. -/
structure CoarseInv (l : List ℕ) (D : List Effect) (started : ℕ → List Operation)
    (s : ListState) : Prop where
  nodup     : (nodes l).Nodup
  allocated : ∀ a ∈ nodes l, s.heap.allocated a
  tail_key  : s.heap.key tail = INT_MAX
  keys      : l.map s.heap.key = final keep_all [] (D.map Effect.op)
  legal     : D.map Effect.result = (outputs keep_all [] (D.map Effect.op)).map Prod.fst
  /-- Between the two stores of `list_add` there is a gap behind `prev`. -/
  chain     : linked s.heap (nodes l) ∨
    ∃ p c prev curr, s.thread p = some c ∧ c.point = .set_next prev curr
  locks     : Locked (fun _ => s.mutex) s.thread Call.holds
  owned     : ∀ p c a, s.thread p = some c → c.owned = some a → a ∉ nodes l ∧
    s.heap.allocated a ∧ ∀ k, c.op = .add k → s.heap.key a = k
  owned_inj : Distinct s.thread Call.owned
  order     : ∀ p, (D.filter (·.thread = p)).map Effect.op ++ pending (s.thread p) = started p
  returned  : ∀ p, (D.filter (·.thread = p)).map Effect.result =
    s.returned p ++ answer (s.thread p)
  range     : ∀ p c, s.thread p = some c → c.op.in_range
  thread    : ∀ p c, s.thread p = some c → point_ok s.heap l c
  bounded   : ∃ N, ∀ a, N ≤ a → s.heap a = none

/-! ## Section 2: Windows -/

theorem mem_nodes {l : List ℕ} {a : ℕ} : a ∈ nodes l ↔ a = head ∨ a ∈ l ∨ a = tail := by
  simp [nodes]

theorem nodes_insert (l₁ l₂ : List ℕ) (a : ℕ) :
    (nodes (l₁ ++ a :: l₂)).Perm (a :: nodes (l₁ ++ l₂)) := by
  have hl : nodes (l₁ ++ a :: l₂) = (head :: l₁) ++ a :: (l₂ ++ [tail]) := by simp [nodes]
  have hr : nodes (l₁ ++ l₂) = (head :: l₁) ++ (l₂ ++ [tail]) := by simp [nodes]
  rw [hl, hr]
  exact List.perm_middle

/-- The window splits the list in two parts. -/
theorem window_split {l A B : List ℕ} {prev curr : ℕ} (h : nodes l = A ++ prev :: curr :: B) :
    ∃ l₁ l₂, A ++ [prev] = head :: l₁ ∧ curr :: B = l₂ ++ [tail] ∧ l = l₁ ++ l₂ := by
  obtain ⟨l₂, b, hB⟩ : ∃ l₂ b, curr :: B = l₂ ++ [b] := by
    rcases List.eq_nil_or_concat (curr :: B) with hnil | ⟨l₂, b, hl⟩
    · cases hnil
    · exact ⟨l₂, b, by rw [hl, List.concat_eq_append]⟩
  have h' : nodes l = (A ++ [prev]) ++ (l₂ ++ [b]) := by
    rw [h, ← hB]
    simp
  cases A with
  | nil =>
    simp only [nodes, List.nil_append, List.cons_append, List.cons.injEq] at h'
    obtain ⟨hhead, htail⟩ := h'
    obtain ⟨hl, hb⟩ := List.append_inj' htail rfl
    cases hb
    exact ⟨[], l₂, by rw [hhead]; rfl, hB, hl⟩
  | cons x A =>
    simp only [nodes, List.cons_append, List.cons.injEq] at h'
    obtain ⟨hhead, htail⟩ := h'
    rw [← List.append_assoc] at htail
    obtain ⟨hl, hb⟩ := List.append_inj' htail rfl
    cases hb
    exact ⟨A ++ [prev], l₂, by rw [hhead]; rfl, hB, hl⟩

/-- The keys of the two parts. -/
theorem window_keys {h : Heap} {l A B : List ℕ} {prev curr : ℕ} {k : ℤ} (hnodup : (nodes l).Nodup)
    (hsorted : (l.map h.key).Pairwise (· ≤ ·)) (hsplit : nodes l = A ++ prev :: curr :: B)
    (hbelow : ∀ a ∈ A ++ [prev], a ≠ head → h.key a < k) (hle : k ≤ h.key curr) :
    ∃ l₁ l₂, A ++ [prev] = head :: l₁ ∧ curr :: B = l₂ ++ [tail] ∧ l = l₁ ++ l₂ ∧
      (∀ x ∈ l₁.map h.key, x < k) ∧ ∀ x ∈ l₂.map h.key, k ≤ x := by
  obtain ⟨l₁, l₂, hA, hB, rfl⟩ := window_split hsplit
  refine ⟨l₁, l₂, hA, hB, rfl, ?_, ?_⟩
  · intro x hx
    obtain ⟨a, ha, rfl⟩ := List.mem_map.mp hx
    refine hbelow a (hA ▸ List.mem_cons_of_mem _ ha) ?_
    intro heq
    have hhead := (List.nodup_cons.mp hnodup).1
    exact hhead (heq ▸ List.mem_append_left _ (List.mem_append_left _ ha))
  · intro x hx
    cases l₂ with
    | nil => cases hx
    | cons y l₂ =>
      simp only [List.cons_append, List.cons.injEq] at hB
      obtain ⟨rfl, -⟩ := hB
      rw [List.map_append, List.pairwise_append, List.map_cons, List.pairwise_cons] at hsorted
      rcases List.mem_cons.mp hx with rfl | hx
      · exact hle
      · exact hle.trans (hsorted.2.1.1 x hx)

/-- A chain survives a change of other pointers, and of that of its last node. -/
theorem linked_congr {h h' : Heap} {xs : List ℕ} {x : ℕ} (hl : linked h (xs ++ [x]))
    (hnext : ∀ a ∈ xs, h'.next a = h.next a) : linked h' (xs ++ [x]) := by
  induction xs with
  | nil => exact List.IsChain.singleton x
  | cons a xs ih =>
    have htail : linked h (xs ++ [x]) :=
      (List.isChain_append.mp (show linked h ([a] ++ (xs ++ [x])) from hl)).2.1
    have hrest := ih htail fun b hb => hnext b (List.mem_cons_of_mem a hb)
    cases xs with
    | nil =>
      refine List.isChain_cons_cons.mpr ⟨?_, hrest⟩
      rw [hnext a List.mem_cons_self]
      exact (List.isChain_cons_cons.mp hl).1
    | cons b xs =>
      refine List.isChain_cons_cons.mpr ⟨?_, hrest⟩
      rw [hnext a List.mem_cons_self]
      exact (List.isChain_cons_cons.mp hl).1

/-- A chain from the head to the tail gives the sequence of the keys. -/
theorem key_sequence_of_linked {h : Heap} {l : List ℕ} (hnodup : (nodes l).Nodup)
    (hl : linked h (nodes l)) : key_sequence h (l.map h.key) := by
  refine ⟨l, ?_, rfl⟩
  have htail : tail ∉ l := by
    intro hmem
    have := (List.nodup_append.mp (List.nodup_cons.mp hnodup).2).2.2 tail hmem tail
    exact this List.mem_cons_self rfl
  unfold nodes at hl
  generalize head = a at hl
  clear hnodup
  induction l generalizing a with
  | nil => exact .last (List.isChain_cons_cons.mp hl).1
  | cons b l ih =>
    obtain ⟨hnext, hrest⟩ := List.isChain_cons_cons.mp hl
    refine .step hnext (fun heq => htail (heq ▸ List.mem_cons_self)) ?_
    exact ih (fun hmem => htail (List.mem_cons_of_mem b hmem)) b hrest

/-! ## Section 3: A step of one thread -/

/-- Outside of the mutex a call does not look at the list. -/
theorem point_ok_outside {h h' : Heap} {l l' : List ℕ} {c : Call} (hc : c.point.inside = false)
    (hok : point_ok h l c) : point_ok h' l' c := by
  unfold point_ok at hok ⊢
  cases hpt : c.point <;> simp_all [Point.inside]

/-- A step of another thread that leaves the nodes of the list alone. -/
theorem point_ok_congr {h h' : Heap} {l : List ℕ} {c : Call} (hok : point_ok h l c)
    (hsame : ∀ a ∈ nodes l, h' a = h a) : point_ok h' l c := by
  have hkey : ∀ a ∈ nodes l, h'.key a = h.key a := fun a ha => by
    rw [Heap.key, Heap.key, hsame a ha]
  have hnext : ∀ a ∈ nodes l, h'.next a = h.next a := fun a ha => by
    rw [Heap.next, Heap.next, hsame a ha]
  have hbelow : ∀ {A B : List ℕ} {k : ℤ}, nodes l = A ++ B →
      (∀ a ∈ A, a ≠ head → h.key a < k) → ∀ a ∈ A, a ≠ head → h'.key a < k := by
    intro A B k hsplit hlt a ha hne
    rw [hkey a (hsplit ▸ List.mem_append_left _ ha)]
    exact hlt a ha hne
  have hwindow : ∀ {k prev curr}, window h l k prev curr →
      window h' l k prev curr ∧ prev ∈ nodes l ∧ curr ∈ nodes l := by
    intro k prev curr hw
    obtain ⟨A, B, hsplit, hlt⟩ := hw
    have hsplit' : nodes l = (A ++ [prev]) ++ curr :: B := by
      rw [hsplit]
      simp
    refine ⟨⟨A, B, hsplit, hbelow hsplit' hlt⟩, ?_, ?_⟩ <;> simp [hsplit]
  have hlinked : ∀ xs : List ℕ, (∀ a ∈ xs, a ∈ nodes l) → linked h xs → linked h' xs := by
    intro xs hsub hl
    refine hl.imp_of_mem_imp fun a b ha _ hab => ?_
    rw [hnext a (hsub a ha)]
    exact hab
  unfold point_ok at hok ⊢
  split at hok
  · exact hok
  · exact (hwindow hok).1
  · obtain ⟨A, B, hsplit, hlt⟩ := hok
    exact ⟨A, B, hsplit, hbelow (B := B) (by rw [hsplit]; simp) hlt⟩
  · obtain ⟨hop, hw, hle⟩ := hok
    obtain ⟨hw', -, hcurr⟩ := hwindow hw
    exact ⟨hop, hw', by rwa [hkey _ hcurr]⟩
  · rename_i prev curr hc
    obtain ⟨hop, hle, hnode, A, B, hsplit, hlt, hA, hB⟩ := hok
    have hsplit' : nodes l = (A ++ [prev]) ++ curr :: B := by
      rw [hsplit]
      simp
    have hprev : prev ∈ nodes l := by simp [hsplit]
    have hcurr : curr ∈ nodes l := by simp [hsplit]
    refine ⟨hop, by rwa [hkey _ hcurr], by rwa [hnext _ hprev], A, B, hsplit,
      hbelow hsplit' hlt, hlinked _ (fun a ha => ?_) hA, hlinked _ (fun a ha => ?_) hB⟩
    · exact hsplit' ▸ List.mem_append_left _ ha
    · exact hsplit' ▸ List.mem_append_right _ ha
  · obtain ⟨hop, hw, hle⟩ := hok
    obtain ⟨hw', -, hcurr⟩ := hwindow hw
    exact ⟨hop, hw', by rwa [hkey _ hcurr]⟩
  · obtain ⟨hop, hw, hle⟩ := hok
    obtain ⟨hw', -, hcurr⟩ := hwindow hw
    exact ⟨hop, hw', by rwa [hkey _ hcurr]⟩
  · obtain ⟨hop, hw, hle, hnx⟩ := hok
    obtain ⟨hw', -, hcurr⟩ := hwindow hw
    exact ⟨hop, hw', by rwa [hkey _ hcurr], by rwa [hnext _ hcurr]⟩
  · exact hok
  · exact hok
  · trivial

namespace CoarseInv

variable {l l' : List ℕ} {D D' : List Effect} {started : ℕ → List Operation} {s : ListState}
  {h' : Heap} {p q : ℕ} {c c' cq : Call} {m' : Option ℕ}

/-- Two threads are not inside at the same time. -/
theorem outside (h : CoarseInv l D started s) (hp : s.thread p = some c)
    (hin : c.point.inside = true) (hq : s.thread q = some cq) (hne : q ≠ p) :
    cq.point.inside = false := by
  have hmem : () ∈ c.holds := by simp [Call.holds, hin]
  have hnot := h.locks.not_held hp hq hne hmem
  unfold Call.holds at hnot
  cases hcq : cq.point.inside with
  | false => rfl
  | true => simp [hcq] at hnot

/-- What was booked for an operation: nothing new, or its effect. -/
inductive Booked (D : List Effect) (p : ℕ) (c c' : Call) : List Effect → Prop where
  | same : c'.point.result = c.point.result → Booked D p c c' D
  | effect (r : Bool) : c.point.result = none → c'.point.result = some r →
      r = (keep_all (final keep_all [] (D.map Effect.op)) c.op).1 →
      Booked D p c c' (D ++ [⟨p, c.op, r⟩])

/-- The invariant after a step of thread `p`. -/
theorem step_of (h : CoarseInv l D started s) (c' : Call) (m' : Option ℕ) (hp : s.thread p = some c)
    (hop : c'.op = c.op) (hnodup : (nodes l').Nodup)
    (halloc : ∀ a ∈ nodes l', h'.allocated a) (htail : h'.key tail = INT_MAX)
    (hbook : Booked D p c c' D') (hkeys : l'.map h'.key = final keep_all [] (D'.map Effect.op))
    (hchain : linked h' (nodes l') ∨ ∃ q cq prev curr,
      Function.update s.thread p (some c') q = some cq ∧ cq.point = .set_next prev curr)
    (hmutex : m' = if () ∈ c'.holds then some p else if () ∈ c.holds then none else s.mutex)
    (hfree : () ∈ c'.holds → () ∉ c.holds → s.mutex = none)
    (howned : ∀ a, c'.owned = some a → c.owned = some a ∨
      ∀ q cq, s.thread q = some cq → cq.owned ≠ some a)
    (hself : point_ok h' l' c' ∧ ∀ a, c'.owned = some a → a ∉ nodes l' ∧ h'.allocated a ∧
      ∀ k, c'.op = .add k → h'.key a = k)
    (hothers : ∀ q cq, q ≠ p → s.thread q = some cq → point_ok h' l' cq ∧
      ∀ a, cq.owned = some a → a ∉ nodes l' ∧ h' a = s.heap a)
    (hbounded : ∃ N, ∀ a, N ≤ a → h' a = none) :
    CoarseInv l' D' started
      ⟨h', m', Function.update s.thread p (some c'), s.i, s.returned⟩ where
  nodup := hnodup
  allocated := halloc
  tail_key := htail
  keys := hkeys
  legal := by
    cases hbook with
    | same => exact h.legal
    | effect r _ _ hr =>
      rw [List.map_append, List.map_append, List.map_singleton, List.map_singleton, outputs_concat,
        List.map_append, h.legal, hr]
      rfl
  chain := hchain
  locks := h.locks.update hp (fun _ => hmutex) fun _ => hfree
  owned := by
    intro q cq a hq ha
    rcases update_some hq with ⟨rfl, rfl⟩ | ⟨hne, hq'⟩
    · exact hself.2 a ha
    · obtain ⟨hnot, heq⟩ := (hothers q cq hne hq').2 a ha
      obtain ⟨-, ha', hkey⟩ := h.owned q cq a hq' ha
      have halloc' : h'.allocated a := by rwa [Heap.allocated, heq]
      have hkey' : h'.key a = s.heap.key a := by rw [Heap.key, Heap.key, heq]
      exact ⟨hnot, halloc', fun k hk => hkey'.trans (hkey k hk)⟩
  owned_inj := by
    apply h.owned_inj.update
    intro a ha
    rcases howned a ha with ha | hnew
    · exact .inl ⟨c, hp, ha⟩
    · exact .inr hnew
  order := by
    intro q
    by_cases hq : q = p
    · subst hq
      rw [← h.order q, hp]
      change _ ++ pending (Function.update s.thread q (some c') q) = _
      rw [Function.update_self]
      cases hbook with
      | same hres => simp [pending, hop, hres]
      | effect r hnone hsome _ => simp [pending, hnone, hsome]
    · rw [← h.order q]
      change _ ++ pending (Function.update s.thread p (some c') q) = _
      rw [Function.update_of_ne hq]
      cases hbook with
      | same => rfl
      | effect r _ _ _ =>
        rw [List.filter_append, List.filter_cons_of_neg (by simpa using Ne.symm hq)]
        simp
  returned := by
    intro q
    change _ = s.returned q ++ answer (Function.update s.thread p (some c') q)
    by_cases hq : q = p
    · subst hq
      have hold := h.returned q
      rw [hp] at hold
      rw [Function.update_self]
      cases hbook with
      | same hres => simpa [answer, hres] using hold
      | effect r hnone hsome _ =>
        simp only [answer, hnone, Option.toList_none, List.append_nil] at hold
        simp [answer, hsome, hold]
    · rw [Function.update_of_ne hq, ← h.returned q]
      cases hbook with
      | same => rfl
      | effect r _ _ _ =>
        rw [List.filter_append, List.filter_cons_of_neg (by simpa using Ne.symm hq)]
        simp
  range := by
    intro q cq hq
    rcases update_some hq with ⟨rfl, rfl⟩ | ⟨-, hq'⟩
    · rw [hop]
      exact h.range q c hp
    · exact h.range q cq hq'
  thread := by
    intro q cq hq
    rcases update_some hq with ⟨rfl, rfl⟩ | ⟨hne, hq'⟩
    · exact hself.1
    · exact (hothers q cq hne hq').1
  bounded := hbounded

end CoarseInv

end Lab11.Coarse
