import ConcurrentProgramming.Framework.FifoMutex
import ConcurrentProgramming.Lab10.ClhLock
import Mathlib.Data.List.Chain

/-! # The Invariant of the CLH Lock

    The threads from their swap until their release store form a queue.  The lock
    keeps it only in the pointers `my_pred`: that of a thread is the node of the
    thread before it, and `*tail` is the node of the last one.

    A node belongs to one thread from `calloc` until it is released.  Then it is the
    `front` node: it belongs to the first thread of the queue, which spins on it and
    frees it, or to the lock if the queue is empty.  When it has been freed there is
    no front node until the next release.

    `NodesInv` is the part of the invariant about the memory and `QueueInv` the
    part about the pointers; each has one lemma for every step that changes it.
-/

namespace Lab10

open LTS

/-! ## Section 1: The invariant -/

namespace Point

/-- The value of `*my_node` while the node belongs to the thread. -/
def flag : Point → Option Bool
  | .calloc => none
  | .set_true => some false
  | .returned => none
  | _ => some true

/-- Between the swap and the release store. -/
def queued : Point → Bool
  | .calloc => false
  | .set_true => false
  | .swap => false
  | .returned => false
  | _ => true

/-- Between the return of `lock` and the release store. -/
def inside : Point → Bool
  | .load_count => true
  | .store_count _ => true
  | .free_pred => true
  | .clear_pred => true
  | .release => true
  | _ => false

/-- Between the swap and `free(my_pred)`. -/
def holds_pred : Point → Bool
  | .spin => true
  | .load_count => true
  | .store_count _ => true
  | .free_pred => true
  | _ => false

theorem queued_of_inside {pt : Point} (h : pt.inside = true) : pt.queued = true := by
  cases pt <;> first | rfl | cases h

theorem flag_of_queued {pt : Point} (h : pt.queued = true) : pt.flag = some true := by
  cases pt <;> first | rfl | cases h

theorem holds_pred_of_waiting {pt : Point} (h : pt.queued = true) (hin : pt.inside = false) :
    pt.holds_pred = true := by
  cases pt <;>
    first | rfl | exact absurd h Bool.false_ne_true | exact absurd hin.symm Bool.false_ne_true

end Point

/-- What the memory holds. -/
structure NodesInv (front : Option ℕ) (s : ClhState) : Prop where
  node       : ∀ t b, (s.thread t).point.flag = some b → s.mem (s.thread t).my_node = some b
  distinct   : ∀ t u, (s.thread t).point.flag ≠ none → (s.thread u).point.flag ≠ none →
    (s.thread t).my_node = (s.thread u).my_node → t = u
  front_node : ∀ f, front = some f → (s.printed = none → s.mem f = some false) ∧
    ∀ t, (s.thread t).point.flag ≠ none → (s.thread t).my_node ≠ f

/-- How the pointers represent the queue. -/
structure QueueInv (a : FifoMutex.State ℕ) (front : Option ℕ) (s : ClhState) : Prop where
  queued  : ∀ t, t ∈ a.queue ↔ (s.thread t).point.queued = true
  inside  : ∀ t, (s.thread t).point.inside = true ↔ a.inside = true ∧ a.queue.head? = some t
  chain   : a.queue.IsChain fun t u =>
    (s.thread u).point.holds_pred = true → (s.thread u).my_pred = (s.thread t).my_node
  head    : ∀ t, a.queue.head? = some t →
    front = if (s.thread t).point.holds_pred then some (s.thread t).my_pred else none
  last    : ∀ t, a.queue.getLast? = some t → s.tail = (s.thread t).my_node
  empty   : a.queue = [] → front = some s.tail
  swaps   : a.arrived = s.swaps
  entered : a.entered = s.entered

/-- The lock represents the state `a` of a mutex with a queue. -/
structure ClhInv (a : FifoMutex.State ℕ) (front : Option ℕ) (s : ClhState) : Prop where
  nodes : NodesInv front s
  queue : QueueInv a front s
  ended : s.printed ≠ none → ∀ t, (s.thread t).point = .returned

/-! ## Section 2: Steps that change one thread -/

section update

variable {a : FifoMutex.State ℕ} {front : Option ℕ} {s s' : ClhState} {t : ℕ} {th : Thread}

theorem thread_self (hthread : s'.thread = Function.update s.thread t th) : s'.thread t = th := by
  rw [hthread, Function.update_self]

theorem thread_other (hthread : s'.thread = Function.update s.thread t th) (u : ℕ) (hu : u ≠ t) :
    s'.thread u = s.thread u := by
  rw [hthread, Function.update_of_ne hu]

/-- What a step of thread `t` leaves as it is for `t` is the same for all threads. -/
theorem field_update {β : Type} (g : Thread → β)
    (hthread : s'.thread = Function.update s.thread t th) (hself : g th = g (s.thread t)) (u : ℕ) :
    g (s'.thread u) = g (s.thread u) := by
  by_cases hu : u = t
  · rw [hu, thread_self hthread, hself]
  · rw [thread_other hthread u hu]

/-- The memory stays as it is, and so does what the thread knows of its node. -/
theorem NodesInv.keep (h : NodesInv front s)
    (hthread : s'.thread = Function.update s.thread t th) (hmem : s'.mem = s.mem)
    (hprinted : s'.printed = s.printed) (hnode : th.my_node = (s.thread t).my_node)
    (hflag : th.point.flag = (s.thread t).point.flag) : NodesInv front s' := by
  have hnodes := field_update Thread.my_node hthread hnode
  have hflags := field_update (fun th => th.point.flag) hthread hflag
  refine ⟨?_, ?_, ?_⟩
  · intro u b hb
    rw [hmem, hnodes]
    exact h.node u b ((hflags u).symm.trans hb)
  · intro u v hu hv heq
    rw [hnodes, hnodes] at heq
    exact h.distinct u v ((hflags u).symm.trans_ne hu) ((hflags v).symm.trans_ne hv) heq
  · intro f hf
    obtain ⟨hfalse, hne⟩ := h.front_node f hf
    rw [hmem, hprinted]
    refine ⟨hfalse, fun u hu => ?_⟩
    rw [hnodes]
    exact hne u ((hflags u).symm.trans_ne hu)

/-- The thread stays where it is in the queue. -/
theorem QueueInv.keep (h : QueueInv a front s)
    (hthread : s'.thread = Function.update s.thread t th) (htail : s'.tail = s.tail)
    (hswaps : s'.swaps = s.swaps) (hentered : s'.entered = s.entered)
    (hqueued : th.point.queued = (s.thread t).point.queued)
    (hinside : th.point.inside = (s.thread t).point.inside)
    (hholds : th.point.holds_pred = (s.thread t).point.holds_pred)
    (hnode : th.point.queued = true → th.my_node = (s.thread t).my_node)
    (hpred : th.point.holds_pred = true → th.my_pred = (s.thread t).my_pred) :
    QueueInv a front s' := by
  have hqueued' := field_update (fun th => th.point.queued) hthread hqueued
  have hinside' := field_update (fun th => th.point.inside) hthread hinside
  have hholds' := field_update (fun th => th.point.holds_pred) hthread hholds
  have hnodes : ∀ u ∈ a.queue, (s'.thread u).my_node = (s.thread u).my_node := by
    intro u hmem
    by_cases hu : u = t
    · subst hu
      rw [thread_self hthread, hnode (hqueued.trans ((h.queued u).mp hmem))]
    · rw [thread_other hthread u hu]
  have hpreds : ∀ u, (s.thread u).point.holds_pred = true →
      (s'.thread u).my_pred = (s.thread u).my_pred := by
    intro u hu'
    by_cases hu : u = t
    · subst hu
      rw [thread_self hthread, hpred (hholds.trans hu')]
    · rw [thread_other hthread u hu]
  refine ⟨?_, ?_, ?_, ?_, ?_, ?_, ?_, ?_⟩
  · intro u
    rw [h.queued, hqueued']
  · intro u
    rw [← h.inside, hinside']
  · refine h.chain.imp_of_mem_imp fun x y hx _ hxy hy => ?_
    rw [hholds'] at hy
    rw [hpreds y hy, hnodes x hx, hxy hy]
  · intro u hu
    rw [h.head u hu, hholds']
    split
    · next hh => rw [hpreds u hh]
    · rfl
  · intro u hu
    rw [htail, h.last u hu, hnodes u (List.mem_of_getLast? hu)]
  · intro hnil
    rw [h.empty hnil, htail]
  · rw [h.swaps, hswaps]
  · rw [h.entered, hentered]

end update

/-! ## Section 3: The nodes -/

namespace NodesInv

variable {front : Option ℕ} {s s' : ClhState} {t : ℕ} {th : Thread}

/-- The memory of a node changes that belongs to thread `t` before or after the
    step and to no other thread, and that is not the front node. -/
theorem write_node (h : NodesInv front s) (hthread : s'.thread = Function.update s.thread t th)
    {value : Bool} (hmem : s'.mem = Function.update s.mem th.my_node (some value))
    (hprinted : s'.printed = s.printed) (hflag : th.point.flag = some value)
    (hnew : ∀ u, u ≠ t → (s.thread u).point.flag ≠ none → (s.thread u).my_node ≠ th.my_node)
    (hfront : ∀ f, front = some f → th.my_node ≠ f) : NodesInv front s' := by
  have hself := thread_self hthread
  have hother := thread_other hthread
  refine ⟨?_, ?_, ?_⟩
  · intro u b hb
    rw [hmem]
    by_cases hu : u = t
    · rw [hu, hself] at hb ⊢
      rw [Function.update_self, ← hflag, hb]
    · rw [hother u hu] at hb ⊢
      rw [Function.update_of_ne (hnew u hu (by simp [hb])), h.node u b hb]
  · intro u v hu hv heq
    by_cases hut : u = t
    · by_cases hvt : v = t
      · rw [hut, hvt]
      · rw [hut, hself, hother v hvt] at heq
        rw [hother v hvt] at hv
        exact absurd heq.symm (hnew v hvt hv)
    · rw [hother u hut] at hu heq
      by_cases hvt : v = t
      · rw [hvt, hself] at heq
        exact absurd heq (hnew u hut hu)
      · rw [hother v hvt] at hv heq
        exact h.distinct u v hu hv heq
  · intro f hf
    obtain ⟨hfalse, hne⟩ := h.front_node f hf
    refine ⟨fun hp => ?_, fun u hu => ?_⟩
    · rw [hmem, Function.update_of_ne (hfront f hf).symm, hfalse (hprinted ▸ hp)]
    · by_cases hut : u = t
      · rw [hut, hself]
        exact hfront f hf
      · rw [hother u hut] at hu ⊢
        exact hne u hu

/-- The front node is freed. -/
theorem free_front (h : NodesInv front s) {f : ℕ} (hf : front = some f)
    (hthread : s'.thread = Function.update s.thread t th)
    (hmem : s'.mem = Function.update s.mem f none) (hnode : th.my_node = (s.thread t).my_node)
    (hflag : th.point.flag = (s.thread t).point.flag) : NodesInv none s' := by
  have hnodes := field_update Thread.my_node hthread hnode
  have hflags := field_update (fun th => th.point.flag) hthread hflag
  refine ⟨?_, ?_, ?_⟩
  · intro u b hb
    replace hb := (hflags u).symm.trans hb
    have hne := (h.front_node f hf).2 u (by simp [hb])
    rw [hmem, hnodes, Function.update_of_ne hne, h.node u b hb]
  · intro u v hu hv heq
    rw [hnodes, hnodes] at heq
    exact h.distinct u v ((hflags u).symm.trans_ne hu) ((hflags v).symm.trans_ne hv) heq
  · intro f' hf'
    cases hf'

/-- Thread `t` releases its node, which becomes the front node. -/
theorem release_node (h : NodesInv none s) (hthread : s'.thread = Function.update s.thread t th)
    (hold : (s.thread t).point.flag ≠ none)
    (hmem : s'.mem = Function.update s.mem (s.thread t).my_node (some false))
    (hflag : th.point.flag = none) : NodesInv (some (s.thread t).my_node) s' := by
  have hself := thread_self hthread
  have hother := thread_other hthread
  -- The threads that have a node are others than `t`, and their nodes are others.
  have howner : ∀ u, (s'.thread u).point.flag ≠ none → u ≠ t ∧
      (s.thread u).point.flag ≠ none ∧ (s.thread u).my_node ≠ (s.thread t).my_node := by
    intro u hu
    have hut : u ≠ t := by
      rintro rfl
      rw [hself, hflag] at hu
      exact hu rfl
    rw [hother u hut] at hu
    exact ⟨hut, hu, fun heq => hut (h.distinct u t hu hold heq)⟩
  refine ⟨?_, ?_, ?_⟩
  · intro u b hb
    obtain ⟨hut, -, hne⟩ := howner u (by simp [hb])
    rw [hother u hut] at hb ⊢
    rw [hmem, Function.update_of_ne hne, h.node u b hb]
  · intro u v hu hv heq
    obtain ⟨hut, hu', -⟩ := howner u hu
    obtain ⟨hvt, hv', -⟩ := howner v hv
    rw [hother u hut, hother v hvt] at heq
    exact h.distinct u v hu' hv' heq
  · intro f hf
    cases hf
    refine ⟨fun _ => by rw [hmem, Function.update_self], fun u hu => ?_⟩
    obtain ⟨hut, -, hne⟩ := howner u hu
    rwa [hother u hut]

end NodesInv

/-! ## Section 4: The queue -/

namespace QueueInv

variable {a : FifoMutex.State ℕ} {front : Option ℕ} {s s' : ClhState} {t : ℕ} {th : Thread}

/-- A thread of the queue is the first one or waits for the node of another one. -/
theorem first_or_behind (h : QueueInv a front s) (ht : t ∈ a.queue)
    (hholds : (s.thread t).point.holds_pred = true) :
    a.queue.head? = some t ∨ ∃ u ∈ a.queue, (s.thread t).my_pred = (s.thread u).my_node := by
  obtain ⟨before, after, hqueue⟩ := List.append_of_mem ht
  rcases List.eq_nil_or_concat before with hnil | ⟨rest, u, hlast⟩
  · left
    rw [hqueue, hnil]
    rfl
  · right
    have hchain := h.chain
    rw [hqueue, hlast, List.concat_eq_append, List.append_assoc, List.singleton_append] at hchain
    refine ⟨u, by simp [hqueue, hlast], ?_⟩
    exact (List.isChain_append_cons_cons.mp hchain).2.1 hholds

/-- Only the first thread is inside. -/
theorem head_of_inside (h : QueueInv a front s) (ht : (s.thread t).point.inside = true) :
    a.inside = true ∧ a.queue.head? = some t := (h.inside t).mp ht

/-- While the first thread spins, nobody is inside. -/
theorem not_inside (h : QueueInv a front s) (hhead : a.queue.head? = some t)
    (hp : (s.thread t).point = .spin) : a.inside = false := by
  rw [← Bool.not_eq_true]
  intro hin
  have hinside := (h.inside t).mpr ⟨hin, hhead⟩
  rw [hp] at hinside
  cases hinside

/-- The front node belongs to the thread that is inside, until it frees the node. -/
theorem front_of_inside (h : QueueInv a front s) (ht : (s.thread t).point.inside = true) :
    front = if (s.thread t).point.holds_pred then some (s.thread t).my_pred else none :=
  h.head t (h.head_of_inside ht).2

/-- The swap puts thread `t` at the end of the queue. -/
theorem arrive (h : QueueInv a front s) (hbusy : a.inside = true → a.queue ≠ [])
    (hp : (s.thread t).point = .swap)
    (hthread : s'.thread = Function.update s.thread t th)
    (hth : th = { s.thread t with my_pred := s.tail, point := .spin })
    (htail : s'.tail = (s.thread t).my_node) (hswaps : s'.swaps = s.swaps ++ [t])
    (hentered : s'.entered = s.entered) :
    QueueInv { a with queue := a.queue ++ [t], arrived := a.arrived ++ [t] } front s' := by
  have hself := thread_self hthread
  have hother := thread_other hthread
  have hnew : t ∉ a.queue := by
    rw [h.queued, hp]
    exact Bool.false_ne_true
  have hne : ∀ u ∈ a.queue, u ≠ t := fun u hu heq => hnew (heq ▸ hu)
  have hinside := field_update (fun th => th.point.inside) hthread (by rw [hth, hp]; rfl)
  refine ⟨?_, ?_, ?_, ?_, ?_, ?_, ?_, ?_⟩
  · intro u
    rw [List.mem_append, List.mem_singleton]
    by_cases hu : u = t
    · rw [hu, hself, hth]
      simp [Point.queued]
    · rw [hother u hu, ← h.queued]
      simp [hu]
  · intro u
    rw [hinside u, h.inside u]
    refine and_congr_right fun hin => ?_
    rw [List.head?_append_of_ne_nil _ (hbusy hin)]
  · refine List.isChain_append.mpr ⟨?_, List.isChain_singleton t, ?_⟩
    · refine h.chain.imp_of_mem_imp fun x y hx hy hxy => ?_
      rwa [hother x (hne x hx), hother y (hne y hy)]
    · -- `*tail` was the node of the thread that `t` is now behind.
      intro x hx y hy _
      cases hy
      have hx' : x ∈ a.queue := List.mem_of_getLast? hx
      rw [hself, hth, hother x (hne x hx')]
      exact h.last x hx
  · intro u hu
    cases hqueue : a.queue with
    | nil =>
      -- `t` is the first thread, and the node that it took out of `*tail` is the front node.
      rw [hqueue] at hu
      cases hu
      rw [hself, hth, h.empty hqueue]
      rfl
    | cons v rest =>
      have hu' : a.queue.head? = some u := by
        rw [hqueue] at hu ⊢
        exact hu
      rw [hother u (hne u (List.mem_of_head? hu'))]
      exact h.head u hu'
  · intro u hu
    rw [List.getLast?_concat] at hu
    cases hu
    rw [htail, hself, hth]
  · intro hnil
    simp at hnil
  · rw [hswaps, h.swaps]
  · rw [hentered, h.entered]

/-- The first thread enters. -/
theorem enter (h : QueueInv a front s) (hhead : a.queue.head? = some t)
    (hp : (s.thread t).point = .spin) (hthread : s'.thread = Function.update s.thread t th)
    (hth : th = { s.thread t with point := .load_count })
    (htail : s'.tail = s.tail) (hswaps : s'.swaps = s.swaps)
    (hentered : s'.entered = s.entered ++ [t]) :
    QueueInv { a with inside := true, entered := a.entered ++ [t] } front s' := by
  have hqueued := field_update (fun th => th.point.queued) hthread (by rw [hth, hp]; rfl)
  have hholds := field_update (fun th => th.point.holds_pred) hthread (by rw [hth, hp]; rfl)
  have hnodes := field_update Thread.my_node hthread (by rw [hth])
  have hpreds := field_update Thread.my_pred hthread (by rw [hth])
  refine ⟨?_, ?_, ?_, ?_, ?_, ?_, ?_, ?_⟩
  · intro u
    rw [h.queued, hqueued]
  · intro u
    show _ ↔ true = true ∧ a.queue.head? = some u
    by_cases hu : u = t
    · rw [hu, thread_self hthread, hth]
      exact iff_of_true rfl ⟨rfl, hhead⟩
    · rw [thread_other hthread u hu, h.inside, h.not_inside hhead hp, hhead]
      simp [Ne.symm hu]
  · refine h.chain.imp fun x y hxy hy => ?_
    rw [hpreds, hnodes]
    exact hxy ((hholds y).symm.trans hy)
  · intro u hu
    rw [hholds, hpreds, h.head u hu]
  · intro u hu
    rw [htail, hnodes, h.last u hu]
  · intro hnil
    rw [htail, h.empty hnil]
  · rw [hswaps, h.swaps]
  · rw [hentered, h.entered]

/-- The first thread has freed the front node. -/
theorem free_front (h : QueueInv a front s) (hp : (s.thread t).point = .free_pred)
    (hthread : s'.thread = Function.update s.thread t th)
    (hth : th = { s.thread t with point := .clear_pred })
    (htail : s'.tail = s.tail) (hswaps : s'.swaps = s.swaps) (hentered : s'.entered = s.entered) :
    QueueInv a none s' := by
  have hhead := (h.head_of_inside (t := t) (by rw [hp]; rfl)).2
  have hqueued := field_update (fun th => th.point.queued) hthread (by rw [hth, hp]; rfl)
  have hinside := field_update (fun th => th.point.inside) hthread (by rw [hth, hp]; rfl)
  have hnodes := field_update Thread.my_node hthread (by rw [hth])
  have hpreds := field_update Thread.my_pred hthread (by rw [hth])
  refine ⟨?_, ?_, ?_, ?_, ?_, ?_, ?_, ?_⟩
  · intro u
    rw [h.queued, hqueued]
  · intro u
    rw [← h.inside, hinside]
  · refine h.chain.imp fun x y hxy hy => ?_
    rw [hpreds, hnodes]
    by_cases hyt : y = t
    · -- The thread has freed the node, so its pointer means nothing any more.
      rw [hyt, thread_self hthread, hth] at hy
      cases hy
    · rw [thread_other hthread y hyt] at hy
      exact hxy hy
  · intro u hu
    rw [hhead] at hu
    cases hu
    rw [thread_self hthread, hth]
    rfl
  · intro u hu
    rw [htail, hnodes, h.last u hu]
  · intro hnil
    rw [hnil] at hhead
    cases hhead
  · rw [hswaps, h.swaps]
  · rw [hentered, h.entered]

/-- The first thread leaves, and its node becomes the front node. -/
theorem leave (h : QueueInv a front s) (hnodup : a.queue.Nodup)
    (hp : (s.thread t).point = .release) (hthread : s'.thread = Function.update s.thread t th)
    (hout : th.point.queued = false) (hin : th.point.inside = false)
    (htail : s'.tail = s.tail) (hswaps : s'.swaps = s.swaps) (hentered : s'.entered = s.entered) :
    QueueInv { a with queue := a.queue.tail, inside := false } (some (s.thread t).my_node) s' := by
  have hhead := (h.head_of_inside (t := t) (by rw [hp]; rfl)).2
  obtain ⟨rest, hqueue⟩ := List.head?_eq_some_iff.mp hhead
  have hself := thread_self hthread
  have hother := thread_other hthread
  have htrest : t ∉ rest := by
    rw [hqueue] at hnodup
    exact (List.nodup_cons.mp hnodup).1
  have hne : ∀ u ∈ rest, u ≠ t := fun u hu heq => htrest (heq ▸ hu)
  have hchain := h.chain
  rw [hqueue, List.isChain_cons] at hchain
  have hrest : a.queue.tail = rest := by rw [hqueue, List.tail_cons]
  rw [hrest]
  refine ⟨?_, ?_, ?_, ?_, ?_, ?_, ?_, ?_⟩
  · intro u
    by_cases hu : u = t
    · rw [hu, hself, hout]
      exact iff_of_false htrest Bool.false_ne_true
    · rw [hother u hu, ← h.queued, hqueue, List.mem_cons, or_iff_right hu]
  · intro u
    refine iff_of_false ?_ (fun hu => Bool.false_ne_true hu.1)
    by_cases hu : u = t
    · rw [hu, hself, hin]
      exact Bool.false_ne_true
    · rw [hother u hu]
      intro huin
      have hu' := (h.head_of_inside huin).2
      rw [hhead] at hu'
      exact hu (Option.some.inj hu').symm
  · refine hchain.2.imp_of_mem_imp fun x y hx hy hxy => ?_
    rwa [hother x (hne x hx), hother y (hne y hy)]
  · intro u hu
    have hmem : u ∈ rest := List.mem_of_head? hu
    -- The second thread still spins, so its pointer is the node of the first.
    have hwaits : (s.thread u).point.holds_pred = true := by
      refine Point.holds_pred_of_waiting ?_ ?_
      · rw [← h.queued, hqueue]
        exact List.mem_cons_of_mem t hmem
      · rw [← Bool.not_eq_true]
        intro huin
        have hu' := (h.head_of_inside huin).2
        rw [hhead] at hu'
        exact hne u hmem (Option.some.inj hu').symm
    rw [hother u (hne u hmem), if_pos hwaits, hchain.1 u hu hwaits]
  · intro u hu
    have hmem : u ∈ rest := List.mem_of_getLast? hu
    rw [htail, hother u (hne u hmem)]
    refine h.last u ?_
    rw [hqueue, List.getLast?_cons, hu]
    rfl
  · -- Nobody waits: the node of `t` stays in `*tail` for the next thread.
    intro hnil
    change rest = [] at hnil
    rw [htail, h.last t (by rw [hqueue, hnil]; rfl)]
  · rw [hswaps, h.swaps]
  · rw [hentered, h.entered]

end QueueInv

end Lab10
