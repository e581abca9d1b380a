import ConcurrentProgramming.Lab10.ClhInvariant
import Mathlib.Algebra.BigOperators.Group.Finset.Basic

/-! # Properties of the CLH Lock

    Every step of the lock is at most one step of a mutex with a queue
    (`ClhInv.run`): the swap is the arrival, the last read of the spin loop is the
    entry, and the release store is the departure.  So the lock refines
    `FifoMutex.mutex` (`clh_refines`), which gives exclusion and the order of the
    entries; that only allocated nodes are used follows from the invariant itself
    (`clh_lock_safe`).

    The threads use the lock to increment `cnt_global`, which is a load and a store.
    Exclusion gives that no increment is lost (`clh_count_printed`).
-/

namespace Lab10

open LTS

/-! ## Section 1: The lock refines a mutex with a queue -/

/-- What a next step of thread `tid` reads, writes, frees or takes out of `*tail`. -/
def ClhState.uses (s : ClhState) (tid : ℕ) : List ℕ :=
  match (s.thread tid).point with
  | .set_true => [(s.thread tid).my_node]
  | .swap => [s.tail]
  | .spin => [(s.thread tid).my_pred]
  | .free_pred => [(s.thread tid).my_pred]
  | .release => [(s.thread tid).my_node]
  | _ => []

theorem loop_point_outside (num_work i : ℕ) :
    (loop_point num_work i).flag = none ∧ (loop_point num_work i).queued = false ∧
      (loop_point num_work i).inside = false := by
  unfold loop_point
  split <;> exact ⟨rfl, rfl, rfl⟩

namespace ClhInv

variable {a : FifoMutex.State ℕ} {front : Option ℕ} {s s' : ClhState} {t fresh num_work : ℕ}

theorem not_printed (h : ClhInv a front s) (ht : (s.thread t).point ≠ .returned) :
    s.printed = none := by
  by_contra hprinted
  exact ht (h.ended hprinted t)

/-- Nobody takes a freed node out of `*tail`. -/
theorem tail_allocated (h : ClhInv a front s) (hprinted : s.printed = none) :
    s.mem s.tail ≠ none := by
  cases hlast : a.queue.getLast? with
  | none =>
    have hfront := h.queue.empty (List.getLast?_eq_none_iff.mp hlast)
    rw [(h.nodes.front_node s.tail hfront).1 hprinted]
    exact Option.some_ne_none false
  | some u =>
    have hu := (h.queue.queued u).mp (List.mem_of_getLast? hlast)
    rw [h.queue.last u hlast, h.nodes.node u true (Point.flag_of_queued hu)]
    exact Option.some_ne_none true

/-- The node on which a thread spins: false for the first thread, true for the others. -/
theorem pred_node (h : ClhInv a front s) (ht : (s.thread t).point.holds_pred = true)
    (hqueued : (s.thread t).point.queued = true) (hprinted : s.printed = none) :
    ∃ value, s.mem (s.thread t).my_pred = some value ∧
      (value = false → a.queue.head? = some t) := by
  rcases h.queue.first_or_behind ((h.queue.queued t).mpr hqueued) ht with hhead | ⟨u, hu, hpred⟩
  · have hfront := h.queue.head t hhead
    rw [if_pos ht] at hfront
    exact ⟨false, (h.nodes.front_node _ hfront).1 hprinted, fun _ => hhead⟩
  · refine ⟨true, ?_, fun hfalse => nomatch hfalse⟩
    rw [hpred, h.nodes.node u true (Point.flag_of_queued ((h.queue.queued u).mp hu))]

theorem uses_allocated (h : ClhInv a front s) : ∀ x ∈ s.uses t, s.mem x ≠ none := by
  intro x hx
  have hown : ∀ b, (s.thread t).point.flag = some b → s.mem (s.thread t).my_node ≠ none := by
    intro b hb
    rw [h.nodes.node t b hb]
    exact Option.some_ne_none b
  have hpred : (s.thread t).point.holds_pred = true → (s.thread t).point.queued = true →
      s.printed = none → s.mem (s.thread t).my_pred ≠ none := by
    intro hholds hqueued hprinted
    obtain ⟨value, hvalue, -⟩ := h.pred_node hholds hqueued hprinted
    rw [hvalue]
    exact Option.some_ne_none value
  unfold ClhState.uses at hx
  cases hp : (s.thread t).point <;> rw [hp] at hx <;> simp only [List.mem_singleton] at hx
  case set_true => exact hx ▸ hown false (by rw [hp]; rfl)
  case swap => exact hx ▸ h.tail_allocated (h.not_printed (t := t) (by rw [hp]; simp))
  case spin =>
    exact hx ▸ hpred (by rw [hp]; rfl) (by rw [hp]; rfl) (h.not_printed (t := t) (by rw [hp]; simp))
  case free_pred =>
    exact hx ▸ hpred (by rw [hp]; rfl) (by rw [hp]; rfl) (h.not_printed (t := t) (by rw [hp]; simp))
  case release => exact hx ▸ hown true (by rw [hp]; rfl)
  all_goals cases hx

/-- What a step of a thread leads to: the mutex makes one step or none. -/
def steps_to (a : FifoMutex.State ℕ) (s' : ClhState) : Prop :=
  ∃ a' front', (a' = a ∨ FifoMutex.mutex.next a a') ∧ ClhInv a' front' s'

theorem of_parts (hnodes : NodesInv front s) (hqueue : QueueInv a front s)
    (hprinted : s.printed = none) : ClhInv a front s :=
  ⟨hnodes, hqueue, fun hne => absurd hprinted hne⟩

theorem calloc (h : ClhInv a front s) (hprinted : s.printed = none)
    (hp : (s.thread t).point = .calloc) (hrun : s.run num_work t fresh = some s') :
    steps_to a s' := by
  simp only [ClhState.run, hp, Option.ite_none_right_eq_some, Option.some.injEq] at hrun
  obtain ⟨⟨-, hfresh⟩, rfl⟩ := hrun
  refine ⟨a, front, .inl rfl, of_parts ?_ ?_ hprinted⟩
  · -- The new address is not that of a node in use.
    refine h.nodes.write_node rfl rfl rfl rfl ?_ ?_
    · intro u _ hu heq
      obtain ⟨b, hb⟩ := Option.ne_none_iff_exists'.mp hu
      have hnode := h.nodes.node u b hb
      rw [heq, hfresh] at hnode
      cases hnode
    · rintro f hf rfl
      have hfalse := (h.nodes.front_node fresh hf).1 hprinted
      rw [hfresh] at hfalse
      cases hfalse
  · refine h.queue.keep rfl rfl rfl rfl ?_ ?_ ?_ ?_ ?_ <;> first | rw [hp]; rfl | nofun

theorem set_true (h : ClhInv a front s) (hprinted : s.printed = none)
    (hp : (s.thread t).point = .set_true) (hrun : s.run num_work t fresh = some s') :
    steps_to a s' := by
  simp only [ClhState.run, hp, ClhState.write, Option.map_eq_some_iff] at hrun
  obtain ⟨_, ⟨_, -, rfl⟩, rfl⟩ := hrun
  have hown : (s.thread t).point.flag ≠ none := by
    rw [hp]
    exact Option.some_ne_none false
  refine ⟨a, front, .inl rfl, of_parts ?_ ?_ hprinted⟩
  · refine h.nodes.write_node rfl rfl rfl rfl ?_ ?_
    · intro u hut hu heq
      exact hut (h.nodes.distinct u t hu hown heq)
    · intro f hf
      exact (h.nodes.front_node f hf).2 t hown
  · refine h.queue.keep rfl rfl rfl rfl ?_ ?_ ?_ ?_ ?_ <;> first | rw [hp]; rfl | nofun

theorem swap (h : ClhInv a front s) (ha : Reachable FifoMutex.mutex a)
    (hprinted : s.printed = none) (hp : (s.thread t).point = .swap)
    (hrun : s.run num_work t fresh = some s') : steps_to a s' := by
  simp only [ClhState.run, hp, Option.some.injEq] at hrun
  subst hrun
  have hnew : t ∉ a.queue := by
    rw [h.queue.queued, hp]
    exact Bool.false_ne_true
  refine ⟨_, front, .inr ⟨.arrive t, hnew, rfl⟩, of_parts ?_ ?_ hprinted⟩
  · exact h.nodes.keep rfl rfl rfl rfl (by rw [hp]; rfl)
  · exact h.queue.arrive (FifoMutex.busy_reachable ha) hp rfl rfl rfl rfl rfl

theorem spin (h : ClhInv a front s) (hprinted : s.printed = none)
    (hp : (s.thread t).point = .spin) (hrun : s.run num_work t fresh = some s') :
    steps_to a s' := by
  simp only [ClhState.run, hp, Option.map_eq_some_iff] at hrun
  obtain ⟨value, hvalue, hrun⟩ := hrun
  obtain ⟨value', hvalue', hfirst⟩ :=
    h.pred_node (t := t) (by rw [hp]; rfl) (by rw [hp]; rfl) hprinted
  rw [hvalue, Option.some.injEq] at hvalue'
  subst hvalue'
  cases value with
  | true =>
    cases hrun
    exact ⟨a, front, .inl rfl, h⟩
  | false =>
    cases hrun
    have hhead := hfirst rfl
    refine ⟨_, front, .inr ⟨.enter t, h.queue.not_inside hhead hp, hhead, rfl⟩,
      of_parts ?_ ?_ hprinted⟩
    · exact h.nodes.keep rfl rfl rfl rfl (by rw [hp]; rfl)
    · exact h.queue.enter hhead hp rfl rfl rfl rfl rfl

/-- The steps between the return of `lock` and `free(my_pred)`, and the one after it. -/
theorem inside_step (h : ClhInv a front s) (hprinted : s.printed = none) {th : Thread}
    (hold : (s.thread t).point.inside = true) (hnew : th.point.inside = true)
    (hholds : th.point.holds_pred = (s.thread t).point.holds_pred)
    (hthread : s'.thread = Function.update s.thread t th) (hmem : s'.mem = s.mem)
    (htail : s'.tail = s.tail) (hprinted' : s'.printed = s.printed) (hswaps : s'.swaps = s.swaps)
    (hentered : s'.entered = s.entered) (hnode : th.my_node = (s.thread t).my_node)
    (hpred : th.point.holds_pred = true → th.my_pred = (s.thread t).my_pred) :
    steps_to a s' := by
  have hqueued := (Point.queued_of_inside hnew).trans (Point.queued_of_inside hold).symm
  have hflag : th.point.flag = (s.thread t).point.flag := by
    rw [Point.flag_of_queued (Point.queued_of_inside hnew),
      Point.flag_of_queued (Point.queued_of_inside hold)]
  refine ⟨a, front, .inl rfl, of_parts ?_ ?_ (hprinted'.trans hprinted)⟩
  · exact h.nodes.keep hthread hmem hprinted' hnode hflag
  · exact h.queue.keep hthread htail hswaps hentered hqueued (hnew.trans hold.symm) hholds
      (fun _ => hnode) hpred

theorem free_pred (h : ClhInv a front s) (hprinted : s.printed = none)
    (hp : (s.thread t).point = .free_pred) (hrun : s.run num_work t fresh = some s') :
    steps_to a s' := by
  simp only [ClhState.run, hp, Option.map_eq_some_iff] at hrun
  obtain ⟨_, -, rfl⟩ := hrun
  have hfront := h.queue.front_of_inside (t := t) (by rw [hp]; rfl)
  rw [hp] at hfront
  refine ⟨a, none, .inl rfl, of_parts ?_ ?_ hprinted⟩
  · exact h.nodes.free_front hfront rfl rfl rfl (by rw [hp]; rfl)
  · exact h.queue.free_front hp rfl rfl rfl rfl rfl

theorem release (h : ClhInv a front s) (ha : Reachable FifoMutex.mutex a)
    (hprinted : s.printed = none) (hp : (s.thread t).point = .release)
    (hrun : s.run num_work t fresh = some s') : steps_to a s' := by
  simp only [ClhState.run, hp, ClhState.write, Option.map_eq_some_iff] at hrun
  obtain ⟨_, ⟨_, -, rfl⟩, rfl⟩ := hrun
  obtain ⟨hflag, hqueued, hinside⟩ := loop_point_outside num_work ((s.thread t).i + 1)
  obtain ⟨hin, hhead⟩ := h.queue.head_of_inside (t := t) (by rw [hp]; rfl)
  have hfront := h.queue.front_of_inside (t := t) (by rw [hp]; rfl)
  rw [hp] at hfront
  subst hfront
  refine ⟨_, some (s.thread t).my_node, .inr ⟨.leave t, hin, hhead, rfl⟩,
    of_parts ?_ ?_ hprinted⟩
  · exact h.nodes.release_node rfl (by rw [hp]; exact Option.some_ne_none true) rfl hflag
  · exact h.queue.leave (FifoMutex.queue_nodup ha) hp rfl hqueued hinside rfl rfl rfl

theorem exclusive (h : ClhInv a front s) {u : ℕ} (ht : (s.thread t).point.inside = true)
    (hu : (s.thread u).point.inside = true) : t = u := by
  have hheadt := (h.queue.head_of_inside ht).2
  have hheadu := (h.queue.head_of_inside hu).2
  rw [hheadt] at hheadu
  exact Option.some.inj hheadu

/-- **Every step of a thread is at most one step of the mutex.** -/
theorem run (h : ClhInv a front s) (ha : Reachable FifoMutex.mutex a)
    (hrun : s.run num_work t fresh = some s') : steps_to a s' := by
  have hprinted : s.printed = none := by
    apply h.not_printed (t := t)
    intro hp
    simp [ClhState.run, hp] at hrun
  cases hp : (s.thread t).point with
  | calloc => exact h.calloc hprinted hp hrun
  | set_true => exact h.set_true hprinted hp hrun
  | swap => exact h.swap ha hprinted hp hrun
  | spin => exact h.spin hprinted hp hrun
  | load_count =>
    simp only [ClhState.run, hp, Option.some.injEq] at hrun
    subst hrun
    exact h.inside_step hprinted (by rw [hp]; rfl) rfl (by rw [hp]; rfl) rfl rfl rfl rfl rfl rfl rfl
      fun _ => rfl
  | store_count count =>
    simp only [ClhState.run, hp, Option.some.injEq] at hrun
    subst hrun
    exact h.inside_step hprinted (by rw [hp]; rfl) rfl (by rw [hp]; rfl) rfl rfl rfl rfl rfl rfl rfl
      fun _ => rfl
  | free_pred => exact h.free_pred hprinted hp hrun
  | clear_pred =>
    simp only [ClhState.run, hp, Option.some.injEq] at hrun
    subst hrun
    exact h.inside_step hprinted (by rw [hp]; rfl) rfl (by rw [hp]; rfl) rfl rfl rfl rfl rfl rfl rfl
      nofun
  | release => exact h.release ha hprinted hp hrun
  | returned => simp [ClhState.run, hp] at hrun

/-- `main` frees the last node when no thread has a node any more. -/
theorem finish (h : ClhInv a front s) (hall : ∀ t, (s.thread t).point = .returned) :
    ClhInv a front s.finish := by
  have hflag : ∀ t, (s.finish.thread t).point.flag = none := by
    intro t
    show (s.thread t).point.flag = none
    rw [hall t]
    rfl
  refine ⟨⟨?_, ?_, ?_⟩, ?_, fun _ => hall⟩
  · intro t b hb
    rw [hflag] at hb
    cases hb
  · intro t u ht
    exact absurd (hflag t) ht
  · intro f _
    exact ⟨nofun, fun t ht => absurd (hflag t) ht⟩
  · exact ⟨h.queue.queued, h.queue.inside, h.queue.chain, h.queue.head, h.queue.last,
      h.queue.empty, h.queue.swaps, h.queue.entered⟩

/-- Before the first step the node of `main` is the front node. -/
theorem initially (num_thread num_work x : ℕ) :
    ClhInv ⟨[], false, [], []⟩ (some x) (initial num_thread num_work x) := by
  have hpoint : ∀ t, ((initial num_thread num_work x).thread t).point.flag = none ∧
      ((initial num_thread num_work x).thread t).point.queued = false ∧
      ((initial num_thread num_work x).thread t).point.inside = false := by
    intro t
    simp only [initial]
    split
    · exact loop_point_outside num_work 0
    · exact ⟨rfl, rfl, rfl⟩
  refine ⟨⟨?_, ?_, ?_⟩, ⟨?_, ?_, List.isChain_nil, nofun, nofun, fun _ => rfl, rfl, rfl⟩, nofun⟩
  · intro t b hb
    rw [(hpoint t).1] at hb
    cases hb
  · intro t u ht
    exact absurd (hpoint t).1 ht
  · intro f hf
    cases hf
    exact ⟨fun _ => by simp [initial], fun t ht => absurd (hpoint t).1 ht⟩
  · intro t
    rw [(hpoint t).2.1]
    exact iff_of_false List.not_mem_nil Bool.false_ne_true
  · intro t
    rw [(hpoint t).2.2]
    exact iff_of_false Bool.false_ne_true (fun hin => Bool.false_ne_true hin.1)

end ClhInv

/-- **The CLH lock refines a mutex with a queue**: every reachable state represents
    a reachable state of the mutex. -/
theorem clh_refines {num_thread num_work : ℕ} {s : ClhState}
    (h : Reachable (clh num_thread num_work) s) :
    ∃ a front, Reachable FifoMutex.mutex a ∧ ClhInv a front s := by
  apply h.invariant
  · intro s hinit
    obtain ⟨x, -, rfl⟩ := hinit
    exact ⟨_, _, Reachable.init rfl, ClhInv.initially num_thread num_work x⟩
  · intro s l s' _ hinv hstep
    obtain ⟨a, front, ha, hinv⟩ := hinv
    cases l with
    | thread tid fresh =>
      obtain ⟨a', front', hnext, hinv'⟩ := hinv.run ha hstep
      refine ⟨a', front', ?_, hinv'⟩
      rcases hnext with rfl | ⟨l, hl⟩
      · exact ha
      · exact ha.step hl
    | main =>
      obtain ⟨-, hall, -, rfl⟩ := hstep
      exact ⟨a, front, ha, hinv.finish hall⟩

/-- **Safety of the CLH lock**: at most one thread is between the return of `lock`
    and its release store, threads enter in the order of their swaps, and every
    node that is read, written, freed or taken out of `*tail` is allocated; the last
    one is still allocated when `main` frees it. -/
theorem clh_lock_safe {num_thread num_work : ℕ} {s : ClhState}
    (h : Reachable (clh num_thread num_work) s) :
    (∀ t u, (s.thread t).point.inside = true → (s.thread u).point.inside = true → t = u) ∧
    s.entered <+: s.swaps ∧
    (∀ t, ∀ x ∈ s.uses t, s.mem x ≠ none) ∧
    (s.printed = none → s.mem s.tail ≠ none) := by
  obtain ⟨a, front, ha, hinv⟩ := clh_refines h
  have horder : s.entered <+: s.swaps := by
    rw [← hinv.queue.swaps, ← hinv.queue.entered]
    exact FifoMutex.enters_in_order ha
  exact ⟨fun t u ht hu => hinv.exclusive ht hu, horder, fun t => hinv.uses_allocated,
    hinv.tail_allocated⟩

/-- The steps of the threads as a function. -/
def ClhState.next (num_work : ℕ) (s : ClhState) (l : Label) : Option ClhState :=
  match l with
  | .thread tid fresh => s.run num_work tid fresh
  | .main => none

theorem step_of_next {num_thread num_work : ℕ} {s s' : ClhState} {l : Label}
    (h : s.next num_work l = some s') : (clh num_thread num_work).step s l s' := by
  cases l with
  | thread tid fresh => exact h
  | main => cases h

/-- Thread 0 has freed the node 1; thread 1 gets it again and spins on the node 2
    of thread 0. -/
theorem clh_lock_safe_reused :
    ∃ s, Reachable (clh 2 1) s ∧ s.entered = [0] ∧ (s.thread 1).my_node = 1 ∧
      (s.thread 1).point = .spin ∧ (s.thread 1).point.inside = false ∧ s.entered <+: s.swaps ∧
      s.mem (s.thread 1).my_pred ≠ none := by
  have hinit : (clh 2 1).init (initial 2 1 1) := ⟨1, by decide, rfl⟩
  obtain ⟨s, hreach, hs⟩ := Reachable.exec_any (fun _ _ _ => step_of_next) hinit
    (List.replicate 7 (.thread 0 2) ++ List.replicate 4 (.thread 1 1))
    (fun s => s.entered = [0] ∧ s.thread 1 = ⟨1, 2, 0, .spin⟩) (by decide +kernel)
  obtain ⟨hentered, hthread⟩ := of_decide_eq_true hs
  obtain ⟨-, horder, huses, -⟩ := clh_lock_safe hreach
  have hspin := huses 1 (s.thread 1).my_pred (by simp [ClhState.uses, hthread])
  exact ⟨s, hreach, hentered, by rw [hthread], by rw [hthread], by rw [hthread]; rfl, horder, hspin⟩

/-! ## Section 2: No increment is lost -/

/-- How many increments of `cnt_global` a thread has stored. -/
def Thread.stored (th : Thread) : ℕ :=
  match th.point with
  | .free_pred => th.i + 1
  | .clear_pred => th.i + 1
  | .release => th.i + 1
  | _ => th.i

/-- `cnt_global` is the number of stored increments, as an `int`. -/
structure CountInv (num_thread num_work : ℕ) (s : ClhState) : Prop where
  count   : s.cnt_global =
    BitVec.ofNat 32 (∑ t ∈ Finset.range num_thread, (s.thread t).stored)
  loaded  : ∀ t c, (s.thread t).point = .store_count c → c = s.cnt_global
  round   : ∀ t, (s.thread t).point ≠ .returned → t < num_thread ∧ (s.thread t).i < num_work
  ended   : ∀ t, t < num_thread → (s.thread t).point = .returned → (s.thread t).i = num_work
  printed : ∀ v, s.printed = some v → v = BitVec.ofNat 32 (num_thread * num_work)

namespace CountInv

variable {num_thread num_work : ℕ} {s s' : ClhState} {t fresh : ℕ}

/-- Only the rounds of thread `t` have changed. -/
theorem of_thread (h : CountInv num_thread num_work s) {th : Thread}
    (hthread : s'.thread = Function.update s.thread t th) (hprinted : s'.printed = s.printed)
    (hcount : s'.cnt_global =
      BitVec.ofNat 32 (∑ u ∈ Finset.range num_thread, (s'.thread u).stored))
    (hloaded : ∀ u c, (s'.thread u).point = .store_count c → c = s'.cnt_global)
    (hround : th.point ≠ .returned → t < num_thread ∧ th.i < num_work)
    (hended : th.point = .returned → th.i = num_work) : CountInv num_thread num_work s' where
  count := hcount
  loaded := hloaded
  round := by
    intro u hu
    by_cases hut : u = t
    · rw [hut, thread_self hthread] at hu ⊢
      exact hround hu
    · rw [thread_other hthread u hut] at hu ⊢
      exact h.round u hu
  ended := by
    intro u hlt hu
    by_cases hut : u = t
    · rw [hut, thread_self hthread] at hu ⊢
      exact hended hu
    · rw [thread_other hthread u hut] at hu ⊢
      exact h.ended u hlt hu
  printed := fun v hv => h.printed v (hprinted ▸ hv)

/-- A step that stores no increment. -/
theorem keep (h : CountInv num_thread num_work s) {th : Thread}
    (hthread : s'.thread = Function.update s.thread t th) (hcount : s'.cnt_global = s.cnt_global)
    (hprinted : s'.printed = s.printed) (hstored : th.stored = (s.thread t).stored)
    (hloaded : ∀ c, th.point = .store_count c → c = s.cnt_global)
    (hround : th.point ≠ .returned → t < num_thread ∧ th.i < num_work)
    (hended : th.point = .returned → th.i = num_work) : CountInv num_thread num_work s' := by
  refine h.of_thread hthread hprinted ?_ ?_ hround hended
  · rw [hcount, h.count]
    congr 1
    exact Finset.sum_congr rfl fun u _ => (field_update Thread.stored hthread hstored u).symm
  · intro u c hu
    rw [hcount]
    by_cases hut : u = t
    · rw [hut, thread_self hthread] at hu
      exact hloaded c hu
    · rw [thread_other hthread u hut] at hu
      exact h.loaded u c hu

/-- The same inside a round. -/
theorem keep_round (h : CountInv num_thread num_work s) {th : Thread}
    (hthread : s'.thread = Function.update s.thread t th) (hcount : s'.cnt_global = s.cnt_global)
    (hprinted : s'.printed = s.printed) (hstored : th.stored = (s.thread t).stored)
    (hloaded : ∀ c, th.point = .store_count c → c = s.cnt_global)
    (hi : th.i = (s.thread t).i) (hold : (s.thread t).point ≠ .returned)
    (hnew : th.point ≠ .returned) : CountInv num_thread num_work s' := by
  refine h.keep hthread hcount hprinted hstored hloaded (fun _ => ?_) (fun hret => absurd hret hnew)
  rw [hi]
  exact h.round t hold

/-- The thread that stores is alone inside, so it adds one to what it has loaded. -/
theorem store (h : CountInv num_thread num_work s) {c : BitVec 32}
    (hp : (s.thread t).point = .store_count c)
    (halone : ∀ u, (s.thread u).point.inside = true → u = t)
    (hrun : s.run num_work t fresh = some s') : CountInv num_thread num_work s' := by
  simp only [ClhState.run, hp, Option.some.injEq] at hrun
  subst hrun
  obtain ⟨ht, hi⟩ := h.round t (by rw [hp]; simp)
  have hmem : t ∈ Finset.range num_thread := Finset.mem_range.mpr ht
  refine h.of_thread rfl rfl ?_ ?_ (fun _ => ⟨ht, hi⟩) nofun
  · show c + 1 = BitVec.ofNat 32 (∑ u ∈ Finset.range num_thread,
      (Function.update s.thread t { s.thread t with point := .free_pred } u).stored)
    have hrest : ∑ u ∈ (Finset.range num_thread).erase t,
        (Function.update s.thread t { s.thread t with point := .free_pred } u).stored =
        ∑ u ∈ (Finset.range num_thread).erase t, (s.thread u).stored := by
      refine Finset.sum_congr rfl fun u hu => ?_
      rw [Function.update_of_ne (Finset.ne_of_mem_erase hu)]
    have hown : (s.thread t).stored = (s.thread t).i := by simp only [Thread.stored, hp]
    -- The sum grows by the increment of `t`; nobody else is between load and store.
    rw [h.loaded t c hp, h.count, ← Finset.add_sum_erase _ _ hmem, ← Finset.add_sum_erase _ _ hmem,
      hrest, Function.update_self, hown]
    show _ = BitVec.ofNat 32 ((s.thread t).i + 1 + _)
    rw [Nat.add_right_comm]
    exact (BitVec.ofNat_add _ 1).symm
  · intro u c' hu
    change (Function.update s.thread t { s.thread t with point := .free_pred } u).point = _ at hu
    by_cases hut : u = t
    · rw [hut, Function.update_self] at hu
      cases hu
    · rw [Function.update_of_ne hut] at hu
      exact absurd (halone u (by rw [hu]; rfl)) hut

theorem release (h : CountInv num_thread num_work s) (hp : (s.thread t).point = .release)
    (hrun : s.run num_work t fresh = some s') : CountInv num_thread num_work s' := by
  simp only [ClhState.run, hp, ClhState.write, Option.map_eq_some_iff] at hrun
  obtain ⟨_, ⟨_, -, rfl⟩, rfl⟩ := hrun
  obtain ⟨ht, hi⟩ := h.round t (by rw [hp]; simp)
  by_cases hlast : (s.thread t).i + 1 < num_work
  · simp only [loop_point, if_pos hlast]
    exact h.keep rfl rfl rfl (by simp only [Thread.stored, hp]) nofun (fun _ => ⟨ht, hlast⟩) nofun
  · simp only [loop_point, if_neg hlast]
    refine h.keep rfl rfl rfl (by simp only [Thread.stored, hp]) nofun
      (fun hne => absurd rfl hne) (fun _ => ?_)
    exact Nat.le_antisymm hi (Nat.le_of_not_lt hlast)

theorem run (h : CountInv num_thread num_work s)
    (hexcl : ∀ u, (s.thread t).point.inside = true → (s.thread u).point.inside = true → u = t)
    (hrun : s.run num_work t fresh = some s') : CountInv num_thread num_work s' := by
  cases hp : (s.thread t).point with
  | calloc =>
    simp only [ClhState.run, hp, Option.ite_none_right_eq_some, Option.some.injEq] at hrun
    obtain ⟨-, rfl⟩ := hrun
    exact h.keep_round rfl rfl rfl (by simp only [Thread.stored, hp]) nofun rfl (by simp [hp])
      nofun
  | set_true =>
    simp only [ClhState.run, hp, ClhState.write, Option.map_eq_some_iff] at hrun
    obtain ⟨_, ⟨_, -, rfl⟩, rfl⟩ := hrun
    exact h.keep_round rfl rfl rfl (by simp only [Thread.stored, hp]) nofun rfl (by simp [hp])
      nofun
  | swap =>
    simp only [ClhState.run, hp, Option.some.injEq] at hrun
    subst hrun
    exact h.keep_round rfl rfl rfl (by simp only [Thread.stored, hp]) nofun rfl (by simp [hp])
      nofun
  | spin =>
    simp only [ClhState.run, hp, Option.map_eq_some_iff] at hrun
    obtain ⟨value, -, hrun⟩ := hrun
    cases value with
    | true =>
      cases hrun
      exact h
    | false =>
      cases hrun
      exact h.keep_round rfl rfl rfl (by simp only [Thread.stored, hp]) nofun rfl (by simp [hp])
        nofun
  | load_count =>
    simp only [ClhState.run, hp, Option.some.injEq] at hrun
    subst hrun
    refine h.keep_round rfl rfl rfl (by simp only [Thread.stored, hp]) ?_ rfl (by simp [hp]) nofun
    intro c hc
    exact (Point.store_count.inj hc).symm
  | store_count c => exact h.store hp (fun u hu => hexcl u (by rw [hp]; rfl) hu) hrun
  | free_pred =>
    simp only [ClhState.run, hp, Option.map_eq_some_iff] at hrun
    obtain ⟨_, -, rfl⟩ := hrun
    exact h.keep_round rfl rfl rfl (by simp only [Thread.stored, hp]) nofun rfl (by simp [hp])
      nofun
  | clear_pred =>
    simp only [ClhState.run, hp, Option.some.injEq] at hrun
    subst hrun
    exact h.keep_round rfl rfl rfl (by simp only [Thread.stored, hp]) nofun rfl (by simp [hp])
      nofun
  | release => exact h.release hp hrun
  | returned => simp [ClhState.run, hp] at hrun

/-- When all threads have returned, every one has stored `num_work` increments. -/
theorem finish (h : CountInv num_thread num_work s)
    (hall : ∀ t, (s.thread t).point = .returned) : CountInv num_thread num_work s.finish where
  count := h.count
  loaded := h.loaded
  round := h.round
  ended := h.ended
  printed := by
    intro v hv
    have hv' : v = s.cnt_global := (Option.some.inj hv).symm
    have hstored : ∀ t ∈ Finset.range num_thread, (s.thread t).stored = num_work := by
      intro t ht
      rw [← h.ended t (Finset.mem_range.mp ht) (hall t), Thread.stored, hall t]
    rw [hv', h.count, Finset.sum_const_nat hstored, Finset.card_range]

theorem initially (num_thread num_work x : ℕ) :
    CountInv num_thread num_work (initial num_thread num_work x) := by
  have hstored : ∀ t, ((initial num_thread num_work x).thread t).stored = 0 := by
    intro t
    simp only [initial, loop_point, Thread.stored]
    split <;> rename_i hpt <;> split at hpt <;> (try split at hpt) <;> first | rfl | cases hpt
  refine ⟨?_, ?_, ?_, ?_, nofun⟩
  · rw [Finset.sum_congr rfl fun t _ => hstored t, Finset.sum_const_zero]
    rfl
  · intro t c hc
    simp only [initial, loop_point] at hc
    split at hc <;> (try split at hc) <;> cases hc
  · intro t ht
    simp only [initial, loop_point] at ht ⊢
    split at ht
    · next hlt =>
      split at ht
      · next hwork => exact ⟨hlt, hwork⟩
      · exact absurd rfl ht
    · exact absurd rfl ht
  · intro t hlt ht
    simp only [initial, loop_point, if_pos hlt] at ht ⊢
    split at ht
    · cases ht
    · next hwork => exact (Nat.eq_zero_of_not_pos hwork).symm

end CountInv

/-- **No increment is lost**: `main` prints the number of all increments. -/
theorem clh_count_printed {num_thread num_work : ℕ} {s : ClhState}
    (h : Reachable (clh num_thread num_work) s) {v : BitVec 32} (hv : s.printed = some v) :
    v = BitVec.ofNat 32 (num_thread * num_work) := by
  have hinv : CountInv num_thread num_work s := by
    apply h.invariant
    · intro s hinit
      obtain ⟨x, -, rfl⟩ := hinit
      exact CountInv.initially num_thread num_work x
    · intro s l s' hreach hcount hstep
      cases l with
      | thread tid fresh =>
        obtain ⟨a, front, -, hclh⟩ := clh_refines hreach
        exact hcount.run (fun u ht hu => hclh.exclusive hu ht) hstep
      | main =>
        obtain ⟨-, hall, -, rfl⟩ := hstep
        exact hcount.finish hall
  exact hinv.printed v hv

end Lab10
