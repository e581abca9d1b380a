import ConcurrentProgramming.Lab11.CoarseSteps

/-! # Properties of the Coarse-Grained List

    A call that is alone gets through (`call_finishes`).  So the threads can
    execute their work one after another, in any order, and the list that they
    leave is the same as in every other run (`coarse_list_schedule_independent`),
    as long as no key is used by two threads.
-/

namespace Lab11.Coarse

open LTS Threads Sequential Relation ListState

/-! ## Section 1: A call that is alone -/

/-- How the threads execute their calls. -/
def list_calls : Calls ListState Call where
  thread := ListState.thread
  ended := fun c => ∃ r, c.point = .finished r
  run := ListState.run

/-- A step inside a call leaves the other threads, the work and the results alone. -/
theorem run_frame {s s' : ListState} {p fresh : ℕ} {c : Call} (hended : ¬ list_calls.ended c)
    (hrun : s.run p c fresh = some s') :
    ∃ h m c', s' = ⟨h, m, Function.update s.thread p (some c'), s.i, s.returned⟩ := by
  cases hc : c.point <;> simp only [ListState.run, hc, Option.map_eq_some_iff,
    Option.ite_none_right_eq_some, Option.some.injEq] at hrun
  case finished r => exact absurd ⟨r, hc⟩ hended
  case lock =>
    obtain ⟨-, rfl⟩ := hrun
    exact ⟨_, _, _, rfl⟩
  case unlock =>
    obtain ⟨-, rfl⟩ := hrun
    exact ⟨_, _, _, rfl⟩
  all_goals
    obtain ⟨_, -, rfl⟩ := hrun
    exact ⟨_, _, _, rfl⟩

theorem list_calls_frames : list_calls.Frames := by
  intro s p c fresh s' hended hrun
  obtain ⟨_, _, c', rfl⟩ := run_frame hended hrun
  exact ⟨c', rfl⟩

namespace CoarseInv

variable {l l' : List ℕ} {D D' : List Effect} {started : ℕ → List Operation} {s s' : ListState}
  {p q : ℕ} {c : Call} {op : Operation}

/-- Only a call that waits for the mutex cannot go on. -/
theorem enabled (h : CoarseInv l D started s) (hp : s.thread p = some c)
    (hmutex : s.mutex = none ∨ c.point.inside = true) : ∃ fresh s', s.run p c fresh = some s' := by
  have hok := h.thread p c hp
  have hmem : ∀ a ∈ nodes l, ∃ n, s.heap a = some n := fun a ha =>
    Option.ne_none_iff_exists'.mp (h.allocated a ha)
  cases hc : c.point with
  | malloc =>
    obtain ⟨N, hN⟩ := h.bounded
    exact ⟨N, by simp [ListState.run, hc, Heap.malloc, hN N (le_refl N)]⟩
  | lock =>
    have hfree : s.mutex = none := by
      rcases hmutex with hnone | hin
      · exact hnone
      · simp [hc, Point.inside] at hin
    exact ⟨0, by simp [ListState.run, hc, hfree]⟩
  | load_first =>
    have hl := h.linked_of hp hmutex (by simp [hc])
    obtain ⟨next, B, -, hnext⟩ := next_node hl (A := []) (B := l ++ [tail]) rfl (by decide)
    exact ⟨0, by simp [ListState.run, hc, hnext]⟩
  | test prev curr =>
    rw [point_ok, hc] at hok
    obtain ⟨A, B, hsplit, -⟩ := hok
    obtain ⟨n, hn⟩ := hmem curr (by simp [hsplit])
    exact ⟨0, by simp [ListState.run, hc, hn]⟩
  | advance curr =>
    have hl := h.linked_of hp hmutex (by simp [hc])
    rw [point_ok, hc] at hok
    obtain ⟨A, B, hsplit, hbelow⟩ := hok
    obtain ⟨next, -, -, hnext⟩ := next_node hl hsplit (h.ne_tail hp hbelow)
    exact ⟨0, by simp [ListState.run, hc, hnext]⟩
  | link prev curr =>
    rw [point_ok, hc] at hok
    obtain ⟨-, ⟨A, B, hsplit, -⟩, -⟩ := hok
    obtain ⟨h', hstore⟩ : ∃ h', s.heap.store_next prev (some c.node) = some h' :=
      Heap.store_next_eq_some (h.allocated prev (by simp [hsplit]))
    exact ⟨0, by simp [ListState.run, hc, hstore]⟩
  | set_next prev curr =>
    rw [point_ok, hc] at hok
    obtain ⟨⟨k, hk⟩, -⟩ := hok
    have howner : c.owned = some c.node := by simp [Call.owned, hk, hc]
    obtain ⟨h', hstore⟩ : ∃ h', s.heap.store_next c.node (some curr) = some h' :=
      Heap.store_next_eq_some (h.owned p c c.node hp howner).2.1
    exact ⟨0, by simp [ListState.run, hc, hstore]⟩
  | check prev curr =>
    rw [point_ok, hc] at hok
    obtain ⟨-, ⟨A, B, hsplit, -⟩, -⟩ := hok
    obtain ⟨n, hn⟩ := hmem curr (by simp [hsplit])
    exact ⟨0, by simp [ListState.run, hc, hn]⟩
  | load_next prev curr =>
    rw [point_ok, hc] at hok
    obtain ⟨-, ⟨A, B, hsplit, -⟩, -⟩ := hok
    obtain ⟨n, hn⟩ := hmem curr (by simp [hsplit])
    exact ⟨0, by simp [ListState.run, hc, hn]⟩
  | unlink prev curr next =>
    rw [point_ok, hc] at hok
    obtain ⟨-, ⟨A, B, hsplit, -⟩, -⟩ := hok
    obtain ⟨h', hstore⟩ : ∃ h', s.heap.store_next prev next = some h' :=
      Heap.store_next_eq_some (h.allocated prev (by simp [hsplit]))
    exact ⟨0, by simp [ListState.run, hc, hstore]⟩
  | unlock garbage r =>
    have hheld := h.mutex_eq hp (by rw [hc]; rfl)
    exact ⟨0, by simp [ListState.run, hc, hheld]⟩
  | free a r =>
    have howner : c.owned = some a := by
      unfold Call.owned
      cases c.op <;> simp [hc]
    obtain ⟨n, hn⟩ := Option.ne_none_iff_exists'.mp (h.owned p c a hp howner).2.1
    exact ⟨0, by simp [ListState.run, hc, Heap.free, hn]⟩
  | finished r => exact ⟨0, by simp [ListState.run, hc]⟩

/-- A call that is alone does not wait. -/
theorem enabled_alone (h : CoarseInv l D started s) (halone : list_calls.Alone p s)
    (hp : s.thread p = some c) : ∃ fresh s', s.run p c fresh = some s' := by
  apply h.enabled hp
  cases hm : s.mutex with
  | none => exact .inl rfl
  | some q =>
    obtain ⟨cq, hq, hin⟩ := (h.locks () q).mp hm
    by_cases hqp : q = p
    · subst hqp
      rw [hp, Option.some.injEq] at hq
      subst hq
      unfold Call.holds at hin
      cases hc : c.point.inside with
      | true => exact .inr rfl
      | false => simp [hc] at hin
    · have hnone : s.thread q = none := halone q hqp
      rw [hnone] at hq
      cases hq

/-- **A call that is alone finishes.** -/
theorem call_finishes (h : CoarseInv l D started s) (halone : list_calls.Alone p s)
    (hp : s.thread p = some c) :
    ∃ s', ReflTransGen (list_calls.step p) s s' ∧
      ∃ c', s'.thread p = some c' ∧ ∃ r, c'.point = .finished r := by
  refine Calls.finishes list_calls_frames
    (fun n s c => ∃ l D, CoarseInv l D started s ∧ steps_left l c = n) ?_
    ⟨l, D, h, rfl⟩ halone hp
  intro n s c hs halone hp _
  obtain ⟨l, D, h, rfl⟩ := hs
  obtain ⟨fresh, s', hrun⟩ := h.enabled_alone halone hp
  obtain ⟨l', D', hinv, hless⟩ := h.run hp hrun
  exact ⟨fresh, s', hrun, fun c' hp' => ⟨_, hless c' hp', l', D', hinv, rfl⟩⟩

end CoarseInv

/-! ## Section 2: The threads with their work -/

section Work

variable {n : ℕ} {thread_work : ℕ → List Operation} {s s' : ListState} {p : ℕ}

/-- What has been called so far is a part of the work. -/
def work_inv (n : ℕ) (thread_work : ℕ → List Operation) (s : ListState) : Prop :=
  (∃ l D, CoarseInv l D (fun p => (thread_work p).take (s.i p)) s) ∧
    ∀ p, s.i p ≤ (thread_work p).length ∧ (n ≤ p → s.i p = 0)

theorem work_inv_step (hrange : ∀ p < n, ∀ op ∈ thread_work p, op.in_range) {label : ℕ × ThreadStep}
    (h : work_inv n thread_work s) (hstep : (list_threads n thread_work).step s label s') :
    work_inv n thread_work s' := by
  obtain ⟨p, label⟩ := label
  obtain ⟨⟨l, D, hinv⟩, hi⟩ := h
  cases label with
  | call =>
    obtain ⟨hpn, hp, op, hop, rfl⟩ := hstep
    have hmem : op ∈ thread_work p := List.mem_of_getElem? hop
    refine ⟨⟨l, D, ?_⟩, fun q => ?_⟩
    · have hstart := hinv.start hp (hrange p hpn op hmem)
      have htake : Function.update (fun q => (thread_work q).take (s.i q)) p
          ((thread_work p).take (s.i p) ++ [op]) =
          fun q => (thread_work q).take ((s.start p op).i q) := by
        funext q
        change _ = (thread_work q).take (Function.update s.i p (s.i p + 1) q)
        by_cases hq : q = p
        · subst hq
          rw [Function.update_self, Function.update_self, List.take_add_one, hop]
          rfl
        · rw [Function.update_of_ne hq, Function.update_of_ne hq]
      rwa [htake] at hstart
    · change Function.update s.i p (s.i p + 1) q ≤ _ ∧ (_ → Function.update s.i p (s.i p + 1) q = 0)
      by_cases hq : q = p
      · subst hq
        rw [Function.update_self]
        exact ⟨(List.getElem?_eq_some_iff.mp hop).1, fun hle => by omega⟩
      · rw [Function.update_of_ne hq]
        exact hi q
  | run fresh =>
    obtain ⟨c, hp, hrun⟩ := hstep
    obtain ⟨l', D', hinv', -⟩ := hinv.run hp hrun
    have hsame : s'.i = s.i := by
      by_cases hfin : ∃ r, c.point = .finished r
      · obtain ⟨r, hr⟩ := hfin
        simp only [ListState.run, hr, Option.some.injEq] at hrun
        subst hrun
        rfl
      · obtain ⟨_, _, _, rfl⟩ := run_frame hfin hrun
        rfl
    unfold work_inv
    rw [hsame]
    exact ⟨⟨l', D', hinv'⟩, hi⟩

theorem work_inv_of_reachable (hrange : ∀ p < n, ∀ op ∈ thread_work p, op.in_range)
    (h : Reachable (list_threads n thread_work) s) : work_inv n thread_work s := by
  refine h.invariant (fun s hs => ?_) fun s l s' _ hinv hstep => work_inv_step hrange hinv hstep
  subst hs
  refine ⟨⟨[], [], ?_⟩, fun p => ⟨Nat.zero_le _, fun _ => rfl⟩⟩
  have hstarted : (fun p => (thread_work p).take (initial.i p)) = fun _ => [] := by
    funext p
    exact List.take_zero
  rw [hstarted]
  exact CoarseInv.initially

/-- When all threads have finished, the operations have taken effect in some
    order in which every thread appears with its own order. -/
theorem work_inv.finished (h : work_inv n thread_work s) (hfin : s.finished n thread_work) :
    ∃ order : List (ℕ × Operation),
      (∀ q, (order.filter (·.1 = q)).map Prod.snd = if q < n then thread_work q else []) ∧
      key_sequence s.heap (final keep_all [] (order.map Prod.snd)) := by
  obtain ⟨⟨l, D, hinv⟩, hi⟩ := h
  have hidle : ∀ q, (D.filter (·.thread = q)).map Effect.op =
      (if q < n then thread_work q else []) ∧ pending (s.thread q) = [] := by
    intro q
    have horder := hinv.order q
    split
    · next hq =>
      rw [(hfin q hq).1, (hfin q hq).2, List.take_length] at horder
      rw [(hfin q hq).1]
      rw [pending, List.append_nil] at horder
      exact ⟨horder, rfl⟩
    · next hq =>
      rw [(hi q).2 (Nat.not_lt.mp hq), List.take_zero] at horder
      exact List.append_eq_nil_iff.mp horder
  have hl : linked s.heap (nodes l) := by
    rcases hinv.chain with hl | ⟨q, cq, prev, curr, hq, hcq⟩
    · exact hl
    · have hpending := (hidle q).2
      rw [hq, pending, hcq] at hpending
      cases hpending
  refine ⟨D.map fun e => (e.thread, e.op), fun q => ?_, ?_⟩
  · rw [← (hidle q).1, List.filter_map, List.map_map]
    rfl
  · rw [List.map_map]
    have hkeys := key_sequence_of_linked hinv.nodup hl
    rw [hinv.keys] at hkeys
    exact hkeys

/-! ## Section 3: One thread after another -/

/-- A step of thread `p`. -/
def thread_moves (n : ℕ) (thread_work : ℕ → List Operation) (p : ℕ) (s s' : ListState) : Prop :=
  ∃ l, (list_threads n thread_work).step s (p, l) s'

/-- The threads execute their work one after another, in the given order. -/
inductive InTurn (n : ℕ) (thread_work : ℕ → List Operation) :
    List ℕ → ListState → ListState → Prop where
  | nil {s : ListState} : InTurn n thread_work [] s s
  | cons {p : ℕ} {order : List ℕ} {s s₁ s₂ : ListState} :
      ReflTransGen (thread_moves n thread_work p) s s₁ →
      s₁.thread p = none → s₁.i p = (thread_work p).length →
      InTurn n thread_work order s₁ s₂ → InTurn n thread_work (p :: order) s s₂

theorem thread_moves.reachable (h : Reachable (list_threads n thread_work) s)
    (hsteps : ReflTransGen (thread_moves n thread_work p) s s') :
    Reachable (list_threads n thread_work) s' := by
  induction hsteps with
  | refl => exact h
  | tail _ hstep ih =>
    obtain ⟨l, hl⟩ := hstep
    exact ih.step hl

/-- A step of one thread leaves the others where they are. -/
theorem thread_moves.frame (hstep : thread_moves n thread_work p s s') {q : ℕ} (hq : q ≠ p) :
    s'.thread q = s.thread q ∧ s'.i q = s.i q := by
  obtain ⟨l, hl⟩ := hstep
  cases l with
  | call =>
    obtain ⟨-, -, op, -, rfl⟩ := hl
    exact ⟨Function.update_of_ne hq _ _, Function.update_of_ne hq _ _⟩
  | run fresh =>
    obtain ⟨c, hp, hrun⟩ := hl
    by_cases hfin : ∃ r, c.point = .finished r
    · obtain ⟨r, hr⟩ := hfin
      simp only [ListState.run, hr, Option.some.injEq] at hrun
      subst hrun
      exact ⟨Function.update_of_ne hq _ _, rfl⟩
    · obtain ⟨_, _, _, rfl⟩ := run_frame hfin hrun
      exact ⟨Function.update_of_ne hq _ _, rfl⟩

theorem thread_moves.frame_all (hsteps : ReflTransGen (thread_moves n thread_work p) s s') {q : ℕ}
    (hq : q ≠ p) : s'.thread q = s.thread q ∧ s'.i q = s.i q := by
  induction hsteps with
  | refl => exact ⟨rfl, rfl⟩
  | tail _ hstep ih =>
    obtain ⟨hthread, hi⟩ := thread_moves.frame hstep hq
    exact ⟨hthread.trans ih.1, hi.trans ih.2⟩

/-- Threads that run one after another are a run of the system. -/
theorem InTurn.reachable {order : List ℕ} (hturn : InTurn n thread_work order s s')
    (h : Reachable (list_threads n thread_work) s) : Reachable (list_threads n thread_work) s' := by
  induction hturn with
  | nil => exact h
  | cons hsteps _ _ _ ih => exact ih (thread_moves.reachable h hsteps)

/-- A thread that does not get its turn stays where it is. -/
theorem InTurn.frame {order : List ℕ} (hturn : InTurn n thread_work order s s') {q : ℕ}
    (hq : q ∉ order) : s'.thread q = s.thread q ∧ s'.i q = s.i q := by
  induction hturn with
  | nil => exact ⟨rfl, rfl⟩
  | cons hsteps _ _ _ ih =>
    rw [List.mem_cons, not_or] at hq
    obtain ⟨hne, hq⟩ := hq
    obtain ⟨hthread, hi⟩ := ih hq
    obtain ⟨hthread', hi'⟩ := thread_moves.frame_all hsteps hne
    exact ⟨hthread.trans hthread', hi.trans hi'⟩

/-- The threads of the order have executed all their work. -/
theorem InTurn.done {order : List ℕ} (hturn : InTurn n thread_work order s s')
    (hnodup : order.Nodup) {q : ℕ} (hq : q ∈ order) :
    s'.thread q = none ∧ s'.i q = (thread_work q).length := by
  induction hturn with
  | nil => cases hq
  | cons _ hthread hi hrest ih =>
    obtain ⟨hnot, hnodup⟩ := List.nodup_cons.mp hnodup
    rcases List.mem_cons.mp hq with rfl | hq
    · obtain ⟨hthread', hi'⟩ := hrest.frame hnot
      exact ⟨hthread'.trans hthread, hi'.trans hi⟩
    · exact ih hnodup hq

theorem moves_of_steps (n : ℕ) (thread_work : ℕ → List Operation)
    (hsteps : ReflTransGen (list_calls.step p) s s') :
    ReflTransGen (thread_moves n thread_work p) s s' ∧ s'.i = s.i := by
  induction hsteps with
  | refl => exact ⟨.refl, rfl⟩
  | tail _ hstep ih =>
    obtain ⟨c, fresh, hp, hended, hrun⟩ := hstep
    refine ⟨ih.1.tail ⟨.run fresh, c, hp, hrun⟩, ?_⟩
    obtain ⟨_, _, _, rfl⟩ := run_frame hended hrun
    exact ih.2

/-- A thread that is alone executes its next operation. -/
theorem operation_finishes (hrange : ∀ p < n, ∀ op ∈ thread_work p, op.in_range) (hpn : p < n)
    (h : Reachable (list_threads n thread_work) s) (hidle : ∀ q, s.thread q = none)
    (hlt : s.i p < (thread_work p).length) :
    ∃ s', ReflTransGen (thread_moves n thread_work p) s s' ∧ (∀ q, s'.thread q = none) ∧
      s'.i p = s.i p + 1 := by
  obtain ⟨op, hop⟩ : ∃ op, (thread_work p)[s.i p]? = some op :=
    ⟨_, List.getElem?_eq_getElem hlt⟩
  have hcall : (list_threads n thread_work).step s (p, .call) (s.start p op) :=
    ⟨hpn, hidle p, op, hop, rfl⟩
  have hreach := h.step hcall
  obtain ⟨⟨l, D, hinv⟩, -⟩ := work_inv_of_reachable hrange hreach
  have halone : list_calls.Alone p (s.start p op) := Calls.alone_of_idle hidle rfl
  obtain ⟨s₁, hsteps, c, hp, r, hc⟩ := hinv.call_finishes halone (Function.update_self _ _ _)
  obtain ⟨hmoves, hi⟩ := moves_of_steps n thread_work hsteps
  have hreturn : thread_moves n thread_work p s₁ (s₁.return_call p r) :=
    ⟨.run 0, c, hp, by rw [ListState.run, hc]⟩
  refine ⟨s₁.return_call p r, .head ⟨.call, hcall⟩ (hmoves.tail hreturn), fun q => ?_, ?_⟩
  · by_cases hq : q = p
    · rw [hq]
      exact Function.update_self _ _ _
    · have hq₁ := (thread_moves.frame_all hmoves hq).1
      exact (Function.update_of_ne hq _ _).trans (hq₁.trans (halone q hq))
  · change s₁.i p = _
    rw [hi]
    exact Function.update_self _ _ _

/-- A thread that is alone executes its work. -/
theorem work_finishes (hrange : ∀ p < n, ∀ op ∈ thread_work p, op.in_range) (hpn : p < n)
    (h : Reachable (list_threads n thread_work) s) (hidle : ∀ q, s.thread q = none) :
    ∃ s', ReflTransGen (thread_moves n thread_work p) s s' ∧ (∀ q, s'.thread q = none) ∧
      s'.i p = (thread_work p).length := by
  induction hm : (thread_work p).length - s.i p generalizing s with
  | zero =>
    have hle := ((work_inv_of_reachable hrange h).2 p).1
    exact ⟨s, .refl, hidle, by omega⟩
  | succ m ih =>
    obtain ⟨s₁, hsteps, hidle₁, hi⟩ := operation_finishes hrange hpn h hidle (by omega)
    obtain ⟨s', hsteps', hdone⟩ := ih (thread_moves.reachable h hsteps) hidle₁ (by omega)
    exact ⟨s', hsteps.trans hsteps', hdone⟩

/-- The threads can execute their work one after another. -/
theorem exists_in_turn (hrange : ∀ p < n, ∀ op ∈ thread_work p, op.in_range) {order : List ℕ}
    (horder : ∀ p ∈ order, p < n) (h : Reachable (list_threads n thread_work) s)
    (hidle : ∀ q, s.thread q = none) : ∃ s', InTurn n thread_work order s s' := by
  induction order generalizing s with
  | nil => exact ⟨s, .nil⟩
  | cons p order ih =>
    obtain ⟨s₁, hsteps, hidle₁, hi⟩ :=
      work_finishes hrange (horder p List.mem_cons_self) h hidle
    obtain ⟨s', hturn⟩ := ih (fun q hq => horder q (List.mem_cons_of_mem p hq))
      (thread_moves.reachable h hsteps) hidle₁
    exact ⟨s', .cons hsteps (hidle₁ p) hi hturn⟩

end Work

/-- **The final list does not depend on the schedule.**  If no key is used by two
    threads, all runs in which the threads finish leave the same sorted keys.
    The threads can also run one after another, in any order, and then leave these
    keys as well. -/
theorem coarse_list_schedule_independent (n : ℕ) (thread_work : ℕ → List Operation)
    (hrange : ∀ p < n, ∀ op ∈ thread_work p, op.in_range)
    (hdisjoint : ∀ p < n, ∀ q < n, p ≠ q → ∀ op ∈ thread_work p, ∀ op' ∈ thread_work q,
      op.key ≠ op'.key) :
    ∃ keys : List ℤ, keys.Pairwise (· ≤ ·) ∧
      (∀ s, Reachable (list_threads n thread_work) s → s.finished n thread_work →
        key_sequence s.heap keys) ∧
      ∀ order, order.Perm (List.range n) →
        (∃ s, InTurn n thread_work order initial s) ∧
        ∀ s, InTurn n thread_work order initial s →
          s.finished n thread_work ∧ key_sequence s.heap keys := by
  have hinit : Reachable (list_threads n thread_work) initial := .init rfl
  have hturn : ∀ order : List ℕ, order.Perm (List.range n) →
      (∃ s, InTurn n thread_work order initial s) ∧
      ∀ s, InTurn n thread_work order initial s → s.finished n thread_work := by
    intro order hperm
    constructor
    · exact exists_in_turn hrange (fun p hp => List.mem_range.mp (hperm.mem_iff.mp hp)) hinit
        fun _ => rfl
    · intro s hs p hp
      exact hs.done (hperm.nodup_iff.mpr List.nodup_range)
        (hperm.mem_iff.mpr (List.mem_range.mpr hp))
  -- The keys are those that the threads leave in the order of their numbers.
  obtain ⟨s₀, hs₀⟩ := (hturn _ (List.Perm.refl _)).1
  obtain ⟨order₀, hproj₀, -⟩ := (work_inv_of_reachable hrange (hs₀.reachable hinit)).finished
    ((hturn _ (List.Perm.refl _)).2 s₀ hs₀)
  have hdisjoint' : disjoint_keys fun q => if q < n then thread_work q else [] := by
    intro p q hne op hop op' hop'
    by_cases hp : p < n
    · by_cases hq : q < n
      · simp only [hp, hq, if_true] at hop hop'
        exact hdisjoint p hp q hq hne op hop op' hop'
      · simp [hq] at hop'
    · simp [hp] at hop
  have hkeys : ∀ s, Reachable (list_threads n thread_work) s → s.finished n thread_work →
      key_sequence s.heap (final keep_all [] (order₀.map Prod.snd)) := by
    intro s hs hfin
    obtain ⟨order, hproj, hseq⟩ := (work_inv_of_reachable hrange hs).finished hfin
    rwa [final_eq_of_projections hdisjoint' hproj hproj₀] at hseq
  refine ⟨_, final_sorted List.Pairwise.nil _, hkeys, fun order hperm => ?_⟩
  obtain ⟨hexists, hfinished⟩ := hturn order hperm
  exact ⟨hexists, fun s hs => ⟨hfinished s hs, hkeys s (hs.reachable hinit) (hfinished s hs)⟩⟩

/-- Two threads; the first one adds a key twice and removes it once. -/
def two_threads (p : ℕ) : List Operation :=
  if p = 0 then [.add 5, .add 5, .remove 5] else [.add 3]

theorem coarse_list_two_threads :
    ∃ keys : List ℤ, keys.Pairwise (· ≤ ·) ∧
      (∀ s, Reachable (list_threads 2 two_threads) s → s.finished 2 two_threads →
        key_sequence s.heap keys) ∧
      ∀ order, order.Perm (List.range 2) →
        (∃ s, InTurn 2 two_threads order initial s) ∧
        ∀ s, InTurn 2 two_threads order initial s →
          s.finished 2 two_threads ∧ key_sequence s.heap keys :=
  coarse_list_schedule_independent 2 two_threads (by decide) (by decide)

end Lab11.Coarse
