import ConcurrentProgramming.Project1.Handshake
import Mathlib.Algebra.Order.BigOperators.Group.Finset

/-! # The Handshake Does Not Get Stuck (`main.cc`, `trie.cc`)

    `main` waits for its workers in several places: it spins until a new worker is
    asleep and until the woken workers are asleep again, it needs their mutexes to
    signal them, and at the end it joins them.  In every run without spurious wake-ups
    there is a way on (`closer`): either `main` can go on, or the worker that it waits
    for can, and is closer to where `main` wants it.
-/

namespace Project1.Handshake

open LTS

/-! ## Section 1: The end of the program -/

/-- A worker that was woken up to end. -/
def WorkerPoint.leaving (pt : WorkerPoint) : Prop :=
  pt = .woken ∨ pt = .unlock ∨ pt = .test_finished ∨ pt = .terminated

/-- A worker in `pthread_cond_wait` or about to enter it. -/
def WorkerPoint.waiting (pt : WorkerPoint) : Prop := pt = .enter_wait ∨ pt = .asleep

/-- Which threads `main` deals with, and what the workers do at the end: those that
    were woken up leave, the others wait. -/
def MainPoint.in_order (finished : Bool) (worker : ℕ → WorkerPoint) : MainPoint → Prop
  | .create i | .await_new i => i < THREAD_NUM
  | .stop i => finished = true ∧ i ≤ THREAD_NUM ∧ ∀ t, t < THREAD_NUM →
      if t < i then (worker t).leaving else (worker t).waiting
  | .join i => finished = true ∧ i ≤ THREAD_NUM ∧ ∀ t, t < THREAD_NUM → (worker t).leaving
  | _ => True

structure State.InOrder (s : State) : Prop where
  main   : s.main.in_order s.finished s.worker
  unborn : ∀ t, THREAD_NUM ≤ t → s.worker t = .unborn

section Steps

variable {sort : StdSort} {s s' : State} {t : ℕ}

/-- What a step of a worker does to its point. -/
theorem worker_step_point (hstep : s.worker_step t = some s') :
    (∀ u, u ≠ t → s'.worker u = s.worker u) ∧
      ((s.worker t).waiting → (s'.worker t).waiting) ∧
      ((s.worker t).leaving → s.finished = true → (s'.worker t).leaving) := by
  unfold State.worker_step at hstep
  cases hw : s.worker t <;> rw [hw] at hstep <;> cases hstep <;>
    refine ⟨fun u hu => ?_, ?_, ?_⟩ <;>
    simp_all [State.set_worker, State.set_sleep, State.finish_scan,
      WorkerPoint.waiting, WorkerPoint.leaving]

theorem in_order_worker (h : s.InOrder) (hstep : s.worker_step t = some s') : s'.InOrder := by
  obtain ⟨hkeeps, hmain, -, -⟩ := worker_step_frame hstep
  obtain ⟨hother, hwaiting, hleaving⟩ := worker_step_point hstep
  have horder := h.main
  constructor
  · rw [hmain, hkeeps.finished]
    cases hm : s.main with
    | stop i =>
      rw [hm] at horder
      obtain ⟨hfinished, hi, hworkers⟩ := horder
      refine ⟨hfinished, hi, ?_⟩
      intro u hu
      have hok := hworkers u hu
      by_cases hut : u = t
      · subst hut
        by_cases hui : u < i
        · rw [if_pos hui] at hok ⊢
          exact hleaving hok hfinished
        · rw [if_neg hui] at hok ⊢
          exact hwaiting hok
      · rw [hother u hut]
        exact hok
    | join i =>
      rw [hm] at horder
      obtain ⟨hfinished, hi, hworkers⟩ := horder
      refine ⟨hfinished, hi, ?_⟩
      intro u hu
      by_cases hut : u = t
      · subst hut
        exact hleaving (hworkers u hu) hfinished
      · rw [hother u hut]
        exact hworkers u hu
    | _ =>
      rw [hm] at horder
      exact horder
  · intro u hu
    by_cases hut : u = t
    · -- A thread that was not created does not step.
      subst hut
      rw [State.worker_step, h.unborn u hu] at hstep
      cases hstep
    · rw [hother u hut]
      exact h.unborn u hu

/-- Signalling changes the point of one worker. -/
theorem wake_eq {i : ℕ} {pt : MainPoint} (hwake : s.wake i pt = some s') :
    (s.worker i).mutex_free = true ∧ s' = (s.set_worker i (s.worker i).signal).go pt := by
  unfold State.wake at hwake
  split at hwake
  · next hfree =>
    cases hwake
    exact ⟨hfree, rfl⟩
  · cases hwake

/-- A round of the loop that wakes all threads to end. -/
theorem in_order_stop {i : ℕ} (h : s.InOrder) (hm : s.main = .stop i)
    (hstep : s.main_step sort = some s') : s'.InOrder := by
  obtain ⟨hfinished, hi, hworkers⟩ : MainPoint.in_order s.finished s.worker (.stop i) :=
    hm ▸ h.main
  simp only [State.main_step, hm] at hstep
  split at hstep
  · next hlt =>
    obtain ⟨hfree, rfl⟩ := wake_eq hstep
    -- The mutex is free, so the worker is asleep.
    have hasleep : s.worker i = .asleep := by
      have hwaits := hworkers i hlt
      rw [if_neg (Nat.lt_irrefl i)] at hwaits
      rcases hwaits with hw | hw
      · rw [hw] at hfree
        cases hfree
      · exact hw
    refine ⟨⟨hfinished, hlt, ?_⟩, ?_⟩
    · intro t ht
      have hok := hworkers t ht
      show if t < i + 1 then (Function.update s.worker i _ t).leaving
        else (Function.update s.worker i _ t).waiting
      by_cases hti : t = i
      · subst hti
        rw [if_pos (Nat.lt_succ_self t), Function.update_self, hasleep]
        exact .inl rfl
      · have hiff : t < i + 1 ↔ t < i := by omega
        rw [Function.update_of_ne hti]
        simpa only [hiff] using hok
    · intro t ht
      show Function.update s.worker i _ t = _
      have hti : t ≠ i := by omega
      rw [Function.update_of_ne hti]
      exact h.unborn t ht
  · next hge =>
    cases hstep
    refine ⟨⟨hfinished, Nat.zero_le _, ?_⟩, h.unborn⟩
    intro t ht
    have hok := hworkers t ht
    rwa [if_pos (by omega)] at hok

theorem in_order_main (h : s.InOrder) (hstep : s.main_step sort = some s') : s'.InOrder := by
  cases hm : s.main with
  | stop i => exact in_order_stop h hm hstep
  | join i =>
    obtain ⟨hfinished, hi, hworkers⟩ : MainPoint.in_order s.finished s.worker (.join i) :=
      hm ▸ h.main
    simp only [State.main_step, hm] at hstep
    split at hstep
    · next hterm =>
      cases hstep
      have hlt : i < THREAD_NUM := by
        by_contra hge
        rw [h.unborn i (Nat.le_of_not_lt hge)] at hterm
        cases hterm
      exact ⟨⟨hfinished, hlt, hworkers⟩, h.unborn⟩
    · cases hstep
  | create i =>
    have hlt : i < THREAD_NUM := by
      have horder := h.main
      rwa [hm] at horder
    simp only [State.main_step, hm] at hstep
    cases hstep
    refine ⟨hlt, ?_⟩
    intro t ht
    show Function.update s.worker i _ t = _
    have hti : t ≠ i := by omega
    rw [Function.update_of_ne hti]
    exact h.unborn t ht
  | reset_new i =>
    simp only [State.main_step, hm] at hstep
    split at hstep
    · next hlt =>
      cases hstep
      exact ⟨hlt, h.unborn⟩
    · cases hstep
      exact ⟨trivial, h.unborn⟩
  | await_new i =>
    simp only [State.main_step, hm] at hstep
    split at hstep
    · cases hstep
      exact ⟨trivial, h.unborn⟩
    · cases hstep
      exact h
  | signal i =>
    simp only [State.main_step, hm] at hstep
    split at hstep
    · next hlt =>
      obtain ⟨-, rfl⟩ := wake_eq hstep
      refine ⟨trivial, ?_⟩
      intro t ht
      show Function.update s.worker i _ t = _
      by_cases hti : t = i
      · subst hti
        rw [Function.update_self, h.unborn t ht]
        rfl
      · rw [Function.update_of_ne hti]
        exact h.unborn t ht
    · cases hstep
      exact ⟨trivial, h.unborn⟩
  | command =>
    simp only [State.main_step, hm] at hstep
    cases hstep
  | set_args i =>
    simp only [State.main_step, hm] at hstep
    split at hstep <;> cases hstep <;> exact ⟨trivial, h.unborn⟩
  | reset i =>
    simp only [State.main_step, hm] at hstep
    split at hstep <;> cases hstep <;> exact ⟨trivial, h.unborn⟩
  | check i =>
    simp only [State.main_step, hm] at hstep
    split at hstep
    · split at hstep <;> cases hstep <;> exact ⟨trivial, h.unborn⟩
    · cases hstep
      exact ⟨trivial, h.unborn⟩
  | collect =>
    simp only [State.main_step, hm] at hstep
    cases hstep
    exact ⟨trivial, h.unborn⟩

/-- At the end of the input all workers wait. -/
theorem in_order_eof (h : s.InOrder) (hinv : HandshakeInv sort s) (hm : s.main = .command) :
    State.InOrder { s.go (.stop 0) with finished := true } := by
  refine ⟨⟨rfl, Nat.zero_le _, ?_⟩, h.unborn⟩
  intro t ht
  have hok := hinv.each t ht
  rw [hm] at hok
  rw [if_neg (Nat.not_lt_zero t)]
  exact hok.2.1

theorem in_order_query (h : s.InOrder) (root : trie) (query : List Letter) :
    (s.begin_query root query).InOrder := by
  unfold State.begin_query
  split
  · exact h
  · exact ⟨trivial, h.unborn⟩

end Steps

theorem in_order_reachable {sort : StdSort} {s : State}
    (h : Reachable ((workers sort).restrict fun s l => not_spurious s l = true) s) :
    s.InOrder := by
  induction h with
  | init heq =>
    rw [show _ = State.start from heq]
    exact ⟨trivial, fun _ _ => rfl⟩
  | @step s l s' hreach hstep ih =>
    obtain ⟨hl, hstep⟩ := hstep
    change s.perform sort l = some s' at hstep
    cases l with
    | main => exact in_order_main ih hstep
    | query root text =>
      simp only [State.perform] at hstep
      split at hstep
      · cases hstep
        exact in_order_query ih root text
      · cases hstep
    | eof =>
      simp only [State.perform] at hstep
      split at hstep
      · next hm =>
        cases hstep
        exact in_order_eof ih (HandshakeInv.reachable hreach) hm
      · cases hstep
    | worker tid => exact in_order_worker ih hstep
    | spurious tid => cases hl

/-! ## Section 2: There is a way on -/

/-- How many rounds of its loops `main` is away from the next command, or from its
    end, when `k` workers have got arguments. -/
def MainPoint.rank (k : ℕ) : MainPoint → ℕ
  | .command => 0
  | .collect => 1
  | .check i => 2 + (k - i)
  | .signal i => 3 + k + (k - i)
  | .reset i => 4 + 2 * k + (k - i)
  | .set_args i => 5 + 3 * k + (k - i)
  | .await_new i => 3 * (THREAD_NUM - i) + 1
  | .create i => 3 * (THREAD_NUM - i) + 2
  | .reset_new i => 3 * (THREAD_NUM - i) + 3
  | .join i => THREAD_NUM - i
  | .stop i => THREAD_NUM + 1 + (THREAD_NUM - i)

/-- How many steps a worker is away from its sleep, or from its end. -/
def WorkerPoint.left : WorkerPoint → ℕ
  | .woken => 8
  | .unlock => 7
  | .test_finished => 6
  | .read_args => 5
  | .scan _ => 4
  | .lock => 3
  | .set_sleep => 2
  | .enter_wait => 1
  | .asleep | .unborn | .terminated => 0

/-- The steps that are left to all workers. -/
def State.left (s : State) : ℕ := ∑ t ∈ Finset.range THREAD_NUM, (s.worker t).left

section Closer

variable {sort : StdSort} {s s' : State} {t : ℕ}

/-- A worker that is neither asleep nor done goes on. -/
theorem worker_can_step (h : (s.worker t).left ≠ 0) : ∃ s', s.worker_step t = some s' := by
  unfold State.worker_step
  cases hw : s.worker t <;> rw [hw] at h <;> first | exact absurd rfl h | exact ⟨_, rfl⟩

theorem worker_step_left (hstep : s.worker_step t = some s') :
    (s'.worker t).left < (s.worker t).left := by
  unfold State.worker_step at hstep
  cases hw : s.worker t <;> rw [hw] at hstep <;> cases hstep <;>
    simp only [State.set_worker, State.set_sleep, State.finish_scan,
      Function.update_self] <;>
    first | decide | exact Nat.lt_succ_self _ | (split <;> decide)

theorem left_lt (hstep : s.worker_step t = some s') (ht : t < THREAD_NUM) : s'.left < s.left := by
  obtain ⟨hother, -, -⟩ := worker_step_point hstep
  apply Finset.sum_lt_sum
  · intro u _
    by_cases hu : u = t
    · rw [hu]
      exact Nat.le_of_lt (worker_step_left hstep)
    · rw [hother u hu]
  · exact ⟨t, Finset.mem_range.mpr ht, worker_step_left hstep⟩

/-- `main` goes on and comes closer, or worker `t` does. -/
def State.advances (s : State) (sort : StdSort) : Prop :=
  (∃ s', s.main_step sort = some s' ∧ s'.main.rank s'.args.length < s.main.rank s.args.length) ∨
  ∃ t s', s.worker_step t = some s' ∧ s'.main = s.main ∧ s'.args = s.args ∧ s'.left < s.left

theorem advances_worker (ht : t < THREAD_NUM) (h : (s.worker t).left ≠ 0) : s.advances sort := by
  obtain ⟨s', hstep⟩ := worker_can_step h
  obtain ⟨hkeeps, hmain, -, -⟩ := worker_step_frame hstep
  exact .inr ⟨t, s', hstep, hmain, hkeeps.args, left_lt hstep ht⟩

/-- A worker that holds its mutex goes on; otherwise `main` gets it. -/
theorem advances_wake {i : ℕ} (pt : MainPoint) (hi : i < THREAD_NUM)
    (hstep : s.main_step sort = s.wake i pt)
    (hrank : pt.rank s.args.length < s.main.rank s.args.length) : s.advances sort := by
  by_cases hfree : (s.worker i).mutex_free = true
  · refine .inl ⟨(s.set_worker i (s.worker i).signal).go pt, ?_, hrank⟩
    rw [hstep, State.wake, if_pos hfree]
  · refine advances_worker hi ?_
    intro hzero
    apply hfree
    cases hw : s.worker i <;> rw [hw] at hzero <;> first | rfl | cases hzero

/-- **There is a way on**, unless `main` waits for a command or is at its end. -/
theorem closer (hinv : HandshakeInv sort s) (horder : s.InOrder) (hcommand : s.main ≠ .command)
    (hend : s.main ≠ .join THREAD_NUM) : s.advances sort := by
  have hplace := horder.main
  cases hm : s.main with
  | reset_new i =>
    left
    by_cases hi : i < THREAD_NUM
    · refine ⟨(s.set_sleep i false).go (.create i), by simp [State.main_step, hm, hi], ?_⟩
      rw [hm]
      exact Nat.lt_succ_self _
    · refine ⟨s.go .command, by simp [State.main_step, hm, hi], ?_⟩
      rw [hm]
      exact Nat.succ_pos _
  | create i =>
    refine .inl ⟨_, by rw [State.main_step, hm], ?_⟩
    rw [hm]
    exact Nat.lt_succ_self _
  | await_new i =>
    have hi : i < THREAD_NUM := by rwa [hm] at hplace
    by_cases hsleep : s.thread_is_sleep i = true
    · refine .inl ⟨s.go (.reset_new (i + 1)), by simp [State.main_step, hm, hsleep], ?_⟩
      rw [hm]
      show 3 * (THREAD_NUM - (i + 1)) + 3 < 3 * (THREAD_NUM - i) + 1
      omega
    · -- The new worker is on its way to sleep.
      refine advances_worker hi ?_
      have hok := hinv.each i hi
      rw [hm] at hok
      simp only [MainPoint.stage, Nat.lt_irrefl, if_false, if_true] at hok
      rcases hok.2 with ⟨hgoing, -⟩ | ⟨-, hasleep⟩
      · rcases hgoing with hw | hw
        · rw [show s.worker i = .lock from hw]
          decide
        · rw [show s.worker i = .set_sleep from hw]
          decide
      · exact absurd hasleep hsleep
  | command => exact absurd hm hcommand
  | set_args i =>
    left
    cases hi : s.args[i]? with
    | some data =>
      have hlt : i < s.args.length := (List.getElem?_eq_some_iff.mp hi).1
      refine ⟨s.set_args i data, by simp [State.main_step, hm, hi], ?_⟩
      rw [hm]
      show 5 + 3 * s.args.length + (s.args.length - (i + 1)) <
        5 + 3 * s.args.length + (s.args.length - i)
      omega
    | none =>
      refine ⟨s.go (.reset 0), by simp [State.main_step, hm, hi], ?_⟩
      rw [hm]
      show 4 + 2 * s.args.length + (s.args.length - 0) <
        5 + 3 * s.args.length + (s.args.length - i)
      omega
  | reset i =>
    left
    by_cases hi : i < s.args.length
    · refine ⟨(s.set_sleep i false).go (.reset (i + 1)), by simp [State.main_step, hm, hi], ?_⟩
      rw [hm]
      show 4 + 2 * s.args.length + (s.args.length - (i + 1)) <
        4 + 2 * s.args.length + (s.args.length - i)
      omega
    · refine ⟨s.go (.signal 0), by simp [State.main_step, hm, hi], ?_⟩
      rw [hm]
      show 3 + s.args.length + (s.args.length - 0) <
        4 + 2 * s.args.length + (s.args.length - i)
      omega
  | signal i =>
    by_cases hi : i < s.args.length
    · refine advances_wake (.signal (i + 1)) (Nat.lt_of_lt_of_le hi hinv.length)
        (by simp [State.main_step, hm, hi]) ?_
      rw [hm]
      show 3 + s.args.length + (s.args.length - (i + 1)) <
        3 + s.args.length + (s.args.length - i)
      omega
    · refine .inl ⟨s.go (.check 0), by simp [State.main_step, hm, hi], ?_⟩
      rw [hm]
      show 2 + (s.args.length - 0) < 3 + s.args.length + (s.args.length - i)
      omega
  | check i =>
    by_cases hi : i < s.args.length
    · by_cases hsleep : s.thread_is_sleep i = true
      · refine .inl ⟨s.go (.check (i + 1)), by simp [State.main_step, hm, hi, hsleep], ?_⟩
        rw [hm]
        show 2 + (s.args.length - (i + 1)) < 2 + (s.args.length - i)
        omega
      · -- The worker has been woken up, or is on its way back to sleep.
        have hN := Nat.lt_of_lt_of_le hi hinv.length
        refine advances_worker hN ?_
        have hok := hinv.each i hN
        rw [hm] at hok
        simp only [MainPoint.stage, hi, Nat.lt_irrefl, if_false, if_true] at hok
        rcases hok with ⟨-, hworking, -⟩ | ⟨-, hgoing, -⟩ | ⟨-, -, hasleep⟩
        · rcases hworking with hw | hw | hw | hw | hw
          · rw [show s.worker i = .woken from hw]
            decide
          · rw [show s.worker i = .unlock from hw]
            decide
          · rw [show s.worker i = .test_finished from hw]
            decide
          · rw [show s.worker i = .read_args from hw]
            decide
          · rw [show s.worker i = .scan _ from hw]
            exact Nat.succ_ne_zero 3
        · rcases hgoing with hw | hw
          · rw [show s.worker i = .lock from hw]
            decide
          · rw [show s.worker i = .set_sleep from hw]
            decide
        · exact absurd hasleep hsleep
    · refine .inl ⟨s.go .collect, by simp [State.main_step, hm, hi], ?_⟩
      rw [hm]
      show 1 < 2 + (s.args.length - i)
      omega
  | collect =>
    refine .inl ⟨s.print sort, by simp [State.main_step, hm], ?_⟩
    rw [hm]
    exact Nat.zero_lt_one
  | stop i =>
    by_cases hi : i < THREAD_NUM
    · refine advances_wake (.stop (i + 1)) hi (by simp [State.main_step, hm, hi]) ?_
      rw [hm]
      show THREAD_NUM + 1 + (THREAD_NUM - (i + 1)) < THREAD_NUM + 1 + (THREAD_NUM - i)
      omega
    · refine .inl ⟨s.go (.join 0), by simp [State.main_step, hm, hi], ?_⟩
      rw [hm]
      show THREAD_NUM - 0 < THREAD_NUM + 1 + (THREAD_NUM - i)
      omega
  | join i =>
    rw [hm] at hplace
    obtain ⟨-, hle, hworkers⟩ := hplace
    have hi : i < THREAD_NUM := by
      refine Nat.lt_of_le_of_ne hle ?_
      intro heq
      rw [heq] at hm
      exact hend hm
    rcases hworkers i hi with hw | hw | hw | hw
    · exact advances_worker hi (by rw [hw]; decide)
    · exact advances_worker hi (by rw [hw]; decide)
    · exact advances_worker hi (by rw [hw]; decide)
    · refine .inl ⟨s.go (.join (i + 1)), by simp [State.main_step, hm, hw], ?_⟩
      rw [hm]
      show THREAD_NUM - (i + 1) < THREAD_NUM - i
      omega

end Closer

end Project1.Handshake
