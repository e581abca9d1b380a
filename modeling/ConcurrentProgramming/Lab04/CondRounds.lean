import ConcurrentProgramming.Lab04.PrimeCond

/-! # Rounds of the Pool

    A round begins with the input of a range and ends when `main` prints the sum.
    Before the broadcast of a round every thread rests: it sleeps or is about to.
    After the broadcast every thread works and its `thread_ret[i]` is `-1`, or it has
    stored its count and rests again.

    The broadcast must find all threads asleep.  In all rounds but the first this
    follows from the mutex, since a thread keeps it from the store to its sleep.  In
    the first round nothing says that the threads have come to their first
    `pthread_cond_wait`.  If they have, no round is lost (`no_lost_round`) and every
    sum is that of its range (`sums_printed`).  If one has not, it misses the
    broadcast, and the program stops for ever (`first_round_lost`).
-/

namespace Lab04

open LTS CInt

/-! ## Section 1: The invariant -/

namespace WorkerPoint

/-- The thread has the mutex. -/
def holds : WorkerPoint → Bool
  | .wait => true
  | .unlock => true
  | .store _ => true
  | _ => false

/-- The thread sleeps or goes to sleep. -/
def resting : WorkerPoint → Bool
  | .wait => true
  | .asleep => true
  | _ => false

/-- The thread has been woken for a range and will store `result`. -/
def working (result : ℤ) : WorkerPoint → Prop
  | .woken => True
  | .unlock => True
  | .test => True
  | .count => True
  | .lock cnt_prime => to_int cnt_prime = result
  | .store cnt_prime => to_int cnt_prime = result
  | _ => False

end WorkerPoint

inductive Stage where
  | before_broadcast
  | after_broadcast
  | ending
  deriving DecidableEq, Repr

namespace MainPoint

def holds : MainPoint → Bool
  | .broadcast _ => true
  | .unlock _ => true
  | _ => false

def stage : MainPoint → Stage
  | .create _ => .before_broadcast
  | .read => .before_broadcast
  | .reset _ => .before_broadcast
  | .lock false => .before_broadcast
  | .broadcast false => .before_broadcast
  | .unlock false => .after_broadcast
  | .spin _ => .after_broadcast
  | .collect _ _ => .after_broadcast
  | _ => .ending

/-- A range has been read and its sum has not been printed. -/
def in_round : MainPoint → Bool
  | .reset _ => true
  | .lock false => true
  | .broadcast false => true
  | .unlock false => true
  | .spin _ => true
  | .collect _ _ => true
  | _ => false

/-- For the threads below this number `thread_ret` has been reset. -/
def cleared : MainPoint → ℕ
  | .reset i => i
  | .lock false => NUM_THREAD
  | .broadcast false => NUM_THREAD
  | _ => 0

/-- The threads below this number have been seen to have stored their counts. -/
def seen : MainPoint → ℕ
  | .spin i => i
  | .collect _ _ => NUM_THREAD
  | _ => 0

theorem stage_of_cleared {pt : MainPoint} {i : ℕ} (h : i < pt.cleared) :
    pt.stage = .before_broadcast := by
  unfold cleared at h
  split at h <;> first | rfl | exact absurd h (Nat.not_lt_zero i)

theorem in_round_of_after {pt : MainPoint} (h : pt.stage = .after_broadcast) :
    pt.in_round = true := by
  unfold stage at h
  split at h <;> first | rfl | cases h

theorem in_round_of_ending {pt : MainPoint} (h : pt.stage = .ending) : pt.in_round = false := by
  unfold in_round
  split <;> first | rfl | cases h

theorem stage_of_seen {pt : MainPoint} {i : ℕ} (h : i < pt.seen) :
    pt.stage = .after_broadcast := by
  unfold seen at h
  split at h <;> first | rfl | exact absurd h (Nat.not_lt_zero i)

end MainPoint

/-- Both ends of the loop step of `main`. -/
theorem loop_next_ind {P : MainPoint → Prop} {i : ℕ} {again : ℕ → MainPoint}
    {after : MainPoint} (hagain : i + 1 < NUM_THREAD → P (again (i + 1)))
    (hafter : ¬ i + 1 < NUM_THREAD → P after) : P (loop_next i again after) := by
  unfold loop_next
  split
  · next hlt => exact hagain hlt
  · next hge => exact hafter hge

theorem loop_next_stage {i : ℕ} {again : ℕ → MainPoint} {after : MainPoint}
    (h : (again (i + 1)).stage = after.stage) : (loop_next i again after).stage = after.stage :=
  loop_next_ind (P := fun pt => pt.stage = _) (fun _ => h) fun _ => rfl

/-- `main` does not have the mutex in its loops. -/
theorem loop_next_holds {i : ℕ} {again : ℕ → MainPoint} {after : MainPoint}
    (hagain : (again (i + 1)).holds = false) (hafter : after.holds = false) :
    (loop_next i again after).holds = false :=
  loop_next_ind (P := fun pt => pt.holds = false) (fun _ => hagain) fun _ => hafter

/-- The sum of a range. -/
def total (range : ℤ × ℤ) : ℤ := collected range NUM_THREAD

/-- After the broadcast: a thread works, or it has stored its count and rests. -/
def answers (s : Pool) (i : ℕ) : Prop :=
  ((s.worker i).working (thread_result (s.range_start, s.range_end) i) ∧ s.thread_ret i = -1) ∨
  ((s.worker i).resting = true ∧ s.thread_ret i = thread_result (s.range_start, s.range_end) i)

structure PoolInv (s : Pool) : Prop where
  main_lock   : s.main.holds = true → s.mutex = some .main
  worker_lock : ∀ i, (s.worker i).holds = true → s.mutex = some (.worker i)
  unborn      : ∀ i, NUM_THREAD ≤ i → s.worker i = .unborn
  creates     : ∀ i, s.main = .create i → i < NUM_THREAD
  running     : s.main.stage ≠ .ending → s.finished = false
  before      : s.main.stage = .before_broadcast →
    ∀ i, (s.worker i).started = false ∨ (s.worker i).resting = true
  after       : s.main.stage = .after_broadcast → ∀ i < NUM_THREAD, answers s i
  cleared     : ∀ i < s.main.cleared, s.thread_ret i = -1
  seen        : ∀ i < s.main.seen, s.thread_ret i ≠ -1
  sum         : ∀ i cnt, s.main = .collect i cnt → i < NUM_THREAD ∧
    cnt = collected (s.range_start, s.range_end) i
  log         : s.ranges.map total =
    s.printed ++ if s.main.in_round then [total (s.range_start, s.range_end)] else []

/-! ## Section 2: Steps of the threads -/

section moves

variable {s : Pool} {tid : ℕ} {pt : WorkerPoint} {mutex : Option Owner} {ret : ℤ}

@[simp] theorem moved_worker_self : (s.moved tid pt mutex ret).worker tid = pt := by
  simp [Pool.moved]

@[simp] theorem moved_ret_self : (s.moved tid pt mutex ret).thread_ret tid = ret := by
  simp [Pool.moved]

theorem moved_worker_ne {i : ℕ} (hi : i ≠ tid) :
    (s.moved tid pt mutex ret).worker i = s.worker i := by
  simp [Pool.moved, hi]

theorem moved_ret_ne {i : ℕ} (hi : i ≠ tid) :
    (s.moved tid pt mutex ret).thread_ret i = s.thread_ret i := by
  simp [Pool.moved, hi]

/-- What a step of a thread does to the mutex. -/
theorem move_mutex (hmove : s.worker_move tid = some (pt, mutex, ret)) :
    (s.mutex = none ∧ mutex = some (.worker tid)) ∨
    (s.mutex = some (.worker tid) ∧ mutex = none ∧ pt.holds = false) ∨
    (mutex = s.mutex ∧ pt.holds = (s.worker tid).holds) := by
  unfold Pool.worker_move at hmove
  cases hp : s.worker tid <;> rw [hp] at hmove <;>
    simp only [Option.ite_none_right_eq_some, Option.some.injEq, Prod.mk.injEq, reduceCtorEq]
      at hmove
  case first_lock | woken | lock =>
    obtain ⟨hfree, -, rfl, -⟩ := hmove
    exact .inl ⟨hfree, rfl⟩
  case wait | unlock =>
    obtain ⟨hheld, rfl, rfl, -⟩ := hmove
    exact .inr (.inl ⟨hheld, rfl, rfl⟩)
  case test =>
    obtain ⟨rfl, rfl, -⟩ := hmove
    refine .inr (.inr ⟨rfl, ?_⟩)
    split <;> rfl
  case count | store =>
    obtain ⟨rfl, rfl, -⟩ := hmove
    exact .inr (.inr ⟨rfl, rfl⟩)

/-- Before the broadcast a thread can only go to sleep. -/
theorem move_before (hmove : s.worker_move tid = some (pt, mutex, ret))
    (hrest : (s.worker tid).started = false ∨ (s.worker tid).resting = true) :
    pt.resting = true ∧ ret = s.thread_ret tid := by
  unfold Pool.worker_move at hmove
  cases hp : s.worker tid <;> rw [hp] at hmove hrest <;>
    simp only [WorkerPoint.started, WorkerPoint.resting, or_self, reduceCtorEq] at hrest <;>
    simp only [Option.ite_none_right_eq_some, Option.some.injEq, Prod.mk.injEq, reduceCtorEq]
      at hmove
  case first_lock | wait =>
    obtain ⟨-, rfl, -, rfl⟩ := hmove
    exact ⟨rfl, rfl⟩

/-- After the broadcast a thread goes on to work until it stores its count. -/
theorem move_after (hmove : s.worker_move tid = some (pt, mutex, ret))
    (hfinished : s.finished = false) (hans : answers s tid) :
    answers (s.moved tid pt mutex ret) tid ∧ (s.thread_ret tid ≠ -1 → ret ≠ -1) := by
  unfold answers
  rw [moved_worker_self, moved_ret_self]
  unfold Pool.worker_move at hmove
  rcases hans with ⟨hwork, hret⟩ | ⟨hrest, hret⟩
  · refine ⟨?_, fun hne => absurd hret hne⟩
    rw [hret] at hmove
    cases hp : s.worker tid <;> rw [hp] at hmove hwork <;>
      simp only [Option.ite_none_right_eq_some, Option.some.injEq, Prod.mk.injEq, reduceCtorEq,
        hfinished] at hmove
    case first_lock | wait => exact absurd hwork id
    case woken | unlock | lock =>
      obtain ⟨-, rfl, -, rfl⟩ := hmove
      exact .inl ⟨hwork, rfl⟩
    case test | count =>
      obtain ⟨rfl, -, rfl⟩ := hmove
      exact .inl ⟨by trivial, rfl⟩
    case store cnt_prime =>
      obtain ⟨rfl, -, rfl⟩ := hmove
      exact .inr ⟨rfl, hwork⟩
  · cases hp : s.worker tid <;> rw [hp] at hmove hrest <;>
      simp only [WorkerPoint.resting, reduceCtorEq] at hrest <;>
      simp only [Option.ite_none_right_eq_some, Option.some.injEq, Prod.mk.injEq, reduceCtorEq]
        at hmove
    case wait =>
      obtain ⟨-, rfl, -, rfl⟩ := hmove
      exact ⟨.inr ⟨rfl, hret⟩, id⟩

/-- The other threads see the same. -/
theorem answers_of_ne {i : ℕ} (hi : i ≠ tid) :
    answers (s.moved tid pt mutex ret) i ↔ answers s i := by
  unfold answers
  rw [moved_worker_ne hi, moved_ret_ne hi]
  exact Iff.rfl

end moves

namespace PoolInv

variable {s s' : Pool} {tid : ℕ} {pt : WorkerPoint} {mutex : Option Owner} {ret : ℤ}

theorem mover_lt (h : PoolInv s) (hmove : s.worker_move tid = some (pt, mutex, ret)) :
    tid < NUM_THREAD := by
  by_contra hge
  have hunborn := h.unborn tid (Nat.le_of_not_lt hge)
  simp [Pool.worker_move, hunborn] at hmove

/-- A thread finds `thread_ret[i]` as `main` left it before the broadcast, and does
    not take back what `main` has seen after it. -/
theorem move_ret (h : PoolInv s) (hmove : s.worker_move tid = some (pt, mutex, ret)) :
    (s.main.stage = .before_broadcast → ret = s.thread_ret tid) ∧
    (s.main.stage = .after_broadcast → s.thread_ret tid ≠ -1 → ret ≠ -1) := by
  refine ⟨fun hbefore => (move_before hmove (h.before hbefore tid)).2, fun hafter => ?_⟩
  have hfinished := h.running (by rw [hafter]; simp)
  exact (move_after hmove hfinished (h.after hafter tid (h.mover_lt hmove))).2

theorem worker_step (h : PoolInv s) (hmove : s.worker_move tid = some (pt, mutex, ret)) :
    PoolInv (s.moved tid pt mutex ret) := by
  have hmutex := move_mutex hmove
  obtain ⟨hbefore, hafter⟩ := h.move_ret hmove
  refine ⟨?_, ?_, ?_, h.creates, h.running, ?_, ?_, ?_, ?_, h.sum, h.log⟩
  · -- While `main` has the mutex, the thread can neither take it nor give it back.
    intro hholds
    have hmain := h.main_lock hholds
    rw [hmain] at hmutex
    rcases hmutex with ⟨hnone, -⟩ | ⟨hworker, -⟩ | ⟨heq, -⟩
    · cases hnone
    · cases hworker
    · exact heq
  · intro i hi
    show mutex = some (.worker i)
    by_cases hit : i = tid
    · subst hit
      rw [moved_worker_self] at hi
      rcases hmutex with ⟨-, heq⟩ | ⟨-, -, hnot⟩ | ⟨heq, hholds⟩
      · exact heq
      · rw [hi] at hnot
        cases hnot
      · rw [heq]
        exact h.worker_lock i (hholds.symm.trans hi)
    · rw [moved_worker_ne hit] at hi
      have hworker := h.worker_lock i hi
      rw [hworker] at hmutex
      rcases hmutex with ⟨hnone, -⟩ | ⟨heq, -⟩ | ⟨heq, -⟩
      · cases hnone
      · exact absurd (Owner.worker.inj (Option.some.inj heq)) hit
      · exact heq
  · intro i hi
    have hit : i ≠ tid := (Nat.lt_of_lt_of_le (h.mover_lt hmove) hi).ne'
    rw [moved_worker_ne hit]
    exact h.unborn i hi
  · intro hstage i
    by_cases hit : i = tid
    · rw [hit, moved_worker_self]
      exact .inr (move_before hmove (h.before hstage tid)).1
    · rw [moved_worker_ne hit]
      exact h.before hstage i
  · intro hstage i hi
    by_cases hit : i = tid
    · subst hit
      have hfinished : s.finished = false := by
        apply h.running
        rw [show s.main.stage = .after_broadcast from hstage]
        simp
      exact (move_after hmove hfinished (h.after hstage i hi)).1
    · exact (answers_of_ne hit).mpr (h.after hstage i hi)
  · -- Before the broadcast no thread stores, so what `main` has reset stays `-1`.
    intro i hi
    by_cases hit : i = tid
    · rw [hit, moved_ret_self, hbefore (MainPoint.stage_of_cleared hi)]
      exact h.cleared tid (hit ▸ hi)
    · rw [moved_ret_ne hit]
      exact h.cleared i hi
  · intro i hi
    by_cases hit : i = tid
    · rw [hit, moved_ret_self]
      exact hafter (MainPoint.stage_of_seen hi) (h.seen tid (hit ▸ hi))
    · rw [moved_ret_ne hit]
      exact h.seen i hi

/-! ## Section 3: Steps of `main` -/

/-- A state before the broadcast of a round. -/
theorem of_before (hstage : s.main.stage = .before_broadcast)
    (hmain : s.main.holds = true → s.mutex = some .main)
    (hworker : ∀ i, (s.worker i).holds = true → s.mutex = some (.worker i))
    (hunborn : ∀ i, NUM_THREAD ≤ i → s.worker i = .unborn)
    (hcreates : ∀ i, s.main = .create i → i < NUM_THREAD) (hrunning : s.finished = false)
    (hbefore : ∀ i, (s.worker i).started = false ∨ (s.worker i).resting = true)
    (hcleared : ∀ i < s.main.cleared, s.thread_ret i = -1)
    (hlog : s.ranges.map total =
      s.printed ++ if s.main.in_round then [total (s.range_start, s.range_end)] else []) :
    PoolInv s where
  main_lock := hmain
  worker_lock := hworker
  unborn := hunborn
  creates := hcreates
  running := fun _ => hrunning
  before := fun _ => hbefore
  after := fun hafter => by
    rw [hstage] at hafter
    cases hafter
  cleared := hcleared
  seen := fun i hi => by
    rw [MainPoint.stage_of_seen hi] at hstage
    cases hstage
  sum := fun i cnt hcollect => by
    rw [hcollect] at hstage
    cases hstage
  log := hlog

/-- A state after the broadcast of a round. -/
theorem of_after (hstage : s.main.stage = .after_broadcast)
    (hmain : s.main.holds = true → s.mutex = some .main)
    (hworker : ∀ i, (s.worker i).holds = true → s.mutex = some (.worker i))
    (hunborn : ∀ i, NUM_THREAD ≤ i → s.worker i = .unborn) (hrunning : s.finished = false)
    (hafter : ∀ i < NUM_THREAD, answers s i) (hseen : ∀ i < s.main.seen, s.thread_ret i ≠ -1)
    (hsum : ∀ i cnt, s.main = .collect i cnt → i < NUM_THREAD ∧
      cnt = collected (s.range_start, s.range_end) i)
    (hlog : s.ranges.map total = s.printed ++ [total (s.range_start, s.range_end)]) :
    PoolInv s where
  main_lock := hmain
  worker_lock := hworker
  unborn := hunborn
  creates := fun i hcreate => by
    rw [hcreate] at hstage
    cases hstage
  running := fun _ => hrunning
  before := fun hbefore => by
    rw [hstage] at hbefore
    cases hbefore
  after := fun _ => hafter
  cleared := fun i hi => by
    rw [MainPoint.stage_of_cleared hi] at hstage
    cases hstage
  seen := hseen
  sum := hsum
  log := by rw [hlog, MainPoint.in_round_of_after hstage, if_pos rfl]

/-- A state after the last round. -/
theorem of_ending (hstage : s.main.stage = .ending)
    (hmain : s.main.holds = true → s.mutex = some .main)
    (hworker : ∀ i, (s.worker i).holds = true → s.mutex = some (.worker i))
    (hunborn : ∀ i, NUM_THREAD ≤ i → s.worker i = .unborn)
    (hlog : s.ranges.map total = s.printed) : PoolInv s where
  main_lock := hmain
  worker_lock := hworker
  unborn := hunborn
  creates := fun i hcreate => by
    rw [hcreate] at hstage
    cases hstage
  running := fun hne => absurd hstage hne
  before := fun hbefore => by
    rw [hstage] at hbefore
    cases hbefore
  after := fun hafter => by
    rw [hstage] at hafter
    cases hafter
  cleared := fun i hi => by
    rw [MainPoint.stage_of_cleared hi] at hstage
    cases hstage
  seen := fun i hi => by
    rw [MainPoint.stage_of_seen hi] at hstage
    cases hstage
  sum := fun i cnt hcollect => by
    rw [hcollect] at hstage
    cases hstage
  log := by
    rw [hlog, MainPoint.in_round_of_ending hstage]
    simp

theorem log_outside (h : PoolInv s) (hround : s.main.in_round = false) :
    s.ranges.map total = s.printed := by
  have hlog := h.log
  rwa [hround, if_neg Bool.false_ne_true, List.append_nil] at hlog

theorem log_inside (h : PoolInv s) (hround : s.main.in_round = true) :
    s.ranges.map total = s.printed ++ [total (s.range_start, s.range_end)] := by
  have hlog := h.log
  rwa [hround, if_pos rfl] at hlog

variable {input : ℤ × ℤ}

theorem create_step (h : PoolInv s) {i : ℕ} (hp : s.main = .create i)
    (hstep : s.main_step input = some s') : PoolInv s' := by
  simp only [Pool.main_step, hp, Option.some.injEq] at hstep
  subst hstep
  have hi := h.creates i hp
  have hother : ∀ j, j ≠ i → Function.update s.worker i .first_lock j = s.worker j :=
    fun j hj => Function.update_of_ne hj _ _
  refine of_before (loop_next_stage rfl) ?_ ?_ ?_ ?_ (h.running (by rw [hp]; nofun)) ?_ ?_ ?_
  · intro hholds
    cases hholds.symm.trans (loop_next_holds rfl rfl)
  · intro j hj
    by_cases hji : j = i
    · simp only [hji, Function.update_self] at hj
      cases hj
    · simp only [hother j hji] at hj
      exact h.worker_lock j hj
  · intro j hj
    exact (hother j (Nat.lt_of_lt_of_le hi hj).ne').trans (h.unborn j hj)
  · refine loop_next_ind (P := fun pt => ∀ j, pt = .create j → j < NUM_THREAD) ?_ fun _ => nofun
    intro hlt j hj
    exact MainPoint.create.inj hj ▸ hlt
  · intro j
    by_cases hji : j = i
    · simp only [hji, Function.update_self]
      exact .inl rfl
    · simp only [hother j hji]
      exact h.before (by rw [hp]; rfl) j
  · exact loop_next_ind (P := fun pt => ∀ j < pt.cleared, s.thread_ret j = -1) (fun _ => nofun)
      fun _ => nofun
  · have hlog := h.log_outside (by rw [hp]; rfl)
    rw [← List.append_nil s.printed] at hlog
    exact loop_next_ind (P := fun pt => _ = s.printed ++ if pt.in_round then _ else [])
      (fun _ => hlog) fun _ => hlog

theorem read_step (h : PoolInv s) (hp : s.main = .read)
    (hstep : s.main_step input = some s') : PoolInv s' := by
  have hlog := h.log_outside (by rw [hp]; rfl)
  simp only [Pool.main_step, hp] at hstep
  split at hstep
  · cases hstep
    exact of_ending rfl nofun h.worker_lock h.unborn hlog
  · cases hstep
    refine of_before rfl nofun h.worker_lock h.unborn nofun (h.running (by rw [hp]; nofun))
      (h.before (by rw [hp]; rfl)) nofun ?_
    show (s.ranges ++ [input]).map total = s.printed ++ [total input]
    rw [List.map_append, hlog, List.map_singleton]

theorem reset_step (h : PoolInv s) {i : ℕ} (hp : s.main = .reset i)
    (hstep : s.main_step input = some s') : PoolInv s' := by
  simp only [Pool.main_step, hp, Option.some.injEq] at hstep
  subst hstep
  have hcleared : ∀ j ≤ i, Function.update s.thread_ret i (-1) j = -1 := by
    intro j hj
    by_cases hji : j = i
    · rw [hji, Function.update_self]
    · rw [Function.update_of_ne hji]
      exact h.cleared j (by rw [hp]; exact lt_of_le_of_ne hj hji)
  refine of_before (loop_next_stage rfl) ?_ h.worker_lock h.unborn ?_
    (h.running (by rw [hp]; nofun)) (h.before (by rw [hp]; rfl)) ?_ ?_
  · intro hholds
    cases hholds.symm.trans (loop_next_holds rfl rfl)
  · exact loop_next_ind (P := fun pt => ∀ j, pt = .create j → j < NUM_THREAD) (fun _ => nofun)
      fun _ => nofun
  · refine loop_next_ind
      (P := fun pt => ∀ j < pt.cleared, Function.update s.thread_ret i (-1) j = -1) ?_ ?_
    · intro _ j hj
      exact hcleared j (Nat.le_of_lt_succ hj)
    · intro hge j hj
      have hlt : j < NUM_THREAD := hj
      exact hcleared j (by omega)
  · have hlog := h.log_inside (by rw [hp]; rfl)
    exact loop_next_ind (P := fun pt => _ = s.printed ++ if pt.in_round then _ else [])
      (fun _ => hlog) fun _ => hlog

/-- `main` takes the mutex, which no thread has. -/
theorem lock_step (h : PoolInv s) {last : Bool} (hp : s.main = .lock last)
    (hstep : s.main_step input = some s') : PoolInv s' := by
  simp only [Pool.main_step, hp, Option.ite_none_right_eq_some, Option.some.injEq] at hstep
  obtain ⟨hfree, rfl⟩ := hstep
  have hworker : ∀ i, (s.worker i).holds = true → some Owner.main = some (.worker i) := by
    intro i hi
    have hheld := h.worker_lock i hi
    rw [hfree] at hheld
    cases hheld
  cases last with
  | true =>
    exact of_ending rfl (fun _ => rfl) hworker h.unborn (h.log_outside (by rw [hp]; rfl))
  | false =>
    exact of_before rfl (fun _ => rfl) hworker h.unborn nofun (h.running (by rw [hp]; nofun))
      (h.before (by rw [hp]; rfl)) (fun i hi => h.cleared i (by rw [hp]; exact hi))
      (h.log_inside (by rw [hp]; rfl))

/-- While `main` has the mutex, a thread that rests is asleep. -/
theorem asleep_of_resting (h : PoolInv s) (hmain : s.main.holds = true) {i : ℕ}
    (hrest : (s.worker i).resting = true) : s.worker i = .asleep := by
  cases hp : s.worker i <;> rw [hp] at hrest <;> try cases hrest
  case wait =>
    have hheld := h.worker_lock i (by rw [hp]; rfl)
    rw [h.main_lock hmain] at hheld
    cases hheld

/-- The broadcast of a round wakes all threads, if they have come to their first wait. -/
theorem broadcast_step (h : PoolInv s) {last : Bool} (hp : s.main = .broadcast last)
    (hready : last = false → ∀ i < NUM_THREAD, (s.worker i).started = true)
    (hstep : s.main_step input = some s') : PoolInv s' := by
  simp only [Pool.main_step, hp, Option.some.injEq] at hstep
  subst hstep
  have hholds : s.main.holds = true := by rw [hp]; rfl
  have hmutex := h.main_lock hholds
  have hworker : ∀ i, (s.worker i).signal.holds = true → s.mutex = some (.worker i) := by
    intro i hi
    apply h.worker_lock i
    cases hw : s.worker i <;> rw [hw] at hi <;> first | rfl | cases hi
  have hunborn : ∀ i, NUM_THREAD ≤ i → (s.worker i).signal = .unborn := by
    intro i hi
    rw [h.unborn i hi]
    rfl
  cases last with
  | true =>
    exact of_ending rfl (fun _ => hmutex) hworker hunborn (h.log_outside (by rw [hp]; rfl))
  | false =>
    refine of_after rfl (fun _ => hmutex) hworker hunborn (h.running (by rw [hp]; nofun)) ?_ nofun
      nofun (h.log_inside (by rw [hp]; rfl))
    intro i hi
    have hrest : (s.worker i).resting = true := by
      rcases h.before (by rw [hp]; rfl) i with hnew | hrest
      · rw [hready rfl i hi] at hnew
        cases hnew
      · exact hrest
    -- The thread sleeps, so the broadcast wakes it, and `thread_ret[i]` is still `-1`.
    refine .inl ⟨?_, h.cleared i (by rw [hp]; exact hi)⟩
    show (s.worker i).signal.working _
    rw [h.asleep_of_resting hholds hrest]
    trivial

theorem unlock_step (h : PoolInv s) {last : Bool} (hp : s.main = .unlock last)
    (hstep : s.main_step input = some s') : PoolInv s' := by
  simp only [Pool.main_step, hp, Option.ite_none_right_eq_some, Option.some.injEq] at hstep
  obtain ⟨hheld, rfl⟩ := hstep
  have hworker : ∀ i, (s.worker i).holds = true → none = some (Owner.worker i) := by
    intro i hi
    have hheld' := h.worker_lock i hi
    rw [hheld] at hheld'
    cases hheld'
  cases last with
  | true => exact of_ending rfl nofun hworker h.unborn (h.log_outside (by rw [hp]; rfl))
  | false =>
    exact of_after rfl nofun hworker h.unborn (h.running (by rw [hp]; nofun))
      (h.after (by rw [hp]; rfl)) nofun nofun (h.log_inside (by rw [hp]; rfl))

theorem spin_step (h : PoolInv s) {i : ℕ} (hp : s.main = .spin i)
    (hstep : s.main_step input = some s') : PoolInv s' := by
  simp only [Pool.main_step, hp, Option.some.injEq] at hstep
  subst hstep
  split
  · exact h
  · next hstored =>
    have hseen : ∀ j ≤ i, s.thread_ret j ≠ -1 := by
      intro j hj
      rcases hj.lt_or_eq with hlt | rfl
      · exact h.seen j (by rw [hp]; exact hlt)
      · exact hstored
    refine of_after (loop_next_stage rfl) ?_ h.worker_lock h.unborn
      (h.running (by rw [hp]; nofun)) (h.after (by rw [hp]; rfl)) ?_ ?_
      (h.log_inside (by rw [hp]; rfl))
    · intro hholds
      cases hholds.symm.trans (loop_next_holds rfl rfl)
    · refine loop_next_ind (P := fun pt => ∀ j < pt.seen, s.thread_ret j ≠ -1) ?_ ?_
      · intro _ j hj
        exact hseen j (Nat.le_of_lt_succ hj)
      · intro hge j hj
        have hlt : j < NUM_THREAD := hj
        exact hseen j (by omega)
    · refine loop_next_ind (P := fun pt => ∀ j cnt, pt = .collect j cnt → j < NUM_THREAD ∧
        cnt = collected (s.range_start, s.range_end) j) (fun _ => nofun) ?_
      intro _ j cnt hcollect
      cases hcollect
      exact ⟨by decide, rfl⟩

/-- What `main` collects is the count of the thread, which rests again. -/
theorem answered (h : PoolInv s) {i cnt} (hp : s.main = .collect i cnt) {j : ℕ}
    (hj : j < NUM_THREAD) : (s.worker j).resting = true ∧
      s.thread_ret j = thread_result (s.range_start, s.range_end) j := by
  rcases h.after (by rw [hp]; rfl) j hj with ⟨-, hret⟩ | hanswer
  · exact absurd hret (h.seen j (by rw [hp]; exact hj))
  · exact hanswer

theorem collect_step (h : PoolInv s) {i : ℕ} {cnt : ℤ} (hp : s.main = .collect i cnt)
    (hstep : s.main_step input = some s') : PoolInv s' := by
  obtain ⟨hi, hcnt⟩ := h.sum i cnt hp
  have hlog := h.log_inside (by rw [hp]; rfl)
  have hsum : to_int (cnt + s.thread_ret i) = collected (s.range_start, s.range_end) (i + 1) := by
    rw [collected, hcnt, (h.answered hp hi).2]
  simp only [Pool.main_step, hp, hsum] at hstep
  split at hstep
  · next hlt =>
    cases hstep
    refine of_after rfl nofun h.worker_lock h.unborn (h.running (by rw [hp]; nofun))
      (h.after (by rw [hp]; rfl)) (fun j hj => h.seen j (by rw [hp]; exact hj)) ?_ hlog
    intro j cnt' hcollect
    cases hcollect
    exact ⟨hlt, rfl⟩
  · -- The last count: the sum is printed, and all threads rest before the next round.
    next hge =>
    cases hstep
    have hlast : i + 1 = NUM_THREAD := by omega
    refine of_before rfl nofun h.worker_lock h.unborn nofun (h.running (by rw [hp]; nofun)) ?_
      nofun ?_
    · intro j
      rcases Nat.lt_or_ge j NUM_THREAD with hj | hj
      · exact .inr (h.answered hp hj).1
      · left
        show (s.worker j).started = false
        rw [h.unborn j hj]
        rfl
    · show s.ranges.map total = (s.printed ++ [collected _ (i + 1)]) ++ []
      rw [hlog, hlast, List.append_nil]
      rfl

theorem main_step (h : PoolInv s) (hready : ready s (.main input))
    (hstep : s.main_step input = some s') : PoolInv s' := by
  cases hp : s.main with
  | create i => exact h.create_step hp hstep
  | read => exact h.read_step hp hstep
  | reset i => exact h.reset_step hp hstep
  | finish =>
    have hlog := h.log_outside (by rw [hp]; rfl)
    simp only [Pool.main_step, hp, Option.some.injEq] at hstep
    subst hstep
    exact of_ending rfl nofun h.worker_lock h.unborn hlog
  | lock last => exact h.lock_step hp hstep
  | broadcast last =>
    refine h.broadcast_step hp (fun hlast => ?_) hstep
    exact hready (by rw [hp, hlast])
  | unlock last => exact h.unlock_step hp hstep
  | spin i => exact h.spin_step hp hstep
  | collect i cnt => exact h.collect_step hp hstep
  | join i =>
    have hlog := h.log_outside (by rw [hp]; rfl)
    simp only [Pool.main_step, hp, Option.ite_none_right_eq_some, Option.some.injEq] at hstep
    obtain ⟨-, rfl⟩ := hstep
    refine of_ending (loop_next_stage rfl) ?_ h.worker_lock h.unborn hlog
    intro hholds
    cases hholds.symm.trans (loop_next_holds rfl rfl)
  | ended => simp [Pool.main_step, hp] at hstep

theorem reachable (h : Reachable (prime_pool.restrict ready) s) : PoolInv s := by
  apply h.invariant
  · intro s heq
    subst heq
    exact of_before rfl nofun nofun (fun _ _ => rfl) (fun i hi => by cases hi; decide) rfl
      (fun _ => .inl rfl) nofun rfl
  · intro s l s' _ hinv hstep
    obtain ⟨hready, hstep⟩ := hstep
    cases l with
    | main input => exact hinv.main_step hready hstep.2.2
    | worker tid =>
      obtain ⟨pt, mutex, ret, hmove, rfl⟩ := hstep
      exact hinv.worker_step hmove

end PoolInv

/-! ## Section 4: No round is lost -/

/-- **No round is lost** if all threads have come to their first wait before the
    first broadcast. -/
theorem no_lost_round {s : Pool} (h : Reachable (prime_pool.restrict ready) s) (i : ℕ) :
    ¬ lost_round s i := by
  have hinv := PoolInv.reachable h
  rintro ⟨hmain, hret, hworker⟩
  rcases Nat.lt_or_ge i NUM_THREAD with hi | hi
  · rcases hinv.after (by rw [hmain]; rfl) i hi with ⟨hwork, -⟩ | ⟨-, hstored⟩
    · rw [hworker] at hwork
      exact hwork
    · have hnonneg := thread_result_nonneg (s.range_start, s.range_end) i
      omega
  · rw [hinv.unborn i hi] at hworker
    cases hworker

/-- The steps of `prime_pool` as a function. -/
def Pool.next (s : Pool) (l : Label) : Option Pool :=
  match l with
  | .main input => if is_int input.1 ∧ is_int input.2 then s.main_step input else none
  | .worker tid => (s.worker_move tid).map fun m => s.moved tid m.1 m.2.1 m.2.2

theorem step_of_next {s s' : Pool} {l : Label} (h : s.next l = some s') :
    prime_pool.step s l s' := by
  cases l with
  | main input =>
    simp only [Pool.next, Option.ite_none_right_eq_some] at h
    exact ⟨h.1.1, h.1.2, h.2⟩
  | worker tid =>
    simp only [Pool.next, Option.map_eq_some_iff] at h
    obtain ⟨⟨pt, mutex, ret⟩, hmove, rfl⟩ := h
    exact ⟨pt, mutex, ret, hmove, rfl⟩

/-- `main` creates the threads, reads the range from 2 to 11 and resets `thread_ret`. -/
def first_range : List Label := List.replicate 21 (.main (2, 11))

/-- `main` locks the mutex, wakes the threads and unlocks the mutex. -/
def wake_up : List Label := List.replicate 3 (.main (2, 11))

/-- Thread `tid` locks the mutex and goes to sleep. -/
def go_to_sleep (tid : ℕ) : List Label := [.worker tid, .worker tid]

/-- All threads sleep before the broadcast, and thread 0 is awake after it. -/
theorem no_lost_round_all_asleep :
    ∃ s, Reachable (prime_pool.restrict ready) s ∧ s.main = .spin 0 ∧ s.thread_ret 0 = -1 ∧
      ¬ lost_round s 0 := by
  obtain ⟨s, hreach, hs⟩ := Reachable.exec_guarded (fun _ _ _ => step_of_next) (s := Pool.start)
    rfl (fun s l => decide (ready s l))
    (first_range ++ (List.range NUM_THREAD).flatMap go_to_sleep ++ wake_up)
    (fun s => s.main = .spin 0 ∧ s.thread_ret 0 = -1) (by decide +kernel)
  obtain ⟨hmain, hret⟩ := of_decide_eq_true hs
  replace hreach := hreach.restrict_mono fun _ _ hok => of_decide_eq_true hok
  exact ⟨s, hreach, hmain, hret, no_lost_round hreach 0⟩

/-- A lost round stays lost: `main` spins, and nobody wakes the thread. -/
theorem lost_round_step {s s' : Pool} {l : Label} {i : ℕ} (h : lost_round s i)
    (hstep : prime_pool.step s l s') : lost_round s' i := by
  obtain ⟨hmain, hret, hworker⟩ := h
  cases l with
  | main input =>
    obtain ⟨-, -, hstep⟩ := hstep
    simp only [Pool.main_step, hmain, hret, if_true, Option.some.injEq] at hstep
    subst hstep
    exact ⟨hmain, hret, hworker⟩
  | worker tid =>
    obtain ⟨pt, mutex, ret, hmove, rfl⟩ := hstep
    have hne : i ≠ tid := by
      rintro rfl
      simp [Pool.worker_move, hworker] at hmove
    exact ⟨hmain, (moved_ret_ne hne).trans hret, (moved_worker_ne hne).trans hworker⟩

/-- Thread 0 comes to its first wait after the broadcast for the first range.  Then
    `main` spins on `thread_ret[0]`, and thread 0 sleeps, for ever. -/
theorem first_round_lost :
    ∃ s, Reachable prime_pool s ∧ lost_round s 0 ∧
      ∀ s', Relation.ReflTransGen prime_pool.next s s' → lost_round s' 0 := by
  obtain ⟨s, hreach, hs⟩ := Reachable.exec_any (fun _ _ _ => step_of_next) (s := Pool.start) rfl
    (first_range ++ wake_up ++ go_to_sleep 0)
    (fun s => s.main = .spin 0 ∧ s.thread_ret 0 = -1 ∧ s.worker 0 = .asleep) (by decide +kernel)
  obtain ⟨hmain, hret, hworker⟩ := of_decide_eq_true hs
  have hlost : lost_round s 0 := ⟨hmain, hret, hworker⟩
  refine ⟨s, hreach, hlost, ?_⟩
  intro s' hsteps
  induction hsteps with
  | refl => exact hlost
  | tail _ hnext ih =>
    obtain ⟨l, hl⟩ := hnext
    exact lost_round_step ih hl

/-- **Every sum is that of its range**: when `main` is between two rounds, it has
    printed the sums of all ranges that it has read. -/
theorem sums_printed {s : Pool} (h : Reachable (prime_pool.restrict ready) s)
    (hread : s.main = .read) : s.printed = s.ranges.map total :=
  ((PoolInv.reachable h).log_outside (by rw [hread]; rfl)).symm

end Lab04
