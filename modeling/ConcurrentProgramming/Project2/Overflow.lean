import ConcurrentProgramming.Project2.Serializability

/-! # The Overflow Checks (`transaction.cc`, `main.cc`)

    After each of its two assignments a transaction looks for an overflow and
    calls `exit(1)` if it finds one; `main` prints "No overflow!" after it has
    joined all threads.

    Each check looks for one combination of signs: the sum of two positive
    numbers, and a negative number minus a positive one.  Records of both signs
    occur, and a sum or a difference of the other combinations can wrap around
    too.  If none does (`Program.unchecked`), the log files are those of an
    execution over unbounded integers; otherwise they need not be
    (`overflow_not_caught`).
-/

namespace Project2

open LTS

/-! ## Section 1: Replay over unbounded integers -/

/-- `redo` over unbounded integers: the records after the transaction, and the
    values of `i`, `j` and `k`. -/
def exact_redo (records : ℕ → ℤ) (log : LogLine) : (ℕ → ℤ) × ℤ × ℤ × ℤ :=
  let value_of_i := records log.i
  let records := Function.update records log.j (records log.j + (value_of_i + 1))
  let value_of_j := records log.j
  let records := Function.update records log.k (records log.k - value_of_i)
  let value_of_k := records log.k
  (records, value_of_i, value_of_j, value_of_k)

/-- The records at the start. -/
def exact_initial : ℕ → ℤ := fun _ => 100

/-- The records after all transactions. -/
def exact_records (records : ℕ → ℤ) (logs : List LogLine) : ℕ → ℤ :=
  logs.foldl (fun m log => (exact_redo m log).1) records

/-- The values of all transactions. -/
def exact_values : (ℕ → ℤ) → List LogLine → List (ℤ × ℤ × ℤ)
  | _, [] => []
  | records, log :: logs =>
      (exact_redo records log).2 :: exact_values (exact_redo records log).1 logs

/-- The values in a line of a log file. -/
def LogLine.values (log : LogLine) : ℤ × ℤ × ℤ :=
  (log.value_of_i.toInt, log.value_of_j.toInt, log.value_of_k.toInt)

theorem exact_records_concat (m : ℕ → ℤ) (logs : List LogLine) (log : LogLine) :
    exact_records m (logs ++ [log]) = (exact_redo (exact_records m logs) log).1 := by
  simp [exact_records]

theorem exact_values_concat (m : ℕ → ℤ) (logs : List LogLine) (log : LogLine) :
    exact_values m (logs ++ [log]) =
      exact_values m logs ++ [(exact_redo (exact_records m logs) log).2] := by
  induction logs generalizing m with
  | nil => rfl
  | cons first rest ih =>
    show (exact_redo m first).2 :: exact_values (exact_redo m first).1 (rest ++ [log]) = _
    rw [ih]
    rfl

/-- Neither the first write of the transaction nor its operand wraps around. -/
def first_exact (S : ℕ → BitVec 64) (log : log_t) : Prop :=
  ¬ log.value_of_i.saddOverflow 1 ∧ ¬ (S log.j).saddOverflow (log.value_of_i + 1)

/-- The second write does not wrap around. -/
def second_exact (S : ℕ → BitVec 64) (log : log_t) : Prop :=
  ¬ (S log.k).ssubOverflow log.value_of_i

/-- A transaction without overflow is the same over unbounded integers. -/
theorem exact_redo_eq {R : ℕ} {S : ℕ → BitVec 64} {X : ℕ → ℤ} (log : log_t)
    (hids : DistinctIds R log.i log.j log.k) (hread : read_done S log)
    (hfirst : first_exact S log) (hsecond : second_exact S log) (hagree : ∀ r, (S r).toInt = X r) :
    (∀ r, ((redo S (Program.line log)).1 r).toInt = (exact_redo X (Program.line log)).1 r) ∧
      (redo S (Program.line log)).2.values = (exact_redo X (Program.line log)).2 := by
  obtain ⟨hone, hsum⟩ := hfirst
  rw [hread] at hone hsum
  have hdiff : ¬ (S log.k).ssubOverflow (S log.i) := by
    rw [← hread]
    exact hsecond
  have hj : (S log.j + (S log.i + 1)).toInt = X log.j + (X log.i + 1) := by
    rw [BitVec.toInt_add_of_not_saddOverflow hsum, BitVec.toInt_add_of_not_saddOverflow hone,
      hagree, hagree]
    rfl
  have hk : (S log.k - S log.i).toInt = X log.k - X log.i := by
    rw [BitVec.toInt_sub_of_not_ssubOverflow hdiff, hagree, hagree]
  constructor
  · intro r
    rw [redo_records hids]
    by_cases hrk : r = log.k
    · subst hrk
      simp [exact_redo, Program.line, hids.k_ne_j, hk]
    · by_cases hrj : r = log.j
      · subst hrj
        refine (congrArg BitVec.toInt ((if_neg hrk).trans (if_pos rfl))).trans (hj.trans ?_)
        simp [exact_redo, Program.line, hrk]
      · simp [exact_redo, Program.line, hrk, hrj, hagree]
  · refine Prod.ext (hagree _) (Prod.ext ?_ ?_)
    · simpa only [redo, exact_redo, Program.line, LogLine.values, Function.update_self] using hj
    · simpa [redo, exact_redo, Program.line, LogLine.values, hids.k_ne_j] using hk

/-! ## Section 2: Watching the arithmetic -/

/-- The next step of thread `tid` adds or subtracts with wrap-around.  For the
    critical sections that can roll back, the arithmetic of `rollback` counts,
    whether it is reached or not. -/
def Program.wraps (s : Program) (tid : ℕ) : Bool :=
  let th := s.thread tid
  let log := th.log
  let undo_j := log.value_of_i.saddOverflow 1 ||
    (s.records log.j).ssubOverflow (log.value_of_i + 1)
  match th.point with
  | .old_j => log.value_of_i.saddOverflow 1
  | .store_j => log.value_of_i.saddOverflow 1 || th.loaded.saddOverflow (log.value_of_i + 1)
  | .second_lock | .second_wait => undo_j
  | .store_k => th.loaded.ssubOverflow log.value_of_i
  | .commit => (s.records log.k).saddOverflow log.value_of_i || undo_j
  | _ => false

/-- The program, and whether some addition or subtraction has wrapped around. -/
structure Watched where
  program : Program
  wrapped : Bool

def watch (cfg : Config) : System Watched (ℕ × ℕ × ℕ × ℕ) where
  init := fun w => (transactions cfg).init w.program ∧ w.wrapped = false
  step := fun w l w' =>
    (transactions cfg).step w.program l w'.program ∧
      w'.wrapped = (w.wrapped || w.program.wraps l.1)

/-- The next step of thread `tid` is an overflow that the check after it does
    not look for. -/
def Program.unchecked (s : Program) (tid : ℕ) : Bool :=
  let th := s.thread tid
  match th.point with
  | .old_j => th.log.value_of_i.saddOverflow 1
  | .store_j =>
      th.loaded.saddOverflow (th.log.value_of_i + 1) &&
        !decide (0 < th.loaded.toInt ∧ 0 < (th.log.value_of_i + 1).toInt)
  | .store_k =>
      th.loaded.ssubOverflow th.log.value_of_i &&
        !decide (th.loaded.toInt < 0 ∧ 0 < th.log.value_of_i.toInt)
  | _ => false

/-! ## Section 3: What the checks look for -/

section signs
variable {x y : BitVec 64}

/-- The check after the first assignment finds its overflow. -/
theorem add_overflow_neg (hx : 0 < x.toInt) (hy : 0 < y.toInt) (h : x.saddOverflow y) :
    (x + y).toInt < 0 := by
  have hxlt := x.toInt_lt
  have hylt := y.toInt_lt
  rw [BitVec.toInt_add, Int.bmod_def]
  simp only [BitVec.saddOverflow, Bool.or_eq_true, decide_eq_true_eq] at h
  omega

/-- The check after the second assignment finds its overflow. -/
theorem sub_overflow_pos (hx : x.toInt < 0) (hy : 0 < y.toInt) (h : x.ssubOverflow y) :
    (-y).toInt < 0 ∧ 0 < (x - y).toInt := by
  have hxle := x.le_toInt
  have hylt := y.toInt_lt
  rw [BitVec.toInt_neg, BitVec.toInt_sub, Int.bmod_def, Int.bmod_def]
  simp only [BitVec.ssubOverflow, Bool.or_eq_true, decide_eq_true_eq] at h
  omega

/-- Undoing an exact sum is exact. -/
theorem undo_add_exact (h : ¬ x.saddOverflow y) : (x + y).ssubOverflow y = false := by
  have hxlt := x.toInt_lt
  have hxle := x.le_toInt
  unfold BitVec.ssubOverflow
  rw [BitVec.toInt_add_of_not_saddOverflow h]
  simp only [Bool.or_eq_false_iff, decide_eq_false_iff_not]
  omega

/-- Undoing an exact difference is exact. -/
theorem undo_sub_exact (h : ¬ x.ssubOverflow y) : (x - y).saddOverflow y = false := by
  have hxlt := x.toInt_lt
  have hxle := x.le_toInt
  unfold BitVec.saddOverflow
  rw [BitVec.toInt_sub_of_not_ssubOverflow h]
  simp only [Bool.or_eq_false_iff, decide_eq_false_iff_not]
  omega

end signs

/-! ## Section 4: Exact transactions -/

/-- The operands of the first assignment, as the check after it sees them. -/
def first_operands (S : ℕ → BitVec 64) (th : Thread) : Prop :=
  ¬ th.log.value_of_i.saddOverflow 1 ∧ th.old_value = S th.log.j ∧
    th.target_value = th.log.value_of_i + 1

/-- The operands of the second assignment. -/
def second_operands (S : ℕ → BitVec 64) (th : Thread) : Prop :=
  first_exact S th.log ∧ th.old_value = S th.log.k ∧ th.target_value = - th.log.value_of_i

/-- What holds at a point, where `S` are the records of the committed
    transactions: what has not been checked yet will be found. -/
def exact_ok (S : ℕ → BitVec 64) (th : Thread) : Prop :=
  match th.point with
  | .load_j | .store_j => first_operands S th
  | .result_j => first_operands S th ∧ ((S th.log.j).saddOverflow (th.log.value_of_i + 1) →
      0 < (S th.log.j).toInt ∧ 0 < (th.log.value_of_i + 1).toInt)
  | .second_lock | .second_wait | .old_k => first_exact S th.log
  | .load_k | .store_k => second_operands S th
  | .result_k => second_operands S th ∧ ((S th.log.k).ssubOverflow th.log.value_of_i →
      (S th.log.k).toInt < 0 ∧ 0 < th.log.value_of_i.toInt)
  | .commit => first_exact S th.log ∧ second_exact S th.log
  | _ => True

/-- The thread is between an overflow and the check that finds it. -/
def doomed (S : ℕ → BitVec 64) (th : Thread) : Prop :=
  match th.point with
  | .result_j => (S th.log.j).saddOverflow (th.log.value_of_i + 1)
  | .result_k => (S th.log.k).ssubOverflow th.log.value_of_i
  | _ => False

theorem Thread.idle.exact {th : Thread} (h : th.idle) (S : ℕ → BitVec 64) : exact_ok S th := by
  rcases h with hp | hp <;> simp [exact_ok, hp]

section frame
variable {S S' : ℕ → BitVec 64} {th : Thread}

/-- The facts at a point only depend on the locked records. -/
theorem exact_ok.frame (h : exact_ok S th) (hagree : ∀ held ∈ th.holds, S' held.2 = S held.2) :
    exact_ok S' th := by
  unfold exact_ok at h ⊢
  unfold Thread.holds at hagree
  cases hp : th.point <;> simp only [hp] at h hagree ⊢ <;>
    simp_all [first_operands, second_operands, first_exact, second_exact]

theorem doomed.frame (h : doomed S th) (hagree : ∀ held ∈ th.holds, S' held.2 = S held.2) :
    doomed S' th := by
  unfold doomed at h ⊢
  unfold Thread.holds at hagree
  cases hp : th.point <;> simp only [hp] at h hagree ⊢ <;> simp_all

/-- A thread before a check has locks. -/
theorem doomed.holds (h : doomed S th) : (.READ, th.log.i) ∈ th.holds := by
  unfold doomed at h
  unfold Thread.holds
  cases hp : th.point <;> simp only [hp] at h ⊢ <;> simp_all

end frame

section step
variable {cfg : Config} {S : ℕ → BitVec 64} {s s' : Program} {tid i j k : ℕ}

theorem exact_ok.of_update {th : Thread} (hthread : s'.thread = Function.update s.thread tid th)
    (h : exact_ok S th) : exact_ok S (s'.thread tid) := by
  rwa [hthread, Function.update_self]

/-- A critical section with a lock call leaves the local variables alone. -/
theorem exact_ok.lock_section {call : Except Failure (CallResult × rw_lock_table)}
    {acquired asleep : Point} (hstep : s.lock_section tid call acquired asleep = .ok s')
    (hacquired : exact_ok S { s.thread tid with point := acquired })
    (hasleep : exact_ok S { s.thread tid with point := asleep }) : exact_ok S (s'.thread tid) := by
  rcases Program.lock_section_cases hstep with ⟨lt, -, rfl⟩ | ⟨lt, -, rfl⟩ | ⟨lt, sh, -, -, rfl⟩
  · exact exact_ok.of_update rfl hacquired
  · exact exact_ok.of_update rfl hasleep
  · exact exact_ok.of_update rfl trivial

/-- A value that a check has let pass is exact. -/
theorem first_exact_of_check (hdata : first_done S s.records (s.thread tid).log)
    (h : first_operands S (s.thread tid) ∧
      ((S (s.thread tid).log.j).saddOverflow ((s.thread tid).log.value_of_i + 1) →
        0 < (S (s.thread tid).log.j).toInt ∧ 0 < ((s.thread tid).log.value_of_i + 1).toInt))
    (hcheck : ¬ (0 < (s.thread tid).old_value.toInt ∧ 0 < (s.thread tid).target_value.toInt ∧
      (s.records (s.thread tid).log.j).toInt < 0)) : first_exact S (s.thread tid).log := by
  obtain ⟨⟨hone, hold, htarget⟩, hsigns⟩ := h
  refine ⟨hone, fun hover => hcheck ?_⟩
  obtain ⟨hj, hi⟩ := hsigns hover
  rw [hold, htarget, hdata.2, ← hdata.1]
  exact ⟨hj, hi, add_overflow_neg hj hi hover⟩

theorem second_exact_of_check (hdata : second_done S s.records (s.thread tid).log)
    (h : second_operands S (s.thread tid) ∧
      ((S (s.thread tid).log.k).ssubOverflow (s.thread tid).log.value_of_i →
        (S (s.thread tid).log.k).toInt < 0 ∧ 0 < (s.thread tid).log.value_of_i.toInt))
    (hcheck : ¬ ((s.thread tid).old_value.toInt < 0 ∧ (s.thread tid).target_value.toInt < 0 ∧
      0 < (s.records (s.thread tid).log.k).toInt)) : second_exact S (s.thread tid).log := by
  obtain ⟨⟨-, hold, htarget⟩, hsigns⟩ := h
  intro hover
  apply hcheck
  obtain ⟨hk, hi⟩ := hsigns hover
  obtain ⟨hneg, hpos⟩ := sub_overflow_pos hk hi hover
  rw [hold, htarget, hdata.2, ← hdata.1.1.1]
  exact ⟨hk, hneg, hpos⟩

/-- A step keeps the facts about its own thread, for the old records. -/
theorem exact_ok.own_step (hdata : DataInv cfg S s) (h : exact_ok S (s.thread tid))
    (hchecked : s.unchecked tid = false) (hstep : thread_step cfg s tid i j k s') :
    exact_ok S (s'.thread tid) := by
  unfold thread_step at hstep
  have hvalues := hdata.thread tid
  unfold data_ok at hvalues
  unfold exact_ok at h
  unfold Program.unchecked at hchecked
  cases hp : (s.thread tid).point with
  | loop_head =>
    rw [hp] at hstep
    rcases hstep with ⟨-, -, rfl⟩ | ⟨-, rfl⟩
    · exact exact_ok.of_update rfl trivial
    · exact exact_ok.of_update rfl trivial
  | read_lock | read_wait | first_lock | first_wait =>
    rw [hp] at hstep
    exact exact_ok.lock_section hstep trivial trivial
  | second_lock | second_wait =>
    rw [hp] at hstep h
    exact exact_ok.lock_section hstep h h
  | read_i =>
    rw [hp] at hstep
    subst hstep
    exact exact_ok.of_update rfl trivial
  | old_j =>
    rw [hp] at hstep
    simp only [hp] at hchecked
    subst hstep
    have hold := hdata.read_committed tid (s.thread tid).log.j .FIRST_WRITE
      (by simp [Thread.holds, hp]) (by simp [Thread.dirty, hp])
    exact exact_ok.of_update rfl ⟨Bool.eq_false_iff.mp hchecked, hold, rfl⟩
  | load_j =>
    rw [hp] at hstep h
    subst hstep
    exact exact_ok.of_update rfl h
  | store_j =>
    rw [hp] at hstep h hvalues
    simp only [hp, hvalues.2] at hchecked
    subst hstep
    -- If it wraps around, then with the signs that the check looks for.
    refine exact_ok.of_update rfl ⟨h, fun hover => ?_⟩
    rw [hover, Bool.true_and, Bool.not_eq_false', decide_eq_true_eq] at hchecked
    exact hchecked
  | result_j =>
    rw [hp] at hstep h hvalues
    subst hstep
    unfold Program.result_j
    dsimp only
    split
    · exact exact_ok.of_update rfl trivial
    · next hcheck => exact exact_ok.of_update rfl (first_exact_of_check hvalues h hcheck)
  | old_k =>
    rw [hp] at hstep h
    subst hstep
    have hids := (hdata.link.log tid (by simp [Thread.idle, hp])).ids
    have hold := hdata.read_committed tid (s.thread tid).log.k .SECOND_WRITE
      (by simp [Thread.holds, hp]) (by simp [Thread.dirty, hp, hids.k_ne_j])
    exact exact_ok.of_update rfl ⟨h, hold, rfl⟩
  | load_k =>
    rw [hp] at hstep h
    subst hstep
    exact exact_ok.of_update rfl h
  | store_k =>
    rw [hp] at hstep h hvalues
    simp only [hp, hvalues.2] at hchecked
    subst hstep
    -- If it wraps around, then with the signs that the check looks for.
    refine exact_ok.of_update rfl ⟨h, fun hover => ?_⟩
    rw [hover, Bool.true_and, Bool.not_eq_false', decide_eq_true_eq] at hchecked
    exact hchecked
  | result_k =>
    rw [hp] at hstep h hvalues
    subst hstep
    unfold Program.result_k
    dsimp only
    split
    · exact exact_ok.of_update rfl trivial
    · next hcheck =>
      exact exact_ok.of_update rfl ⟨h.1.1, second_exact_of_check hvalues h hcheck⟩
  | commit =>
    rw [hp] at hstep
    rcases Program.commit_cases hstep with ⟨-, sh, -, rfl⟩ | ⟨-, sh, -, rfl⟩
    · exact exact_ok.of_update rfl trivial
    · exact exact_ok.of_update rfl trivial
  | terminated | exited =>
    rw [hp] at hstep
    exact absurd hstep id

/-- The only step with unnoticed wrap-around is the store before a check. -/
theorem doomed_of_wraps (hdata : DataInv cfg S s) (h : exact_ok S (s.thread tid))
    (hchecked : s.unchecked tid = false) (hstep : thread_step cfg s tid i j k s')
    (hwraps : s.wraps tid) : doomed S (s'.thread tid) := by
  unfold thread_step at hstep
  have hvalues := hdata.thread tid
  unfold data_ok at hvalues
  unfold exact_ok at h
  unfold Program.unchecked at hchecked
  unfold Program.wraps at hwraps
  cases hp : (s.thread tid).point <;> simp only [hp] at hstep h hvalues hchecked hwraps
  case old_j =>
    rw [hchecked] at hwraps
    cases hwraps
  case store_j =>
    subst hstep
    rw [Bool.or_eq_true, or_iff_right h.1, hvalues.2] at hwraps
    simpa [Program.store, Program.set_thread, doomed] using hwraps
  case store_k =>
    subst hstep
    rw [hvalues.2] at hwraps
    simpa [Program.store, Program.set_thread, doomed] using hwraps
  case second_lock | second_wait =>
    -- Undoing the first write is exact.
    obtain ⟨⟨hread, hj⟩, -⟩ := hvalues
    rw [hj, ← hread, undo_add_exact h.2, Bool.or_false] at hwraps
    exact absurd hwraps h.1
  case commit =>
    obtain ⟨⟨⟨⟨hread, hj⟩, -⟩, hk⟩, -⟩ := hvalues
    rw [hj, hk, ← hread, undo_add_exact h.1.2, undo_sub_exact h.2, Bool.or_false,
      Bool.false_or] at hwraps
    exact absurd hwraps h.1.1
  all_goals simp at hwraps

/-- The check finds the overflow before it. -/
theorem exited_of_doomed (hdata : DataInv cfg S s) (h : exact_ok S (s.thread tid))
    (hstep : thread_step cfg s tid i j k s') (hdoomed : doomed S (s.thread tid)) :
    s'.exited = true := by
  unfold thread_step at hstep
  have hvalues := hdata.thread tid
  unfold data_ok at hvalues
  unfold exact_ok at h
  unfold doomed at hdoomed
  cases hp : (s.thread tid).point <;> simp only [hp] at hstep h hvalues hdoomed
  case result_j =>
    subst hstep
    unfold Program.result_j
    dsimp only
    split
    · rfl
    · next hcheck => exact absurd hdoomed (first_exact_of_check hvalues h hcheck).2
  case result_k =>
    subst hstep
    unfold Program.result_k
    dsimp only
    split
    · rfl
    · next hcheck => exact absurd hdoomed (second_exact_of_check hvalues h hcheck)

end step

/-! ## Section 5: The log files are exact -/

/-- `wrapped` is noticed: by the check to come, or by one that has called
    `exit(1)`. -/
structure OverflowInv (cfg : Config) (w : Watched) : Prop where
  data    : DataInv cfg (replay_records initial_records w.program.committed) w.program
  exact   : ∀ t, exact_ok (replay_records initial_records w.program.committed) (w.program.thread t)
  records : ∀ r, (replay_records initial_records w.program.committed r).toInt =
    exact_records exact_initial w.program.committed r
  values  : w.program.committed.map LogLine.values =
    exact_values exact_initial w.program.committed
  noticed : w.wrapped = true → w.program.exited = true ∨
    ∃ t, doomed (replay_records initial_records w.program.committed) (w.program.thread t)

theorem overflow_inv_init {cfg : Config} {w : Watched} (h : (watch cfg).init w) :
    OverflowInv cfg w := by
  obtain ⟨hinit, hwrapped⟩ := h
  have hdata := (history_inv_init hinit).data
  obtain ⟨-, -, -, hthread, -, hcommitted, -⟩ := hinit
  refine ⟨hdata, ?_, ?_, ?_, ?_⟩
  · intro t
    rw [hthread]
    trivial
  · intro r
    rw [hcommitted]
    rfl
  · rw [hcommitted]
    rfl
  · intro h
    rw [hwrapped] at h
    cases h

section step
variable {cfg : Config} {w w' : Watched} {tid i j k : ℕ}

/-- The step of a thread, for the part of the invariant about the log files. -/
theorem OverflowInv.log_step (h : OverflowInv cfg w)
    (hstep : thread_step cfg w.program tid i j k w'.program) :
    (∀ r, (replay_records initial_records w'.program.committed r).toInt =
        exact_records exact_initial w'.program.committed r) ∧
      w'.program.committed.map LogLine.values =
        exact_values exact_initial w'.program.committed := by
  rcases committed_cases hstep with hsame | ⟨hp, -, id, hnew⟩
  · rw [hsame]
    exact ⟨h.records, h.values⟩
  · have hexact := h.exact tid
    have hvalues := h.data.thread tid
    simp only [exact_ok, data_ok, hp] at hexact hvalues
    obtain ⟨hdone, hk⟩ := hvalues
    have hids := (h.data.link.log tid (by simp [Thread.idle, hp])).ids
    -- `commit_id` is not used by the replay.
    obtain ⟨hrec, hval⟩ := exact_redo_eq { (w.program.thread tid).log with commit_id := id }
      hids hdone.1.1.1 hexact.1 hexact.2 h.records
    have hline := @redo_line _ _ _ { (w.program.thread tid).log with commit_id := id }
      hids hdone hk
    rw [hnew, replay_records_concat, exact_records_concat, exact_values_concat, List.map_append,
      h.values]
    refine ⟨hrec, ?_⟩
    rw [← hval, hline]
    rfl

theorem OverflowInv.step (h : OverflowInv cfg w) (ht : 1 ≤ tid ∧ tid < cfg.N)
    (hrunning : w.program.exited = false) (hchecked : w.program.unchecked tid = false)
    (hstep : thread_step cfg w.program tid i j k w'.program)
    (hwrapped : w'.wrapped = (w.wrapped || w.program.wraps tid)) : OverflowInv cfg w' := by
  obtain ⟨hdata, th, hthread⟩ := h.data.replay_step ht hstep
  obtain ⟨hrecords, hvalues⟩ := h.log_step hstep
  have hother : ∀ t, t ≠ tid → w'.program.thread t = w.program.thread t := by
    intro t htt
    rw [hthread, Function.update_of_ne htt]
  refine ⟨hdata, ?_, hrecords, hvalues, ?_⟩
  · intro t
    by_cases htt : t = tid
    · subst htt
      have hown := exact_ok.own_step h.data (h.exact t) hchecked hstep
      rcases committed_cases hstep with hsame | ⟨-, hidle, -⟩
      · rwa [hsame]
      · exact hidle.exact _
    · rw [hother t htt]
      exact (h.exact t).frame (committed_frame h.data hstep htt)
  · intro hnow
    rw [hwrapped, Bool.or_eq_true] at hnow
    rcases hnow with hbefore | hwraps
    · -- The overflow was before this step, and its check is still to come.
      rcases h.noticed hbefore with hexited | ⟨t, hdoomed⟩
      · rw [hrunning] at hexited
        cases hexited
      · by_cases htt : t = tid
        · subst htt
          exact .inl (exited_of_doomed h.data (h.exact t) hstep hdoomed)
        · refine .inr ⟨t, ?_⟩
          rw [hother t htt]
          exact hdoomed.frame (committed_frame h.data hstep htt)
    · refine .inr ⟨tid, ?_⟩
      have hdoomed := doomed_of_wraps h.data (h.exact tid) hchecked hstep hwraps
      rcases committed_cases hstep with hsame | ⟨-, hidle, -⟩
      · rwa [hsame]
      · rcases hidle with hp | hp <;> simp [doomed, hp] at hdoomed

end step

theorem overflow_inv_reachable {cfg : Config} {w : Watched}
    (h : Reachable ((watch cfg).restrict fun w l => w.program.unchecked l.1 = false) w) :
    OverflowInv cfg w := by
  apply h.invariant
  · intro w hinit
    exact overflow_inv_init hinit
  · intro w l w' _ hinv hstep
    obtain ⟨tid, i, j, k⟩ := l
    obtain ⟨hchecked, hmove, hwrapped⟩ := hstep
    obtain ⟨hrunning, hpos, hlt, hstep⟩ := hmove
    exact hinv.step ⟨hpos, hlt⟩ hrunning hchecked hstep hwrapped

/-- A run of the watched program is a run of the program. -/
theorem watch_program {cfg : Config} {w : Watched} (h : Reachable (watch cfg) w) :
    Reachable (transactions cfg) w.program := by
  induction h with
  | init hinit => exact Reachable.init hinit.1
  | step _ hstep ih => exact ih.step hstep.1

/-- **Overflow is caught** in every run without an overflow that no check looks
    for.  As long as no thread has called `exit(1)`, the values in the log files
    are those of the execution over unbounded integers in commit order; and if
    all threads have returned, so that `main` prints "No overflow!", no addition
    or subtraction has wrapped around. -/
theorem overflow_caught {args : Arguments} {w : Watched}
    (h : Reachable ((watch args.toConfig).restrict fun w l => w.program.unchecked l.1 = false) w)
    (hexited : w.program.exited = false) :
    (w.program.logs args.toConfig).map LogLine.values =
        exact_values exact_initial (w.program.logs args.toConfig) ∧
      ((∀ t, 1 ≤ t → t < args.N → (w.program.thread t).point = .terminated) →
        w.wrapped = false) := by
  have hinv := overflow_inv_reachable h
  rw [Program.logs_eq_committed (watch_program h.of_restrict)]
  refine ⟨hinv.values, ?_⟩
  intro hreturned
  rw [← Bool.not_eq_true]
  intro hwrapped
  rcases hinv.noticed hwrapped with hexit | ⟨t, hdoomed⟩
  · rw [hexited] at hexit
    cases hexit
  · obtain ⟨hpos, hlt⟩ := hinv.data.link.link.holder_lt hdoomed.holds
    simp [doomed, hreturned t hpos hlt] at hdoomed

/-- The step with a given label, and whether it wraps around. -/
def Watched.next (cfg : Config) (w : Watched) (l : ℕ × ℕ × ℕ × ℕ) : Option Watched :=
  (w.program.next cfg l).map fun s' => ⟨s', w.wrapped || w.program.wraps l.1⟩

theorem watch_step_of_next {cfg : Config} {w w' : Watched} {l : ℕ × ℕ × ℕ × ℕ}
    (h : w.next cfg l = some w') : (watch cfg).step w l w' := by
  obtain ⟨s', hs', rfl⟩ := Option.map_eq_some_iff.mp h
  exact ⟨step_of_next hs', rfl⟩

/-- Two transactions commit, the third one comes too late, and both threads return. -/
def two_returns : List (ℕ × ℕ × ℕ × ℕ) :=
  two_commits ++ List.replicate 14 duo_first ++ [duo_second]

theorem overflow_caught_two_transactions :
    ∃ w : Watched, w.program.log_file 1 = [⟨1, 0, 1, 2, 100, 201, 0⟩] ∧
      w.program.log_file 2 = [⟨2, 1, 0, 2, 201, 302, -201⟩] ∧
      (w.program.logs duo_arguments.toConfig).map LogLine.values =
        exact_values exact_initial (w.program.logs duo_arguments.toConfig) ∧
      w.wrapped = false := by
  obtain ⟨w, hreach, h⟩ : ∃ w, Reachable ((watch duo_arguments.toConfig).restrict
      fun w l => (!w.program.unchecked l.1) = true) w ∧ _ :=
    Reachable.exec_guarded (fun _ _ _ => watch_step_of_next)
      (s := ⟨Program.start duo_config, false⟩)
      ⟨⟨rfl, fun _ => rfl, rfl, fun _ => rfl, fun _ => rfl, rfl, rfl⟩, rfl⟩
      (fun w l => !w.program.unchecked l.1) two_returns
      (fun w => decide (w.program.log_file 1 = [⟨1, 0, 1, 2, 100, 201, 0⟩] ∧
        w.program.log_file 2 = [⟨2, 1, 0, 2, 201, 302, -201⟩] ∧ w.program.exited = false ∧
        (w.program.thread 1).point = .terminated ∧ (w.program.thread 2).point = .terminated))
      (by decide +kernel)
  obtain ⟨hfile₁, hfile₂, hexited, hp₁, hp₂⟩ := of_decide_eq_true h
  obtain ⟨hvalues, hwrapped⟩ := overflow_caught
    (hreach.restrict_mono fun w l hl => by simpa using hl) hexited
  refine ⟨w, hfile₁, hfile₂, hvalues, hwrapped ?_⟩
  intro t hpos hlt
  rcases duo_worker hpos hlt with rfl | rfl
  · exact hp₁
  · exact hp₂

/-! ## Section 6: An overflow that is not caught

    One thread, three records.  Adding records 0 and 1 to each other makes both
    grow like Fibonacci numbers, while record 2 goes the same way below zero.
    When record 2 is subtracted from record 1 at last, the difference is too
    large, and its sign is not one that the check looks for.
-/

/-- One worker thread, three records, 80 transactions. -/
def long_arguments : Arguments := ⟨⟨1, 3, 80⟩, by decide, by decide⟩

theorem long_step {s s' : Program} (i j k : ℕ)
    (h : Reachable (transactions long_arguments.toConfig) s) (hexited : s.exited = false)
    (hstep : thread_step long_arguments.toConfig s 1 i j k s') :
    Reachable (transactions long_arguments.toConfig) s' :=
  h.step (l := (1, i, j, k)) ⟨hexited, by decide, by decide, hstep⟩

/-- The ids of the transactions in the run. -/
def long_ids (n : ℕ) : ℕ × ℕ × ℕ :=
  if n = 79 then (2, 0, 1) else if n % 2 = 0 then (0, 1, 2) else (1, 0, 2)

/-- The transactions of the run, without their values. -/
def long_run : List LogLine :=
  (List.range 80).map fun n => ⟨n + 1, (long_ids n).1, (long_ids n).2.1, (long_ids n).2.2, 0, 0, 0⟩

/-- The checks let the transaction pass. -/
def passes (m : ℕ → BitVec 64) (i j k : ℕ) : Prop :=
  ¬ (0 < (m j).toInt ∧ 0 < (m i + 1).toInt ∧ (m j + (m i + 1)).toInt < 0) ∧
    ¬ ((m k).toInt < 0 ∧ (- m i).toInt < 0 ∧ 0 < (m k - m i).toInt)

instance (m : ℕ → BitVec 64) (i j k : ℕ) : Decidable (passes m i j k) :=
  inferInstanceAs (Decidable (_ ∧ _))

/-- The thread is between two transactions, and the locks are free. -/
structure AtRest (m : ℕ → BitVec 64) (n : ℕ) (logs : List LogLine) (s : Program) : Prop where
  reachable : Reachable (transactions long_arguments.toConfig) s
  running   : s.exited = false
  point     : (s.thread 1).point = .loop_head
  lt        : s.lt = rw_lock_table.init 2
  records   : s.records = m
  order     : s.global_execution_order = n
  committed : s.committed = logs

/-- The thread has executed the transaction `log` on the records `m` and is
    about to commit it. -/
structure AtCommit (m : ℕ → BitVec 64) (n : ℕ) (logs : List LogLine) (log : LogLine)
    (s : Program) : Prop where
  reachable : Reachable (transactions long_arguments.toConfig) s
  running   : s.exited = false
  point     : (s.thread 1).point = .commit
  order     : s.global_execution_order = n
  records   : s.records = (redo m log).1
  committed : s.committed = logs
  line      : Program.line { (s.thread 1).log with commit_id := log.commit_id } = (redo m log).2
  release   : ∀ id, s.shared.release_locks { (s.thread 1).log with commit_id := id } =
    .ok ⟨rw_lock_table.init 2, s.records⟩
  rollback  : ∀ id, ∃ sh, s.shared.rollback { (s.thread 1).log with commit_id := id } = .ok sh

section long
variable {m : ℕ → BitVec 64} {n : ℕ} {logs : List LogLine} {log : LogLine} {s : Program}

/-- A lock that is granted at once. -/
theorem Program.lock_section_granted {s : Program} {tid : ℕ} {lt : rw_lock_table}
    {call : Except Failure (CallResult × rw_lock_table)} {acquired asleep : Project2.Point}
    (h : call = .ok (.returned true, lt)) :
    s.lock_section tid call acquired asleep = .ok (s.resume tid ⟨lt, s.records⟩ acquired) := by
  rw [h]
  rfl

/-- The lock calls of a transaction when nobody else is there.  The ids are
    numerals, so the lock table computes. -/
theorem lone_locks {i j k : ℕ} (hids : (i, j, k) ∈ [(0, 1, 2), (1, 0, 2), (2, 0, 1)]) :
    ∃ lt₁ lt₂ lt₃,
      (rw_lock_table.init 2).rdlock 1 i = .ok (.returned true, lt₁) ∧
      lt₁.wrlock 1 .FIRST_WRITE j = .ok (.returned true, lt₂) ∧
      lt₂.wrlock 1 .SECOND_WRITE k = .ok (.returned true, lt₃) ∧
      (∃ lt₄ lt₅, lt₃.unlock 1 i = .ok lt₄ ∧ lt₄.unlock 1 j = .ok lt₅ ∧
        lt₅.unlock 1 k = .ok (rw_lock_table.init 2)) ∧
      ∃ lt₄ lt₅ lt₆, lt₃.unlock 1 k = .ok lt₄ ∧ lt₄.unlock 1 j = .ok lt₅ ∧
        lt₅.unlock 1 i = .ok lt₆ := by
  simp only [List.mem_cons, Prod.mk.injEq, List.not_mem_nil, or_false] at hids
  rcases hids with ⟨rfl, rfl, rfl⟩ | ⟨rfl, rfl, rfl⟩ | ⟨rfl, rfl, rfl⟩
  all_goals
    refine ⟨_, _, _, rfl, rfl, rfl, ⟨_, _, rfl, rfl, ?_⟩, _, _, _, rfl, rfl, rfl⟩
    refine Eq.trans (b := .ok _) rfl (congrArg Except.ok ?_)
    refine (rw_lock_table.mk.injEq ..).mpr ⟨?_, ?_, ?_, rfl, rfl⟩ <;>
      funext r <;> rcases r with _ | _ | _ | r <;> rfl

theorem Shared.unlock_ok {sh : Shared} {tid r : ℕ} {lt : rw_lock_table}
    (h : sh.lt.unlock tid r = .ok lt) : sh.unlock tid r = .ok ⟨lt, sh.records⟩ := by
  unfold Shared.unlock
  rw [h]
  rfl

theorem Shared.release_locks_ok {sh : Shared} {log : log_t} {lt₁ lt₂ lt₃ : rw_lock_table}
    (hi : sh.lt.unlock log.tid log.i = .ok lt₁) (hj : lt₁.unlock log.tid log.j = .ok lt₂)
    (hk : lt₂.unlock log.tid log.k = .ok lt₃) : sh.release_locks log = .ok ⟨lt₃, sh.records⟩ := by
  unfold Shared.release_locks
  rw [Shared.unlock_ok hi]
  show ((⟨lt₁, sh.records⟩ : Shared).unlock log.tid log.j >>= _) = _
  rw [Shared.unlock_ok hj]
  exact Shared.unlock_ok hk

theorem Shared.rollback_ok {sh : Shared} {log : log_t} {lt₁ lt₂ lt₃ : rw_lock_table}
    (hphase : log.current_phase = .COMMIT) (hk : sh.lt.unlock log.tid log.k = .ok lt₁)
    (hj : lt₁.unlock log.tid log.j = .ok lt₂) (hi : lt₂.unlock log.tid log.i = .ok lt₃) :
    ∃ sh', sh.rollback log = .ok sh' := by
  unfold Shared.rollback Shared.rollback_commit Shared.rollback_second_write
    Shared.rollback_first_write Shared.rollback_read Shared.unlock_unless Shared.unlock Shared.write
  simp [hphase, hk, hj, hi, bind, Except.bind, pure, Except.pure]

theorem AtRest.reach_commit (h : AtRest m n logs s) (log : LogLine) (hn : n ≤ 80)
    (hids : (log.i, log.j, log.k) ∈ [(0, 1, 2), (1, 0, 2), (2, 0, 1)])
    (hpass : passes m log.i log.j log.k) : ∃ s', AtCommit m n logs log s' := by
  obtain ⟨id, i, j, k, vi, vj, vk⟩ := log
  obtain ⟨lt, records, geo, thread, log_file, committed, exited⟩ := s
  obtain ⟨h, rfl, hp, rfl, rfl, rfl, rfl⟩ := h
  obtain ⟨lt₁, lt₂, lt₃, hread, hfirst, hsecond, hrelease, hundo⟩ := lone_locks hids
  obtain ⟨lt₄, lt₅, hi, hj, hk⟩ := hrelease
  obtain ⟨lt₆, lt₇, lt₈, hk', hj', hi'⟩ := hundo
  simp only [List.mem_cons, Prod.mk.injEq, List.not_mem_nil, or_false] at hids
  have hdistinct : DistinctIds 3 i j k := by
    rcases hids with ⟨rfl, rfl, rfl⟩ | ⟨rfl, rfl, rfl⟩ | ⟨rfl, rfl, rfl⟩ <;> constructor <;> decide
  replace h := long_step i j k h rfl (by
    unfold thread_step
    rw [hp]
    exact .inl ⟨hn, hdistinct, rfl⟩)
  rcases hids with ⟨rfl, rfl, rfl⟩ | ⟨rfl, rfl, rfl⟩ | ⟨rfl, rfl, rfl⟩
  all_goals
    replace h := long_step 0 0 0 h rfl (Program.lock_section_granted hread)
    replace h := long_step 0 0 0 h rfl rfl
    replace h := long_step 0 0 0 h rfl (Program.lock_section_granted hfirst)
    iterate 3 replace h := long_step 0 0 0 h rfl rfl
    replace h := long_step 0 0 0 h rfl (if_neg hpass.1).symm
    replace h := long_step 0 0 0 h rfl (Program.lock_section_granted hsecond)
    iterate 3 replace h := long_step 0 0 0 h rfl rfl
    replace h := long_step 0 0 0 h rfl (if_neg hpass.2).symm
    refine ⟨_, h, rfl, rfl, rfl, rfl, rfl, rfl, fun id => ?_, fun id => ?_⟩
    · exact Shared.release_locks_ok hi hj hk
    · exact Shared.rollback_ok rfl hk' hj' hi'

theorem AtCommit.commit_step {s' : Program} (h : AtCommit m n logs log s)
    (hcommit : s.commit long_arguments.toConfig 1 = .ok s') :
    Reachable (transactions long_arguments.toConfig) s' := by
  apply long_step 0 0 0 h.reachable h.running
  unfold thread_step
  rw [h.point]
  exact hcommit

theorem AtCommit.commit (h : AtCommit m n logs log s) (hn : n < 80) (hid : log.commit_id = n + 1) :
    ∃ s', AtRest (redo m log).1 (n + 1) (logs ++ [(redo m log).2]) s' := by
  have hwrap : (s.global_execution_order + 1) % 2 ^ 64 = n + 1 := by
    rw [h.order]
    omega
  have hE : long_arguments.E = 80 := rfl
  have hcommit : s.commit long_arguments.toConfig 1 = .ok
      { s.resume 1 ⟨rw_lock_table.init 2, s.records⟩ .loop_head with
        global_execution_order := n + 1
        log_file := Function.update s.log_file 1 (s.log_file 1 ++ [(redo m log).2])
        committed := s.committed ++ [(redo m log).2] } := by
    unfold Program.commit
    simp only
    rw [hwrap, if_neg (by omega), h.release, ← h.line, hid]
    rfl
  have hreach := h.commit_step hcommit
  refine ⟨_, hreach, h.running, ?_, rfl, h.records, rfl, ?_⟩
  · simp [Program.resume]
  · show s.committed ++ _ = _
    rw [h.committed]

/-- The last transaction comes too late, and the thread returns. -/
theorem AtCommit.return_late (h : AtCommit m 80 logs log s) :
    ∃ s', Reachable (transactions long_arguments.toConfig) s' ∧ s'.exited = false ∧
      (s'.thread 1).point = .terminated ∧ s'.committed = logs := by
  have hwrap : (s.global_execution_order + 1) % 2 ^ 64 = 81 := by
    rw [h.order]
    rfl
  obtain ⟨sh, hsh⟩ := h.rollback 81
  have hcommit : s.commit long_arguments.toConfig 1 = .ok
      { s.resume 1 sh .terminated with global_execution_order := 81 } := by
    unfold Program.commit
    simp only
    rw [hwrap, if_pos (by decide), hsh]
    rfl
  have hreach := h.commit_step hcommit
  refine ⟨_, hreach, h.running, ?_, h.committed⟩
  simp [Program.resume]

/-- The transactions of a list can be committed one after the other. -/
def all_pass : (ℕ → BitVec 64) → ℕ → List LogLine → Bool
  | _, _, [] => true
  | m, n, log :: logs =>
      decide (log.commit_id = n + 1) &&
      decide ((log.i, log.j, log.k) ∈ [(0, 1, 2), (1, 0, 2), (2, 0, 1)]) &&
      decide (passes m log.i log.j log.k) && all_pass (redo m log).1 (n + 1) logs

theorem AtRest.run (run : List LogLine) (h : AtRest m n logs s)
    (hn : n + run.length ≤ 80) (hpass : all_pass m n run = true) :
    ∃ s', AtRest (replay_records m run) (n + run.length) (logs ++ replay_lines m run) s' := by
  induction run generalizing m n logs s with
  | nil => exact ⟨s, by simpa [replay_records, replay_lines] using h⟩
  | cons log run ih =>
    simp only [all_pass, Bool.and_eq_true, decide_eq_true_eq] at hpass
    obtain ⟨⟨⟨hid, hids⟩, hlog⟩, hrest⟩ := hpass
    rw [List.length_cons] at hn ⊢
    obtain ⟨s₁, h₁⟩ := h.reach_commit log (by omega) hids hlog
    obtain ⟨s₂, h₂⟩ := h₁.commit (by omega) hid
    obtain ⟨s', h'⟩ := ih h₂ (by omega) hrest
    refine ⟨s', ?_⟩
    rw [show n + (run.length + 1) = n + 1 + run.length by omega,
      show logs ++ replay_lines m (log :: run) =
        logs ++ [(redo m log).2] ++ replay_lines (redo m log).1 run by simp [replay_lines]]
    exact h'

end long

/-- Nothing was caught: the thread has committed its 80 transactions and has
    returned, but the values in its log file are not those of the execution over
    unbounded integers. -/
theorem overflow_not_caught :
    ∃ s : Program, Reachable (transactions long_arguments.toConfig) s ∧ s.exited = false ∧
      (∀ t, 1 ≤ t → t < long_arguments.N → (s.thread t).point = .terminated) ∧
      (s.logs long_arguments.toConfig).map LogLine.values ≠
        exact_values exact_initial (s.logs long_arguments.toConfig) := by
  have hstart : AtRest initial_records 0 [] (Program.start long_arguments.toConfig) :=
    ⟨reachable_program_start _, rfl, rfl, rfl, rfl, rfl, rfl⟩
  obtain ⟨s₁, h₁⟩ := hstart.run long_run (by decide) (by decide +kernel)
  obtain ⟨s₂, h₂⟩ := h₁.reach_commit ⟨81, 0, 1, 2, 0, 0, 0⟩ (by decide) (by decide)
    (by decide +kernel)
  obtain ⟨s, h, hexited, hp, hcommitted⟩ := h₂.return_late
  refine ⟨s, h, hexited, ?_, ?_⟩
  · intro t hpos hlt
    have ht : t = 1 := Nat.le_antisymm (Nat.le_of_lt_succ hlt) hpos
    subst ht
    exact hp
  · rw [Program.logs_eq_committed h, hcommitted]
    decide +kernel

end Project2
