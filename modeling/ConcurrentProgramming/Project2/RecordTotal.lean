import ConcurrentProgramming.Project2.TransactionProgress
import Mathlib.Data.BitVec
import Mathlib.Tactic.LinearCombination
import Mathlib.Tactic.Ring

/-! # The Sum of the Records

    A transaction adds `value_of_i + 1` to one record and subtracts `value_of_i`
    from another, so it adds one to the sum of all records.  In every state of
    every run the sum is that of the initial records, plus one for each line in
    the log files, plus what the unfinished transactions have written so far.
    Rolling back a transaction takes exactly its part out again, also when the
    64-bit sums have wrapped around.
-/

namespace Project2

open LTS

/-! ## Section 1: Sums over all records -/

/-- The sum of `records[0 .. R - 1]`, in 64-bit arithmetic. -/
def total (R : ℕ) (records : ℕ → BitVec 64) : BitVec 64 := ∑ r ∈ Finset.range R, records r

/-- A write to one record. -/
theorem total_update {R r : ℕ} (hr : r < R) (records : ℕ → BitVec 64) (v : BitVec 64) :
    total R (Function.update records r v) = total R records + (v - records r) := by
  have hsum := ThreadWork.sum_update id records (Finset.mem_range.mpr hr) v
  simp only [id_eq] at hsum
  unfold total
  linear_combination hsum

/-- What the transaction of a thread has added to the records so far. -/
def Thread.in_flight (th : Thread) : BitVec 64 :=
  match th.point with
  | .result_j | .second_lock | .second_wait | .old_k | .load_k | .store_k => th.log.value_of_i + 1
  | .result_k | .commit => 1
  -- `exit` is called after the first or the second assignment.
  | .exited => if th.log.current_phase = .FIRST_WRITE then th.log.value_of_i + 1 else 1
  | _ => 0

theorem Thread.in_flight_idle {th : Thread} (h : th.idle) : th.in_flight = 0 := by
  rcases h with hp | hp <;> simp [Thread.in_flight, hp]

/-- What all unfinished transactions have added. -/
def Program.in_flight (cfg : Config) (s : Program) : BitVec 64 :=
  ∑ t ∈ Finset.Ico 1 cfg.N, (s.thread t).in_flight

theorem Program.in_flight_idle {cfg : Config} {s : Program}
    (h : ∀ t, 1 ≤ t → t < cfg.N → (s.thread t).idle) : s.in_flight cfg = 0 := by
  apply Finset.sum_eq_zero
  intro t ht
  obtain ⟨hpos, hlt⟩ := Finset.mem_Ico.mp ht
  exact Thread.in_flight_idle (h t hpos hlt)

/-- The sum of the records is accounted for. -/
def balanced (cfg : Config) (s : Program) : Prop :=
  total cfg.R s.records =
    total cfg.R initial_records + (s.committed.length : BitVec 64) + s.in_flight cfg

/-! ## Section 2: Every step keeps the balance -/

section balance
variable {cfg : Config} {s s' : Program} {tid : ℕ}

/-- A step may change the records, the log files and its own thread, if the
    changes cancel out. -/
theorem balanced.of_update {th : Thread} (h : balanced cfg s) (ht : 1 ≤ tid ∧ tid < cfg.N)
    (hthread : s'.thread = Function.update s.thread tid th)
    (hchange : total cfg.R s'.records - total cfg.R s.records =
      (s'.committed.length : BitVec 64) - (s.committed.length : BitVec 64) +
        (th.in_flight - (s.thread tid).in_flight)) : balanced cfg s' := by
  have hsum := ThreadWork.sum_update Thread.in_flight s.thread (Finset.mem_Ico.mpr ht) th
  unfold balanced Program.in_flight at h ⊢
  rw [hthread]
  linear_combination h + hchange - hsum

/-- A step of a thread that writes nothing. -/
theorem balanced.of_local {th : Thread} (h : balanced cfg s) (ht : 1 ≤ tid ∧ tid < cfg.N)
    (hthread : s'.thread = Function.update s.thread tid th) (hrec : s'.records = s.records)
    (hcommitted : s'.committed = s.committed)
    (hflight : th.in_flight = (s.thread tid).in_flight) : balanced cfg s' := by
  apply h.of_update ht hthread
  rw [hrec, hcommitted, hflight]
  ring

/-- **Rolling back takes the part of the transaction out of the sum.** -/
theorem total_undone {th : Thread} (hids : DistinctIds cfg.R th.log.i th.log.j th.log.k)
    (hphase : th.log.current_phase = th.point.phase) (hp : th.point.can_abort)
    (records : ℕ → BitVec 64) :
    total cfg.R (undone records th.log) = total cfg.R records - th.in_flight := by
  unfold undone Thread.in_flight
  rw [hphase]
  cases hpt : th.point <;> simp only [hpt, Point.can_abort, Bool.false_eq_true] at hp <;>
    simp only [Point.phase]
  case second_lock | second_wait =>
    rw [total_update hids.j_lt]
    ring
  case commit =>
    rw [total_update hids.j_lt, total_update hids.k_lt]
    ring
  all_goals ring

theorem balanced.of_rollback {th : Thread} (h : balanced cfg s) (hlink : LinkInv cfg s)
    (ht : 1 ≤ tid ∧ tid < cfg.N) (hthread : s'.thread = Function.update s.thread tid th)
    (hidle : th.idle) (hp : (s.thread tid).point.can_abort)
    (hcommitted : s'.committed = s.committed)
    (hrec : s'.records = undone s.records (s.thread tid).log) : balanced cfg s' := by
  obtain ⟨-, hids, hphase⟩ : LogOk cfg tid (s.thread tid) := by
    apply hlink.log tid
    rintro (hpt | hpt) <;> simp [hpt, Point.can_abort] at hp
  have hundo := total_undone hids (hphase (fun hpt => by simp [hpt, Point.can_abort] at hp)) hp
    s.records
  apply h.of_update ht hthread
  rw [hrec, hundo, hcommitted, Thread.in_flight_idle hidle]
  ring

/-- A critical section with a lock call. -/
theorem balanced.of_lock_section (h : balanced cfg s) (hlink : LinkInv cfg s)
    (ht : 1 ≤ tid ∧ tid < cfg.N) (hp : (s.thread tid).point.can_abort)
    {call : Except Failure (CallResult × rw_lock_table)} {acquired asleep : Point}
    (hstep : s.lock_section tid call acquired asleep = .ok s')
    (hacquired : ({ s.thread tid with point := acquired } : Thread).in_flight =
      (s.thread tid).in_flight)
    (hasleep : ({ s.thread tid with point := asleep } : Thread).in_flight =
      (s.thread tid).in_flight) : balanced cfg s' := by
  rcases Program.lock_section_cases hstep with ⟨lt, -, rfl⟩ | ⟨lt, -, rfl⟩ | ⟨lt, sh, -, hsh, rfl⟩
  · exact h.of_local ht rfl rfl rfl hacquired
  · exact h.of_local ht rfl rfl rfl hasleep
  · have hrec := Shared.rollback_records hsh
    exact h.of_rollback hlink ht rfl (.inl rfl) hp rfl hrec

/-- A store: the operand that was loaded is still in the record. -/
theorem balanced.of_store {r : ℕ} {v : BitVec 64} {p : Point} (h : balanced cfg s)
    (ht : 1 ≤ tid ∧ tid < cfg.N) (hr : r < cfg.R) (hload : (s.thread tid).loaded = s.records r)
    (hv : v - (s.thread tid).loaded =
      ({ s.thread tid with point := p } : Thread).in_flight - (s.thread tid).in_flight) :
    balanced cfg (s.store tid r v p) := by
  apply h.of_update ht rfl
  show total cfg.R (Function.update s.records r v) - _ = (s.committed.length : BitVec 64) - _ + _
  rw [total_update hr, ← hload, hv]
  ring

theorem balanced.step (h : balanced cfg s)
    (hdata : DataInv cfg (replay_records initial_records s.committed) s)
    (ht : 1 ≤ tid ∧ tid < cfg.N) {i j k : ℕ} (hstep : thread_step cfg s tid i j k s') :
    balanced cfg s' := by
  have hlink := hdata.link
  have hbusy : ¬ (s.thread tid).idle → LogOk cfg tid (s.thread tid) := hlink.log tid
  have hown := hdata.thread tid
  unfold data_ok at hown
  unfold thread_step at hstep
  cases hp : (s.thread tid).point with
  | loop_head =>
    rw [hp] at hstep
    rcases hstep with ⟨-, -, rfl⟩ | ⟨-, rfl⟩
    · exact h.of_local ht rfl rfl rfl (by simp [Thread.in_flight, hp])
    · exact h.of_local ht rfl rfl rfl (by simp [Thread.in_flight, hp])
  | read_lock | read_wait | first_lock | first_wait | second_lock | second_wait =>
    rw [hp] at hstep
    refine h.of_lock_section hlink ht (by rw [hp]; rfl) hstep ?_ ?_ <;>
      simp [Thread.in_flight, hp]
  | read_i | old_j | load_j | old_k | load_k =>
    rw [hp] at hstep
    subst hstep
    exact h.of_local ht rfl rfl rfl (by simp [Thread.in_flight, hp])
  | store_j =>
    rw [hp] at hstep hown
    subst hstep
    obtain ⟨-, hload⟩ := hown
    have hids := (hbusy (by simp [Thread.idle, hp])).ids
    -- The record is locked for writing and not yet written, so it is as committed.
    have hclean := hdata.read_committed tid (s.thread tid).log.j .FIRST_WRITE
      (by simp [Thread.holds, hp]) (by simp [Thread.dirty, hp])
    refine h.of_store ht hids.j_lt (hload.trans hclean.symm) ?_
    simp only [Thread.in_flight, hp]
    ring
  | store_k =>
    rw [hp] at hstep hown
    subst hstep
    obtain ⟨-, hload⟩ := hown
    have hids := (hbusy (by simp [Thread.idle, hp])).ids
    have hclean := hdata.read_committed tid (s.thread tid).log.k .SECOND_WRITE
      (by simp [Thread.holds, hp]) (by simp [Thread.dirty, hp, hids.k_ne_j])
    refine h.of_store ht hids.k_lt (hload.trans hclean.symm) ?_
    simp only [Thread.in_flight, hp]
    ring
  | result_j =>
    rw [hp] at hstep
    have hphase := (hbusy (by simp [Thread.idle, hp])).phase (by simp [hp])
    rw [hp] at hphase
    subst hstep
    unfold Program.result_j
    dsimp only
    split
    · exact h.of_local ht rfl rfl rfl (by simp [Thread.in_flight, hp, hphase, Point.phase])
    · exact h.of_local ht rfl rfl rfl (by simp [Thread.in_flight, hp])
  | result_k =>
    rw [hp] at hstep
    have hphase := (hbusy (by simp [Thread.idle, hp])).phase (by simp [hp])
    rw [hp] at hphase
    subst hstep
    unfold Program.result_k
    dsimp only
    split
    · exact h.of_local ht rfl rfl rfl (by simp [Thread.in_flight, hp, hphase, Point.phase])
    · exact h.of_local ht rfl rfl rfl (by simp [Thread.in_flight, hp])
  | commit =>
    rw [hp] at hstep
    rcases Program.commit_cases hstep with ⟨-, sh, hsh, rfl⟩ | ⟨-, sh, hsh, rfl⟩
    · have hrec := Shared.rollback_records hsh
      exact h.of_rollback hlink ht rfl (.inr rfl) (by rw [hp]; rfl) rfl hrec
    · -- What was in flight becomes a line in the log file.
      apply h.of_update ht rfl
      show total cfg.R sh.records - _ = _
      rw [Shared.release_locks_records hsh, Thread.in_flight_idle (.inl rfl)]
      simp only [Program.shared, Thread.in_flight, hp, List.length_append, List.length_singleton]
      rw [Nat.cast_add, Nat.cast_one]
      ring
  | terminated | exited =>
    rw [hp] at hstep
    exact absurd hstep id

end balance

theorem balanced_init {cfg : Config} {s : Program} (h : (transactions cfg).init s) :
    balanced cfg s := by
  obtain ⟨-, hrec, -, hthread, -, hcommitted, -⟩ := h
  have hnone : s.in_flight cfg = 0 := by
    apply Program.in_flight_idle
    intro t _ _
    rw [hthread]
    exact .inl rfl
  have hstart : s.records = initial_records := funext hrec
  unfold balanced
  rw [hnone, hcommitted, hstart, List.length_nil, Nat.cast_zero, add_zero, add_zero]

theorem balanced_reachable {args : Arguments} {s : Program}
    (h : Reachable (transactions args.toConfig) s) : balanced args.toConfig s := by
  apply h.invariant
  · intro s hinit
    exact balanced_init hinit
  · intro s l s' hreach ih hstep
    obtain ⟨tid, i, j, k⟩ := l
    obtain ⟨-, hpos, hlt, hstep⟩ := hstep
    exact ih.step (history_inv_reachable hreach).data ⟨hpos, hlt⟩ hstep

theorem total_initial (R : ℕ) : total R initial_records = ((100 * R : ℕ) : BitVec 64) := by
  simp [total, initial_records, mul_comm]

/-- **The records are accounted for.**  In every reachable state the sum of the
    records is `100 * R`, plus one for each line in the log files, plus what the
    unfinished transactions have written; so between transactions it is
    `100 * R` plus the number of commits. -/
theorem records_accounted_for {args : Arguments} {s : Program}
    (h : Reachable (transactions args.toConfig) s) :
    total args.R s.records =
        BitVec.ofNat 64 (100 * args.R + (s.lines args.toConfig).length) +
          s.in_flight args.toConfig ∧
      ((∀ t, 1 ≤ t → t < args.N → (s.thread t).idle) →
        total args.R s.records =
          BitVec.ofNat 64 (100 * args.R + (s.lines args.toConfig).length)) := by
  have hbalanced := balanced_reachable h
  unfold balanced at hbalanced
  rw [total_initial, (history_inv_reachable h).files.length_eq, ← Nat.cast_add,
    BitVec.natCast_eq_ofNat] at hbalanced
  refine ⟨hbalanced, ?_⟩
  intro hidle
  rw [hbalanced, Program.in_flight_idle hidle, add_zero]

/-- Thread 1 has made its first write, and thread 2 has read another record. -/
theorem records_accounted_for_first_write :
    ∃ s : Program, (s.thread 1).point = .result_j ∧ (s.thread 2).point = .read_i ∧
      s.records 1 = 201 ∧ total 3 s.records = BitVec.ofNat 64 300 + 101 := by
  obtain ⟨s, hreach, h⟩ : ∃ s, Reachable (transactions duo_arguments.toConfig) s ∧ _ :=
    reachable_run duo_config
      (List.replicate 6 duo_first ++ List.replicate 2 (2, 0, 1, 2) ++ [duo_first])
      (fun s => decide ((s.thread 1).point = .result_j ∧ (s.thread 2).point = .read_i ∧
        s.records 1 = 201 ∧ s.lines duo_config = [] ∧ s.in_flight duo_config = 101))
      (by decide +kernel)
  obtain ⟨hp₁, hp₂, hrecord, hlines, hflight⟩ := of_decide_eq_true h
  refine ⟨s, hp₁, hp₂, hrecord, ?_⟩
  rw [← hflight]
  have hsum := (records_accounted_for hreach).1
  rw [show s.lines duo_arguments.toConfig = [] from hlines] at hsum
  exact hsum

/-! ## Section 3: When all threads have returned -/

/-- A thread returns only when `E` transactions have been committed. -/
theorem order_of_terminated {args : Arguments} (hN : args.N ≤ 2 ^ 32) {s : Program}
    (h : Reachable (transactions args.toConfig) s) :
    ∀ t, (s.thread t).point = .terminated → args.E < s.global_execution_order := by
  apply h.invariant
  · intro s hinit t hp
    obtain ⟨-, -, -, hthread, -⟩ := hinit
    rw [hthread t] at hp
    cases hp
  · intro s l s' hreach ih hstep t hp
    obtain ⟨tid, i, j, k⟩ := l
    obtain ⟨-, hpos, hlt, hstep⟩ := hstep
    have hinv := history_inv_reachable hreach
    have hlive := hstep.not_terminated
    -- Either the thread had returned before, or this is its last step.
    have hcases : ∀ th, s'.thread = Function.update s.thread tid th →
        (th.point = .terminated → args.E < s'.global_execution_order) →
        s.global_execution_order ≤ s'.global_execution_order →
        args.E < s'.global_execution_order := by
      intro th hthread hth horder
      rw [hthread] at hp
      by_cases htt : t = tid
      · subst htt
        rw [Function.update_self] at hp
        exact hth hp
      · rw [Function.update_of_ne htt] at hp
        exact Nat.lt_of_lt_of_le (ih t hp) horder
    cases hinv.data.link.step_outcome hN ⟨hpos, hlt⟩ hstep with
    | starts th hthread _ hnext horder =>
      exact hcases th hthread (by simp [hnext]) (Nat.le_of_eq horder.symm)
    | returns th hthread _ hnext hlate horder =>
      exact hcases th hthread (fun _ => horder ▸ hlate) (Nat.le_of_eq horder.symm)
    | advances th hthread hbusy _ _ horder =>
      exact hcases th hthread (fun hp => absurd (.inr hp) hbusy) (Nat.le_of_eq horder.symm)
    | refused th hthread hnext _ _ horder =>
      exact hcases th hthread (by simp [hnext]) (Nat.le_of_eq horder.symm)
    | commits th hthread _ _ horder hlate =>
      rw [hinv.no_wrap ⟨hpos, hlt⟩ hlive] at horder
      exact hcases th hthread hlate.mp (by omega)
    | sleeps _ _ _ hthread _ horder =>
      rw [hthread] at hp
      exact horder ▸ ih t hp
    | exits th hthread hnext horder =>
      exact hcases th hthread (by simp [hnext]) (Nat.le_of_eq horder.symm)

/-- A lock table that nobody uses.  The status of a record may still be
    `RW_READER_LOCK` when its last reader has left. -/
structure Released (lt : rw_lock_table) : Prop where
  queues        : ∀ r, lt.record_wait_queues r = []
  readers_count : ∀ r, lt.readers_count r = 0
  no_writer     : ∀ r, lt.table r ≠ .RW_WRITER_LOCK
  graph         : ∀ t, lt.wait_for_graph.nodes t = []
  cond_var      : ∀ t, lt.cond_var t = .idle

/-- Between transactions nobody has a lock or waits for one. -/
theorem LinkInv.released {cfg : Config} {s : Program} (h : LinkInv cfg s)
    (hidle : ∀ t, 1 ≤ t → t < cfg.N → (s.thread t).idle) : Project2.Released s.lt := by
  obtain ⟨c, hc, hlt, hstate, hgranted⟩ := h.link
  have hinv := lock_inv_reachable hc
  rw [← hlt]
  have hqueue : ∀ r, c.lt.record_wait_queues r = [] := by
    intro r
    apply List.eq_nil_iff_forall_not_mem.mpr
    intro e he
    obtain ⟨hpos, hN, -⟩ := hinv.graph.entry r e he
    exact not_idle_of_entry hinv hstate hgranted he (hidle e.tid hpos hN)
  have hnone : ∀ r, c.granted r = [] := fun r => hinv.holder.granted_nil (hqueue r)
  -- Who sleeps has an entry in a queue.
  have hrun : ∀ t, c.state t = .running := by
    intro t
    cases hst : c.state t with
    | running => rfl
    | asleep phase r =>
      have hmem := hinv.graph.sleeper t phase r hst
      simp [hqueue r] at hmem
  refine ⟨hqueue, ?_, ?_, ?_, ?_⟩
  · intro r
    exact (hinv.holder.grant_ok (hnone r)).no_reader
  · intro r
    exact (hinv.holder.grant_ok (hnone r)).no_writer
  · intro t
    exact hinv.graph.nodes_running (hrun t)
  · intro t
    exact (hinv.sleep.idle t).mpr (hrun t)

/-- **The end of the program.**  When all threads have returned, exactly `E`
    transactions have been committed, with the ids `1, .., E`, no thread holds a
    lock or waits for one, and the sum of the records has grown by `E`. -/
theorem end_of_transactions {args : Arguments} (hN : args.N ≤ 2 ^ 32)
    (hthreads : 1 ≤ args.thread_num) {s : Program} (h : Reachable (transactions args.toConfig) s)
    (hreturned : ∀ t, 1 ≤ t → t < args.N → (s.thread t).point = .terminated) :
    (s.logs args.toConfig).map (·.commit_id) = List.range' 1 args.E ∧
      Released s.lt ∧
      total args.R s.records = BitVec.ofNat 64 (100 * args.R + args.E) := by
  have hinv := history_inv_reachable h
  have hidle : ∀ t, 1 ≤ t → t < args.N → (s.thread t).idle :=
    fun t hpos hlt => .inr (hreturned t hpos hlt)
  have horder : args.E < s.global_execution_order := by
    refine order_of_terminated hN h 1 (hreturned 1 (Nat.le_refl 1) ?_)
    unfold Config.N
    omega
  have hcount : s.committed.length = args.E := by
    rw [hinv.count]
    omega
  have hserial := serial_inv_reachable
    ((serial_simulation args).reachable (fun _ => history_inv_reachable) h)
  have hids : s.committed.map (·.commit_id) = List.range' 1 s.committed.length := hserial.ids
  have hbalanced := balanced_reachable h
  refine ⟨?_, hinv.data.link.released hidle, ?_⟩
  · rw [Program.logs_eq_committed h, hids, hcount]
  · unfold balanced at hbalanced
    rw [hbalanced, Program.in_flight_idle hidle, total_initial, hcount, add_zero, ← Nat.cast_add,
      BitVec.natCast_eq_ofNat]

/-- Two transactions commit, the third one comes too late, and both threads return. -/
theorem end_of_transactions_duo :
    ∃ s : Program, s.log_file 1 = [⟨1, 0, 1, 2, 100, 201, 0⟩] ∧
      s.log_file 2 = [⟨2, 1, 0, 2, 201, 302, -201⟩] ∧ Released s.lt ∧
      total 3 s.records = BitVec.ofNat 64 302 := by
  obtain ⟨s, hreach, h⟩ : ∃ s, Reachable (transactions duo_arguments.toConfig) s ∧ _ :=
    reachable_run duo_config two_returns
      (fun s => decide (s.log_file 1 = [⟨1, 0, 1, 2, 100, 201, 0⟩] ∧
        s.log_file 2 = [⟨2, 1, 0, 2, 201, 302, -201⟩] ∧
        (s.thread 1).point = .terminated ∧ (s.thread 2).point = .terminated))
      (by decide +kernel)
  obtain ⟨hfile₁, hfile₂, hp₁, hp₂⟩ := of_decide_eq_true h
  obtain ⟨-, hreleased, htotal⟩ := end_of_transactions (by decide) (by decide) hreach (by
    intro t hpos hlt
    rcases duo_worker hpos hlt with rfl | rfl
    · exact hp₁
    · exact hp₂)
  exact ⟨s, hfile₁, hfile₂, hreleased, htotal⟩

end Project2
