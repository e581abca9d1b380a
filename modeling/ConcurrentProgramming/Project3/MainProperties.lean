import ConcurrentProgramming.Framework.Progress
import ConcurrentProgramming.Framework.ThreadWork
import ConcurrentProgramming.Project3.MainProgram
import ConcurrentProgramming.Project3.PastSnapshots
import ConcurrentProgramming.Project3.WaitFreeScan
import Mathlib.Algebra.Order.BigOperators.Group.Finset
import Mathlib.Data.BitVec

/-! # What `main.cc` Prints, and When It Ends

    Thread `tid` is the only one that writes to register `tid`.  The stamp, the value
    and the count of its updates are therefore the same number, except between the
    stores of an update and before the update is counted (`ThreadOk`).  Hence a clean
    scan returns, for each thread, how many of its updates had been stored at some time
    during the scan, and the program prints how many updates there were.

    Once `end` is set, every step of a thread or of `main` lowers a rank, because a scan
    is wait-free whatever the other threads do: the program ends under every schedule.
-/

namespace Project3.Program

open LTS Versions Finset

variable {n : ℕ}

/-! ## Section 1: One step of an update -/

/-- The ways in which the update of thread `tid` takes a step. -/
inductive UpdateStep (ss : Split.SnapshotState n) (tid : Fin n) :
    Split.SnapshotState n → Prop where
  | scan_on (value : T) (f f' : Split.Scan n) :
      ss.caller tid.val = .update value tid f → f.next ss.a_table = .running f' →
      UpdateStep ss tid (ss.set_caller tid.val (.update value tid f'))
  | scan_clean (value : T) (f : Split.Scan n) (snap : Fin n → T) :
      ss.caller tid.val = .update value tid f → f.next ss.a_table = .clean snap →
      UpdateStep ss tid { ss.set_caller tid.val (.add_stamp value tid snap) with
        clean := ss.clean ++ [⟨f.start, ss.history.now, snap⟩] }
  | scan_borrowed (value : T) (f : Split.Scan n) (snap : Fin n → T) :
      ss.caller tid.val = .update value tid f → f.next ss.a_table = .borrowed snap →
      UpdateStep ss tid (ss.set_caller tid.val (.add_stamp value tid snap))
  | add_stamp (value : T) (snap : Fin n → T) :
      ss.caller tid.val = .add_stamp value tid snap →
      UpdateStep ss tid ((ss.set_caller tid.val (.set_value value tid snap)).store tid
        { ss.a_table tid with stamp := (ss.a_table tid).stamp + 1 })
  | set_value (value : T) (snap : Fin n → T) :
      ss.caller tid.val = .set_value value tid snap →
      UpdateStep ss tid ((ss.set_caller tid.val (.set_snap tid snap)).store tid
        { ss.a_table tid with value := value })
  | set_snap (snap : Fin n → T) :
      ss.caller tid.val = .set_snap tid snap →
      UpdateStep ss tid { ss.set_caller tid.val .idle with
        a_table := Function.update ss.a_table tid { ss.a_table tid with snap := snap } }

/-- A caller that is in an update of register `tid`. -/
theorem update_step_of_run {ss ss' : Split.SnapshotState n} {tid : Fin n}
    (hreg : (ss.caller tid.val).register = some tid) (h : ss.run tid.val = some ss') :
    UpdateStep ss tid ss' := by
  unfold Split.SnapshotState.run at h
  cases hc : ss.caller tid.val with
  | idle | scan f =>
    rw [hc] at hreg
    cases hreg
  | update value t f =>
    rw [hc] at hreg h
    cases hreg
    simp only [Option.some.injEq] at h
    subst h
    unfold Split.SnapshotState.run_scan
    cases hnext : f.next ss.a_table with
    | running f' => exact .scan_on value f f' hc hnext
    | clean snap => exact .scan_clean value f snap hc hnext
    | borrowed snap => exact .scan_borrowed value f snap hc hnext
  | add_stamp value t snap =>
    rw [hc] at hreg h
    cases hreg
    simp only at h
    split at h
    · cases h
      exact .add_stamp value snap hc
    · cases h
  | set_value value t snap =>
    rw [hc] at hreg h
    cases hreg
    cases h
    exact .set_value value snap hc
  | set_snap t snap =>
    rw [hc] at hreg h
    cases hreg
    cases h
    exact .set_snap snap hc

/-- The other threads and their registers are left alone. -/
theorem UpdateStep.other {ss ss' : Split.SnapshotState n} {tid j : Fin n}
    (h : UpdateStep ss tid ss') (hj : j ≠ tid) :
    ss'.caller j.val = ss.caller j.val ∧ ss'.a_table j = ss.a_table j ∧
      ss'.history.current j = ss.history.current j := by
  have hval : j.val ≠ tid.val := fun heq => hj (Fin.ext heq)
  have hpush : ∀ (c : Split.Caller n) (r : stamped_snap_t n),
      (((ss.set_caller tid.val c).store tid r).history.current) j = ss.history.current j := by
    intro c r
    show (ss.history.push _).current j = _
    rw [History.push_current, Function.update_of_ne hj]
    rfl
  cases h with
  | scan_on | scan_clean | scan_borrowed =>
    exact ⟨Function.update_of_ne hval _ _, rfl, rfl⟩
  | add_stamp | set_value =>
    exact ⟨Function.update_of_ne hval _ _, Function.update_of_ne hj _ _, hpush _ _⟩
  | set_snap =>
    exact ⟨Function.update_of_ne hval _ _, Function.update_of_ne hj _ _, rfl⟩

/-! ## Section 2: The numbers of a thread -/

/-- The numbers of a thread: it has counted `a` updates, has added to its stamp `b` times,
    has stored `c` values, and has started `d` updates.  The history of its register has a
    version for each of its stores to the stamp or the value. -/
structure Numbers (h : Split.Cell) (r : stamped_snap_t n) (value num_of_update : T)
    (a b c d : ℕ) : Prop where
  counted : num_of_update = BitVec.ofNat 64 a
  stamp   : r.stamp = b
  stored  : r.value = BitVec.ofNat 64 c
  started : value = BitVec.ofNat 64 d
  stores  : h.stores = b + c

/-- What is known of thread `tid`: where it is, where its update is, and which numbers it
    then has. -/
inductive ThreadOk (tid : Fin n) (value : T) (num : ℕ → ℕ → ℕ → ℕ → Prop) :
    ThreadPoint → Split.Caller n → Prop where
  | test (k : ℕ) : num k k k k → ThreadOk tid value num .test .idle
  | scan (k : ℕ) (f : Split.Scan n) :
      num k k k (k + 1) → ThreadOk tid value num .update (.update value tid f)
  | add_stamp (k : ℕ) (snap : Fin n → T) :
      num k k k (k + 1) → ThreadOk tid value num .update (.add_stamp value tid snap)
  | set_value (k : ℕ) (snap : Fin n → T) :
      num k (k + 1) k (k + 1) → ThreadOk tid value num .update (.set_value value tid snap)
  | set_snap (k : ℕ) (snap : Fin n → T) :
      num k (k + 1) (k + 1) (k + 1) → ThreadOk tid value num .update (.set_snap tid snap)
  | count (k : ℕ) : num k (k + 1) (k + 1) (k + 1) → ThreadOk tid value num .count .idle
  | returned (k : ℕ) : num k k k k → ThreadOk tid value num .returned .idle

/-- The numbers of thread `tid` in a state. -/
def State.numbers (s : State n) (tid : Fin n) : ℕ → ℕ → ℕ → ℕ → Prop :=
  Program.Numbers (s.ss.history.current tid) (s.ss.a_table tid) (s.value tid)
    (s.num_of_update tid)

/-- The value of a register at any time: how many updates have stored theirs. -/
def history_ok (H : History (Fin n) Split.Cell) : Prop :=
  ∀ m j, m ≤ H.now → (H.version m j).value = BitVec.ofNat 64 ((H.version m j).stores / 2)

/-- What holds in every run. -/
structure CountInv (s : State n) : Prop where
  object  : Reachable (Split.snapshot_object n 0) s.ss
  threads : ∀ tid, ThreadOk tid (s.value tid) (s.numbers tid) (s.thread tid)
    (s.ss.caller tid.val)
  history : history_ok s.ss.history

/-- A thread in its update is in the update of its own register. -/
theorem ThreadOk.register {tid : Fin n} {value : T} {num : ℕ → ℕ → ℕ → ℕ → Prop}
    {c : Split.Caller n} (h : ThreadOk tid value num .update c) : c.register = some tid := by
  cases h <;> rfl

/-- A store to the own register. -/
theorem history_ok.store (ss : Split.SnapshotState n) (h : history_ok ss.history) {tid : Fin n}
    {r : stamped_snap_t n}
    (hr : r.value = BitVec.ofNat 64 (((ss.history.current tid).stores + 1) / 2)) :
    history_ok (ss.store tid r).history := by
  intro m j hm
  apply History.forall_push_update
    (P := fun _ _ (c : Split.Cell) => c.value = BitVec.ofNat 64 (c.stores / 2)) h
  · intro j _
    exact h _ j (Nat.le_refl _)
  · exact hr
  · exact hm

namespace CountInv

variable {s s' : State n} {tid : Fin n}

theorem of_start : CountInv (State.start n) where
  object := Reachable.init rfl
  threads := fun _ => .test 0 ⟨rfl, rfl, rfl, rfl, rfl⟩
  history := by
    intro m j _
    show (0 : T) = BitVec.ofNat 64 (0 / 2)
    rfl

/-- A step of thread `tid`: the other threads have what they had. -/
theorem of_thread (h : CountInv s) (hobject : Reachable (Split.snapshot_object n 0) s'.ss)
    (hhistory : history_ok s'.ss.history)
    (hself : ThreadOk tid (s'.value tid) (s'.numbers tid) (s'.thread tid)
      (s'.ss.caller tid.val))
    (hthread : ∀ j, j ≠ tid → s'.thread j = s.thread j)
    (hvalue : ∀ j, j ≠ tid → s'.value j = s.value j)
    (hnum : ∀ j, j ≠ tid → s'.num_of_update j = s.num_of_update j)
    (hother : ∀ j, j ≠ tid → s'.ss.caller j.val = s.ss.caller j.val ∧
      s'.ss.a_table j = s.ss.a_table j ∧
      s'.ss.history.current j = s.ss.history.current j) : CountInv s' := by
  refine ⟨hobject, ?_, hhistory⟩
  intro j
  by_cases hj : j = tid
  · subst hj
    exact hself
  · obtain ⟨hcaller, htable, hcell⟩ := hother j hj
    have hold := h.threads j
    unfold State.numbers at hold ⊢
    rw [hthread j hj, hvalue j hj, hnum j hj, hcaller, htable, hcell]
    exact hold

/-- The thread sees `end`. -/
theorem thread_return (h : CountInv s) (hpt : s.thread tid = .test) :
    CountInv (s.set_thread tid .returned) := by
  refine h.of_thread h.object h.history ?_ (fun j hj => Function.update_of_ne hj _ _)
    (fun _ _ => rfl) (fun _ _ => rfl) (fun _ _ => ⟨rfl, rfl, rfl⟩)
  have hold := h.threads tid
  show ThreadOk tid (s.value tid) (s.numbers tid) (Function.update s.thread tid .returned tid)
    (s.ss.caller tid.val)
  rw [Function.update_self]
  rw [hpt] at hold
  generalize s.ss.caller tid.val = c at hold
  cases hold with
  | test k hk => exact .returned k hk

/-- The thread calls `update`. -/
theorem call_update (h : CountInv s) (hpt : s.thread tid = .test) :
    CountInv (s.call_update tid) := by
  have hold := h.threads tid
  rw [hpt] at hold
  generalize hc : s.ss.caller tid.val = c at hold
  cases hold with
  | test k hk =>
    refine h.of_thread ?_ h.history ?_ (fun j hj => Function.update_of_ne hj _ _)
      (fun j hj => Function.update_of_ne hj _ _) (fun _ _ => rfl) ?_
    · refine h.object.step (l := (tid.val, .update (s.value tid + 1) tid)) ?_
      show s.ss.perform _ = _
      simp only [Split.SnapshotState.perform]
      rw [hc, if_pos ⟨rfl, trivial⟩]
      rfl
    · show ThreadOk tid (Function.update s.value tid (s.value tid + 1) tid) _
        (Function.update s.thread tid .update tid) (Function.update s.ss.caller tid.val _ tid.val)
      have hvalue : (s.call_update tid).value tid = s.value tid + 1 := Function.update_self _ _ _
      rw [Function.update_self, Function.update_self, Function.update_self]
      refine .scan k _ ⟨hk.counted, hk.stamp, hk.stored, ?_, hk.stores⟩
      rw [hvalue, hk.started, BitVec.ofNat_add]
      rfl
    · intro j hj
      exact ⟨Function.update_of_ne (fun heq => hj (Fin.ext heq)) _ _, rfl, rfl⟩

/-- The thread counts its update. -/
theorem count (h : CountInv s) (hpt : s.thread tid = .count) :
    CountInv { s.set_thread tid .test with
      num_of_update := Function.update s.num_of_update tid (s.num_of_update tid + 1) } := by
  refine h.of_thread h.object h.history ?_ (fun j hj => Function.update_of_ne hj _ _)
    (fun _ _ => rfl) (fun j hj => Function.update_of_ne hj _ _) (fun _ _ => ⟨rfl, rfl, rfl⟩)
  have hold := h.threads tid
  rw [hpt] at hold
  show ThreadOk tid (s.value tid) (Program.Numbers _ _ _
    (Function.update s.num_of_update tid (s.num_of_update tid + 1) tid))
    (Function.update s.thread tid .test tid) (s.ss.caller tid.val)
  rw [Function.update_self, Function.update_self]
  generalize s.ss.caller tid.val = c at hold
  cases hold with
  | count k hk =>
    refine .test (k + 1) ⟨?_, hk.stamp, hk.stored, hk.started, hk.stores⟩
    rw [hk.counted, BitVec.ofNat_add]
    rfl

/-- A step of the update of thread `tid`, by what it does. -/
theorem update (h : CountInv s) (hpt : s.thread tid = .update) {ss : Split.SnapshotState n}
    (hrun : s.ss.run tid.val = some ss) : CountInv (s.set_object tid ss) := by
  have hold := h.threads tid
  rw [hpt] at hold
  have hstep := update_step_of_run hold.register hrun
  have hobject : Reachable (Split.snapshot_object n 0) ss :=
    h.object.step (l := ((tid.val, .run) : ℕ × Call n)) hrun
  have hthread : ∀ j, j ≠ tid → (s.set_object tid ss).thread j = s.thread j := by
    intro j hj
    show (if _ then Function.update s.thread tid .count else s.thread) j = s.thread j
    split
    · exact Function.update_of_ne hj _ _
    · rfl
  -- It remains to say what the thread itself has after the step.
  suffices hself : history_ok ss.history ∧ ∃ c, ss.caller tid.val = c ∧
      ThreadOk tid (s.value tid) (Program.Numbers (ss.history.current tid) (ss.a_table tid)
        (s.value tid) (s.num_of_update tid)) (if c.is_idle then .count else .update) c by
    obtain ⟨hhistory, c, hc, hok⟩ := hself
    refine h.of_thread hobject hhistory ?_ hthread (fun _ _ => rfl) (fun _ _ => rfl)
      (fun j hj => hstep.other hj)
    have hpoint : (s.set_object tid ss).thread tid = if c.is_idle then .count else .update := by
      show (if (ss.caller tid.val).is_idle then Function.update s.thread tid .count
        else s.thread) tid = _
      rw [hc]
      split
      · exact Function.update_self _ _ _
      · exact hpt
    rw [hpoint, show (s.set_object tid ss).ss.caller tid.val = c from hc]
    exact hok
  cases hstep with
  | scan_on value f f' hc hnext =>
    rw [hc] at hold
    cases hold with
    | scan k _ hk => exact ⟨h.history, _, Function.update_self _ _ _, .scan k f' hk⟩
  | scan_clean value f snap hc hnext =>
    rw [hc] at hold
    cases hold with
    | scan k _ hk => exact ⟨h.history, _, Function.update_self _ _ _, .add_stamp k snap hk⟩
  | scan_borrowed value f snap hc hnext =>
    rw [hc] at hold
    cases hold with
    | scan k _ hk => exact ⟨h.history, _, Function.update_self _ _ _, .add_stamp k snap hk⟩
  | add_stamp value snap hc =>
    rw [hc] at hold
    cases hold with
    | add_stamp k _ hk =>
      refine ⟨history_ok.store (s.ss.set_caller _ _) h.history ?_, _, Function.update_self _ _ _,
        .set_value k snap ?_⟩
      · -- The value is still that of the update before.
        show (s.ss.a_table tid).value =
          BitVec.ofNat 64 (((s.ss.history.current tid).stores + 1) / 2)
        have hstores := hk.stores
        rw [hk.stored, show ((s.ss.history.current tid).stores + 1) / 2 = k by omega]
      · show Program.Numbers ((s.ss.history.push _).current tid)
          (Function.update s.ss.a_table tid _ tid) _ _ _ _ _ _
        rw [History.push_current, Function.update_self, Function.update_self]
        refine ⟨hk.counted, congrArg Nat.succ hk.stamp, hk.stored, hk.started, ?_⟩
        show (s.ss.history.current tid).stores + 1 = k + 1 + k
        have hstores := hk.stores
        omega
  | set_value value snap hc =>
    rw [hc] at hold
    cases hold with
    | set_value k _ hk =>
      refine ⟨history_ok.store (s.ss.set_caller _ _) h.history ?_, _, Function.update_self _ _ _,
        .set_snap k snap ?_⟩
      · show s.value tid = BitVec.ofNat 64 (((s.ss.history.current tid).stores + 1) / 2)
        have hstores := hk.stores
        rw [hk.started, show ((s.ss.history.current tid).stores + 1) / 2 = k + 1 by omega]
      · show Program.Numbers ((s.ss.history.push _).current tid)
          (Function.update s.ss.a_table tid _ tid) _ _ _ _ _ _
        rw [History.push_current, Function.update_self, Function.update_self]
        refine ⟨hk.counted, hk.stamp, hk.started, hk.started, ?_⟩
        show (s.ss.history.current tid).stores + 1 = k + 1 + (k + 1)
        have hstores := hk.stores
        omega
  | set_snap snap hc =>
    rw [hc] at hold
    cases hold with
    | set_snap k _ hk =>
      refine ⟨h.history, _, Function.update_self _ _ _, .count k ?_⟩
      show Program.Numbers _ (Function.update s.ss.a_table tid _ tid) _ _ _ _ _ _
      rw [Function.update_self]
      exact ⟨hk.counted, hk.stamp, hk.stored, hk.started, hk.stores⟩

end CountInv

/-! ## Section 3: The sum -/

/-- The ways in which a thread takes a step. -/
inductive ThreadCase (s : State n) (tid : Fin n) : State n → Prop where
  | see_end : s.thread tid = .test → s.stop = true →
      ThreadCase s tid (s.set_thread tid .returned)
  | call_update : s.thread tid = .test → s.stop = false → ThreadCase s tid (s.call_update tid)
  | update (ss : Split.SnapshotState n) : s.thread tid = .update → s.ss.run tid.val = some ss →
      ThreadCase s tid (s.set_object tid ss)
  | count : s.thread tid = .count →
      ThreadCase s tid { s.set_thread tid .test with
        num_of_update := Function.update s.num_of_update tid (s.num_of_update tid + 1) }

theorem thread_case_of_run {s s' : State n} {tid : Fin n} (h : s.run_thread tid = some s') :
    ThreadCase s tid s' := by
  unfold State.run_thread at h
  cases hpt : s.thread tid with
  | test =>
    simp only [hpt] at h
    split at h
    · next hstop =>
      cases h
      exact .see_end hpt hstop
    · next hstop =>
      cases h
      exact .call_update hpt (Bool.eq_false_iff.mpr hstop)
  | update =>
    simp only [hpt] at h
    obtain ⟨ss, hrun, rfl⟩ := Option.map_eq_some_iff.mp h
    exact .update ss hpt hrun
  | count =>
    simp only [hpt] at h
    cases h
    exact .count hpt
  | returned => simp [hpt] at h

/-- The ways in which `main` takes a step. -/
inductive MainCase (s : State n) : State n → Prop where
  | wake : s.main = .sleep → MainCase s { s with
      stop := true
      main := .join 0 }
  | join (i : ℕ) (hi : i < n) : s.main = .join i → s.thread ⟨i, hi⟩ = .returned →
      MainCase s { s with
        sum_of_update_num := s.sum_of_update_num + s.num_of_update ⟨i, hi⟩
        main := .join (i + 1) }
  | print (i : ℕ) : s.main = .join i → n ≤ i → MainCase s { s with
      output := some (State.line s.sum_of_update_num)
      main := .returned }

theorem main_case_of_run {s s' : State n} (h : s.run_main = some s') : MainCase s s' := by
  unfold State.run_main at h
  cases hm : s.main with
  | sleep =>
    simp only [hm] at h
    cases h
    exact .wake hm
  | join i =>
    simp only [hm] at h
    split at h
    · next hi =>
      split at h
      · next hret =>
        cases h
        exact .join i hi hm hret
      · cases h
    · next hi =>
      cases h
      exact .print i hm (Nat.le_of_not_lt hi)
  | returned => simp [hm] at h

/-- A thread leaves `main` and the other threads alone, and it has not yet returned. -/
theorem ThreadCase.other {s s' : State n} {tid : Fin n} (h : ThreadCase s tid s') :
    s'.main = s.main ∧ s'.sum_of_update_num = s.sum_of_update_num ∧ s'.output = s.output ∧
    s'.stop = s.stop ∧ s.thread tid ≠ .returned ∧
    ∀ j, j ≠ tid → s'.thread j = s.thread j ∧ s'.num_of_update j = s.num_of_update j := by
  cases h with
  | see_end hpt | call_update hpt =>
    refine ⟨rfl, rfl, rfl, rfl, by rw [hpt]; decide, ?_⟩
    intro j hj
    exact ⟨Function.update_of_ne hj _ _, rfl⟩
  | update ss hpt hrun =>
    refine ⟨rfl, rfl, rfl, rfl, by rw [hpt]; decide, ?_⟩
    intro j hj
    refine ⟨?_, rfl⟩
    show (if _ then Function.update s.thread tid .count else s.thread) j = s.thread j
    split
    · exact Function.update_of_ne hj _ _
    · rfl
  | count hpt =>
    refine ⟨rfl, rfl, rfl, rfl, by rw [hpt]; decide, ?_⟩
    intro j hj
    exact ⟨Function.update_of_ne hj _ _, Function.update_of_ne hj _ _⟩

/-- The updates of the other threads are where they were. -/
theorem ThreadCase.caller {s s' : State n} {tid j : Fin n} (h : ThreadCase s tid s')
    (hinv : CountInv s) (hj : j ≠ tid) : s'.ss.caller j.val = s.ss.caller j.val := by
  cases h with
  | see_end | count => rfl
  | call_update => exact Function.update_of_ne (fun heq => hj (Fin.ext heq)) _ _
  | update ss hpt hrun =>
    have hok := hinv.threads tid
    rw [hpt] at hok
    exact ((update_step_of_run hok.register hrun).other hj).1

/-- The sum of the counts of the first `i` threads. -/
def State.sum_below (s : State n) (i : ℕ) : T :=
  ∑ j ∈ univ.filter (fun j : Fin n => j.val < i), s.num_of_update j

theorem State.sum_below_succ (s : State n) {i : ℕ} (hi : i < n) :
    s.sum_below (i + 1) = s.sum_below i + s.num_of_update ⟨i, hi⟩ := by
  have hset : univ.filter (fun j : Fin n => j.val < i + 1) =
      insert ⟨i, hi⟩ (univ.filter (fun j : Fin n => j.val < i)) := by
    ext j
    simp only [mem_filter, mem_univ, true_and, mem_insert, Fin.ext_iff]
    omega
  unfold State.sum_below
  rw [hset, sum_insert (by simp), add_comm]

/-- What `main` has added up so far. -/
def main_ok (s : State n) : Prop :=
  match s.main with
  | .sleep => s.sum_of_update_num = 0 ∧ s.output = none
  | .join i => i ≤ n ∧ (∀ j : Fin n, j.val < i → s.thread j = .returned) ∧
      s.sum_of_update_num = s.sum_below i ∧ s.output = none
  | .returned => (∀ j, s.thread j = .returned) ∧ s.output = some (State.line (s.sum_below n))

theorem main_ok.thread {s s' : State n} {tid : Fin n} (h : main_ok s)
    (hstep : ThreadCase s tid s') : main_ok s' := by
  obtain ⟨hmain, hsum, hout, -, hret, hother⟩ := hstep.other
  unfold main_ok at h ⊢
  rw [hmain]
  cases hm : s.main with
  | sleep =>
    rw [hm] at h
    rw [hsum, hout]
    exact h
  | join i =>
    rw [hm] at h
    obtain ⟨hi, hdone, hs, ho⟩ := h
    -- A thread that was joined takes no step.
    have hne : ∀ j : Fin n, j.val < i → j ≠ tid := by
      intro j hj heq
      subst heq
      exact hret (hdone j hj)
    refine ⟨hi, ?_, ?_, by rw [hout, ho]⟩
    · intro j hj
      rw [(hother j (hne j hj)).1]
      exact hdone j hj
    · rw [hsum, hs]
      refine sum_congr rfl fun j hj => ?_
      exact ((hother j (hne j (mem_filter.mp hj).2)).2).symm
  | returned =>
    rw [hm] at h
    exact absurd (h.1 tid) hret

theorem main_ok.main {s s' : State n} (h : main_ok s) (hstep : MainCase s s') : main_ok s' := by
  unfold main_ok at h
  cases hstep with
  | wake hm =>
    rw [hm] at h
    refine ⟨Nat.zero_le n, fun j hj => absurd hj (Nat.not_lt_zero _), ?_, h.2⟩
    simpa [State.sum_below] using h.1
  | join i hi hm hret =>
    rw [hm] at h
    obtain ⟨-, hdone, hs, ho⟩ := h
    refine ⟨hi, ?_, ?_, ho⟩
    · intro j hj
      rcases Nat.lt_succ_iff_lt_or_eq.mp hj with hlt | heq
      · exact hdone j hlt
      · subst heq
        exact hret
    · show s.sum_of_update_num + s.num_of_update ⟨i, hi⟩ = s.sum_below (i + 1)
      rw [hs, s.sum_below_succ hi]
  | print i hm hi =>
    rw [hm] at h
    obtain ⟨hle, hdone, hs, -⟩ := h
    have hin : i = n := Nat.le_antisymm hle hi
    subst hin
    refine ⟨fun j => hdone j j.isLt, ?_⟩
    show some (State.line s.sum_of_update_num) = some (State.line (s.sum_below i))
    rw [hs]

theorem inv_reachable {s : State n} (h : Reachable (executions n) s) :
    CountInv s ∧ main_ok s := by
  apply h.invariant
  · intro s hinit
    change s = .start n at hinit
    subst hinit
    exact ⟨CountInv.of_start, rfl, rfl⟩
  · intro s l s' _ hinv hstep
    obtain ⟨hcount, hmain⟩ := hinv
    change s.perform l = some s' at hstep
    cases l with
    | some tid =>
      have hcase := thread_case_of_run hstep
      refine ⟨?_, hmain.thread hcase⟩
      cases hcase with
      | see_end hpt hstop => exact hcount.thread_return hpt
      | call_update hpt hstop => exact hcount.call_update hpt
      | update ss hpt hrun => exact hcount.update hpt hrun
      | count hpt => exact hcount.count hpt
    | none =>
      have hcase := main_case_of_run hstep
      refine ⟨?_, hmain.main hcase⟩
      cases hcase <;> exact ⟨hcount.object, hcount.threads, hcount.history⟩

/-- A sum of numbers, modulo `2 ^ 64`. -/
theorem sum_ofNat (s : Finset (Fin n)) (f : Fin n → ℕ) :
    ∑ j ∈ s, (BitVec.ofNat 64 (f j) : T) = BitVec.ofNat 64 (∑ j ∈ s, f j) := by
  induction s using Finset.induction_on with
  | empty => rfl
  | insert j s hj ih => rw [sum_insert hj, sum_insert hj, ih, BitVec.ofNat_add]

/-- **Updates are counted.**  In every run of `main.cc`, a clean scan returns for each
    thread how many of its updates had been stored at some time during the scan.  What is
    printed is the number of all updates, and then every register holds the number of
    its thread's updates. -/
theorem updates_counted {s : State n} (h : Reachable (executions n) s) :
    (∀ e ∈ s.ss.clean, ∀ j, ∃ m, e.start ≤ m ∧ m ≤ e.finish ∧
      e.snap j = BitVec.ofNat 64 ((s.ss.history.version m j).stores / 2)) ∧
    ∀ line, s.output = some line →
      line = State.line (BitVec.ofNat 64 (∑ j, (s.ss.a_table j).stamp)) ∧
      ∀ j, (s.ss.a_table j).value = BitVec.ofNat 64 (s.ss.a_table j).stamp := by
  obtain ⟨hcount, hmain⟩ := inv_reachable h
  constructor
  · intro e he j
    obtain ⟨hfinish, m, -, hm⟩ := (Split.LoadsInv.reachable hcount.object).results e he
    obtain ⟨hlo, hhi, hvalue⟩ := hm j trivial
    exact ⟨m j, hlo, hhi, by rw [← hvalue, hcount.history _ j (Nat.le_trans hhi hfinish)]⟩
  · intro line hline
    unfold main_ok at hmain
    cases hm : s.main with
    | sleep =>
      rw [hm] at hmain
      rw [hmain.2] at hline
      cases hline
    | join i =>
      rw [hm] at hmain
      rw [hmain.2.2.2] at hline
      cases hline
    | returned =>
      rw [hm] at hmain
      obtain ⟨hdone, hout⟩ := hmain
      -- A thread that has returned has counted all of its updates.
      have hnum : ∀ j, s.num_of_update j = BitVec.ofNat 64 (s.ss.a_table j).stamp ∧
          (s.ss.a_table j).value = BitVec.ofNat 64 (s.ss.a_table j).stamp := by
        intro j
        have hok := hcount.threads j
        rw [hdone j] at hok
        generalize s.ss.caller j.val = c at hok
        cases hok with
        | returned k hk => exact ⟨by rw [hk.counted, hk.stamp], by rw [hk.stored, hk.stamp]⟩
      refine ⟨?_, fun j => (hnum j).2⟩
      rw [hout] at hline
      cases hline
      have hall : univ.filter (fun j : Fin n => j.val < n) = univ := by
        ext j
        simp
      unfold State.sum_below
      rw [hall, ← sum_ofNat]
      congr 1
      exact sum_congr rfl fun j _ => (hnum j).1

/-- Two threads in turn, `k` steps each. -/
def in_turn (k : ℕ) : List (Option (Fin 2)) :=
  (List.replicate k [some ⟨0, by decide⟩, some ⟨1, by decide⟩]).flatten

/-- Both threads are in the scans of their updates when `main` sets `end`. -/
def until_end : List (Option (Fin 2)) := in_turn 10 ++ [none]

/-- They finish their updates and see `end`; then they are joined. -/
def after_end : List (Option (Fin 2)) := in_turn 10 ++ [none, none, none]

theorem updates_counted_two_threads :
    ∃ s : State 2,
      (∃ e ∈ s.ss.clean, ∀ j, ∃ m, e.start ≤ m ∧ m ≤ e.finish ∧
        e.snap j = BitVec.ofNat 64 ((s.ss.history.version m j).stores / 2)) ∧
      s.output = some "update : 2\n" ∧
      "update : 2\n" = State.line (BitVec.ofNat 64 (∑ j, (s.ss.a_table j).stamp)) := by
  obtain ⟨s, hreach, hend⟩ : ∃ s, Reachable (executions 2) s ∧
      decide (s.ss.clean ≠ [] ∧ s.output = some "update : 2\n") = true :=
    Reachable.exec_any (fun _ _ _ h => h) rfl (until_end ++ after_end)
      (fun s : State 2 => decide (s.ss.clean ≠ [] ∧ s.output = some "update : 2\n"))
      (by decide +kernel)
  obtain ⟨hscan, hline⟩ := of_decide_eq_true hend
  obtain ⟨e, he⟩ := List.exists_mem_of_ne_nil _ hscan
  have hcounted := updates_counted hreach
  exact ⟨s, ⟨e, he, hcounted.1 e he⟩, hline, (hcounted.2 _ hline).1⟩

/-! ## Section 4: The end -/

/-- The collects that a scan may still start. -/
def collects_left (f : Split.Scan n) : ℕ :=
  (unmoved f.moved).card + if f.old_copy.isNone then 1 else 0

/-- The steps that are left of the running collect and the comparison after it. -/
def loads_left (f : Split.Scan n) : ℕ :=
  match f.field with
  | .stamp => 3 * (n - f.i) + 1
  | .value => 3 * (n - f.i) - 1 + 1
  | .snap => 3 * (n - f.i) - 2 + 1

def scan_rank (f : Split.Scan n) : ℕ := collects_left f * (3 * n + 1) + loads_left f

theorem loads_left_pos (f : Split.Scan n) : 0 < loads_left f := by
  unfold loads_left
  split <;> omega

theorem loads_left_le (f : Split.Scan n) : loads_left f ≤ 3 * n + 1 := by
  unfold loads_left
  split <;> omega

theorem scan_rank_le (f : Split.Scan n) : scan_rank f ≤ (n + 2) * (3 * n + 1) := by
  have hloads := loads_left_le f
  have hcollects : collects_left f ≤ n + 1 := by
    have hcard : (unmoved f.moved).card ≤ n := by
      simpa using card_le_univ (unmoved f.moved)
    unfold collects_left
    split <;> omega
  calc scan_rank f ≤ (n + 1) * (3 * n + 1) + (3 * n + 1) :=
        Nat.add_le_add (Nat.mul_le_mul_right _ hcollects) hloads
    _ = (n + 2) * (3 * n + 1) := by ring

/-- The next collect starts, and there is one less to come. -/
theorem scan_rank_next_collect {f f' : Split.Scan n} (hi : f'.i = 0) (hfield : f'.field = .stamp)
    (hless : collects_left f' + 1 = collects_left f) : scan_rank f' < scan_rank f := by
  have hpos := loads_left_pos f
  have hloads : loads_left f' = 3 * n + 1 := by
    unfold loads_left
    rw [hfield, hi, Nat.sub_zero]
  unfold scan_rank
  rw [hloads, ← hless, Nat.add_mul, Nat.one_mul]
  omega

/-- **A scan is wait-free**: whatever it reads, each of its steps lowers its rank. -/
theorem scan_rank_lt {f f' : Split.Scan n} {a_table : Collection n}
    (h : f.next a_table = .running f') : scan_rank f' < scan_rank f := by
  unfold Split.Scan.next at h
  split at h
  · next hi =>
    cases h
    unfold scan_rank
    apply Nat.add_lt_add_of_le_of_lt
    · apply Nat.mul_le_mul_right
      unfold Split.Scan.load
      split <;> exact Nat.le_refl _
    · unfold Split.Scan.load loads_left
      cases hfield : f.field <;> simp only <;> omega
  · next hi =>
    unfold Split.Scan.compare at h
    cases hold : f.old_copy with
    | none =>
      simp only [hold] at h
      cases h
      apply scan_rank_next_collect rfl rfl
      simp [collects_left, hold]
    | some old_copy =>
      simp only [hold] at h
      cases hmoved : first_moved old_copy f.copy with
      | none => simp [hmoved] at h
      | some j =>
        simp only [hmoved] at h
        split at h
        · cases h
        · next hj =>
          -- One more thread is known to have moved.
          cases h
          apply scan_rank_next_collect rfl rfl
          have hcard := unmoved_update (Bool.eq_false_iff.mpr hj)
          simpa [collects_left, hold] using hcard

/-- The steps that an update has left at most. -/
def caller_rank : Split.Caller n → ℕ
  | .idle => 0
  | .scan f => scan_rank f
  | .update _ _ f => scan_rank f + 3
  | .add_stamp _ _ _ => 3
  | .set_value _ _ _ => 2
  | .set_snap _ _ => 1

theorem caller_rank_lt {ss ss' : Split.SnapshotState n} {tid : Fin n}
    (h : UpdateStep ss tid ss') :
    caller_rank (ss'.caller tid.val) < caller_rank (ss.caller tid.val) := by
  have hself : ∀ c, Function.update ss.caller tid.val c tid.val = c :=
    fun c => Function.update_self _ _ _
  have hpos : ∀ f : Split.Scan n, 0 < scan_rank f := by
    intro f
    have hloads := loads_left_pos f
    unfold scan_rank
    omega
  cases h with
  | scan_on value f f' hc hnext =>
    rw [hc]
    show caller_rank (Function.update ss.caller tid.val _ tid.val) < _
    rw [hself]
    exact Nat.add_lt_add_right (scan_rank_lt hnext) 3
  | scan_clean value f snap hc hnext | scan_borrowed value f snap hc hnext =>
    rw [hc]
    show caller_rank (Function.update ss.caller tid.val _ tid.val) < _
    rw [hself]
    have := hpos f
    show 3 < scan_rank f + 3
    omega
  | add_stamp value snap hc | set_value value snap hc | set_snap snap hc =>
    rw [hc]
    show caller_rank (Function.update ss.caller tid.val _ tid.val) < _
    rw [hself]
    simp [caller_rank]

/-- The steps that a thread has left at most once `end` is set. -/
def thread_rank : ThreadPoint → Split.Caller n → ℕ
  | .test, _ => 1
  | .update, c => caller_rank c + 2
  | .count, _ => 2
  | .returned, _ => 0

def main_rank (n : ℕ) : MainPoint → ℕ
  | .sleep => n + 2
  | .join i => n - i + 1
  | .returned => 0

def State.rank (s : State n) : ℕ :=
  ∑ j, thread_rank (s.thread j) (s.ss.caller j.val) + main_rank n s.main

/-- The steps that are enough for a program of `n` threads. -/
def steps_to_end (n : ℕ) : ℕ := n * ((n + 2) * (3 * n + 1) + 5) + (n + 2)

theorem State.rank_le (s : State n) : s.rank ≤ steps_to_end n := by
  have hthread : ∀ pt (c : Split.Caller n), thread_rank pt c ≤ (n + 2) * (3 * n + 1) + 5 := by
    intro pt c
    cases pt with
    | test | count | returned =>
      simp only [thread_rank]
      omega
    | update =>
      cases c with
      | scan f | update _ _ f =>
        have := scan_rank_le f
        simp only [thread_rank, caller_rank]
        omega
      | idle | add_stamp | set_value | set_snap =>
        simp only [thread_rank, caller_rank]
        omega
  have hmain : main_rank n s.main ≤ n + 2 := by
    cases s.main <;> simp only [main_rank] <;> omega
  have hsum : ∑ j, thread_rank (s.thread j) (s.ss.caller j.val) ≤
      n * ((n + 2) * (3 * n + 1) + 5) := by
    calc ∑ j, thread_rank (s.thread j) (s.ss.caller j.val)
        ≤ ∑ _j : Fin n, ((n + 2) * (3 * n + 1) + 5) := sum_le_sum fun j _ => hthread _ _
      _ = n * ((n + 2) * (3 * n + 1) + 5) := by simp
  exact Nat.add_le_add hsum hmain

/-- A step of a thread lowers its rank. -/
theorem thread_rank_lt {s s' : State n} {tid : Fin n} (h : CountInv s) (hstop : s.stop = true)
    (hstep : ThreadCase s tid s') :
    thread_rank (s'.thread tid) (s'.ss.caller tid.val) <
      thread_rank (s.thread tid) (s.ss.caller tid.val) := by
  cases hstep with
  | see_end hpt _ =>
    show thread_rank (Function.update s.thread tid .returned tid) _ < _
    rw [hpt, Function.update_self]
    exact Nat.zero_lt_one
  | call_update hpt hgo =>
    rw [hstop] at hgo
    cases hgo
  | update ss hpt hrun =>
    have hok := h.threads tid
    rw [hpt] at hok
    have hlt := caller_rank_lt (update_step_of_run hok.register hrun)
    rw [hpt]
    show thread_rank ((if (ss.caller tid.val).is_idle then Function.update s.thread tid .count
      else s.thread) tid) (ss.caller tid.val) < caller_rank (s.ss.caller tid.val) + 2
    split
    · rw [Function.update_self]
      show 2 < caller_rank (s.ss.caller tid.val) + 2
      omega
    · rw [hpt]
      exact Nat.add_lt_add_right hlt 2
  | count hpt =>
    show thread_rank (Function.update s.thread tid .test tid) _ < _
    rw [hpt, Function.update_self]
    exact Nat.one_lt_two

/-- **Every step lowers the rank**, once `end` is set. -/
theorem State.rank_lt {s s' : State n} {l : Option (Fin n)} (h : CountInv s)
    (hstop : s.stop = true) (hstep : (executions n).step s l s') :
    s'.stop = true ∧ s'.rank < s.rank := by
  change s.perform l = some s' at hstep
  cases l with
  | some tid =>
    have hcase := thread_case_of_run hstep
    obtain ⟨hmain, -, -, hsame, -, hother⟩ := hcase.other
    refine ⟨by rw [hsame, hstop], ?_⟩
    unfold State.rank
    rw [hmain]
    apply Nat.add_lt_add_right
    have hself := thread_rank_lt h hstop hcase
    refine sum_lt_sum ?_ ⟨tid, mem_univ _, hself⟩
    intro j _
    by_cases hj : j = tid
    · subst hj
      exact Nat.le_of_lt hself
    · rw [(hother j hj).1, hcase.caller h hj]
  | none =>
    have hcase := main_case_of_run hstep
    cases hcase with
    | wake hm =>
      refine ⟨rfl, Nat.add_lt_add_left ?_ _⟩
      rw [hm]
      exact Nat.lt_succ_self _
    | join i hi hm _ =>
      refine ⟨hstop, Nat.add_lt_add_left ?_ _⟩
      rw [hm]
      simp only [main_rank]
      omega
    | print i hm _ =>
      refine ⟨hstop, Nat.add_lt_add_left ?_ _⟩
      rw [hm]
      exact Nat.succ_pos _

/-- A thread that has not returned can take a step. -/
theorem thread_goes_on {s : State n} {tid : Fin n} (h : CountInv s)
    (hroom : ∀ tid, (s.ss.a_table tid).stamp + 1 < 2 ^ 63) (hret : s.thread tid ≠ .returned) :
    ∃ s', s.run_thread tid = some s' := by
  have hok := h.threads tid
  unfold State.run_thread
  cases hpt : s.thread tid with
  | test =>
    simp only
    split <;> exact ⟨_, rfl⟩
  | count => exact ⟨_, rfl⟩
  | returned => exact absurd hpt hret
  | update =>
    rw [hpt] at hok
    -- The update is not over, and its stamp has room.
    have hrun : ∃ ss, s.ss.run tid.val = some ss := by
      unfold Split.SnapshotState.run
      generalize s.ss.caller tid.val = c at hok
      cases hok with
      | scan | set_value | set_snap => exact ⟨_, rfl⟩
      | add_stamp => exact ⟨_, if_pos (hroom tid)⟩
    obtain ⟨ss, hss⟩ := hrun
    exact ⟨_, by simp only [hss, Option.map_some]; rfl⟩

/-- Before the stamps overflow, the program stops only after it has printed. -/
theorem not_stuck {s : State n} (hcount : CountInv s) (hmain : main_ok s)
    (hroom : ∀ tid, (s.ss.a_table tid).stamp + 1 < 2 ^ 63) (hout : s.output = none) :
    ∃ l s', (executions n).step s l s' := by
  have hgo : s.run_main.isSome → ∃ l s', (executions n).step s l s' := by
    intro hsome
    obtain ⟨s', hs'⟩ := Option.isSome_iff_exists.mp hsome
    exact ⟨none, s', hs'⟩
  cases hm : s.main with
  | sleep => exact hgo (by simp [State.run_main, hm])
  | returned =>
    unfold main_ok at hmain
    rw [hm] at hmain
    rw [hmain.2] at hout
    cases hout
  | join i =>
    by_cases hi : i < n
    · by_cases hret : s.thread ⟨i, hi⟩ = .returned
      · exact hgo (by simp [State.run_main, hm, hi, hret])
      · -- `main` waits for a thread that can go on.
        obtain ⟨s', hs'⟩ := thread_goes_on hcount hroom hret
        exact ⟨some ⟨i, hi⟩, s', hs'⟩
    · exact hgo (by simp [State.run_main, hm, hi])

/-- **The program ends under every schedule.**  Once `end` is set, the threads and `main`
    take at most `n * ((n + 2) * (3 * n + 1) + 5) + (n + 2)` steps, in whatever order.
    When nothing is left to do and no stamp is about to overflow, the sum is printed. -/
theorem ends_under_every_schedule {s s' : State n} {ls : List (Option (Fin n))}
    (h : Reachable (executions n) s) (hstop : s.stop = true)
    (hrun : (executions n).Run s ls s') :
    ls.length ≤ steps_to_end n ∧
    ((∀ tid, (s'.ss.a_table tid).stamp + 1 < 2 ^ 63) →
      (∀ l s'', ¬ (executions n).step s' l s'') → s'.output ≠ none) := by
  obtain ⟨hinv, hlength⟩ := hrun.length_le
    (fun s => Reachable (executions n) s ∧ s.stop = true) State.rank
    (fun s l s' hs hstep => by
      obtain ⟨hstop', hlt⟩ := State.rank_lt (inv_reachable hs.1).1 hs.2 hstep
      exact ⟨⟨hs.1.step hstep, hstop'⟩, hlt⟩) ⟨h, hstop⟩
  constructor
  · have hbound := s.rank_le
    omega
  · intro hroom hstuck hout
    obtain ⟨hcount, hmain⟩ := inv_reachable hinv.1
    obtain ⟨l, s'', hstep⟩ := not_stuck hcount hmain hroom hout
    exact hstuck l s'' hstep

/-- All have returned, and each thread has made one update. -/
def all_returned (s : State 2) : Bool :=
  decide (s.main = .returned ∧ ∀ tid, s.thread tid = .returned ∧ (s.ss.a_table tid).stamp = 1)

/-- `end` is set while both threads are in their updates: they finish them, and the sum
    is printed. -/
theorem ends_within_updates :
    ∃ s s' : State 2, s.stop = true ∧ (∀ tid, s.thread tid = .update) ∧
      (executions 2).Run s after_end s' ∧ after_end.length ≤ steps_to_end 2 ∧
      s'.output ≠ none := by
  obtain ⟨s, hreach, hend⟩ : ∃ s, Reachable (executions 2) s ∧
      (decide (s.stop = true ∧ ∀ tid, s.thread tid = .update) &&
        (exec State.perform s after_end).any all_returned) = true :=
    Reachable.exec_any (fun _ _ _ h => h) rfl until_end
      (fun s : State 2 => decide (s.stop = true ∧ ∀ tid, s.thread tid = .update) &&
        (exec State.perform s after_end).any all_returned) (by decide +kernel)
  rw [Bool.and_eq_true] at hend
  obtain ⟨hstop, hupdate⟩ := of_decide_eq_true hend.1
  obtain ⟨s', hexec, hlast⟩ := (Option.any_eq_true _ _).mp hend.2
  obtain ⟨hmain, hthreads⟩ := of_decide_eq_true hlast
  have hrun : (executions 2).Run s after_end s' := .of_exec (fun _ _ _ h => h) hexec
  obtain ⟨hlength, hprinted⟩ := ends_under_every_schedule hreach hstop hrun
  refine ⟨s, s', hstop, hupdate, hrun, hlength, hprinted ?_ ?_⟩
  · intro tid
    rw [(hthreads tid).2]
    decide
  · intro l s'' hstep
    change s'.perform l = some s'' at hstep
    cases l with
    | none => simp [State.perform, State.run_main, hmain] at hstep
    | some tid => simp [State.perform, State.run_thread, (hthreads tid).1] at hstep

end Project3.Program
