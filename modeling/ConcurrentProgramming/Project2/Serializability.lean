import ConcurrentProgramming.Project2.TransactionLocks
import Mathlib.Data.List.Sort

/-! # Serializability in Commit Order

    The marking program sorts the lines of all log files by commit id, executes
    the transactions again one after the other, and compares.  Here that check
    is shown to succeed in every reachable state of the program.

    The abstract machine is `serial`: it executes whole transactions, one step
    each.  The program refines it (`serial_simulation`): a commit is a step of
    the machine, every other step of a thread is invisible.  What makes this
    work is `DataInv`, which compares `records[]` with the records of the
    committed transactions: they differ only where a running transaction has
    written, and such a record is locked.
-/

namespace Project2

open LTS LockQueue Clients

/-! ## Section 1: The serial machine -/

/-- The records at the start, `records[i] = 100`. -/
def initial_records : ℕ → BitVec 64 := fun _ => 100

/-- One round of the loop of the marking program: the records after the
    transaction and the line `log_again`. -/
def redo (records : ℕ → BitVec 64) (log : LogLine) : (ℕ → BitVec 64) × LogLine :=
  let value_of_i := records log.i
  let records := Function.update records log.j (records log.j + (value_of_i + 1))
  let value_of_j := records log.j
  let records := Function.update records log.k (records log.k - value_of_i)
  let value_of_k := records log.k
  (records, ⟨log.commit_id, log.i, log.j, log.k, value_of_i, value_of_j, value_of_k⟩)

/-- The records after all rounds. -/
def replay_records (records : ℕ → BitVec 64) (logs : List LogLine) : ℕ → BitVec 64 :=
  logs.foldl (fun m log => (redo m log).1) records

/-- The lines `log_again` of all rounds. -/
def replay_lines : (ℕ → BitVec 64) → List LogLine → List LogLine
  | _, [] => []
  | records, log :: logs => (redo records log).2 :: replay_lines (redo records log).1 logs

theorem replay_records_concat (m : ℕ → BitVec 64) (logs : List LogLine) (log : LogLine) :
    replay_records m (logs ++ [log]) = (redo (replay_records m logs) log).1 := by
  simp [replay_records]

theorem replay_lines_concat (m : ℕ → BitVec 64) (logs : List LogLine) (log : LogLine) :
    replay_lines m (logs ++ [log]) =
      replay_lines m logs ++ [(redo (replay_records m logs) log).2] := by
  induction logs generalizing m with
  | nil => rfl
  | cons first rest ih =>
    show (redo m first).2 :: replay_lines (redo m first).1 (rest ++ [log]) = _
    rw [ih]
    rfl

structure SerialState where
  records : ℕ → BitVec 64
  logs    : List LogLine

/-- The machine that executes one transaction after the other and numbers them. -/
def serial : System SerialState LogLine where
  init := fun s => s.records = initial_records ∧ s.logs = []
  step := fun s log s' =>
    log.commit_id = s.logs.length + 1 ∧ (redo s.records log).2 = log ∧
      s' = ⟨(redo s.records log).1, s.logs ++ [log]⟩

/-- What the machine has written is what the marking program expects. -/
structure SerialInv (s : SerialState) : Prop where
  records : s.records = replay_records initial_records s.logs
  lines   : replay_lines initial_records s.logs = s.logs
  ids     : s.logs.map (·.commit_id) = List.range' 1 s.logs.length

theorem serial_inv_reachable {s : SerialState} (h : Reachable serial s) : SerialInv s := by
  apply h.invariant
  · intro s hinit
    obtain ⟨m, logs⟩ := s
    obtain ⟨rfl, rfl⟩ := hinit
    exact ⟨rfl, rfl, rfl⟩
  · intro s log s' _ hinv hstep
    obtain ⟨hid, hredo, rfl⟩ := hstep
    refine ⟨?_, ?_, ?_⟩
    · rw [replay_records_concat, ← hinv.records]
    · rw [replay_lines_concat, hinv.lines, ← hinv.records, hredo]
    · rw [List.map_append, hinv.ids, List.length_append, List.length_singleton,
        List.range'_concat]
      simp [hid, Nat.add_comm]

/-! ## Section 2: What a transaction has read and written -/

/-- The records that a thread has written and not yet committed. -/
def Thread.dirty (th : Thread) : List ℕ :=
  match th.point with
  | .result_j | .second_lock | .second_wait | .old_k | .load_k | .store_k => [th.log.j]
  | .result_k | .commit => [th.log.j, th.log.k]
  -- `exit` is called after the first or the second assignment.
  | .exited =>
      if th.log.current_phase = .FIRST_WRITE then [th.log.j] else [th.log.j, th.log.k]
  | _ => []

/-- `log.value_of_i` has been read. -/
def read_done (S : ℕ → BitVec 64) (log : log_t) : Prop := log.value_of_i = S log.i

/-- The first write has been made, with the given value. -/
def first_done (S rec : ℕ → BitVec 64) (log : log_t) : Prop :=
  read_done S log ∧ rec log.j = S log.j + (S log.i + 1)

/-- The first write has been logged. -/
def first_logged (S rec : ℕ → BitVec 64) (log : log_t) : Prop :=
  first_done S rec log ∧ log.value_of_j = S log.j + (S log.i + 1)

/-- The second write has been made. -/
def second_done (S rec : ℕ → BitVec 64) (log : log_t) : Prop :=
  first_logged S rec log ∧ rec log.k = S log.k - S log.i

/-- What holds at a point, where `S` are the records of the committed
    transactions and `rec` those of the program. -/
def data_ok (S rec : ℕ → BitVec 64) (th : Thread) : Prop :=
  match th.point with
  | .loop_head | .read_lock | .read_wait | .read_i | .terminated | .exited => True
  | .first_lock | .first_wait | .old_j | .load_j => read_done S th.log
  | .store_j => read_done S th.log ∧ th.loaded = S th.log.j
  | .result_j => first_done S rec th.log
  | .second_lock | .second_wait | .old_k | .load_k => first_logged S rec th.log
  | .store_k => first_logged S rec th.log ∧ th.loaded = S th.log.k
  | .result_k => second_done S rec th.log
  | .commit => second_done S rec th.log ∧ th.log.value_of_k = S th.log.k - S th.log.i

/-- A record that the thread has locked for writing. -/
def Thread.writes (th : Thread) (r : ℕ) : Prop := ∃ p, p ≠ phase_t.READ ∧ (p, r) ∈ th.holds

/-- A dirty record is locked for writing. -/
theorem Thread.writes_of_dirty {th : Thread} {r : ℕ} (h : r ∈ th.dirty) : th.writes r := by
  unfold Thread.dirty at h
  unfold Thread.writes Thread.holds
  cases hp : th.point <;> simp only [hp] at h ⊢ <;> grind

/-- The facts at a point only depend on the locked records. -/
theorem data_ok.frame {S S' rec rec' : ℕ → BitVec 64} {th : Thread} (h : data_ok S rec th)
    (hagree : ∀ held ∈ th.holds, S' held.2 = S held.2 ∧ rec' held.2 = rec held.2) :
    data_ok S' rec' th := by
  unfold data_ok at h ⊢
  unfold Thread.holds at hagree
  cases hp : th.point <;> simp only [hp] at h hagree ⊢ <;>
    simp_all [read_done, first_done, first_logged, second_done]

/-- `S` are the records of the committed transactions. -/
structure DataInv (cfg : Config) (S : ℕ → BitVec 64) (s : Program) : Prop where
  link   : LinkInv cfg s
  thread : ∀ t, data_ok S s.records (s.thread t)
  clean  : ∀ r, (∀ t, r ∉ (s.thread t).dirty) → s.records r = S r

namespace DataInv

variable {cfg : Config} {S : ℕ → BitVec 64} {s s' : Program} {tid : ℕ}

/-- Nobody else has a lock on a record that a thread has locked for writing. -/
theorem not_held (h : DataInv cfg S s) {t r : ℕ} (hw : (s.thread tid).writes r) (ht : t ≠ tid)
    (p : phase_t) : (p, r) ∉ (s.thread t).holds := by
  obtain ⟨q, hq, hmem⟩ := hw
  intro hheld
  exact ht (h.link.link.exclusive hmem hheld hq).symm

/-- A thread reads committed data in a locked record, unless it has written there. -/
theorem read_committed (h : DataInv cfg S s) (t r : ℕ) (p : phase_t)
    (hheld : (p, r) ∈ (s.thread t).holds) (hown : r ∉ (s.thread t).dirty) :
    s.records r = S r := by
  refine h.clean r (fun u hdirty => ?_)
  by_cases hu : u = t
  · subst hu
    exact hown hdirty
  · exact h.not_held (Thread.writes_of_dirty hdirty) (Ne.symm hu) p hheld

/-- The invariant after thread `tid` has become `th`.  Records and committed
    records may change where the thread has a write lock; what the thread does
    not leave dirty must be as committed. -/
theorem of_update (h : DataInv cfg S s) {S' : ℕ → BitVec 64} {th : Thread}
    (hlink : LinkInv cfg s') (hthread : s'.thread = Function.update s.thread tid th)
    (hlocked : ∀ r, S' r ≠ S r ∨ s'.records r ≠ s.records r → (s.thread tid).writes r)
    (hown : data_ok S' s'.records th)
    (hclean : ∀ r, r ∉ th.dirty → (r ∈ (s.thread tid).dirty ∨ S' r ≠ S r ∨
      s'.records r ≠ s.records r) → s'.records r = S' r) : DataInv cfg S' s' := by
  refine ⟨hlink, ?_, ?_⟩
  · intro t
    rw [hthread]
    by_cases ht : t = tid
    · subst ht
      rwa [Function.update_self]
    · -- The other threads hold none of the records that change.
      rw [Function.update_of_ne ht]
      apply (h.thread t).frame
      intro l hheld
      obtain ⟨p, r⟩ := l
      constructor
      · by_contra hne
        exact h.not_held (hlocked r (.inl hne)) ht p hheld
      · by_contra hne
        exact h.not_held (hlocked r (.inr hne)) ht p hheld
  · intro r hnone
    rw [hthread] at hnone
    have hth : r ∉ th.dirty := by simpa using hnone tid
    by_cases hchange : r ∈ (s.thread tid).dirty ∨ S' r ≠ S r ∨ s'.records r ≠ s.records r
    · exact hclean r hth hchange
    · -- Nothing has happened to `r`.
      simp only [not_or, not_not] at hchange
      obtain ⟨hdirty, hS, hrec⟩ := hchange
      rw [hrec, hS]
      refine h.clean r (fun t => ?_)
      by_cases ht : t = tid
      · subst ht
        exact hdirty
      · simpa [ht] using hnone t

/-- A step that changes local variables only. -/
theorem of_local (h : DataInv cfg S s) {th : Thread}
    (hlink : LinkInv cfg s') (hthread : s'.thread = Function.update s.thread tid th)
    (hrec : s'.records = s.records) (hown : data_ok S s.records th)
    (hdirty : th.dirty = (s.thread tid).dirty) : DataInv cfg S s' := by
  apply h.of_update hlink hthread
  · intro r hcase
    rcases hcase with hne | hne
    · exact absurd rfl hne
    · exact absurd (by rw [hrec]) hne
  · rwa [hrec]
  · intro r hr hcase
    rcases hcase with hd | hne | hne
    · exact absurd (hdirty ▸ hd) hr
    · exact absurd rfl hne
    · exact absurd (by rw [hrec]) hne

/-- A step that writes to a record locked for writing. -/
theorem of_store (h : DataInv cfg S s) {th : Thread} {r : ℕ} {v : BitVec 64}
    (hlink : LinkInv cfg s') (hthread : s'.thread = Function.update s.thread tid th)
    (hrec : s'.records = Function.update s.records r v) (hw : (s.thread tid).writes r)
    (hown : data_ok S s'.records th)
    (hdirty : ∀ x, x ∈ th.dirty ↔ x = r ∨ x ∈ (s.thread tid).dirty) : DataInv cfg S s' := by
  have hsame : ∀ x, s'.records x ≠ s.records x → x = r := by
    intro x hne
    by_contra hx
    exact hne (by rw [hrec, Function.update_of_ne hx])
  refine h.of_update hlink hthread ?_ hown ?_
  · intro x hcase
    rcases hcase with hne | hne
    · exact absurd rfl hne
    · rwa [hsame x hne]
  · intro x hx hcase
    rcases hcase with hd | hne | hne
    · exact absurd ((hdirty x).mpr (.inr hd)) hx
    · exact absurd rfl hne
    · exact absurd ((hdirty x).mpr (.inl (hsame x hne))) hx

end DataInv

/-! ## Section 3: Rolling back undoes the writes -/

/-- What `rollback` does to the records. -/
def undone (records : ℕ → BitVec 64) (log : log_t) : ℕ → BitVec 64 :=
  match log.current_phase with
  | .COMMIT =>
      let records := Function.update records log.k (records log.k + log.value_of_i)
      Function.update records log.j (records log.j - (log.value_of_i + 1))
  | .SECOND_WRITE => Function.update records log.j (records log.j - (log.value_of_i + 1))
  | _ => records

section undo
variable {sh sh' : Shared} {log : log_t}

theorem Shared.unlock_unless_records {refused : phase_t} {r : ℕ}
    (h : sh.unlock_unless log refused r = .ok sh') : sh'.records = sh.records := by
  unfold Shared.unlock_unless at h
  split at h
  · cases h
    rfl
  · exact (Shared.unlock_eq h).2

theorem Shared.rollback_second_write_records (h : sh.rollback_second_write log = .ok sh') :
    sh'.records =
      Function.update sh.records log.j (sh.records log.j - (log.value_of_i + 1)) := by
  obtain ⟨sh₁, h₁, hret⟩ := bind_eq_ok h
  cases hret
  show Function.update sh₁.records _ _ = _
  rw [Shared.unlock_unless_records h₁]

/-- The last two cases of the switch leave the records alone. -/
theorem Shared.rollback_locks_records
    (h : (do let sh ← sh.rollback_first_write log; sh.rollback_read log) = .ok sh') :
    sh'.records = sh.records := by
  obtain ⟨sh₁, h₁, h₂⟩ := bind_eq_ok h
  rw [Shared.unlock_unless_records h₂, Shared.unlock_unless_records h₁]

theorem Shared.rollback_records (h : sh.rollback log = .ok sh') :
    sh'.records = undone sh.records log := by
  unfold Shared.rollback at h
  unfold undone
  cases hphase : log.current_phase with
  | INVALID =>
    rw [hphase] at h
    cases h
  | READ =>
    rw [hphase] at h
    exact Shared.unlock_unless_records h
  | FIRST_WRITE =>
    rw [hphase] at h
    exact Shared.rollback_locks_records h
  | SECOND_WRITE =>
    rw [hphase] at h
    obtain ⟨sh₁, h₁, h₂⟩ := bind_eq_ok h
    rw [Shared.rollback_locks_records h₂, Shared.rollback_second_write_records h₁]
  | COMMIT =>
    rw [hphase] at h
    obtain ⟨sh₀, h₀, h⟩ := bind_eq_ok h
    cases h₀
    obtain ⟨sh₁, h₁, h₂⟩ := bind_eq_ok h
    rw [Shared.rollback_locks_records h₂, Shared.rollback_second_write_records h₁]
    rfl

theorem Shared.release_locks_records (h : sh.release_locks log = .ok sh') :
    sh'.records = sh.records := by
  obtain ⟨sh₁, h₁, h⟩ := bind_eq_ok h
  obtain ⟨sh₂, h₂, h₃⟩ := bind_eq_ok h
  rw [(Shared.unlock_eq h₃).2, (Shared.unlock_eq h₂).2, (Shared.unlock_eq h₁).2]

end undo

/-- The points from which a transaction can be rolled back. -/
def Point.can_abort : Point → Bool
  | .read_lock | .read_wait | .first_lock | .first_wait | .second_lock | .second_wait
  | .commit => true
  | _ => false

/-- **Undoing is exact.**  The arithmetic undo restores the committed value of
    every record that the transaction has written, also when the 64-bit sums
    have wrapped around. -/
theorem undone_eq {S rec : ℕ → BitVec 64} {th : Thread} {R : ℕ} (h : data_ok S rec th)
    (hids : DistinctIds R th.log.i th.log.j th.log.k)
    (hphase : th.log.current_phase = th.point.phase) (hp : th.point.can_abort) (r : ℕ) :
    undone rec th.log r = if r ∈ th.dirty then S r else rec r := by
  unfold undone Thread.dirty
  rw [hphase]
  have hjk := hids.k_ne_j.symm
  cases hpt : th.point <;> simp only [hpt, Point.can_abort, Bool.false_eq_true] at hp <;>
    simp only [data_ok, hpt] at h <;>
    simp only [Point.phase, List.not_mem_nil, if_false, List.mem_cons, or_false]
  -- Left are the two points of the second request and the commit.
  case second_lock | second_wait =>
    obtain ⟨⟨hv, hj⟩, -⟩ := h
    unfold read_done at hv
    by_cases hr : r = th.log.j
    · subst hr
      simp only [Function.update_self, if_true]
      rw [hj, hv, BitVec.add_sub_cancel]
    · rw [Function.update_of_ne hr, if_neg hr]
  case commit =>
    obtain ⟨⟨⟨⟨hv, hj⟩, -⟩, hk⟩, -⟩ := h
    unfold read_done at hv
    by_cases hr : r = th.log.j
    · subst hr
      simp only [Function.update_self, Function.update_of_ne hjk, true_or, if_true]
      rw [hj, hv, BitVec.add_sub_cancel]
    · rw [Function.update_of_ne hr]
      by_cases hrk : r = th.log.k
      · subst hrk
        simp only [Function.update_self, or_true, if_true]
        rw [hk, hv, BitVec.sub_add_cancel]
      · simp [hr, hrk]

/-- An idle thread has nothing to say about the records. -/
theorem Thread.idle.data {th : Thread} (h : th.idle) (S rec : ℕ → BitVec 64) :
    data_ok S rec th ∧ th.dirty = [] := by
  rcases h with hp | hp <;> simp [data_ok, Thread.dirty, hp]

namespace DataInv

variable {cfg : Config} {S : ℕ → BitVec 64} {s s' : Program} {tid : ℕ}

/-- A rolled back transaction leaves the committed records. -/
theorem of_rollback (h : DataInv cfg S s) {th : Thread}
    (hlink : LinkInv cfg s') (hthread : s'.thread = Function.update s.thread tid th)
    (hidle : th.idle) (hp : (s.thread tid).point.can_abort)
    (hrec : s'.records = undone s.records (s.thread tid).log) : DataInv cfg S s' := by
  have hlog : LogOk cfg tid (s.thread tid) := by
    apply h.link.log tid
    rintro (hpt | hpt) <;> simp [hpt, Point.can_abort] at hp
  have hphase := hlog.phase (fun hpt => by simp [hpt, Point.can_abort] at hp)
  have hundo := undone_eq (h.thread tid) hlog.ids hphase hp
  -- Only dirty records change.
  have hdirty : ∀ r, s'.records r ≠ s.records r → r ∈ (s.thread tid).dirty := by
    intro r hne
    by_contra hr
    exact hne (by rw [hrec, hundo, if_neg hr])
  refine h.of_update hlink hthread ?_ (hidle.data _ _).1 ?_
  · intro r hcase
    rcases hcase with hne | hne
    · exact absurd rfl hne
    · exact Thread.writes_of_dirty (hdirty r hne)
  · intro r _ hchange
    have hr : r ∈ (s.thread tid).dirty := by
      rcases hchange with hd | hne | hne
      · exact hd
      · exact absurd rfl hne
      · exact hdirty r hne
    rw [hrec, hundo, if_pos hr]

end DataInv

/-! ## Section 4: Committing is a serial step -/

/-- The records of a redone transaction. -/
theorem redo_records {R : ℕ} {log : LogLine} (hids : DistinctIds R log.i log.j log.k)
    (S : ℕ → BitVec 64) (r : ℕ) :
    (redo S log).1 r =
      if r = log.k then S log.k - S log.i
      else if r = log.j then S log.j + (S log.i + 1) else S r := by
  unfold redo
  by_cases hk : r = log.k
  · subst hk
    simp [hids.k_ne_j]
  · by_cases hj : r = log.j
    · subst hj
      simp [hk]
    · simp [hk, hj]

/-- At the commit the log line is the one of the serial execution. -/
theorem redo_line {R : ℕ} {S rec : ℕ → BitVec 64} {log : log_t}
    (hids : DistinctIds R log.i log.j log.k) (hdone : second_done S rec log)
    (hk : log.value_of_k = S log.k - S log.i) :
    (redo S (Program.line log)).2 = Program.line log := by
  obtain ⟨⟨⟨hi, -⟩, hj⟩, -⟩ := hdone
  unfold read_done at hi
  simp [redo, Program.line, hi, hj, hk, hids.k_ne_j]

theorem DataInv.of_commit {cfg : Config} {S : ℕ → BitVec 64} {s s' : Program} {tid id : ℕ}
    (h : DataInv cfg S s) {th : Thread} {log : LogLine}
    (hlink : LinkInv cfg s') (hthread : s'.thread = Function.update s.thread tid th)
    (hidle : th.idle) (hp : (s.thread tid).point = .commit) (hrec : s'.records = s.records)
    (hlog : log = Program.line { (s.thread tid).log with commit_id := id }) :
    (redo S log).2 = log ∧ DataInv cfg (redo S log).1 s' := by
  obtain ⟨-, hids, -⟩ := h.link.log tid (by simp [Thread.idle, hp])
  have hdata := h.thread tid
  simp only [data_ok, hp] at hdata
  obtain ⟨hdone, hk⟩ := hdata
  have hline : (redo S log).2 = log := by
    subst hlog
    exact redo_line hids hdone hk
  refine ⟨hline, ?_⟩
  have hredo : ∀ r, (redo S log).1 r =
      if r = (s.thread tid).log.k then S (s.thread tid).log.k - S (s.thread tid).log.i
      else if r = (s.thread tid).log.j then S (s.thread tid).log.j + (S (s.thread tid).log.i + 1)
      else S r := by
    subst hlog
    exact redo_records hids S
  obtain ⟨⟨⟨-, hrj⟩, -⟩, hrk⟩ := hdone
  -- The transaction has made both of its writes, and nothing else becomes committed.
  have hdirty : (s.thread tid).dirty = [(s.thread tid).log.j, (s.thread tid).log.k] := by
    simp [Thread.dirty, hp]
  have hchange : ∀ r, (redo S log).1 r ≠ S r → r ∈ (s.thread tid).dirty := by
    intro r hne
    rw [hdirty]
    by_contra hr
    simp only [List.mem_cons, List.not_mem_nil, or_false, not_or] at hr
    exact hne (by rw [hredo, if_neg hr.2, if_neg hr.1])
  refine h.of_update hlink hthread ?_ (hidle.data _ _).1 ?_
  · intro r hcase
    rcases hcase with hne | hne
    · exact Thread.writes_of_dirty (hchange r hne)
    · exact absurd (by rw [hrec]) hne
  · intro r _ hcase
    have hr : r ∈ (s.thread tid).dirty := by
      rcases hcase with hd | hne | hne
      · exact hd
      · exact hchange r hne
      · exact absurd (by rw [hrec]) hne
    rw [hdirty] at hr
    rw [hrec, hredo]
    by_cases hk : r = (s.thread tid).log.k
    · subst hk
      rw [if_pos rfl, hrk]
    · have hj : r = (s.thread tid).log.j := by simpa [hk] using hr
      subst hj
      rw [if_neg hk, if_pos rfl, hrj]

/-- What a step of thread `tid` is for the serial machine with records `S`:
    nothing, a commit that comes too late, or a transaction. -/
inductive SerialStep (cfg : Config) (S : ℕ → BitVec 64) (s : Program) (tid : ℕ)
    (s' : Program) : Prop where
  | silent (th : Thread) :
      s'.thread = Function.update s.thread tid th →
      s'.global_execution_order = s.global_execution_order →
      s'.log_file = s.log_file → s'.committed = s.committed →
      DataInv cfg S s' → SerialStep cfg S s tid s'
  | late (th : Thread) :
      s'.thread = Function.update s.thread tid th → th.point = .terminated →
      s'.global_execution_order = (s.global_execution_order + 1) % 2 ^ 64 →
      cfg.E < s'.global_execution_order →
      s'.log_file = s.log_file → s'.committed = s.committed →
      DataInv cfg S s' → SerialStep cfg S s tid s'
  | commit (th : Thread) (log : LogLine) :
      s'.thread = Function.update s.thread tid th →
      s'.global_execution_order = (s.global_execution_order + 1) % 2 ^ 64 →
      s'.global_execution_order ≤ cfg.E → log.commit_id = s'.global_execution_order →
      s'.log_file = Function.update s.log_file tid (s.log_file tid ++ [log]) →
      s'.committed = s.committed ++ [log] → (redo S log).2 = log →
      DataInv cfg (redo S log).1 s' → SerialStep cfg S s tid s'

namespace DataInv

variable {cfg : Config} {S : ℕ → BitVec 64} {s s' : Program} {tid : ℕ}

/-- A critical section with a lock call is silent. -/
theorem lock_section (h : DataInv cfg S s) (hlink : LinkInv cfg s')
    (hp : (s.thread tid).point.can_abort)
    {call : Except Failure (CallResult × rw_lock_table)} {acquired asleep : Point}
    (hstep : s.lock_section tid call acquired asleep = .ok s')
    (hacquired : data_ok S s.records { s.thread tid with point := acquired } ∧
      ({ s.thread tid with point := acquired } : Thread).dirty = (s.thread tid).dirty)
    (hasleep : data_ok S s.records { s.thread tid with point := asleep } ∧
      ({ s.thread tid with point := asleep } : Thread).dirty = (s.thread tid).dirty) :
    SerialStep cfg S s tid s' := by
  rcases Program.lock_section_cases hstep with ⟨lt, -, rfl⟩ | ⟨lt, -, rfl⟩ | ⟨lt, sh, -, hsh, rfl⟩
  · exact .silent _ rfl rfl rfl rfl (h.of_local hlink rfl rfl hacquired.1 hacquired.2)
  · exact .silent _ rfl rfl rfl rfl (h.of_local hlink rfl rfl hasleep.1 hasleep.2)
  · have hrec := Shared.rollback_records hsh
    exact .silent _ rfl rfl rfl rfl (h.of_rollback hlink rfl (.inl rfl) hp hrec)

/-- The critical section of the commit. -/
theorem commit_section (h : DataInv cfg S s) (hlink : LinkInv cfg s')
    (hp : (s.thread tid).point = .commit) (hstep : s.commit cfg tid = .ok s') :
    SerialStep cfg S s tid s' := by
  rcases Program.commit_cases hstep with ⟨hgt, sh, hsh, rfl⟩ | ⟨hle, sh, hsh, rfl⟩
  · have hrec := Shared.rollback_records hsh
    have habort : (s.thread tid).point.can_abort := by
      rw [hp]
      rfl
    exact .late _ rfl rfl rfl hgt rfl rfl (h.of_rollback hlink rfl (.inr rfl) habort hrec)
  · obtain ⟨hline, hdata⟩ := h.of_commit hlink rfl (.inl rfl) hp
      (Shared.release_locks_records hsh) rfl
    exact .commit _ _ rfl rfl hle rfl rfl rfl hline hdata

/-- Every step of a thread is silent, late or a transaction. -/
theorem step (h : DataInv cfg S s) (hlink : LinkInv cfg s') {i j k : ℕ}
    (hstep : thread_step cfg s tid i j k s') : SerialStep cfg S s tid s' := by
  unfold thread_step at hstep
  have hdata := h.thread tid
  have hbusy : (s.thread tid).point ≠ .loop_head → (s.thread tid).point ≠ .terminated →
      DistinctIds cfg.R (s.thread tid).log.i (s.thread tid).log.j (s.thread tid).log.k :=
    fun h₁ h₂ => (h.link.log tid (by simp [Thread.idle, h₁, h₂])).ids
  unfold data_ok at hdata
  cases hp : (s.thread tid).point with
  | loop_head =>
    rw [hp] at hstep
    rcases hstep with ⟨-, -, rfl⟩ | ⟨-, rfl⟩
    · exact .silent _ rfl rfl rfl rfl
        (h.of_local hlink rfl rfl trivial (by simp [Thread.dirty, hp]))
    · exact .silent _ rfl rfl rfl rfl
        (h.of_local hlink rfl rfl trivial (by simp [Thread.dirty, hp]))
  | read_lock | read_wait =>
    rw [hp] at hstep
    exact h.lock_section hlink (by rw [hp]; rfl) hstep
      ⟨trivial, by simp [Thread.dirty, hp]⟩ ⟨trivial, by simp [Thread.dirty, hp]⟩
  | first_lock | first_wait =>
    rw [hp] at hstep hdata
    exact h.lock_section hlink (by rw [hp]; rfl) hstep
      ⟨hdata, by simp [Thread.dirty, hp]⟩ ⟨hdata, by simp [Thread.dirty, hp]⟩
  | second_lock | second_wait =>
    rw [hp] at hstep hdata
    exact h.lock_section hlink (by rw [hp]; rfl) hstep
      ⟨hdata, by simp [Thread.dirty, hp]⟩ ⟨hdata, by simp [Thread.dirty, hp]⟩
  | read_i =>
    rw [hp] at hstep
    subst hstep
    refine .silent _ rfl rfl rfl rfl
      (h.of_local hlink rfl rfl ?_ (by simp [Thread.dirty, hp]))
    -- The read lock keeps writers out, so the value read is the committed one.
    show s.records (s.thread tid).log.i = S (s.thread tid).log.i
    exact h.read_committed tid _ .READ (by simp [Thread.holds, hp])
      (by simp [Thread.dirty, hp])
  | old_j | old_k =>
    rw [hp] at hstep hdata
    subst hstep
    exact .silent _ rfl rfl rfl rfl
      (h.of_local hlink rfl rfl hdata (by simp [Thread.dirty, hp]))
  | load_j =>
    rw [hp] at hstep hdata
    subst hstep
    have hload := h.read_committed tid (s.thread tid).log.j .FIRST_WRITE
      (by simp [Thread.holds, hp]) (by simp [Thread.dirty, hp])
    exact .silent _ rfl rfl rfl rfl
      (h.of_local hlink rfl rfl ⟨hdata, hload⟩ (by simp [Thread.dirty, hp]))
  | load_k =>
    rw [hp] at hstep hdata
    subst hstep
    have hids := hbusy (by simp [hp]) (by simp [hp])
    have hload := h.read_committed tid (s.thread tid).log.k .SECOND_WRITE
      (by simp [Thread.holds, hp])
      (by simp [Thread.dirty, hp, hids.k_ne_j])
    exact .silent _ rfl rfl rfl rfl
      (h.of_local hlink rfl rfl ⟨hdata, hload⟩ (by simp [Thread.dirty, hp]))
  | store_j =>
    rw [hp] at hstep hdata
    subst hstep
    obtain ⟨hread, hload⟩ := hdata
    refine .silent _ rfl rfl rfl rfl (h.of_store hlink rfl rfl ?_ ⟨hread, ?_⟩ ?_)
    · exact ⟨.FIRST_WRITE, by simp, by simp [Thread.holds, hp]⟩
    · show Function.update s.records _ _ _ = _
      rw [Function.update_self, hload, hread]
    · simp [Thread.dirty, hp]
  | store_k =>
    rw [hp] at hstep hdata
    subst hstep
    have hids := hbusy (by simp [hp]) (by simp [hp])
    obtain ⟨⟨⟨hread, hj⟩, hvj⟩, hload⟩ := hdata
    refine .silent _ rfl rfl rfl rfl
      (h.of_store hlink rfl rfl ?_ ⟨⟨⟨hread, ?_⟩, hvj⟩, ?_⟩ ?_)
    · exact ⟨.SECOND_WRITE, by simp, by simp [Thread.holds, hp]⟩
    · show Function.update s.records _ _ _ = _
      rw [Function.update_of_ne hids.k_ne_j.symm, hj]
    · show Function.update s.records _ _ _ = _
      rw [Function.update_self, hload, hread]
    · intro x
      simp [Thread.dirty, hp, or_comm]
  | result_j =>
    rw [hp] at hstep hdata
    have hlog := h.link.log tid (by simp [Thread.idle, hp])
    have hphase : (s.thread tid).log.current_phase = .FIRST_WRITE := by
      rw [hlog.phase (by simp [hp]), hp]
      rfl
    subst hstep
    unfold Program.result_j at hlink ⊢
    dsimp only at hlink ⊢
    split at hlink <;> rename_i hover
    · rw [if_pos hover]
      exact .silent _ rfl rfl rfl rfl
        (h.of_local hlink rfl rfl trivial (by simp [Thread.dirty, hp, hphase]))
    · rw [if_neg hover]
      exact .silent _ rfl rfl rfl rfl
        (h.of_local hlink rfl rfl ⟨hdata, hdata.2⟩ (by simp [Thread.dirty, hp]))
  | result_k =>
    rw [hp] at hstep hdata
    have hlog := h.link.log tid (by simp [Thread.idle, hp])
    have hphase : (s.thread tid).log.current_phase = .SECOND_WRITE := by
      rw [hlog.phase (by simp [hp]), hp]
      rfl
    subst hstep
    unfold Program.result_k at hlink ⊢
    dsimp only at hlink ⊢
    split at hlink <;> rename_i hover
    · rw [if_pos hover]
      exact .silent _ rfl rfl rfl rfl
        (h.of_local hlink rfl rfl trivial (by simp [Thread.dirty, hp, hphase]))
    · rw [if_neg hover]
      exact .silent _ rfl rfl rfl rfl
        (h.of_local hlink rfl rfl ⟨hdata, hdata.2⟩ (by simp [Thread.dirty, hp]))
  | commit =>
    rw [hp] at hstep
    exact h.commit_section hlink hp hstep
  | terminated | exited =>
    rw [hp] at hstep
    exact absurd hstep id

end DataInv

section replay
variable {cfg : Config} {s s' : Program} {tid i j k : ℕ}

/-- What a step adds to the log files. -/
theorem committed_cases (hstep : thread_step cfg s tid i j k s') :
    s'.committed = s.committed ∨ (s.thread tid).point = .commit ∧ (s'.thread tid).idle ∧
      ∃ id, s'.committed =
        s.committed ++ [Program.line { (s.thread tid).log with commit_id := id }] := by
  unfold thread_step at hstep
  cases hp : (s.thread tid).point <;> rw [hp] at hstep
  case loop_head => rcases hstep with ⟨-, -, rfl⟩ | ⟨-, rfl⟩ <;> exact .inl rfl
  case read_lock | read_wait | first_lock | first_wait | second_lock | second_wait =>
    rcases Program.lock_section_cases hstep with ⟨_, -, rfl⟩ | ⟨_, -, rfl⟩ | ⟨_, _, -, -, rfl⟩ <;>
      exact .inl rfl
  case result_j =>
    subst hstep
    unfold Program.result_j
    dsimp only
    split <;> exact .inl rfl
  case result_k =>
    subst hstep
    unfold Program.result_k
    dsimp only
    split <;> exact .inl rfl
  case commit =>
    rcases Program.commit_cases hstep with ⟨-, sh, -, rfl⟩ | ⟨-, sh, -, rfl⟩
    · exact .inl rfl
    · refine .inr ⟨rfl, .inl ?_, _, rfl⟩
      simp [Program.resume]
  case terminated | exited => exact absurd hstep id
  all_goals
    subst hstep
    exact .inl rfl

theorem DataInv.replay_step (h : DataInv cfg (replay_records initial_records s.committed) s)
    (ht : 1 ≤ tid ∧ tid < cfg.N) (hstep : thread_step cfg s tid i j k s') :
    DataInv cfg (replay_records initial_records s'.committed) s' ∧
      ∃ th, s'.thread = Function.update s.thread tid th := by
  cases h.step (h.link.step ht hstep) hstep with
  | silent th hthread _ _ hcommitted hdata => exact ⟨by rwa [hcommitted], th, hthread⟩
  | late th hthread _ _ _ _ hcommitted hdata => exact ⟨by rwa [hcommitted], th, hthread⟩
  | commit th log hthread _ _ _ _ hcommitted _ hdata =>
    exact ⟨by rwa [hcommitted, replay_records_concat], th, hthread⟩

/-- The committed records change where the committing thread has a write lock. -/
theorem committed_frame (hdata : DataInv cfg (replay_records initial_records s.committed) s)
    (hstep : thread_step cfg s tid i j k s') {t : ℕ} (ht : t ≠ tid) :
    ∀ held ∈ (s.thread t).holds, replay_records initial_records s'.committed held.2 =
      replay_records initial_records s.committed held.2 := by
  intro held hheld
  obtain ⟨p, r⟩ := held
  rcases committed_cases hstep with hsame | ⟨hp, -, id, hnew⟩
  · rw [hsame]
  · rw [hnew, replay_records_concat]
    obtain ⟨-, hids, -⟩ := hdata.link.log tid (by simp [Thread.idle, hp])
    refine (redo_records hids _ r).trans ?_
    have hk : r ≠ (s.thread tid).log.k := by
      rintro rfl
      exact hdata.not_held ⟨.SECOND_WRITE, by simp, by simp [Thread.holds, hp]⟩ ht p hheld
    have hj : r ≠ (s.thread tid).log.j := by
      rintro rfl
      exact hdata.not_held ⟨.FIRST_WRITE, by simp, by simp [Thread.holds, hp]⟩ ht p hheld
    exact (if_neg hk).trans (if_neg hj)

end replay

/-! ## Section 5: The history of the program -/

/-- The lines of all log files. -/
def Program.lines (s : Program) (cfg : Config) : List LogLine :=
  (List.range' 1 cfg.thread_num).flatMap s.log_file

/-- What the marking program reads and sorts. -/
def Program.logs (s : Program) (cfg : Config) : List LogLine :=
  (s.lines cfg).mergeSort (fun lhs rhs => lhs.commit_id ≤ rhs.commit_id)

/-- The threads that have returned. -/
def Program.returned (s : Program) (cfg : Config) : Finset ℕ :=
  (Finset.Ico 1 cfg.N).filter (fun t => (s.thread t).point = .terminated)

/-- The command line: `strtol` returns a `long`. -/
structure Arguments extends Config where
  thread_num_lt : thread_num < 2 ^ 63
  E_lt          : E < 2 ^ 63

/-- The history of the program.  Every late commit ends a thread, which bounds
    `global_execution_order`. -/
structure HistoryInv (cfg : Config) (s : Program) : Prop where
  data  : DataInv cfg (replay_records initial_records s.committed) s
  count : s.committed.length = min s.global_execution_order cfg.E
  files : s.committed.Perm (s.lines cfg)
  bound : s.global_execution_order ≤ cfg.E + (s.returned cfg).card

/-- One more line in one of the files. -/
theorem flatMap_update_perm {ts : List ℕ} (hnodup : ts.Nodup) {t : ℕ} (ht : t ∈ ts)
    (file : ℕ → List LogLine) (log : LogLine) :
    (ts.flatMap (Function.update file t (file t ++ [log]))).Perm (ts.flatMap file ++ [log]) := by
  induction ts with
  | nil => simp at ht
  | cons u us ih =>
    obtain ⟨hu, hus⟩ := List.nodup_cons.mp hnodup
    by_cases htu : t = u
    · -- The line goes to the first file, the others stay as they are.
      subst htu
      have hrest : us.flatMap (Function.update file t (file t ++ [log])) = us.flatMap file := by
        apply List.flatMap_congr
        intro x hx
        have hxt : x ≠ t := by
          intro heq
          subst heq
          exact hu hx
        rw [Function.update_of_ne hxt]
      rw [List.flatMap_cons, List.flatMap_cons, hrest, Function.update_self, List.append_assoc,
        List.append_assoc]
      exact List.Perm.append_left _ List.perm_append_comm
    · have htus : t ∈ us := (List.mem_cons.mp ht).resolve_left htu
      rw [List.flatMap_cons, List.flatMap_cons, Function.update_of_ne (Ne.symm htu),
        List.append_assoc]
      exact List.Perm.append_left _ (ih hus htus)

/-- While a thread runs, fewer than `thread_num` threads have returned. -/
theorem Program.returned_card_lt {s : Program} {cfg : Config} {tid : ℕ}
    (ht : 1 ≤ tid ∧ tid < cfg.N) (hp : (s.thread tid).point ≠ .terminated) :
    (s.returned cfg).card < cfg.thread_num := by
  have hsub : s.returned cfg ⊆ (Finset.Ico 1 cfg.N).erase tid := by
    intro t htr
    obtain ⟨hmem, hterm⟩ := Finset.mem_filter.mp htr
    refine Finset.mem_erase.mpr ⟨?_, hmem⟩
    intro heq
    subst heq
    exact hp hterm
  have hmem : tid ∈ Finset.Ico 1 cfg.N := Finset.mem_Ico.mpr ht
  have hcard := Finset.card_le_card hsub
  rw [Finset.card_erase_of_mem hmem, Nat.card_Ico] at hcard
  unfold Config.N at hcard ht
  omega

/-- A step of a running thread keeps the threads that have returned. -/
theorem Program.returned_subset {s s' : Program} (cfg : Config) {tid : ℕ} {th : Thread}
    (hp : (s.thread tid).point ≠ .terminated)
    (hthread : s'.thread = Function.update s.thread tid th) :
    s.returned cfg ⊆ s'.returned cfg := by
  intro t ht
  obtain ⟨hmem, hterm⟩ := Finset.mem_filter.mp ht
  refine Finset.mem_filter.mpr ⟨hmem, ?_⟩
  have htt : t ≠ tid := by
    intro heq
    subst heq
    exact hp hterm
  rwa [hthread, Function.update_of_ne htt]

/-- A thread that returns is one more. -/
theorem Program.returned_card_succ {s s' : Program} {cfg : Config} {tid : ℕ} {th : Thread}
    (ht : 1 ≤ tid ∧ tid < cfg.N) (hp : (s.thread tid).point ≠ .terminated)
    (hthread : s'.thread = Function.update s.thread tid th) (hth : th.point = .terminated) :
    (s.returned cfg).card + 1 ≤ (s'.returned cfg).card := by
  have hnew : tid ∉ s.returned cfg := fun h => hp (Finset.mem_filter.mp h).2
  rw [← Finset.card_insert_of_notMem hnew]
  refine Finset.card_le_card (Finset.insert_subset ?_ (Program.returned_subset cfg hp hthread))
  refine Finset.mem_filter.mpr ⟨Finset.mem_Ico.mpr ht, ?_⟩
  rw [hthread, Function.update_self, hth]

theorem history_inv_init {cfg : Config} {s : Program} (h : (transactions cfg).init s) :
    HistoryInv cfg s := by
  have hlink := link_inv_init h
  obtain ⟨-, hrec, hgeo, hthread, hfile, hcommitted, -⟩ := h
  have hidle : ∀ t, (s.thread t).idle := by
    intro t
    rw [hthread]
    exact .inl rfl
  refine ⟨⟨hlink, fun t => ((hidle t).data _ _).1, ?_⟩, ?_, ?_, ?_⟩
  · intro r _
    rw [hcommitted]
    exact hrec r
  · simp [hcommitted, hgeo]
  · have hempty : s.lines cfg = [] := List.flatMap_eq_nil_iff.mpr (fun t _ => hfile t)
    rw [hcommitted, hempty]
  · simp [hgeo]

/-- `global_execution_order` does not wrap around at a commit. -/
theorem HistoryInv.no_wrap {args : Arguments} {s : Program}
    (h : HistoryInv args.toConfig s) {tid : ℕ} (ht : 1 ≤ tid ∧ tid < args.N)
    (hp : (s.thread tid).point ≠ .terminated) :
    (s.global_execution_order + 1) % 2 ^ 64 = s.global_execution_order + 1 := by
  have hcard := Program.returned_card_lt ht hp
  have hbound := h.bound
  have hthreads := args.thread_num_lt
  have hE := args.E_lt
  apply Nat.mod_eq_of_lt
  omega

theorem thread_step.not_terminated {cfg : Config} {s s' : Program} {tid i j k : ℕ}
    (h : thread_step cfg s tid i j k s') : (s.thread tid).point ≠ .terminated := by
  intro hp
  unfold thread_step at h
  rw [hp] at h
  exact h

theorem HistoryInv.step {args : Arguments} {s s' : Program} (h : HistoryInv args.toConfig s)
    {tid i j k : ℕ} (ht : 1 ≤ tid ∧ tid < args.N)
    (hstep : thread_step args.toConfig s tid i j k s') : HistoryInv args.toConfig s' := by
  have hp := hstep.not_terminated
  have hwrap := h.no_wrap ht hp
  have hcount := h.count
  have hbound := h.bound
  cases h.data.step (h.data.link.step ht hstep) hstep with
  | silent th hthread hgeo hfile hcommitted hdata =>
    have hcard := Finset.card_le_card (Program.returned_subset args.toConfig hp hthread)
    refine ⟨by rwa [hcommitted], by rw [hcommitted, hgeo, hcount], ?_, by omega⟩
    unfold Program.lines
    rw [hcommitted, hfile]
    exact h.files
  | late th hthread hth hgeo hlate hfile hcommitted hdata =>
    have hcard := Program.returned_card_succ ht hp hthread hth
    rw [hwrap] at hgeo
    refine ⟨by rwa [hcommitted], ?_, ?_, by omega⟩
    · rw [hcommitted]
      omega
    · unfold Program.lines
      rw [hcommitted, hfile]
      exact h.files
  | commit th log hthread hgeo hle hid hfile hcommitted hredo hdata =>
    rw [hwrap] at hgeo
    refine ⟨?_, ?_, ?_, by omega⟩
    · rwa [hcommitted, replay_records_concat]
    · rw [hcommitted, List.length_append, List.length_singleton]
      omega
    · unfold Program.lines
      rw [hcommitted, hfile]
      have hmem : tid ∈ List.range' 1 args.thread_num := by
        unfold Config.N at ht
        rw [List.mem_range'_1]
        omega
      exact (h.files.append_right [log]).trans
        (flatMap_update_perm (List.nodup_range') hmem s.log_file log).symm

theorem history_inv_reachable {args : Arguments} {s : Program}
    (h : Reachable (transactions args.toConfig) s) : HistoryInv args.toConfig s := by
  apply h.invariant (fun _ hinit => history_inv_init hinit)
  intro s l s' _ hinv hstep
  obtain ⟨tid, i, j, k⟩ := l
  obtain ⟨-, hpos, hlt, hstep⟩ := hstep
  exact hinv.step ⟨hpos, hlt⟩ hstep

/-! ## Section 6: Serializability -/

/-- The state of the serial machine that a state of the program stands for. -/
def Program.serial (s : Program) : SerialState :=
  ⟨replay_records initial_records s.committed, s.committed⟩

/-- **The program refines the serial machine.** -/
theorem serial_simulation (args : Arguments) :
    Simulation (transactions args.toConfig) serial (HistoryInv args.toConfig)
      Program.serial where
  init := by
    intro s hinit
    obtain ⟨-, -, -, -, -, hcommitted, -⟩ := hinit
    exact ⟨by rw [Program.serial, hcommitted]; rfl, hcommitted⟩
  step := by
    intro s l s' hinv hstep
    obtain ⟨tid, i, j, k⟩ := l
    obtain ⟨-, hpos, hlt, hstep⟩ := hstep
    have hsilent : s'.committed = s.committed →
        Relation.ReflTransGen serial.next s.serial s'.serial := by
      intro hsame
      rw [Program.serial, Program.serial, hsame]
    cases hinv.data.step (hinv.data.link.step ⟨hpos, hlt⟩ hstep) hstep with
    | silent th hthread hgeo hfile hcommitted hdata => exact hsilent hcommitted
    | late th hthread hth hgeo hlate hfile hcommitted hdata => exact hsilent hcommitted
    | commit th log hthread hgeo hle hid hfile hcommitted hredo hdata =>
      -- The commit id is the number of the transaction.
      have hwrap := hinv.no_wrap ⟨hpos, hlt⟩ hstep.not_terminated
      have hcount := hinv.count
      refine Relation.ReflTransGen.single ⟨log, ?_, hredo, ?_⟩
      · show log.commit_id = s.committed.length + 1
        omega
      · rw [Program.serial, hcommitted, replay_records_concat]
        rfl

/-- Sorting the files gives the order in which the lines were written. -/
theorem Program.logs_eq {cfg : Config} {s : Program} {n : ℕ}
    (hperm : s.committed.Perm (s.lines cfg))
    (hids : s.committed.map (·.commit_id) = List.range' 1 n) : s.logs cfg = s.committed := by
  have hnodup : (s.committed.map (·.commit_id)).Nodup := by
    rw [hids]
    exact List.nodup_range'
  have hlogs : (s.logs cfg).Perm s.committed := (List.mergeSort_perm _ _).trans hperm.symm
  have hsorted : (s.logs cfg).Pairwise (fun a b => decide (a.commit_id ≤ b.commit_id) = true) := by
    apply List.pairwise_mergeSort
    · simp only [decide_eq_true_eq]
      omega
    · simp only [Bool.or_eq_true, decide_eq_true_eq]
      omega
  have hlt : (s.committed.map (·.commit_id)).Pairwise (· < ·) := by
    rw [hids]
    exact List.pairwise_lt_range'
  refine List.Perm.eq_of_pairwise ?_ hsorted ((List.pairwise_map.mp hlt).imp ?_) hlogs
  · -- The ids are distinct, so the order of the ids decides.
    intro a b ha hb hab hba
    simp only [decide_eq_true_eq] at hab hba
    exact List.inj_on_of_nodup_map hnodup (hlogs.mem_iff.mp ha) hb (Nat.le_antisymm hab hba)
  · intro a b hab
    exact decide_eq_true (Nat.le_of_lt hab)

/-- The log files of a run, put together, are its commits in order. -/
theorem Program.logs_eq_committed {args : Arguments} {s : Program}
    (h : Reachable (transactions args.toConfig) s) : s.logs args.toConfig = s.committed := by
  have hserial := serial_inv_reachable
    ((serial_simulation args).reachable (fun _ => history_inv_reachable) h)
  exact Program.logs_eq (history_inv_reachable h).files hserial.ids

/-- **Serializability in commit order.**  In every reachable state the commit ids
    in the log files are `1, .., min global_execution_order E`, each once; the
    marking program finds its own lines; and when every thread is between
    transactions or has returned, the records are those of the serial execution. -/
theorem transactions_serializable {args : Arguments} {s : Program}
    (h : Reachable (transactions args.toConfig) s) :
    (s.logs args.toConfig).map (·.commit_id) =
        List.range' 1 (min s.global_execution_order args.E) ∧
      replay_lines initial_records (s.logs args.toConfig) = s.logs args.toConfig ∧
      ((∀ t, 1 ≤ t → t < args.N → (s.thread t).idle) →
        s.records = replay_records initial_records (s.logs args.toConfig)) := by
  have hinv := history_inv_reachable h
  have hserial := serial_inv_reachable
    ((serial_simulation args).reachable (fun _ => history_inv_reachable) h)
  have hids : s.committed.map (·.commit_id) = List.range' 1 s.committed.length := hserial.ids
  rw [Program.logs_eq_committed h]
  refine ⟨?_, hserial.lines, ?_⟩
  · rw [hids, hinv.count]
  · intro hidle
    funext r
    apply hinv.data.clean
    -- A dirty record is locked, and only worker threads lock.
    intro t hdirty
    obtain ⟨p, -, hheld⟩ := Thread.writes_of_dirty hdirty
    obtain ⟨hpos, hlt⟩ := hinv.data.link.link.holder_lt hheld
    rw [((hidle t hpos hlt).data initial_records initial_records).2] at hdirty
    simp at hdirty

/-- The two threads that ask for each other's records. -/
def duo_arguments : Arguments := ⟨duo_config, by decide, by decide⟩

/-- The request of thread 2 would close a cycle and is refused.  Thread 1 is woken up and
    commits, and then thread 2 commits its second attempt. -/
def two_commits : List (ℕ × ℕ × ℕ × ℕ) :=
  crossing ++ [duo_second] ++ List.replicate 11 duo_first ++ List.replicate 14 duo_second

theorem reachable_two_commits :
    ∃ s, Reachable (transactions duo_arguments.toConfig) s ∧
      (s.thread 1).point = .loop_head ∧ (s.thread 2).point = .loop_head ∧
      s.log_file 1 = [⟨1, 0, 1, 2, 100, 201, 0⟩] ∧
      s.log_file 2 = [⟨2, 1, 0, 2, 201, 302, -201⟩] := by
  obtain ⟨s, hreach, h⟩ := reachable_run duo_config two_commits
    (fun s => decide ((s.thread 1).point = .loop_head ∧ (s.thread 2).point = .loop_head ∧
      s.log_file 1 = [⟨1, 0, 1, 2, 100, 201, 0⟩] ∧
      s.log_file 2 = [⟨2, 1, 0, 2, 201, 302, -201⟩]))
    (by decide +kernel)
  exact ⟨s, hreach, of_decide_eq_true h⟩

/-- The worker threads are the threads 1 and 2. -/
theorem duo_worker {t : ℕ} (hpos : 1 ≤ t) (hlt : t < duo_arguments.N) : t = 1 ∨ t = 2 := by
  have hN : duo_arguments.N = 3 := rfl
  omega

/-- The two transactions, found again by the marking program. -/
theorem serializable_two_commits :
    ∃ s : Program, s.log_file 1 = [⟨1, 0, 1, 2, 100, 201, 0⟩] ∧
      s.log_file 2 = [⟨2, 1, 0, 2, 201, 302, -201⟩] ∧
      replay_lines initial_records (s.logs duo_arguments.toConfig) =
        s.logs duo_arguments.toConfig ∧
      s.records = replay_records initial_records (s.logs duo_arguments.toConfig) := by
  obtain ⟨s, h, hp₁, hp₂, hfile₁, hfile₂⟩ := reachable_two_commits
  obtain ⟨-, hlines, hrecords⟩ := transactions_serializable h
  refine ⟨s, hfile₁, hfile₂, hlines, hrecords ?_⟩
  intro t hpos hlt
  rcases duo_worker hpos hlt with rfl | rfl
  · exact .inl hp₁
  · exact .inl hp₂

end Project2
