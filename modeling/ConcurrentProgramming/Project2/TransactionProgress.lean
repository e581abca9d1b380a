import ConcurrentProgramming.Framework.Progress
import ConcurrentProgramming.Framework.ThreadWork
import ConcurrentProgramming.Project2.LockProperties
import ConcurrentProgramming.Project2.Overflow
import Mathlib.Data.Prod.Lex
import Mathlib.Algebra.Order.BigOperators.Group.Finset

/-! # The Transactions Come to an End

    With fewer than `2 ^ 32` threads no assertion fails in any run, so every
    thread that has not returned can go on.  A thread inside a transaction that
    waits for nobody comes closer to the end of its transaction with each step,
    and the wait-for graph always leaves such a thread.  When no transaction is
    in progress, a thread that starts one can finish it.

    A deadlock is broken by refusing a request, and the refused transaction
    starts again.  This does not lead around in a circle: a request is refused
    only while another thread sleeps inside its own transaction.
-/

namespace Project2

open LTS LockQueue Clients

/-! ## Section 1: No assertion fails -/

section succeeds
variable {cfg : Config} {state : ℕ → CallState} {holds : ℕ → List (phase_t × ℕ)}

theorem linked.calls_succeed {lt : rw_lock_table} (h : linked cfg lt state holds)
    (hN : cfg.N ≤ 2 ^ 32) :
    ∃ c, Reachable (lock_clients cfg.N cfg.R) c ∧ c.lt = lt ∧ c.state = state ∧
      (∀ r e, e ∈ c.granted r ↔ (e.current_phase, r) ∈ holds e.tid) ∧
      Project2.CallsSucceed cfg.N cfg.R c := by
  obtain ⟨c, hc, hlt, hstate, hgranted⟩ := h
  have hinv := lock_inv_reachable hc
  exact ⟨c, hc, hlt, hstate, hgranted, hinv.calls_succeed (hinv.readers_lt hN)⟩

/-- Unlocking a lock that the thread holds. -/
theorem linked.unlock_succeeds {sh : Shared} {p : phase_t} {t r : ℕ} {held : List (phase_t × ℕ)}
    (hN : cfg.N ≤ 2 ^ 32) (h : linked cfg sh.lt state (Function.update holds t held))
    (hrun : state t = .running) (hheld : (p, r) ∈ held) :
    ∃ sh', sh.unlock t r = .ok sh' ∧
      linked cfg sh'.lt state (Function.update holds t (held.filter (fun p => p.2 ≠ r))) := by
  obtain ⟨c, hc, hlt, hstate, hgranted, hcalls⟩ := h.calls_succeed hN
  have hmay : MayUnlock c t r := by
    refine ⟨by rw [hstate]; exact hrun, List.mem_map.mpr ⟨⟨t, p⟩, ?_, rfl⟩⟩
    apply (hgranted r ⟨t, p⟩).mpr
    rwa [Function.update_self]
  obtain ⟨lt', hcall⟩ := hcalls.unlock t r hmay
  rw [hlt] at hcall
  have hunlock := Shared.unlock_ok hcall
  exact ⟨_, hunlock, h.unlock_shared hunlock hrun hheld⟩

/-- A permitted request returns or sleeps. -/
theorem linked.request_succeeds {lt : rw_lock_table} {t r : ℕ} (h : linked cfg lt state holds)
    (hN : cfg.N ≤ 2 ^ 32) (ht : 1 ≤ t ∧ t < cfg.N) (hr : r < cfg.R) (hrun : state t = .running)
    (hfree : ∀ phase, (phase, r) ∉ holds t) :
    (∃ result, lt.rdlock t r = .ok result) ∧
      ∀ phase, phase = .FIRST_WRITE ∨ phase = .SECOND_WRITE →
        ∃ result, lt.wrlock t phase r = .ok result := by
  obtain ⟨c, hc, rfl, rfl, hgranted, hcalls⟩ := h.calls_succeed hN
  have hreq := linked.may_request hc hgranted ht hr hrun hfree
  exact ⟨hcalls.rdlock t r hreq, fun phase hphase => hcalls.wrlock t phase r hreq hphase⟩

/-- A call that sleeps goes on sleeping or is granted. -/
theorem linked.awake_succeeds {lt : rw_lock_table} {t r : ℕ} {phase : phase_t}
    (h : linked cfg lt state holds) (hN : cfg.N ≤ 2 ^ 32) (hsleep : state t = .asleep phase r) :
    (∃ result, awake_call lt t phase r = .ok result) ∧
      ∀ lt', awake_call lt t phase r ≠ .ok (.returned false, lt') := by
  obtain ⟨c, hc, rfl, rfl, hgranted, hcalls⟩ := h.calls_succeed hN
  exact ⟨hcalls.awake t phase r hsleep, (lock_inv_reachable hc).awake_not_refused hsleep⟩

variable {R : ℕ}

/-- The locks that a transaction holds when it is rolled back. -/
def log_t.held (log : log_t) : List (phase_t × ℕ) :=
  match log.current_phase with
  | .READ | .INVALID => []
  | .FIRST_WRITE => [(.READ, log.i)]
  | .SECOND_WRITE => [(.READ, log.i), (.FIRST_WRITE, log.j)]
  | .COMMIT => [(.READ, log.i), (.FIRST_WRITE, log.j), (.SECOND_WRITE, log.k)]

/-- Rolling back a transaction that holds what its phase says. -/
theorem linked.rollback_succeeds {sh : Shared} {log : log_t} (hN : cfg.N ≤ 2 ^ 32)
    (hids : DistinctIds R log.i log.j log.k) (hphase : log.current_phase ≠ .INVALID)
    (h : linked cfg sh.lt state (Function.update holds log.tid log.held))
    (hrun : state log.tid = .running) : ∃ sh', sh.rollback log = .ok sh' := by
  unfold log_t.held at h
  cases hp : log.current_phase with
  | INVALID => exact absurd hp hphase
  | READ => exact ⟨sh, by simp [Shared.rollback, Shared.rollback_read, Shared.unlock_unless, hp]⟩
  | FIRST_WRITE =>
    rw [hp] at h
    obtain ⟨sh₁, h₁, -⟩ := h.unlock_succeeds hN hrun (List.mem_singleton.mpr rfl)
    refine ⟨sh₁, ?_⟩
    simp only [Shared.rollback, hp, Shared.rollback_first_write, Shared.rollback_read,
      Shared.unlock_unless, reduceCtorEq, if_true, if_false, ok_bind, h₁]
  | SECOND_WRITE =>
    rw [hp] at h
    -- The write to `records[log.j]` is undone before the locks are released.
    have h₀ : linked cfg (sh.write log.j (sh.records log.j - (log.value_of_i + 1))).lt state _ := h
    obtain ⟨sh₁, h₁, hl₁⟩ :=
      h₀.unlock_succeeds (p := .FIRST_WRITE) (r := log.j) hN hrun (by simp)
    obtain ⟨sh₂, h₂, -⟩ :=
      hl₁.unlock_succeeds (p := .READ) (r := log.i) hN hrun (by simp [hids.i_ne_j])
    refine ⟨sh₂, ?_⟩
    simp only [Shared.rollback, hp, Shared.rollback_second_write, Shared.rollback_first_write,
      Shared.rollback_read, Shared.unlock_unless, reduceCtorEq, if_true, if_false, ok_bind,
      except_pure, h₁, h₂]
  | COMMIT =>
    rw [hp] at h
    have h₀ : linked cfg (sh.write log.k (sh.records log.k + log.value_of_i)).lt state _ := h
    obtain ⟨sh₁, h₁, hl₁⟩ :=
      h₀.unlock_succeeds (p := .SECOND_WRITE) (r := log.k) hN hrun (by simp)
    have h₂ : linked cfg (sh₁.write log.j (sh₁.records log.j - (log.value_of_i + 1))).lt state _ :=
      hl₁
    obtain ⟨sh₃, h₃, hl₃⟩ :=
      h₂.unlock_succeeds (p := .FIRST_WRITE) (r := log.j) hN hrun (by simp [hids.k_ne_j.symm])
    obtain ⟨sh₄, h₄, -⟩ := hl₃.unlock_succeeds (p := .READ) (r := log.i) hN hrun
      (by simp [hids.k_ne_i.symm, hids.i_ne_j])
    refine ⟨sh₄, ?_⟩
    simp only [Shared.rollback, hp, Shared.rollback_commit, Shared.rollback_second_write,
      Shared.rollback_first_write, Shared.rollback_read, Shared.unlock_unless, reduceCtorEq,
      if_false, ok_bind, except_pure, h₁, h₃, h₄]

/-- The commit can release its three locks. -/
theorem linked.release_succeeds {sh : Shared} {log : log_t} (hN : cfg.N ≤ 2 ^ 32)
    (hids : DistinctIds R log.i log.j log.k)
    (h : linked cfg sh.lt state (Function.update holds log.tid
      [(.READ, log.i), (.FIRST_WRITE, log.j), (.SECOND_WRITE, log.k)]))
    (hrun : state log.tid = .running) : ∃ sh', sh.release_locks log = .ok sh' := by
  obtain ⟨sh₁, h₁, hl₁⟩ := h.unlock_succeeds (p := .READ) (r := log.i) hN hrun (by simp)
  obtain ⟨sh₂, h₂, hl₂⟩ := hl₁.unlock_succeeds (p := .FIRST_WRITE) (r := log.j) hN hrun
    (by simp [hids.i_ne_j.symm])
  obtain ⟨sh₃, h₃, -⟩ := hl₂.unlock_succeeds (p := .SECOND_WRITE) (r := log.k) hN hrun
    (by simp [hids.k_ne_i, hids.k_ne_j])
  exact ⟨sh₃, by simp only [Shared.release_locks, h₁, h₂, h₃, ok_bind]⟩

end succeeds

/-- A critical section with a lock call runs to its end. -/
theorem Program.lock_section_succeeds {s : Program} {tid : ℕ}
    {call : Except Failure (CallResult × rw_lock_table)} (acquired asleep : Point)
    (hcall : ∃ result, call = .ok result)
    (hrollback : ∀ lt, call = .ok (.returned false, lt) →
      ∃ sh, Shared.rollback ⟨lt, s.records⟩ (s.thread tid).log = .ok sh) :
    ∃ s', s.lock_section tid call acquired asleep = .ok s' := by
  obtain ⟨⟨result, lt⟩, hcall⟩ := hcall
  unfold Program.lock_section
  rw [hcall]
  match result with
  | .returned true => exact ⟨_, rfl⟩
  | .asleep => exact ⟨_, rfl⟩
  | .returned false =>
    obtain ⟨sh, hsh⟩ := hrollback lt hcall
    exact ⟨_, by simp only [ok_bind, hsh, except_pure]; rfl⟩

section can_step
variable {cfg : Config} {s : Program} {tid : ℕ}

/-- A thread inside a transaction holds what its phase says, unless it has been
    granted the lock of that phase. -/
theorem LogOk.held_eq {th : Thread} (h : LogOk cfg tid th)
    (hp : th.point = .read_lock ∨ th.point = .first_lock ∨ th.point = .second_lock ∨
      th.point = .commit) :
    th.log.current_phase = th.point.phase ∧ th.holds = th.log.held ∧
      th.call_state = .running := by
  have hphase : th.log.current_phase = th.point.phase := by
    apply h.phase
    rcases hp with hp | hp | hp | hp <;> simp [hp]
  refine ⟨hphase, ?_⟩
  unfold log_t.held
  rw [hphase]
  rcases hp with hp | hp | hp | hp <;>
    simp [Thread.holds, Thread.call_state, Point.phase, hp]

/-- A refused request can be rolled back. -/
theorem LinkInv.rollback_refused {lt : rw_lock_table} (hN : cfg.N ≤ 2 ^ 32)
    (hlog : LogOk cfg tid (s.thread tid)) {phase : phase_t} {r : ℕ}
    (hphase : (s.thread tid).log.current_phase ≠ .INVALID)
    (hholds : (s.thread tid).holds = (s.thread tid).log.held)
    (hlink : linked cfg lt
      (Function.update (fun t => (s.thread t).call_state) tid
        (state_after (.returned false) phase r))
      (Function.update (fun t => (s.thread t).holds) tid
        (holds_after (.returned false) (s.thread tid).holds phase r))) :
    ∃ sh, Shared.rollback ⟨lt, s.records⟩ (s.thread tid).log = .ok sh := by
  obtain ⟨htid, hids, -⟩ := hlog
  have hheld : linked cfg lt
      (Function.update (fun t => (s.thread t).call_state) tid .running)
      (Function.update (fun t => (s.thread t).holds) (s.thread tid).log.tid
        (s.thread tid).log.held) := by
    rw [htid, ← hholds]
    exact hlink
  apply linked.rollback_succeeds hN hids hphase hheld
  rw [htid, Function.update_self]

/-- A thread that requests a lock gets through its critical section. -/
theorem LinkInv.request_succeeds (h : LinkInv cfg s) (hN : cfg.N ≤ 2 ^ 32)
    (ht : 1 ≤ tid ∧ tid < cfg.N)
    (hp : (s.thread tid).point = .read_lock ∨ (s.thread tid).point = .first_lock ∨
      (s.thread tid).point = .second_lock) : ∃ s', thread_step cfg s tid 0 0 0 s' := by
  have hlog := h.log tid (by rcases hp with hp | hp | hp <;> simp [Thread.idle, hp])
  obtain ⟨hphase, hheld, hrun⟩ := hlog.held_eq (by tauto)
  have hids := hlog.ids
  unfold thread_step
  rcases hp with hp | hp | hp <;> rw [hp] at hphase ⊢
  · have hfree : ∀ phase, (phase, (s.thread tid).log.i) ∉ (s.thread tid).holds := by
      simp [Thread.holds, hp]
    apply Program.lock_section_succeeds
    · exact (h.link.request_succeeds hN ht hids.i_lt hrun hfree).1
    · intro lt hcall
      exact LinkInv.rollback_refused hN hlog (by simp [hphase, Point.phase]) hheld
        (h.link.rdlock ht hids.i_lt hrun hfree hcall)
  · have hfree : ∀ phase, (phase, (s.thread tid).log.j) ∉ (s.thread tid).holds := by
      simp [Thread.holds, hp, hids.i_ne_j.symm]
    apply Program.lock_section_succeeds
    · exact (h.link.request_succeeds hN ht hids.j_lt hrun hfree).2 _ (.inl rfl)
    · intro lt hcall
      exact LinkInv.rollback_refused hN hlog (by simp [hphase, Point.phase]) hheld
        (h.link.wrlock ht hids.j_lt hrun hfree (.inl rfl) hcall)
  · have hfree : ∀ phase, (phase, (s.thread tid).log.k) ∉ (s.thread tid).holds := by
      simp [Thread.holds, hp, hids.k_ne_i, hids.k_ne_j]
    apply Program.lock_section_succeeds
    · exact (h.link.request_succeeds hN ht hids.k_lt hrun hfree).2 _ (.inr rfl)
    · intro lt hcall
      exact LinkInv.rollback_refused hN hlog (by simp [hphase, Point.phase]) hheld
        (h.link.wrlock ht hids.k_lt hrun hfree (.inr rfl) hcall)

/-- A thread that wakes up gets through its critical section. -/
theorem LinkInv.awake_succeeds (h : LinkInv cfg s) (hN : cfg.N ≤ 2 ^ 32)
    (hp : (s.thread tid).asleep) : ∃ s', thread_step cfg s tid 0 0 0 s' := by
  have hsection : ∀ phase r acquired asleep, (s.thread tid).call_state = .asleep phase r →
      ∃ s', s.lock_section tid (awake_call s.lt tid phase r) acquired asleep = .ok s' := by
    intro phase r acquired asleep hsleep
    obtain ⟨hcall, hnot⟩ := h.link.awake_succeeds hN hsleep
    apply Program.lock_section_succeeds _ _ hcall
    intro lt hrefused
    exact absurd hrefused (hnot lt)
  unfold thread_step
  rcases hp with hp | hp | hp <;> rw [hp]
  · exact hsection .READ _ _ _ (by rw [Thread.call_state, hp])
  · exact hsection .FIRST_WRITE _ _ _ (by rw [Thread.call_state, hp])
  · exact hsection .SECOND_WRITE _ _ _ (by rw [Thread.call_state, hp])

/-- The critical section of the commit releases or rolls back. -/
theorem LinkInv.commit_succeeds (h : LinkInv cfg s) (hN : cfg.N ≤ 2 ^ 32)
    (hp : (s.thread tid).point = .commit) : ∃ s', thread_step cfg s tid 0 0 0 s' := by
  have hlog := h.log tid (by simp [Thread.idle, hp])
  obtain ⟨hphase, hheld, hrun⟩ := hlog.held_eq (by tauto)
  obtain ⟨htid, hids, -⟩ := hlog
  rw [hp] at hphase
  unfold thread_step
  rw [hp]
  show ∃ s', s.commit cfg tid = .ok s'
  -- The log with the commit id holds the same locks.
  let log : log_t := { (s.thread tid).log with
    commit_id := (s.global_execution_order + 1) % 2 ^ 64 }
  have hlink : linked cfg s.shared.lt (fun t => (s.thread t).call_state)
      (Function.update (fun t => (s.thread t).holds) log.tid log.held) := by
    have hsame : log.held = (s.thread tid).holds := hheld.symm
    have htid' : log.tid = tid := htid
    rw [hsame, htid', Function.update_eq_self]
    exact h.link
  have hrun' : (s.thread log.tid).call_state = .running := by
    rwa [show log.tid = tid from htid]
  have hcommit : log.current_phase = .COMMIT := hphase
  have hids' : DistinctIds cfg.R log.i log.j log.k := hids
  unfold Program.commit
  simp only
  split
  · have hvalid : log.current_phase ≠ .INVALID := by
      rw [hcommit]
      decide
    obtain ⟨sh, hsh⟩ := linked.rollback_succeeds hN hids' hvalid hlink hrun'
    show ∃ s', (s.shared.rollback log >>= _) = .ok s'
    rw [hsh]
    exact ⟨_, rfl⟩
  · have hthree : log.held =
        [(.READ, log.i), (.FIRST_WRITE, log.j), (.SECOND_WRITE, log.k)] := by
      unfold log_t.held
      rw [hcommit]
    rw [hthree] at hlink
    obtain ⟨sh, hsh⟩ := linked.release_succeeds hN hids' hlink hrun'
    show ∃ s', (s.shared.release_locks log >>= _) = .ok s'
    rw [hsh]
    exact ⟨_, rfl⟩

end can_step

/-! ## Section 2: What a step of a thread can do -/

/-- The steps up to the end of the transaction, if no request is refused. -/
def Thread.left (th : Thread) : ℕ :=
  match th.point with
  | .loop_head | .terminated | .exited => 0
  | .commit => 1
  | .result_k => 2
  | .store_k => 3
  | .load_k => 4
  | .old_k => 5
  | .second_wait => 6
  | .second_lock => 7
  | .result_j => 8
  | .store_j => 9
  | .load_j => 10
  | .old_j => 11
  | .first_wait => 12
  | .first_lock => 13
  | .read_i => 14
  | .read_wait => 15
  | .read_lock => 16

theorem Thread.left_idle {th : Thread} (h : th.idle) : th.left = 0 := by
  rcases h with hp | hp <;> simp [Thread.left, hp]

theorem Thread.left_pos {th : Thread} (h : ¬ th.idle) (hp : th.point ≠ .exited) :
    0 < th.left := by
  unfold Thread.left
  cases hpt : th.point <;> simp_all [Thread.idle]

theorem Thread.asleep_of_call_state {th : Thread} {phase : phase_t} {r : ℕ}
    (h : th.call_state = .asleep phase r) : th.asleep := by
  unfold Thread.call_state at h
  unfold Thread.asleep
  split at h <;> simp_all

theorem Thread.asleep.busy {th : Thread} (h : th.asleep) : ¬ th.idle := by
  rcases h with hp | hp | hp <;> simp [Thread.idle, hp]

/-- The ways in which a step of thread `tid` changes the program, as far as its
    end is concerned. -/
inductive StepOutcome (cfg : Config) (s : Program) (tid : ℕ) (s' : Program) : Prop where
  /-- A transaction starts. -/
  | starts (th : Thread) (hthread : s'.thread = Function.update s.thread tid th)
      (hpoint : (s.thread tid).point = .loop_head) (hnext : th.point = .read_lock)
      (horder : s'.global_execution_order = s.global_execution_order)
      (hexited : s'.exited = s.exited)
  /-- The thread returns at the loop condition. -/
  | returns (th : Thread) (hthread : s'.thread = Function.update s.thread tid th)
      (hpoint : (s.thread tid).point = .loop_head) (hnext : th.point = .terminated)
      (hlate : cfg.E < s.global_execution_order)
      (horder : s'.global_execution_order = s.global_execution_order)
      (hexited : s'.exited = s.exited)
  /-- An overflow was found. -/
  | exits (th : Thread) (hthread : s'.thread = Function.update s.thread tid th)
      (hnext : th.point = .exited)
      (horder : s'.global_execution_order = s.global_execution_order)
      (hexited : s'.exited = true)
  /-- The transaction goes on. -/
  | advances (th : Thread) (hthread : s'.thread = Function.update s.thread tid th)
      (hbusy : ¬ th.idle) (hnext : th.point ≠ .exited) (hleft : th.left < (s.thread tid).left)
      (horder : s'.global_execution_order = s.global_execution_order)
      (hexited : s'.exited = s.exited)
  /-- The thread woke up in vain. -/
  | sleeps (phase : phase_t) (r : ℕ) (hasleep : (s.thread tid).call_state = .asleep phase r)
      (hthread : s'.thread = s.thread)
      (hcall : awake_call s.lt tid phase r = .ok (.asleep, s'.lt))
      (horder : s'.global_execution_order = s.global_execution_order)
      (hexited : s'.exited = s.exited)
  /-- A request was refused; the cycle goes through a thread that sleeps. -/
  | refused (th : Thread) (hthread : s'.thread = Function.update s.thread tid th)
      (hnext : th.point = .loop_head) (hbusy : ¬ (s.thread tid).idle)
      (hsleeper : ∃ w, w ≠ tid ∧ (1 ≤ w ∧ w < cfg.N) ∧ (s.thread w).asleep)
      (horder : s'.global_execution_order = s.global_execution_order)
      (hexited : s'.exited = s.exited)
  /-- The transaction commits, or comes too late. -/
  | commits (th : Thread) (hthread : s'.thread = Function.update s.thread tid th)
      (hidle : th.idle) (hbusy : ¬ (s.thread tid).idle)
      (horder : s'.global_execution_order = (s.global_execution_order + 1) % 2 ^ 64)
      (hlate : th.point = .terminated ↔ cfg.E < s'.global_execution_order)
      (hexited : s'.exited = s.exited)

section step_outcome
variable {cfg : Config} {s s' : Program} {tid : ℕ}

/-- A request is refused only if somebody else sleeps. -/
theorem linked.sleeper_of_refused {lt lt' : rw_lock_table} {state : ℕ → CallState}
    {holds : ℕ → List (phase_t × ℕ)} {t r : ℕ}
    (h : linked cfg lt state holds) (phase : phase_t) (ht : 1 ≤ t ∧ t < cfg.N) (hr : r < cfg.R)
    (hrun : state t = .running) (hfree : ∀ phase, (phase, r) ∉ holds t)
    (hcall : lt.rdlock t r = .ok (.returned false, lt') ∨
      (phase = .FIRST_WRITE ∨ phase = .SECOND_WRITE) ∧
        lt.wrlock t phase r = .ok (.returned false, lt')) :
    ∃ w phase r', w ≠ t ∧ (1 ≤ w ∧ w < cfg.N) ∧ state w = .asleep phase r' := by
  obtain ⟨c, hc, rfl, rfl, hgranted⟩ := h
  have hinv := lock_inv_reachable hc
  have hreq := linked.may_request hc hgranted ht hr hrun hfree
  have hsleeper : ∃ w phase r', c.state w = .asleep phase r' := by
    rcases hcall with hcall | ⟨hphase, hcall⟩
    · have hok := hinv.graph.request_ok hreq (.inl rfl)
      have hsame := hinv.refused_unchanged (e := ⟨t, .READ⟩) hreq (.inl rfl)
        (hinv.rdlock_spec hreq) (fun _ _ => rw_lock_table.rdlock_eq_refuse hok) hcall
      obtain ⟨-, w, phase', r', -, -, -, -, hw⟩ := hsame.signalled
      exact ⟨w, phase', r', hw⟩
    · have hok := hinv.graph.request_ok hreq (.inr hphase)
      have hsame := hinv.refused_unchanged (e := ⟨t, phase⟩) hreq (.inr hphase)
        (hinv.wrlock_spec hreq hphase) (fun _ _ => rw_lock_table.wrlock_eq_refuse hok hphase) hcall
      obtain ⟨-, w, phase', r', -, -, -, -, hw⟩ := hsame.signalled
      exact ⟨w, phase', r', hw⟩
  obtain ⟨w, phase', r', hw⟩ := hsleeper
  obtain ⟨hpos, hlt, -⟩ := hinv.graph.entry r' _ (hinv.graph.sleeper w phase' r' hw)
  refine ⟨w, phase', r', ?_, ⟨hpos, hlt⟩, hw⟩
  intro heq
  rw [heq, hrun] at hw
  cases hw

/-- A step to a point inside of a transaction: a thread that starts, returns or has
    left the program is in no phase. -/
theorem StepOutcome.goes_on (th : Thread) (hthread : s'.thread = Function.update s.thread tid th)
    (hphase : th.point.phase ≠ .INVALID) (hleft : th.left < (s.thread tid).left)
    (horder : s'.global_execution_order = s.global_execution_order)
    (hexited : s'.exited = s.exited) : StepOutcome cfg s tid s' := by
  refine .advances th hthread ?_ ?_ hleft horder hexited
  · rintro (hp | hp) <;> exact hphase (by rw [hp]; rfl)
  · intro hp
    exact hphase (by rw [hp]; rfl)

/-- The critical section of a request. -/
theorem StepOutcome.of_request {call : Except Failure (CallResult × rw_lock_table)}
    {acquired asleep : Point} (hbusy : ¬ (s.thread tid).idle)
    (hacquired : ({ s.thread tid with point := acquired } : Thread).left <
      (s.thread tid).left ∧ acquired.phase ≠ .INVALID)
    (hasleep : ({ s.thread tid with point := asleep } : Thread).left <
      (s.thread tid).left ∧ asleep.phase ≠ .INVALID)
    (hrefused : ∀ lt, call = .ok (.returned false, lt) →
      ∃ w phase r, w ≠ tid ∧ (1 ≤ w ∧ w < cfg.N) ∧ (s.thread w).call_state = .asleep phase r)
    (hstep : s.lock_section tid call acquired asleep = .ok s') : StepOutcome cfg s tid s' := by
  rcases Program.lock_section_cases hstep with ⟨lt, -, rfl⟩ | ⟨lt, -, rfl⟩ | ⟨lt, sh, hcall, -, rfl⟩
  · exact .goes_on _ rfl hacquired.2 hacquired.1 rfl rfl
  · exact .goes_on _ rfl hasleep.2 hasleep.1 rfl rfl
  · obtain ⟨w, phase, r, hne, hw, hstate⟩ := hrefused lt hcall
    exact .refused _ rfl rfl hbusy ⟨w, hne, hw, Thread.asleep_of_call_state hstate⟩ rfl rfl

/-- The critical section after a wake-up. -/
theorem StepOutcome.of_awake (hlink : LinkInv cfg s) (hN : cfg.N ≤ 2 ^ 32) {phase : phase_t}
    {r : ℕ} {acquired : Point} (hsleep : (s.thread tid).call_state = .asleep phase r)
    (hacquired : ({ s.thread tid with point := acquired } : Thread).left <
      (s.thread tid).left ∧ acquired.phase ≠ .INVALID)
    (hstep : s.lock_section tid (awake_call s.lt tid phase r) acquired (s.thread tid).point =
      .ok s') : StepOutcome cfg s tid s' := by
  rcases Program.lock_section_cases hstep with
    ⟨lt, -, rfl⟩ | ⟨lt, hcall, rfl⟩ | ⟨lt, sh, hcall, -, rfl⟩
  · exact .goes_on _ rfl hacquired.2 hacquired.1 rfl rfl
  · exact .sleeps phase r hsleep (Function.update_eq_self tid s.thread) hcall rfl rfl
  · exact absurd hcall ((hlink.link.awake_succeeds hN hsleep).2 lt)

/-- The overflow checks. -/
theorem StepOutcome.of_check {p : Prop} [Decidable p] {log log' : log_t} {next : Point}
    (hnext : next.phase ≠ .INVALID)
    (hleft : ({ s.thread tid with point := next, log := log' } : Thread).left <
      (s.thread tid).left) :
    StepOutcome cfg s tid (if p then s.exit tid log
      else s.set_thread tid { s.thread tid with point := next, log := log' }) := by
  split
  · exact .exits _ rfl rfl rfl rfl
  · exact .goes_on _ rfl hnext hleft rfl rfl

/-- **Every step has one of the outcomes.** -/
theorem LinkInv.step_outcome (h : LinkInv cfg s) (hN : cfg.N ≤ 2 ^ 32)
    (ht : 1 ≤ tid ∧ tid < cfg.N) {i j k : ℕ} (hstep : thread_step cfg s tid i j k s') :
    Project2.StepOutcome cfg s tid s' := by
  have hids : ¬ (s.thread tid).idle →
      DistinctIds cfg.R (s.thread tid).log.i (s.thread tid).log.j (s.thread tid).log.k :=
    fun hbusy => (h.log tid hbusy).ids
  unfold thread_step at hstep
  cases hp : (s.thread tid).point with
  | loop_head =>
    rw [hp] at hstep
    rcases hstep with ⟨-, -, rfl⟩ | ⟨hlate, rfl⟩
    · exact .starts _ rfl hp rfl rfl rfl
    · exact .returns _ rfl hp rfl hlate rfl rfl
  | read_lock =>
    rw [hp] at hstep
    have hbusy : ¬ (s.thread tid).idle := by simp [Thread.idle, hp]
    refine .of_request hbusy ?_ ?_ ?_ hstep
    · simp [Thread.left, hp, Point.phase]
    · simp [Thread.left, hp, Point.phase]
    · intro lt hcall
      refine h.link.sleeper_of_refused .READ ht (hids hbusy).i_lt ?_ ?_ (.inl hcall)
      · simp [Thread.call_state, hp]
      · simp [Thread.holds, hp]
  | first_lock =>
    rw [hp] at hstep
    have hbusy : ¬ (s.thread tid).idle := by simp [Thread.idle, hp]
    refine .of_request hbusy ?_ ?_ ?_ hstep
    · simp [Thread.left, hp, Point.phase]
    · simp [Thread.left, hp, Point.phase]
    · intro lt hcall
      refine h.link.sleeper_of_refused _ ht (hids hbusy).j_lt ?_ ?_ (.inr ⟨.inl rfl, hcall⟩)
      · simp [Thread.call_state, hp]
      · simp [Thread.holds, hp, (hids hbusy).i_ne_j.symm]
  | second_lock =>
    rw [hp] at hstep
    have hbusy : ¬ (s.thread tid).idle := by simp [Thread.idle, hp]
    refine .of_request hbusy ?_ ?_ ?_ hstep
    · simp [Thread.left, hp, Point.phase]
    · simp [Thread.left, hp, Point.phase]
    · intro lt hcall
      refine h.link.sleeper_of_refused _ ht (hids hbusy).k_lt ?_ ?_ (.inr ⟨.inr rfl, hcall⟩)
      · simp [Thread.call_state, hp]
      · simp [Thread.holds, hp, (hids hbusy).k_ne_i, (hids hbusy).k_ne_j]
  | read_wait =>
    have hsleep : (s.thread tid).call_state = .asleep .READ (s.thread tid).log.i := by
      simp [Thread.call_state, hp]
    rw [hp] at hstep
    refine .of_awake h hN hsleep ?_ (by rw [hp]; exact hstep)
    simp [Thread.left, hp, Point.phase]
  | first_wait =>
    have hsleep : (s.thread tid).call_state = .asleep .FIRST_WRITE (s.thread tid).log.j := by
      simp [Thread.call_state, hp]
    rw [hp] at hstep
    refine .of_awake h hN hsleep ?_ (by rw [hp]; exact hstep)
    simp [Thread.left, hp, Point.phase]
  | second_wait =>
    have hsleep : (s.thread tid).call_state = .asleep .SECOND_WRITE (s.thread tid).log.k := by
      simp [Thread.call_state, hp]
    rw [hp] at hstep
    refine .of_awake h hN hsleep ?_ (by rw [hp]; exact hstep)
    simp [Thread.left, hp, Point.phase]
  | result_j =>
    rw [hp] at hstep
    subst hstep
    exact .of_check (by simp [Point.phase]) (by simp [Thread.left, hp])
  | result_k =>
    rw [hp] at hstep
    subst hstep
    exact .of_check (by simp [Point.phase]) (by simp [Thread.left, hp])
  | commit =>
    rw [hp] at hstep
    have hbusy : ¬ (s.thread tid).idle := by simp [Thread.idle, hp]
    rcases Program.commit_cases hstep with ⟨hlate, sh, -, rfl⟩ | ⟨hle, sh, -, rfl⟩
    · exact .commits _ rfl (.inr rfl) hbusy rfl ⟨fun _ => hlate, fun _ => rfl⟩ rfl
    · refine .commits _ rfl (.inl rfl) hbusy rfl ⟨?_, ?_⟩ rfl
      · intro hp
        cases hp
      · intro hlate
        exact absurd hlate (Nat.not_lt_of_le hle)
  | terminated =>
    rw [hp] at hstep
    exact absurd hstep id
  | exited =>
    rw [hp] at hstep
    exact absurd hstep id
  | read_i | old_j | load_j | store_j | old_k | load_k | store_k =>
    -- Steps on local variables and records.
    rw [hp] at hstep
    subst hstep
    refine .advances _ rfl ?_ ?_ ?_ rfl rfl <;>
      simp [Thread.left, Thread.idle, hp]

/-- Some thread is at `exit(1)` only if the program has been left. -/
theorem not_exited (hN : cfg.N ≤ 2 ^ 32) (h : Reachable (transactions cfg) s) :
    s.exited = false → ∀ t, (s.thread t).point ≠ .exited := by
  apply h.invariant
  · intro s hinit _ t
    obtain ⟨-, -, -, hthread, -⟩ := hinit
    rw [hthread t]
    decide
  · intro s l s' hreach ih hstep hexited t
    obtain ⟨tid, i, j, k⟩ := l
    obtain ⟨hrun, hpos, hlt, hstep⟩ := hstep
    have hother : ∀ th, s'.thread = Function.update s.thread tid th → th.point ≠ .exited →
        (s'.thread t).point ≠ .exited := by
      intro th hthread hth
      rw [hthread]
      by_cases htt : t = tid
      · subst htt
        rwa [Function.update_self]
      · rw [Function.update_of_ne htt]
        exact ih hrun t
    cases (link_inv_reachable hreach).step_outcome hN ⟨hpos, hlt⟩ hstep with
    | exits _ _ _ _ hexit => simp [hexit] at hexited
    | starts th hthread _ hnext => exact hother th hthread (by simp [hnext])
    | returns th hthread _ hnext => exact hother th hthread (by simp [hnext])
    | advances th hthread _ hnext => exact hother th hthread hnext
    | refused th hthread hnext => exact hother th hthread (by simp [hnext])
    | commits th hthread hidle =>
      refine hother th hthread ?_
      rcases hidle with hp | hp <;> simp [hp]
    | sleeps phase r hasleep hthread =>
      rw [hthread]
      exact ih hrun t

end step_outcome

/-! ## Section 3: Every thread can go on -/

/-- A thread that has not returned can take a step. -/
theorem LinkInv.can_step {cfg : Config} {s : Program} {tid : ℕ} (h : LinkInv cfg s)
    (hN : cfg.N ≤ 2 ^ 32) (hR : 3 ≤ cfg.R) (ht : 1 ≤ tid ∧ tid < cfg.N)
    (hlive : (s.thread tid).point ≠ .terminated) (hp : (s.thread tid).point ≠ .exited) :
    ∃ i j k s', thread_step cfg s tid i j k s' := by
  cases hpt : (s.thread tid).point with
  | loop_head =>
    -- Three records are enough to choose distinct ids.
    have hids : DistinctIds cfg.R 0 1 2 := by constructor <;> omega
    by_cases hE : s.global_execution_order ≤ cfg.E
    · refine ⟨0, 1, 2, s.begin_transaction tid 0 1 2, ?_⟩
      unfold thread_step
      rw [hpt]
      exact .inl ⟨hE, hids, rfl⟩
    · refine ⟨0, 1, 2, s.resume tid s.shared .terminated, ?_⟩
      unfold thread_step
      rw [hpt]
      exact .inr ⟨Nat.lt_of_not_le hE, rfl⟩
  | terminated => exact absurd hpt hlive
  | exited => exact absurd hpt hp
  | read_lock => exact ⟨0, 0, 0, h.request_succeeds hN ht (.inl hpt)⟩
  | first_lock => exact ⟨0, 0, 0, h.request_succeeds hN ht (.inr (.inl hpt))⟩
  | second_lock => exact ⟨0, 0, 0, h.request_succeeds hN ht (.inr (.inr hpt))⟩
  | read_wait => exact ⟨0, 0, 0, h.awake_succeeds hN (.inl hpt)⟩
  | first_wait => exact ⟨0, 0, 0, h.awake_succeeds hN (.inr (.inl hpt))⟩
  | second_wait => exact ⟨0, 0, 0, h.awake_succeeds hN (.inr (.inr hpt))⟩
  | commit => exact ⟨0, 0, 0, h.commit_succeeds hN hpt⟩
  | read_i | old_j | load_j | store_j | result_j | old_k | load_k | store_k | result_k =>
    refine ⟨0, 0, 0, ?_⟩
    unfold thread_step
    rw [hpt]
    exact ⟨_, rfl⟩

/-- **No assertion fails in a run of the transactions.**  With at most `2 ^ 32 - 1`
    threads and at least three records, every thread that has not returned gets
    through its next critical section, whatever the others have done so far. -/
theorem transactions_never_fail {cfg : Config} (hN : cfg.N ≤ 2 ^ 32) (hR : 3 ≤ cfg.R)
    {s : Program} (h : Reachable (transactions cfg) s) (hexited : s.exited = false) {tid : ℕ}
    (ht : 1 ≤ tid ∧ tid < cfg.N) (hlive : (s.thread tid).point ≠ .terminated) :
    ∃ i j k s', (transactions cfg).step s (tid, i, j, k) s' := by
  obtain ⟨i, j, k, s', hstep⟩ :=
    (link_inv_reachable h).can_step hN hR ht hlive (not_exited hN h hexited tid)
  exact ⟨i, j, k, s', hexited, ht.1, ht.2, hstep⟩

/-- The request that thread 2 makes next closes a cycle: it is refused, and the transaction
    is rolled back, without a failing assertion. -/
theorem transactions_never_fail_refused :
    ∃ s : Program, (s.thread 2).point = .first_lock ∧
      (∃ lt, s.lt.wrlock 2 .FIRST_WRITE (s.thread 2).log.j = .ok (.returned false, lt)) ∧
      ∃ i j k s', (transactions duo_config).step s (2, i, j, k) s' := by
  obtain ⟨s, hreach, h⟩ := reachable_run duo_config crossing
    (fun s => decide ((s.thread 2).point = .first_lock ∧ s.exited = false) &&
      (s.lt.wrlock 2 .FIRST_WRITE (s.thread 2).log.j).toOption.any
        fun result => decide (result.1 = CallResult.returned false))
    (by decide +kernel)
  rw [Bool.and_eq_true, decide_eq_true_eq] at h
  obtain ⟨⟨hp, hexited⟩, hrefused⟩ := h
  refine ⟨s, hp, ?_, transactions_never_fail (by decide) (by decide) hreach hexited
    ⟨by decide, by decide⟩ (by simp [hp])⟩
  cases hcall : s.lt.wrlock 2 .FIRST_WRITE (s.thread 2).log.j with
  | error e =>
    rw [hcall] at hrefused
    cases hrefused
  | ok result =>
    obtain ⟨r, lt⟩ := result
    rw [hcall] at hrefused
    obtain rfl : r = .returned false := of_decide_eq_true hrefused
    exact ⟨lt, rfl⟩

/-! ## Section 4: The program can come to its end -/

section progress
variable {cfg : Config} {s s' : Program} {tid : ℕ}

/-- A thread with an entry in a queue is inside a transaction. -/
theorem not_idle_of_entry {thread : ℕ → Thread} {c : Clients}
    (h : LockInv cfg.N cfg.R c) (hstate : c.state = fun t => (thread t).call_state)
    (hgranted : ∀ r e, e ∈ c.granted r ↔ (e.current_phase, r) ∈ (thread e.tid).holds)
    {r : ℕ} {e : wait_q_elem_t} (he : e ∈ c.lt.record_wait_queues r) : ¬ (thread e.tid).idle := by
  intro hidle
  have hrun : c.state e.tid = .running := by
    rw [hstate]
    rcases hidle with hp | hp <;> simp [Thread.call_state, hp]
  have hg : e ∈ c.granted r :=
    (h.holder.granted_iff r e).mpr ⟨he, by simp [Clients.waiting_running hrun]⟩
  have hholds := (hgranted r e).mp hg
  rcases hidle with hp | hp <;> simp [Thread.holds, hp] at hholds

/-- If some thread is inside a transaction, one of them does not wake up in vain. -/
theorem LinkInv.exists_unblocked (h : LinkInv cfg s) (ht : 1 ≤ tid ∧ tid < cfg.N)
    (hbusy : ¬ (s.thread tid).idle) :
    ∃ t, (1 ≤ t ∧ t < cfg.N) ∧ ¬ (s.thread t).idle ∧
      ∀ phase r lt, (s.thread t).call_state = .asleep phase r →
        awake_call s.lt t phase r ≠ .ok (.asleep, lt) := by
  classical
  obtain ⟨c, hc, hlt, hstate, hgranted⟩ := h.link
  have hinv := lock_inv_reachable hc
  let busy := (Finset.Ico 1 cfg.N).filter (fun t => ¬ (s.thread t).idle)
  have hmem : ∀ t, t ∈ busy ↔ (1 ≤ t ∧ t < cfg.N) ∧ ¬ (s.thread t).idle := by
    intro t
    simp [busy]
  obtain ⟨t, htb, hfree⟩ := LockQueue.exists_unblocked hinv.graph.mgr.acyclic busy
    ⟨tid, (hmem tid).mpr ⟨ht, hbusy⟩⟩
  obtain ⟨hrange, hb⟩ := (hmem t).mp htb
  refine ⟨t, hrange, hb, ?_⟩
  intro phase r lt hasleep hcall
  have hst : c.state t = .asleep phase r := by
    rw [hstate]
    exact hasleep
  rw [← hlt] at hcall
  -- The thread points to nobody: who has an entry ahead is inside a transaction as well.
  have hedges : edges_of (c.lt.record_wait_queues r) t = [] := by
    apply List.eq_nil_iff_forall_not_mem.mpr
    intro u hu
    obtain ⟨e, he, rfl⟩ := List.mem_map.mp (mem_edges_of hu)
    obtain ⟨hpe, hNe, -⟩ := hinv.graph.entry r e he
    have hbusy' := not_idle_of_entry hinv hstate hgranted he
    exact hfree e.tid ((hmem e.tid).mpr ⟨⟨hpe, hNe⟩, hbusy'⟩) ⟨r, hu⟩
  rw [(hinv.awake_spec hst).grant hedges] at hcall
  simp at hcall

/-- The steps left in all transactions in progress. -/
def Program.work (s : Program) (cfg : Config) : ℕ :=
  ∑ t ∈ Finset.Ico 1 cfg.N, (s.thread t).left

/-- The commit ids and the threads that are left. -/
def Program.remaining (s : Program) (cfg : Config) : ℕ :=
  (cfg.E + 1 - s.global_execution_order) + (cfg.thread_num - (s.returned cfg).card)

/-- The distance to the end.  A new transaction makes 16 steps of work. -/
def Program.rank (cfg : Config) (s : Program) : ℕ ×ₗ ℕ :=
  toLex (s.remaining cfg, if s.work cfg = 0 then 17 else s.work cfg)

theorem Program.work_update {th : Thread} (ht : 1 ≤ tid ∧ tid < cfg.N)
    (hthread : s'.thread = Function.update s.thread tid th) :
    s'.work cfg + (s.thread tid).left = s.work cfg + th.left := by
  unfold Program.work
  rw [hthread]
  exact ThreadWork.sum_update Thread.left s.thread (Finset.mem_Ico.mpr ht) th

theorem Program.work_pos (ht : 1 ≤ tid ∧ tid < cfg.N) (hp : (s.thread tid).point ≠ .exited)
    (hbusy : ¬ (s.thread tid).idle) : 0 < s.work cfg :=
  Finset.sum_pos' (fun _ _ => Nat.zero_le _)
    ⟨tid, Finset.mem_Ico.mpr ht, Thread.left_pos hbusy hp⟩

/-- Threads that have returned stay so, and `global_execution_order` grows. -/
theorem Program.remaining_le {th : Thread} (hp : (s.thread tid).point ≠ .terminated)
    (hthread : s'.thread = Function.update s.thread tid th)
    (horder : s.global_execution_order ≤ s'.global_execution_order) :
    s'.remaining cfg ≤ s.remaining cfg := by
  have hcard := Finset.card_le_card (Program.returned_subset cfg hp hthread)
  unfold Program.remaining
  omega

/-- One thread fewer is left. -/
theorem Program.remaining_lt_of_return {th : Thread} (ht : 1 ≤ tid ∧ tid < cfg.N)
    (hp : (s.thread tid).point ≠ .terminated)
    (hthread : s'.thread = Function.update s.thread tid th) (hth : th.point = .terminated)
    (horder : s.global_execution_order ≤ s'.global_execution_order) :
    s'.remaining cfg < s.remaining cfg := by
  have hcard := Program.returned_card_succ ht hp hthread hth
  have hlt := Program.returned_card_lt ht hp
  unfold Program.remaining
  omega

theorem Program.rank_lt_of_remaining (h : s'.remaining cfg < s.remaining cfg) :
    Program.rank cfg s' < Program.rank cfg s :=
  Prod.Lex.toLex_lt_toLex.mpr (.inl h)

theorem Program.rank_lt_of_work (h : s'.remaining cfg ≤ s.remaining cfg)
    (hpos : 0 < s'.work cfg) (hwork : s'.work cfg < if s.work cfg = 0 then 17 else s.work cfg) :
    Program.rank cfg s' < Program.rank cfg s := by
  refine Prod.Lex.toLex_lt_toLex.mpr ?_
  rcases Nat.lt_or_eq_of_le h with hlt | heq
  · exact .inl hlt
  · refine .inr ⟨heq, ?_⟩
    show (if s'.work cfg = 0 then 17 else s'.work cfg) < _
    rwa [if_neg (Nat.pos_iff_ne_zero.mp hpos)]

end progress

section closer
variable {args : Arguments} {s s' : Program} {tid : ℕ}

/-- A thread inside a transaction that does not wake up in vain brings the end closer. -/
theorem rank_lt_of_busy (hN : args.N ≤ 2 ^ 32) (h : Reachable (transactions args.toConfig) s)
    (hexited : s.exited = false) (ht : 1 ≤ tid ∧ tid < args.N) (hbusy : ¬ (s.thread tid).idle)
    (hawake : ∀ phase r lt, (s.thread tid).call_state = .asleep phase r →
      awake_call s.lt tid phase r ≠ .ok (.asleep, lt))
    {i j k : ℕ} (hstep : thread_step args.toConfig s tid i j k s') :
    s'.exited = true ∨ Program.rank args.toConfig s' < Program.rank args.toConfig s := by
  have hlink := link_inv_reachable h
  have hlive : (s.thread tid).point ≠ .terminated := fun hp => hbusy (.inr hp)
  have hpos : 0 < s.work args.toConfig := Program.work_pos ht (not_exited hN h hexited tid) hbusy
  cases hlink.step_outcome hN ht hstep with
  | starts th hthread hpoint => exact absurd (.inl hpoint) hbusy
  | returns th hthread hpoint => exact absurd (.inl hpoint) hbusy
  | sleeps phase r hasleep _ hcall => exact absurd hcall (hawake phase r _ hasleep)
  | exits _ _ _ _ hexit => exact .inl hexit
  | advances th hthread hbusy' hnext hleft horder =>
    right
    have hwork := Program.work_update ht hthread
    have hself : s'.thread tid = th := by rw [hthread, Function.update_self]
    apply Program.rank_lt_of_work (Program.remaining_le hlive hthread (Nat.le_of_eq horder.symm))
    · exact Program.work_pos ht (hself ▸ hnext) (hself ▸ hbusy')
    · rw [if_neg (Nat.pos_iff_ne_zero.mp hpos)]
      omega
  | refused th hthread hnext _ hsleeper horder =>
    -- The transaction starts again, but a sleeping thread is still inside its own.
    right
    obtain ⟨w, hw, hrange, hasleep⟩ := hsleeper
    have hwork := Program.work_update ht hthread
    have hzero : th.left = 0 := Thread.left_idle (.inl hnext)
    have hleft := Thread.left_pos hbusy (not_exited hN h hexited tid)
    have hsame : s'.thread w = s.thread w := by rw [hthread, Function.update_of_ne hw]
    apply Program.rank_lt_of_work (Program.remaining_le hlive hthread (Nat.le_of_eq horder.symm))
    · refine Program.work_pos hrange ?_ ?_
      · rw [hsame]
        exact not_exited hN h hexited w
      · rw [hsame]
        exact hasleep.busy
    · rw [if_neg (Nat.pos_iff_ne_zero.mp hpos)]
      omega
  | commits th hthread hidle _ horder hlate =>
    right
    rw [(history_inv_reachable h).no_wrap ht hlive] at horder
    apply Program.rank_lt_of_remaining
    by_cases hE : args.E < s'.global_execution_order
    · exact Program.remaining_lt_of_return ht hlive hthread (hlate.mpr hE) (by omega)
    · have hcard := Finset.card_le_card
        (Program.returned_subset args.toConfig hlive hthread)
      unfold Program.remaining
      omega

/-- When no transaction is in progress, starting one or returning brings the end closer. -/
theorem rank_lt_of_idle (ht : 1 ≤ tid ∧ tid < args.N) (hp : (s.thread tid).point = .loop_head)
    (hwork : s.work args.toConfig = 0) {i j k : ℕ}
    (hstep : thread_step args.toConfig s tid i j k s') :
    Program.rank args.toConfig s' < Program.rank args.toConfig s := by
  have hlive : (s.thread tid).point ≠ .terminated := by simp [hp]
  have hzero : (s.thread tid).left = 0 := Thread.left_idle (.inl hp)
  unfold thread_step at hstep
  rw [hp] at hstep
  rcases hstep with ⟨-, -, hs'⟩ | ⟨-, hs'⟩
  · obtain ⟨th, hthread, hth⟩ :
        ∃ th, s'.thread = Function.update s.thread tid th ∧ th.point = .read_lock := by
      rw [hs']
      exact ⟨_, rfl, rfl⟩
    have hnew := Program.work_update ht hthread
    have hsixteen : th.left = 16 := by rw [Thread.left, hth]
    have horder : s.global_execution_order ≤ s'.global_execution_order := by
      rw [hs']
      exact Nat.le_refl _
    apply Program.rank_lt_of_work (Program.remaining_le hlive hthread horder)
    · omega
    · rw [if_pos hwork]
      omega
  · apply Program.rank_lt_of_remaining
    rw [hs']
    exact Program.remaining_lt_of_return ht hlive rfl rfl (Nat.le_refl _)

end closer

/-- All threads have returned, or one has called `exit(1)`. -/
def Program.finished (cfg : Config) (s : Program) : Prop :=
  s.exited = true ∨ ∀ t, 1 ≤ t → t < cfg.N → (s.thread t).point = .terminated

/-- **The transactions can always come to an end.**  From every state that the
    program can reach, some run leads to a state in which all threads have
    returned or one has called `exit(1)` because of an overflow. -/
theorem transactions_can_finish {args : Arguments} (hN : args.N ≤ 2 ^ 32) (hR : 3 ≤ args.R)
    {s : Program} (h : Reachable (transactions args.toConfig) s) :
    (transactions args.toConfig).can_reach (Program.finished args.toConfig) s := by
  refine Reachable.can_reach (Program.rank args.toConfig) ?_ h
  intro s hreach hgoal
  have hlink := link_inv_reachable hreach
  unfold Program.finished at hgoal
  push Not at hgoal
  obtain ⟨hexited, t₀, hpos₀, hlt₀, hlive₀⟩ := hgoal
  rw [ne_eq, Bool.not_eq_true] at hexited
  have hpoint := not_exited hN hreach hexited
  by_cases hbusy : ∃ t, (1 ≤ t ∧ t < args.N) ∧ ¬ (s.thread t).idle
  · obtain ⟨t₁, ht₁, hb₁⟩ := hbusy
    obtain ⟨t, ht, hb, hawake⟩ := hlink.exists_unblocked ht₁ hb₁
    obtain ⟨i, j, k, s', hstep⟩ :=
      hlink.can_step hN hR ht (fun hp => hb (.inr hp)) (hpoint t)
    refine ⟨s', .single ⟨(t, i, j, k), hexited, ht.1, ht.2, hstep⟩, ?_⟩
    rcases rank_lt_of_busy hN hreach hexited ht hb hawake hstep with hexit | hlt
    · exact .inl (.inl hexit)
    · exact .inr hlt
  · push Not at hbusy
    have hwork : s.work args.toConfig = 0 := by
      apply Finset.sum_eq_zero
      intro t ht
      exact Thread.left_idle (hbusy t (Finset.mem_Ico.mp ht))
    have hhead := (hbusy t₀ ⟨hpos₀, hlt₀⟩).resolve_right hlive₀
    obtain ⟨i, j, k, s', hstep⟩ := hlink.can_step hN hR ⟨hpos₀, hlt₀⟩ hlive₀ (hpoint t₀)
    exact ⟨s', .single ⟨(t₀, i, j, k), hexited, hpos₀, hlt₀, hstep⟩,
      .inr (rank_lt_of_idle ⟨hpos₀, hlt₀⟩ hhead hwork hstep)⟩

/-- The two threads, when one sleeps and the next request of the other closes a cycle. -/
theorem transactions_can_finish_crossing :
    ∃ s : Program, (s.thread 1).point = .first_wait ∧ (s.thread 2).point = .first_lock ∧
      (transactions duo_arguments.toConfig).can_reach
        (Program.finished duo_arguments.toConfig) s := by
  obtain ⟨s, hreach, hp₁, -, -, hp₂, -⟩ := reachable_crossing
  exact ⟨s, hp₁, hp₂, transactions_can_finish (by decide) (by decide) hreach⟩

end Project2
