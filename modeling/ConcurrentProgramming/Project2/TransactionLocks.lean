import ConcurrentProgramming.Project2.Transaction
import ConcurrentProgramming.Project2.LockInvariant
import Mathlib.Order.Interval.Finset.Nat

/-! # Transactions Are Well-Behaved Clients

    Every critical section of `transaction()` is a sequence of lock table calls
    that obey the calling rules.  So each reachable state of the program belongs
    to a reachable state of the lock clients (`linked`), and what the lock
    invariant says about granted requests becomes a fact about the points at
    which the threads are.
-/

namespace Project2

open LTS LockQueue Clients

/-! ## Section 1: What a thread holds -/

/-- The locks a thread has been granted, by its point. -/
def Thread.holds (th : Thread) : List (phase_t × ℕ) :=
  match th.point with
  | .loop_head | .read_lock | .read_wait | .terminated => []
  | .read_i | .first_lock | .first_wait => [(.READ, th.log.i)]
  | .old_j | .load_j | .store_j | .result_j | .second_lock | .second_wait =>
      [(.READ, th.log.i), (.FIRST_WRITE, th.log.j)]
  | .old_k | .load_k | .store_k | .result_k | .commit =>
      [(.READ, th.log.i), (.FIRST_WRITE, th.log.j), (.SECOND_WRITE, th.log.k)]
  -- `exit` is called after the first or the second assignment.
  | .exited =>
      if th.log.current_phase = .FIRST_WRITE then
        [(.READ, th.log.i), (.FIRST_WRITE, th.log.j)]
      else [(.READ, th.log.i), (.FIRST_WRITE, th.log.j), (.SECOND_WRITE, th.log.k)]

/-- The lock call in which a thread sleeps, by its point. -/
def Thread.call_state (th : Thread) : CallState :=
  match th.point with
  | .read_wait => .asleep .READ th.log.i
  | .first_wait => .asleep .FIRST_WRITE th.log.j
  | .second_wait => .asleep .SECOND_WRITE th.log.k
  | _ => .running

/-- The table is in a state that well-behaved clients can bring it to, with the
    given sleepers and the given holders. -/
def linked (cfg : Config) (lt : rw_lock_table) (state : ℕ → CallState)
    (holds : ℕ → List (phase_t × ℕ)) : Prop :=
  ∃ c, Reachable (lock_clients cfg.N cfg.R) c ∧ c.lt = lt ∧ c.state = state ∧
    ∀ r e, e ∈ c.granted r ↔ (e.current_phase, r) ∈ holds e.tid

/-- Where a client is after a part of a lock call. -/
def state_after (result : CallResult) (phase : phase_t) (r : ℕ) : CallState :=
  match result with
  | .asleep => .asleep phase r
  | .returned _ => .running

/-- What a client holds after a part of a lock call. -/
def holds_after (result : CallResult) (held : List (phase_t × ℕ)) (phase : phase_t) (r : ℕ) :
    List (phase_t × ℕ) :=
  if result = .returned true then held ++ [(phase, r)] else held

namespace linked

variable {cfg : Config} {lt : rw_lock_table} {state : ℕ → CallState}
  {holds : ℕ → List (phase_t × ℕ)}

theorem init (cfg : Config) :
    linked cfg (rw_lock_table.init cfg.N) (fun _ => .running) (fun _ => []) := by
  refine ⟨⟨rw_lock_table.init cfg.N, fun _ => .running, fun _ => []⟩, ?_, rfl, rfl, ?_⟩
  · exact Reachable.init ⟨rfl, fun _ => rfl, fun _ => rfl⟩
  · intro r e
    simp

/-- A running thread without a lock on `r` may request it. -/
theorem may_request {c : Clients} (h : Reachable (lock_clients cfg.N cfg.R) c) {t r : ℕ}
    (hgranted : ∀ r e, e ∈ c.granted r ↔ (e.current_phase, r) ∈ holds e.tid)
    (ht : 1 ≤ t ∧ t < cfg.N) (hr : r < cfg.R) (hrun : c.state t = .running)
    (hfree : ∀ phase, (phase, r) ∉ holds t) : MayRequest cfg.N cfg.R c t r := by
  refine ⟨ht.1, ht.2, hr, hrun, ?_⟩
  intro hmem
  obtain ⟨e, he, rfl⟩ := List.mem_map.mp hmem
  have hinv := lock_inv_reachable h
  -- A running thread has been granted every entry it has.
  have hg : e ∈ c.granted r :=
    (hinv.holder.granted_iff r e).mpr ⟨he, by simp [Clients.waiting_running hrun]⟩
  exact hfree _ ((hgranted r e).mp hg)

/-- What a part of a lock call does to sleepers and holders. -/
theorem after_call {c : Clients} {t r : ℕ} {phase : phase_t} {result : CallResult}
    {lt' : rw_lock_table}
    (h' : Reachable (lock_clients cfg.N cfg.R) (c.after_call ⟨t, phase⟩ r result lt'))
    (hgranted : ∀ r e, e ∈ c.granted r ↔ (e.current_phase, r) ∈ holds e.tid) :
    linked cfg lt'
      (Function.update c.state t (state_after result phase r))
      (Function.update holds t (holds_after result (holds t) phase r)) := by
  refine ⟨_, h', rfl, ?_, ?_⟩
  · cases result <;> rfl
  intro r' e
  unfold holds_after
  by_cases hres : result = .returned true
  · subst hres
    simp only [Clients.after_call, if_true, mem_update_append, hgranted]
    by_cases het : e.tid = t
    · subst het
      simp only [Function.update_self, List.mem_append, List.mem_singleton, Prod.mk.injEq]
      constructor
      · intro hcase
        rcases hcase with h | ⟨rfl, he⟩
        · exact .inl h
        · exact .inr ⟨by rw [he], rfl⟩
      · intro hcase
        rcases hcase with h | ⟨rfl, rfl⟩
        · exact .inl h
        · exact .inr ⟨rfl, rfl⟩
    · simp only [Function.update_of_ne het]
      constructor
      · intro hcase
        rcases hcase with h | ⟨rfl, rfl⟩
        · exact h
        · exact absurd rfl het
      · exact .inl
  · simp only [Clients.after_call, if_neg hres, hgranted]
    by_cases het : e.tid = t
    · subst het
      simp
    · simp [het]

theorem rdlock (h : linked cfg lt state holds) {t r : ℕ} (ht : 1 ≤ t ∧ t < cfg.N)
    (hr : r < cfg.R) (hrun : state t = .running) (hfree : ∀ phase, (phase, r) ∉ holds t)
    {result : CallResult} {lt' : rw_lock_table} (hcall : lt.rdlock t r = .ok (result, lt')) :
    linked cfg lt'
      (Function.update state t (state_after result .READ r))
      (Function.update holds t (holds_after result (holds t) .READ r)) := by
  obtain ⟨c, hc, rfl, rfl, hgranted⟩ := h
  have hreq := linked.may_request hc hgranted ht hr hrun hfree
  exact linked.after_call
    (hc.step (l := (t, ClientCall.rdlock r)) ⟨hreq, _, _, hcall, rfl⟩) hgranted

theorem wrlock (h : linked cfg lt state holds) {t r : ℕ} (ht : 1 ≤ t ∧ t < cfg.N)
    (hr : r < cfg.R) (hrun : state t = .running) (hfree : ∀ phase, (phase, r) ∉ holds t)
    {phase : phase_t} (hphase : phase = .FIRST_WRITE ∨ phase = .SECOND_WRITE)
    {result : CallResult} {lt' : rw_lock_table}
    (hcall : lt.wrlock t phase r = .ok (result, lt')) :
    linked cfg lt'
      (Function.update state t (state_after result phase r))
      (Function.update holds t (holds_after result (holds t) phase r)) := by
  obtain ⟨c, hc, rfl, rfl, hgranted⟩ := h
  have hreq := linked.may_request hc hgranted ht hr hrun hfree
  exact linked.after_call
    (hc.step (l := (t, ClientCall.wrlock phase r)) ⟨hreq, hphase, _, _, hcall, rfl⟩) hgranted

theorem awake (h : linked cfg lt state holds) {t r : ℕ} {phase : phase_t}
    (hsleep : state t = .asleep phase r) {result : CallResult} {lt' : rw_lock_table}
    (hcall : awake_call lt t phase r = .ok (result, lt')) :
    linked cfg lt'
      (Function.update state t (state_after result phase r))
      (Function.update holds t (holds_after result (holds t) phase r)) := by
  obtain ⟨c, hc, rfl, rfl, hgranted⟩ := h
  exact linked.after_call
    (hc.step (l := (t, ClientCall.awake)) ⟨phase, r, hsleep, _, _, hcall, rfl⟩) hgranted

theorem unlock (h : linked cfg lt state holds) {t r : ℕ} {phase : phase_t}
    (hrun : state t = .running) (hheld : (phase, r) ∈ holds t) {lt' : rw_lock_table}
    (hcall : lt.unlock t r = .ok lt') :
    linked cfg lt' state (Function.update holds t ((holds t).filter (fun p => p.2 ≠ r))) := by
  obtain ⟨c, hc, rfl, rfl, hgranted⟩ := h
  have hmay : MayUnlock c t r := by
    refine ⟨hrun, List.mem_map.mpr ⟨⟨t, phase⟩, ?_, rfl⟩⟩
    exact (hgranted r ⟨t, phase⟩).mpr hheld
  refine ⟨_, hc.step (l := (t, ClientCall.unlock r)) ⟨hmay, _, hcall, rfl⟩, rfl, rfl, ?_⟩
  intro r' e
  simp only [Clients.after_unlock, mem_update_filter, hgranted]
  by_cases het : e.tid = t
  · subst het
    simp only [Function.update_self, List.mem_filter, decide_eq_true_eq]
    tauto
  · simp [het]

/-- **Exclusion, for threads.**  A lock held for writing is held by nobody else. -/
theorem exclusive (h : linked cfg lt state holds) {t u r : ℕ} {p p' : phase_t}
    (ht : (p, r) ∈ holds t) (hu : (p', r) ∈ holds u) (hp : p ≠ .READ) : t = u := by
  obtain ⟨c, hc, rfl, rfl, hgranted⟩ := h
  have hmt : ⟨t, p⟩ ∈ c.granted r := (hgranted r ⟨t, p⟩).mpr ht
  have hmu : ⟨u, p'⟩ ∈ c.granted r := (hgranted r ⟨u, p'⟩).mpr hu
  by_contra hne
  have hdiff : (⟨t, p⟩ : wait_q_elem_t) ≠ ⟨u, p'⟩ := fun heq => hne (by cases heq; rfl)
  have := ((lock_inv_reachable hc).exclusive hmt hmu hdiff).1
  exact hp (is_writer_eq_false.mp this)

/-- Only worker threads hold locks. -/
theorem holder_lt (h : linked cfg lt state holds) {t r : ℕ} {p : phase_t}
    (ht : (p, r) ∈ holds t) : 1 ≤ t ∧ t < cfg.N := by
  obtain ⟨c, hc, rfl, rfl, hgranted⟩ := h
  have hinv := lock_inv_reachable hc
  have hg : ⟨t, p⟩ ∈ c.granted r := (hgranted r ⟨t, p⟩).mpr ht
  obtain ⟨hpos, hlt, -⟩ := hinv.graph.entry r _ ((hinv.holder.granted_iff r _).mp hg).1
  exact ⟨hpos, hlt⟩

end linked

/-! ## Section 2: Inverting critical sections -/

theorem Shared.unlock_eq {sh sh' : Shared} {t r : ℕ} (h : sh.unlock t r = .ok sh') :
    sh.lt.unlock t r = .ok sh'.lt ∧ sh'.records = sh.records := by
  obtain ⟨lt, hlt, hret⟩ := bind_eq_ok h
  cases hret
  exact ⟨hlt, rfl⟩

/-- A critical section with a lock call ends in one of three ways. -/
theorem Program.lock_section_cases {s s' : Program} {tid : ℕ}
    {call : Except Failure (CallResult × rw_lock_table)} {acquired asleep : Point}
    (h : s.lock_section tid call acquired asleep = .ok s') :
    (∃ lt, call = .ok (.returned true, lt) ∧ s' = s.resume tid ⟨lt, s.records⟩ acquired) ∨
    (∃ lt, call = .ok (.asleep, lt) ∧ s' = s.resume tid ⟨lt, s.records⟩ asleep) ∨
    (∃ lt sh, call = .ok (.returned false, lt) ∧
      Shared.rollback ⟨lt, s.records⟩ (s.thread tid).log = .ok sh ∧
      s' = s.resume tid sh .loop_head) := by
  obtain ⟨⟨result, lt⟩, hcall, hrest⟩ := bind_eq_ok h
  match result with
  | .returned true =>
    cases hrest
    exact .inl ⟨lt, hcall, rfl⟩
  | .asleep =>
    cases hrest
    exact .inr (.inl ⟨lt, hcall, rfl⟩)
  | .returned false =>
    obtain ⟨sh, hsh, hret⟩ := bind_eq_ok hrest
    cases hret
    exact .inr (.inr ⟨lt, sh, hcall, hsh, rfl⟩)

/-- The commit section either rolls back or appends a line. -/
theorem Program.commit_cases {s s' : Program} {cfg : Config} {tid : ℕ}
    (h : s.commit cfg tid = .ok s') :
    let commit_id := (s.global_execution_order + 1) % 2 ^ 64
    let log : log_t := { (s.thread tid).log with commit_id := commit_id }
    (cfg.E < commit_id ∧ ∃ sh, s.shared.rollback log = .ok sh ∧
      s' = { s.resume tid sh .terminated with global_execution_order := commit_id }) ∨
    (commit_id ≤ cfg.E ∧ ∃ sh, s.shared.release_locks log = .ok sh ∧
      s' = { s.resume tid sh .loop_head with
        global_execution_order := commit_id
        log_file := Function.update s.log_file tid (s.log_file tid ++ [line log])
        committed := s.committed ++ [line log] }) := by
  intro commit_id log
  unfold Program.commit at h
  simp only at h
  split at h
  · next hgt =>
    obtain ⟨sh, hsh, hret⟩ := bind_eq_ok h
    cases hret
    exact .inl ⟨hgt, sh, hsh, rfl⟩
  · next hle =>
    obtain ⟨sh, hsh, hret⟩ := bind_eq_ok h
    cases hret
    exact .inr ⟨Nat.le_of_not_lt hle, sh, hsh, rfl⟩

/-! ## Section 3: Releasing locks -/

section release
variable {cfg : Config} {state : ℕ → CallState} {holds : ℕ → List (phase_t × ℕ)}
  {R : ℕ}

/-- Unlocking one of the locks of a thread. -/
theorem linked.unlock_shared {sh sh' : Shared} {p : phase_t} {t r : ℕ}
    {held : List (phase_t × ℕ)} (hcall : sh.unlock t r = .ok sh')
    (h : linked cfg sh.lt state (Function.update holds t held))
    (hrun : state t = .running) (hheld : (p, r) ∈ held) :
    linked cfg sh'.lt state (Function.update holds t (held.filter (fun p => p.2 ≠ r))) := by
  have hmem : (p, r) ∈ Function.update holds t held t := by rwa [Function.update_self]
  have hunlock := h.unlock hrun hmem (Shared.unlock_eq hcall).1
  rwa [Function.update_self, Function.update_idem] at hunlock

variable (log : log_t)

/-- A request for the read lock was refused: nothing is held. -/
theorem linked.rollback_read {sh sh' : Shared} {t : ℕ} (htid : log.tid = t)
    (hphase : log.current_phase = .READ)
    (h : linked cfg sh.lt state (Function.update holds t []))
    (hcall : sh.rollback log = .ok sh') :
    linked cfg sh'.lt state (Function.update holds t []) := by
  subst htid
  simp only [Shared.rollback, hphase, Shared.rollback_read, Shared.unlock_unless,
    if_true] at hcall
  cases hcall
  exact h

/-- A request for the first write lock was refused: the read lock is released. -/
theorem linked.rollback_first_write {sh sh' : Shared} {t : ℕ} (htid : log.tid = t)
    (hphase : log.current_phase = .FIRST_WRITE)
    (h : linked cfg sh.lt state (Function.update holds t [(.READ, log.i)]))
    (hrun : state t = .running) (hcall : sh.rollback log = .ok sh') :
    linked cfg sh'.lt state (Function.update holds t []) := by
  subst htid
  simp only [Shared.rollback, hphase, Shared.rollback_first_write, Shared.rollback_read,
    Shared.unlock_unless, if_true, ok_bind, reduceCtorEq, if_false] at hcall
  simpa using linked.unlock_shared hcall h hrun (List.mem_singleton.mpr rfl)

/-- A request for the second write lock was refused: two locks are released. -/
theorem linked.rollback_second_write {sh sh' : Shared} {t : ℕ} (htid : log.tid = t)
    (hids : DistinctIds R log.i log.j log.k)
    (hphase : log.current_phase = .SECOND_WRITE)
    (h : linked cfg sh.lt state
      (Function.update holds t [(.READ, log.i), (.FIRST_WRITE, log.j)]))
    (hrun : state t = .running) (hcall : sh.rollback log = .ok sh') :
    linked cfg sh'.lt state (Function.update holds t []) := by
  subst htid
  simp only [Shared.rollback, hphase, Shared.rollback_second_write, Shared.rollback_first_write,
    Shared.rollback_read, Shared.unlock_unless, if_true, ok_bind, except_pure, reduceCtorEq,
    if_false] at hcall
  obtain ⟨sh₁, h₁, h₂⟩ := bind_eq_ok hcall
  have hl₁ := linked.unlock_shared (p := .FIRST_WRITE) h₁ h hrun (by simp)
  have hl₂ := linked.unlock_shared (p := .READ) h₂ hl₁ hrun (by simp [hids.i_ne_j])
  simpa [hids.i_ne_j] using hl₂

/-- The commit id is too large: all three locks are released. -/
theorem linked.rollback_commit {sh sh' : Shared} {t : ℕ} (htid : log.tid = t)
    (hids : DistinctIds R log.i log.j log.k)
    (hphase : log.current_phase = .COMMIT)
    (h : linked cfg sh.lt state (Function.update holds t
      [(.READ, log.i), (.FIRST_WRITE, log.j), (.SECOND_WRITE, log.k)]))
    (hrun : state t = .running) (hcall : sh.rollback log = .ok sh') :
    linked cfg sh'.lt state (Function.update holds t []) := by
  subst htid
  simp only [Shared.rollback, hphase, Shared.rollback_commit, Shared.rollback_second_write,
    Shared.rollback_first_write, Shared.rollback_read, Shared.unlock_unless, ok_bind,
    except_pure, reduceCtorEq, if_false] at hcall
  obtain ⟨sh₁, h₁, hcall⟩ := bind_eq_ok hcall
  obtain ⟨sh₀, h₀, hret⟩ := bind_eq_ok h₁
  cases hret
  obtain ⟨sh₂, h₂, h₃⟩ := bind_eq_ok hcall
  have hl₀ := linked.unlock_shared (p := .SECOND_WRITE) h₀ h hrun (by simp)
  have hl₂ := linked.unlock_shared (p := .FIRST_WRITE) h₂ hl₀ hrun
    (by simp [hids.k_ne_j.symm])
  have hl₃ := linked.unlock_shared (p := .READ) h₃ hl₂ hrun
    (by simp [hids.k_ne_i.symm, hids.i_ne_j])
  simpa [hids.k_ne_i.symm, hids.i_ne_j, hids.k_ne_j.symm] using hl₃

/-- The commit releases all three locks. -/
theorem linked.release_locks {sh sh' : Shared} {t : ℕ} (htid : log.tid = t)
    (hids : DistinctIds R log.i log.j log.k)
    (h : linked cfg sh.lt state (Function.update holds t
      [(.READ, log.i), (.FIRST_WRITE, log.j), (.SECOND_WRITE, log.k)]))
    (hrun : state t = .running) (hcall : sh.release_locks log = .ok sh') :
    linked cfg sh'.lt state (Function.update holds t []) := by
  subst htid
  obtain ⟨sh₁, h₁, hcall⟩ := bind_eq_ok hcall
  obtain ⟨sh₂, h₂, h₃⟩ := bind_eq_ok hcall
  have hl₁ := linked.unlock_shared (p := .READ) h₁ h hrun (by simp)
  have hl₂ := linked.unlock_shared (p := .FIRST_WRITE) h₂ hl₁ hrun
    (by simp [hids.i_ne_j.symm])
  have hl₃ := linked.unlock_shared (p := .SECOND_WRITE) h₃ hl₂ hrun
    (by simp [hids.k_ne_i, hids.k_ne_j])
  simpa [hids.i_ne_j.symm, hids.k_ne_i, hids.k_ne_j] using hl₃

end release

/-! ## Section 4: The lock invariant of the program -/

/-- The phase that `log.current_phase` has at a point of a transaction. -/
def Point.phase : Point → phase_t
  | .loop_head | .terminated | .exited => .INVALID
  | .read_lock | .read_wait | .read_i => .READ
  | .first_lock | .first_wait | .old_j | .load_j | .store_j | .result_j => .FIRST_WRITE
  | .second_lock | .second_wait | .old_k | .load_k | .store_k | .result_k => .SECOND_WRITE
  | .commit => .COMMIT

/-- The log of thread `t` during a transaction. -/
structure LogOk (cfg : Config) (t : ℕ) (th : Thread) : Prop where
  tid   : th.log.tid = t
  ids   : DistinctIds cfg.R th.log.i th.log.j th.log.k
  phase : th.point ≠ .exited → th.log.current_phase = th.point.phase

/-- A thread that is between transactions or has returned. -/
def Thread.idle (th : Thread) : Prop := th.point = .loop_head ∨ th.point = .terminated

/-- The table is linked to the points of the threads. -/
structure LinkInv (cfg : Config) (s : Program) : Prop where
  link : linked cfg s.lt (fun t => (s.thread t).call_state) (fun t => (s.thread t).holds)
  log  : ∀ t, ¬ (s.thread t).idle → LogOk cfg t (s.thread t)

/-- A function of the threads after one of them has changed. -/
theorem comp_update {α : Type} (f : Thread → α) (thread : ℕ → Thread) (t : ℕ) (th : Thread) :
    (fun u => f (Function.update thread t th u)) =
      Function.update (fun u => f (thread u)) t (f th) := by
  funext u
  by_cases hu : u = t
  · subst hu
    simp
  · simp [hu]

/-- The invariant after thread `tid` has become `th` and the table `lt`. -/
theorem LinkInv.of_update {cfg : Config} {s s' : Program} (h : LinkInv cfg s) {tid : ℕ}
    {th : Thread} (hthread : s'.thread = Function.update s.thread tid th)
    (hlink : linked cfg s'.lt
      (Function.update (fun t => (s.thread t).call_state) tid th.call_state)
      (Function.update (fun t => (s.thread t).holds) tid th.holds))
    (hlog : ¬ th.idle → LogOk cfg tid th) : LinkInv cfg s' := by
  constructor
  · rw [hthread, comp_update Thread.call_state, comp_update Thread.holds]
    exact hlink
  · intro t ht
    rw [hthread] at ht ⊢
    by_cases htt : t = tid
    · subst htt
      rw [Function.update_self] at ht ⊢
      exact hlog ht
    · rw [Function.update_of_ne htt] at ht ⊢
      exact h.log t ht

/-- A step that neither locks nor unlocks. -/
theorem LinkInv.of_local {cfg : Config} {s s' : Program} (h : LinkInv cfg s) {tid : ℕ}
    {th : Thread} (hthread : s'.thread = Function.update s.thread tid th)
    (hlt : s'.lt = s.lt) (hcall : th.call_state = (s.thread tid).call_state)
    (hholds : th.holds = (s.thread tid).holds) (hlog : ¬ th.idle → LogOk cfg tid th) :
    LinkInv cfg s' := by
  refine h.of_update hthread ?_ hlog
  rw [hlt, hcall, hholds, Function.update_eq_self, Function.update_eq_self]
  exact h.link

/-- A rolled back or committed transaction holds nothing. -/
theorem LinkInv.of_release {cfg : Config} {s s' : Program} (h : LinkInv cfg s) {tid : ℕ}
    {th : Thread} (hthread : s'.thread = Function.update s.thread tid th)
    (hidle : th.idle)
    (hlink : linked cfg s'.lt
      (Function.update (fun t => (s.thread t).call_state) tid .running)
      (Function.update (fun t => (s.thread t).holds) tid [])) : LinkInv cfg s' := by
  refine h.of_update hthread ?_ (fun hbusy => absurd hidle hbusy)
  rcases hidle with hp | hp <;> simpa [Thread.call_state, Thread.holds, hp] using hlink

/-- A critical section with a lock call for `r` in `phase`. -/
theorem LinkInv.of_lock_section {cfg : Config} {s s' : Program} (h : LinkInv cfg s)
    {tid r : ℕ} {phase : phase_t} {call : Except Failure (CallResult × rw_lock_table)}
    {acquired asleep : Point}
    (hstep : s.lock_section tid call acquired asleep = .ok s')
    (hcall : ∀ result lt, call = .ok (result, lt) → linked cfg lt
      (Function.update (fun t => (s.thread t).call_state) tid (state_after result phase r))
      (Function.update (fun t => (s.thread t).holds) tid
        (holds_after result (s.thread tid).holds phase r)))
    (hacquired : ({ s.thread tid with point := acquired } : Thread).call_state = .running ∧
      ({ s.thread tid with point := acquired } : Thread).holds =
        (s.thread tid).holds ++ [(phase, r)])
    (hasleep : ({ s.thread tid with point := asleep } : Thread).call_state =
        .asleep phase r ∧
      ({ s.thread tid with point := asleep } : Thread).holds = (s.thread tid).holds)
    (hlog : LogOk cfg tid { s.thread tid with point := acquired } ∧
      LogOk cfg tid { s.thread tid with point := asleep })
    (hrollback : ∀ lt sh, linked cfg lt
        (Function.update (fun t => (s.thread t).call_state) tid .running)
        (Function.update (fun t => (s.thread t).holds) tid (s.thread tid).holds) →
      Shared.rollback ⟨lt, s.records⟩ (s.thread tid).log = .ok sh →
      linked cfg sh.lt
        (Function.update (fun t => (s.thread t).call_state) tid .running)
        (Function.update (fun t => (s.thread t).holds) tid [])) : LinkInv cfg s' := by
  rcases Program.lock_section_cases hstep with
    ⟨lt, hc, rfl⟩ | ⟨lt, hc, rfl⟩ | ⟨lt, sh, hc, hsh, rfl⟩
  · refine h.of_update rfl ?_ (fun _ => hlog.1)
    rw [hacquired.1, hacquired.2]
    exact hcall _ _ hc
  · refine h.of_update rfl ?_ (fun _ => hlog.2)
    rw [hasleep.1, hasleep.2]
    exact hcall _ _ hc
  · apply h.of_release rfl (.inl rfl)
    exact hrollback lt sh (hcall _ _ hc) hsh

section sections
variable {cfg : Config} {s s' : Program} {tid : ℕ}
  {call : Except Failure (CallResult × rw_lock_table)}

/-- The critical sections of the read phase. -/
theorem LinkInv.read_section (h : LinkInv cfg s) (hlog : LogOk cfg tid (s.thread tid))
    (hphase : (s.thread tid).log.current_phase = .READ) (hholds : (s.thread tid).holds = [])
    (hstep : s.lock_section tid call .read_i .read_wait = .ok s')
    (hcall : ∀ result lt, call = .ok (result, lt) → linked cfg lt
      (Function.update (fun t => (s.thread t).call_state) tid
        (state_after result .READ (s.thread tid).log.i))
      (Function.update (fun t => (s.thread t).holds) tid
        (holds_after result (s.thread tid).holds .READ (s.thread tid).log.i))) :
    LinkInv cfg s' := by
  refine h.of_lock_section hstep hcall ⟨rfl, by rw [hholds]; rfl⟩ ⟨rfl, by rw [hholds]; rfl⟩
    ⟨⟨hlog.tid, hlog.ids, fun _ => hphase⟩, ⟨hlog.tid, hlog.ids, fun _ => hphase⟩⟩ ?_
  intro lt sh hl hsh
  rw [hholds] at hl
  exact linked.rollback_read _ hlog.tid hphase hl hsh

/-- The critical sections of the first write phase. -/
theorem LinkInv.first_section (h : LinkInv cfg s) (hlog : LogOk cfg tid (s.thread tid))
    (hphase : (s.thread tid).log.current_phase = .FIRST_WRITE)
    (hholds : (s.thread tid).holds = [(.READ, (s.thread tid).log.i)])
    (hstep : s.lock_section tid call .old_j .first_wait = .ok s')
    (hcall : ∀ result lt, call = .ok (result, lt) → linked cfg lt
      (Function.update (fun t => (s.thread t).call_state) tid
        (state_after result .FIRST_WRITE (s.thread tid).log.j))
      (Function.update (fun t => (s.thread t).holds) tid
        (holds_after result (s.thread tid).holds .FIRST_WRITE (s.thread tid).log.j))) :
    LinkInv cfg s' := by
  refine h.of_lock_section hstep hcall ⟨rfl, by rw [hholds]; rfl⟩ ⟨rfl, by rw [hholds]; rfl⟩
    ⟨⟨hlog.tid, hlog.ids, fun _ => hphase⟩, ⟨hlog.tid, hlog.ids, fun _ => hphase⟩⟩ ?_
  intro lt sh hl hsh
  rw [hholds] at hl
  exact linked.rollback_first_write _ hlog.tid hphase hl (Function.update_self _ _ _) hsh

/-- The critical sections of the second write phase. -/
theorem LinkInv.second_section (h : LinkInv cfg s) (hlog : LogOk cfg tid (s.thread tid))
    (hphase : (s.thread tid).log.current_phase = .SECOND_WRITE)
    (hholds : (s.thread tid).holds =
      [(.READ, (s.thread tid).log.i), (.FIRST_WRITE, (s.thread tid).log.j)])
    (hstep : s.lock_section tid call .old_k .second_wait = .ok s')
    (hcall : ∀ result lt, call = .ok (result, lt) → linked cfg lt
      (Function.update (fun t => (s.thread t).call_state) tid
        (state_after result .SECOND_WRITE (s.thread tid).log.k))
      (Function.update (fun t => (s.thread t).holds) tid
        (holds_after result (s.thread tid).holds .SECOND_WRITE (s.thread tid).log.k))) :
    LinkInv cfg s' := by
  refine h.of_lock_section hstep hcall ⟨rfl, by rw [hholds]; rfl⟩ ⟨rfl, by rw [hholds]; rfl⟩
    ⟨⟨hlog.tid, hlog.ids, fun _ => hphase⟩, ⟨hlog.tid, hlog.ids, fun _ => hphase⟩⟩ ?_
  intro lt sh hl hsh
  rw [hholds] at hl
  exact linked.rollback_second_write _ hlog.tid hlog.ids hphase hl (Function.update_self _ _ _)
    hsh

end sections

/-- The critical section of the commit releases everything. -/
theorem LinkInv.commit_section {cfg : Config} {s s' : Program} (h : LinkInv cfg s) {tid : ℕ}
    (hp : (s.thread tid).point = .commit) (hstep : s.commit cfg tid = .ok s') :
    LinkInv cfg s' := by
  obtain ⟨htid, hids, hphase⟩ := h.log tid (by simp [Thread.idle, hp])
  have hcommit : (s.thread tid).log.current_phase = .COMMIT := by
    rw [hphase (by simp [hp]), hp]
    rfl
  have hrun : (s.thread tid).call_state = .running := by simp [Thread.call_state, hp]
  -- The thread holds its three locks and runs.
  have hlink : linked cfg s.shared.lt (fun t => (s.thread t).call_state)
      (Function.update (fun t => (s.thread t).holds) tid
        [(.READ, (s.thread tid).log.i), (.FIRST_WRITE, (s.thread tid).log.j),
          (.SECOND_WRITE, (s.thread tid).log.k)]) := by
    have hsame : (s.thread tid).holds = [(.READ, (s.thread tid).log.i),
        (.FIRST_WRITE, (s.thread tid).log.j), (.SECOND_WRITE, (s.thread tid).log.k)] := by
      simp [Thread.holds, hp]
    rw [← hsame, Function.update_eq_self]
    exact h.link
  have hstate : Function.update (fun t => (s.thread t).call_state) tid .running =
      fun t => (s.thread t).call_state := by
    rw [← hrun, Function.update_eq_self]
  rcases Program.commit_cases hstep with ⟨-, sh, hsh, rfl⟩ | ⟨-, sh, hsh, rfl⟩
  · apply h.of_release rfl (.inr rfl)
    rw [hstate]
    exact linked.rollback_commit { (s.thread tid).log with
      commit_id := (s.global_execution_order + 1) % 2 ^ 64 } htid hids hcommit hlink hrun hsh
  · apply h.of_release rfl (.inl rfl)
    rw [hstate]
    exact linked.release_locks { (s.thread tid).log with
      commit_id := (s.global_execution_order + 1) % 2 ^ 64 } htid hids hlink hrun hsh

/-- Every step of a thread keeps the table linked. -/
theorem LinkInv.step {cfg : Config} {s s' : Program} (h : LinkInv cfg s) {tid i j k : ℕ}
    (ht : 1 ≤ tid ∧ tid < cfg.N) (hstep : thread_step cfg s tid i j k s') : LinkInv cfg s' := by
  unfold thread_step at hstep
  have hlink := h.link
  have hrequest : ∀ {p : Point}, (s.thread tid).point = p → p ≠ .loop_head → p ≠ .terminated →
      p ≠ .exited → LogOk cfg tid (s.thread tid) ∧
        (s.thread tid).log.current_phase = p.phase := by
    intro p hp h₁ h₂ h₃
    have hlog := h.log tid (by simp [Thread.idle, hp, h₁, h₂])
    exact ⟨hlog, by rw [hlog.phase (by simp [hp, h₃]), hp]⟩
  cases hp : (s.thread tid).point with
  | loop_head =>
    rw [hp] at hstep
    rcases hstep with ⟨-, hids, rfl⟩ | ⟨-, rfl⟩
    · refine h.of_local rfl rfl ?_ ?_ (fun _ => ⟨rfl, hids, fun _ => rfl⟩)
      · simp [Thread.call_state, hp]
      · simp [Thread.holds, hp]
    · refine h.of_local rfl rfl ?_ ?_ (fun hbusy => absurd (.inr rfl) hbusy)
      · simp [Thread.call_state, hp]
      · simp [Thread.holds, hp]
  | read_lock =>
    rw [hp] at hstep
    obtain ⟨hlog, hphase⟩ := hrequest hp (by simp) (by simp) (by simp)
    have hholds : (s.thread tid).holds = [] := by simp [Thread.holds, hp]
    refine h.read_section hlog hphase hholds hstep (fun result lt hc => ?_)
    refine hlink.rdlock ht hlog.ids.i_lt ?_ ?_ hc
    · simp [Thread.call_state, hp]
    · simp [hholds]
  | read_wait =>
    rw [hp] at hstep
    obtain ⟨hlog, hphase⟩ := hrequest hp (by simp) (by simp) (by simp)
    refine h.read_section hlog hphase (by simp [Thread.holds, hp]) hstep (fun result lt hc => ?_)
    refine hlink.awake ?_ hc
    simp [Thread.call_state, hp]
  | read_i =>
    rw [hp] at hstep
    obtain ⟨hlog, hphase⟩ := hrequest hp (by simp) (by simp) (by simp)
    subst hstep
    refine h.of_local rfl rfl ?_ ?_ (fun _ => ⟨hlog.tid, hlog.ids, fun _ => rfl⟩)
    · simp [Thread.call_state, hp]
    · simp [Thread.holds, hp]
  | first_lock =>
    rw [hp] at hstep
    obtain ⟨hlog, hphase⟩ := hrequest hp (by simp) (by simp) (by simp)
    have hholds : (s.thread tid).holds = [(.READ, (s.thread tid).log.i)] := by
      simp [Thread.holds, hp]
    refine h.first_section hlog hphase hholds hstep (fun result lt hc => ?_)
    refine hlink.wrlock ht hlog.ids.j_lt ?_ ?_ (.inl rfl) hc
    · simp [Thread.call_state, hp]
    · simp [hholds, hlog.ids.i_ne_j.symm]
  | first_wait =>
    rw [hp] at hstep
    obtain ⟨hlog, hphase⟩ := hrequest hp (by simp) (by simp) (by simp)
    refine h.first_section hlog hphase (by simp [Thread.holds, hp]) hstep
      (fun result lt hc => ?_)
    refine hlink.awake ?_ hc
    simp [Thread.call_state, hp]
  | second_lock =>
    rw [hp] at hstep
    obtain ⟨hlog, hphase⟩ := hrequest hp (by simp) (by simp) (by simp)
    have hholds : (s.thread tid).holds =
        [(.READ, (s.thread tid).log.i), (.FIRST_WRITE, (s.thread tid).log.j)] := by
      simp [Thread.holds, hp]
    refine h.second_section hlog hphase hholds hstep (fun result lt hc => ?_)
    refine hlink.wrlock ht hlog.ids.k_lt ?_ ?_ (.inr rfl) hc
    · simp [Thread.call_state, hp]
    · simp [hholds, hlog.ids.k_ne_i, hlog.ids.k_ne_j]
  | second_wait =>
    rw [hp] at hstep
    obtain ⟨hlog, hphase⟩ := hrequest hp (by simp) (by simp) (by simp)
    refine h.second_section hlog hphase (by simp [Thread.holds, hp]) hstep
      (fun result lt hc => ?_)
    refine hlink.awake ?_ hc
    simp [Thread.call_state, hp]
  | result_j =>
    rw [hp] at hstep
    obtain ⟨hlog, hphase⟩ := hrequest hp (by simp) (by simp) (by simp)
    have hfirst : (s.thread tid).log.current_phase = .FIRST_WRITE := hphase
    subst hstep
    unfold Program.result_j
    dsimp only
    split
    · refine h.of_local rfl rfl ?_ ?_ (fun _ => ⟨hlog.tid, hlog.ids, fun hne => absurd rfl hne⟩)
      · simp [Thread.call_state, hp]
      · simp [Thread.holds, hp, hfirst]
    · refine h.of_local rfl rfl ?_ ?_ (fun _ => ⟨hlog.tid, hlog.ids, fun _ => rfl⟩)
      · simp [Thread.call_state, hp]
      · simp [Thread.holds, hp]
  | result_k =>
    rw [hp] at hstep
    obtain ⟨hlog, hphase⟩ := hrequest hp (by simp) (by simp) (by simp)
    have hsecond : (s.thread tid).log.current_phase = .SECOND_WRITE := hphase
    subst hstep
    unfold Program.result_k
    dsimp only
    split
    · refine h.of_local rfl rfl ?_ ?_ (fun _ => ⟨hlog.tid, hlog.ids, fun hne => absurd rfl hne⟩)
      · simp [Thread.call_state, hp]
      · simp [Thread.holds, hp, hsecond]
    · refine h.of_local rfl rfl ?_ ?_ (fun _ => ⟨hlog.tid, hlog.ids, fun _ => rfl⟩)
      · simp [Thread.call_state, hp]
      · simp [Thread.holds, hp]
  | commit =>
    rw [hp] at hstep
    exact h.commit_section hp hstep
  | terminated =>
    rw [hp] at hstep
    exact absurd hstep id
  | exited =>
    rw [hp] at hstep
    exact absurd hstep id
  | old_j | load_j | store_j | old_k | load_k | store_k =>
    -- Accesses to a record: only the point and local variables change.
    rw [hp] at hstep
    obtain ⟨hlog, hphase⟩ := hrequest hp (by simp) (by simp) (by simp)
    subst hstep
    refine h.of_local rfl rfl ?_ ?_ (fun _ => ⟨hlog.tid, hlog.ids, fun _ => hphase⟩)
    · simp [Thread.call_state, hp]
    · simp [Thread.holds, hp]

theorem link_inv_init {cfg : Config} {s : Program} (h : (transactions cfg).init s) :
    LinkInv cfg s := by
  obtain ⟨hlt, -, -, hthread, -⟩ := h
  constructor
  · rw [hlt]
    simp only [hthread]
    exact linked.init cfg
  · intro t ht
    rw [hthread] at ht
    exact absurd (.inl rfl) ht

/-- **Transactions obey the calling rules.** -/
theorem link_inv_reachable {cfg : Config} {s : Program} (h : Reachable (transactions cfg) s) :
    LinkInv cfg s := by
  apply h.invariant (fun _ hinit => link_inv_init hinit)
  intro s l s' _ hinv hstep
  obtain ⟨tid, i, j, k⟩ := l
  obtain ⟨-, hpos, hlt, hstep⟩ := hstep
  exact hinv.step ⟨hpos, hlt⟩ hstep

/-! ## Section 5: Progress -/

/-- The thread is inside `pthread_cond_wait`. -/
def Thread.asleep (th : Thread) : Prop :=
  th.point = .read_wait ∨ th.point = .first_wait ∨ th.point = .second_wait

theorem Thread.call_state_asleep {th : Thread} (h : th.asleep) :
    ∃ phase r, th.call_state = .asleep phase r := by
  rcases h with hp | hp | hp <;> exact ⟨_, _, by simp [Thread.call_state, hp]; exact ⟨rfl, rfl⟩⟩

/-- A thread with an entry in a queue has not returned. -/
theorem linked.not_terminated {cfg : Config} {thread : ℕ → Thread} {c : Clients}
    (h : LockInv cfg.N cfg.R c) (hstate : c.state = fun t => (thread t).call_state)
    (hgranted : ∀ r e, e ∈ c.granted r ↔ (e.current_phase, r) ∈ (thread e.tid).holds)
    {r : ℕ} {e : wait_q_elem_t} (he : e ∈ c.lt.record_wait_queues r) :
    (thread e.tid).point ≠ .terminated := by
  intro hp
  have hrun : c.state e.tid = .running := by
    rw [hstate]
    simp [Thread.call_state, hp]
  -- A returned thread runs no call, so its entry would be granted; but it holds nothing.
  have hg : e ∈ c.granted r :=
    (h.holder.granted_iff r e).mpr ⟨he, by simp [Clients.waiting_running hrun]⟩
  have hholds := (hgranted r e).mp hg
  simp [Thread.holds, hp] at hholds

/-- **No stuck state.**  In every reachable state the wait-for graph is acyclic,
    and while some thread has not returned, some such thread is not asleep or has
    been signalled since it went to sleep. -/
theorem transactions_never_stuck {cfg : Config} {s : Program}
    (h : Reachable (transactions cfg) s) :
    (∀ t, ¬ Relation.TransGen s.lt.wait_for_graph.edge t t) ∧
    ((∃ t, 1 ≤ t ∧ t < cfg.N ∧ (s.thread t).point ≠ .terminated) →
      ∃ t, 1 ≤ t ∧ t < cfg.N ∧ (s.thread t).point ≠ .terminated ∧
        (¬ (s.thread t).asleep ∨ s.lt.cond_var t = .signalled)) := by
  obtain ⟨c, hc, hlt, hstate, hgranted⟩ := (link_inv_reachable h).link
  have hinv := lock_inv_reachable hc
  rw [← hlt]
  have hacyclic := hinv.graph.mgr.acyclic
  constructor
  · intro t hloop
    exact hacyclic t (Relation.TransGen.mono
      (fun x y hxy => (hinv.graph.edge_iff x y).mp hxy) _ _ hloop)
  · intro h
    obtain ⟨t₀, hpos₀, hlt₀, hlive₀⟩ := h
    by_contra hstuck
    -- Otherwise every live thread sleeps without having been signalled.
    have hall : ∀ t, 1 ≤ t → t < cfg.N → (s.thread t).point ≠ .terminated →
        (s.thread t).asleep ∧ c.lt.cond_var t ≠ .signalled := by
      intro t hpos hN hlive
      by_contra hnot
      refine hstuck ⟨t, hpos, hN, hlive, ?_⟩
      by_cases hasleep : (s.thread t).asleep
      · right
        by_contra hsig
        exact hnot ⟨hasleep, hsig⟩
      · exact .inl hasleep
    let live := (Finset.Ico 1 cfg.N).filter (fun t => (s.thread t).point ≠ .terminated)
    have hmem : ∀ t, t ∈ live ↔ (1 ≤ t ∧ t < cfg.N) ∧ (s.thread t).point ≠ .terminated := by
      intro t
      simp [live]
    obtain ⟨t, ht, hfree⟩ := exists_unblocked hacyclic live
      ⟨t₀, (hmem t₀).mpr ⟨⟨hpos₀, hlt₀⟩, hlive₀⟩⟩
    obtain ⟨⟨hpos, hN⟩, hlive⟩ := (hmem t).mp ht
    obtain ⟨hasleep, hsig⟩ := hall t hpos hN hlive
    obtain ⟨phase, r, hcall⟩ := Thread.call_state_asleep hasleep
    have hst : c.state t = .asleep phase r := by
      rw [hstate]
      exact hcall
    have hwaiting : c.lt.cond_var t = .waiting := by
      have hidle := hinv.sleep.idle t
      rw [hst] at hidle
      cases hcv : c.lt.cond_var t with
      | idle => simp [hcv] at hidle
      | waiting => rfl
      | signalled => exact absurd hcv hsig
    -- It points to somebody with an entry ahead, who is live as well.
    obtain ⟨u, rest, hu⟩ := List.exists_cons_of_ne_nil
      (hinv.sleep.wake_up t r hwaiting (Clients.waiting_asleep hst))
    have hpoint : u ∈ edges_of (c.lt.record_wait_queues r) t := by simp [hu]
    obtain ⟨e, he, rfl⟩ := List.mem_map.mp (mem_edges_of hpoint)
    obtain ⟨hpe, hNe, -⟩ := hinv.graph.entry r e he
    have hlive' := linked.not_terminated hinv hstate hgranted he
    exact hfree e.tid ((hmem e.tid).mpr ⟨⟨hpe, hNe⟩, hlive'⟩) ⟨r, hpoint⟩

/-- The program before the first step. -/
def Program.start (cfg : Config) : Program where
  lt := rw_lock_table.init cfg.N
  records := fun _ => 100
  global_execution_order := 0
  thread := fun _ => Thread.initial
  log_file := fun _ => []
  committed := []
  exited := false

theorem reachable_program_start (cfg : Config) :
    Reachable (transactions cfg) (Program.start cfg) :=
  Reachable.init ⟨rfl, fun _ => rfl, rfl, fun _ => rfl, fun _ => rfl, rfl, rfl⟩

/-- A property that is computed at the end of a run on given ids. -/
theorem reachable_run (cfg : Config) (ls : List (ℕ × ℕ × ℕ × ℕ)) (P : Program → Bool)
    (h : (exec (Program.next cfg) (Program.start cfg) ls).any P = true) :
    ∃ s, Reachable (transactions cfg) s ∧ P s = true :=
  Reachable.exec_any (fun _ _ _ => step_of_next)
    ⟨rfl, fun _ => rfl, rfl, fun _ => rfl, fun _ => rfl, rfl, rfl⟩ ls P h

/-- Two worker threads, three records, two transactions to commit. -/
def duo_config : Config := ⟨2, 3, 2⟩

/-- A step of thread 1, whose transactions read record 0 and write records 1 and 2. -/
def duo_first : ℕ × ℕ × ℕ × ℕ := (1, 0, 1, 2)

/-- A step of thread 2, whose transactions read record 1 and write records 0 and 2. -/
def duo_second : ℕ × ℕ × ℕ × ℕ := (2, 1, 0, 2)

/-- Both threads have read, and thread 1 asks for the record that thread 2 has read. -/
def crossing : List (ℕ × ℕ × ℕ × ℕ) :=
  [duo_first, duo_first, duo_second, duo_second, duo_first, duo_second, duo_first]

/-- Thread 1 sleeps and waits for thread 2, which is about to ask for the record that
    thread 1 has read. -/
theorem reachable_crossing :
    ∃ s, Reachable (transactions duo_config) s ∧
      (s.thread 1).point = .first_wait ∧ s.lt.cond_var 1 = .waiting ∧
      s.lt.wait_for_graph.nodes 1 = [⟨2, 1⟩] ∧
      (s.thread 2).point = .first_lock ∧ (s.thread 2).log.j = 0 ∧ s.exited = false := by
  obtain ⟨s, hreach, h⟩ := reachable_run duo_config crossing
    (fun s => decide ((s.thread 1).point = .first_wait ∧ s.lt.cond_var 1 = .waiting ∧
      s.lt.wait_for_graph.nodes 1 = [⟨2, 1⟩] ∧
      (s.thread 2).point = .first_lock ∧ (s.thread 2).log.j = 0 ∧ s.exited = false))
    (by decide +kernel)
  exact ⟨s, hreach, of_decide_eq_true h⟩

/-- Thread 1 sleeps and waits for thread 2: there is no cycle, and somebody can go on. -/
theorem never_stuck_sleeper :
    ∃ s : Program, (s.thread 1).point = .first_wait ∧ s.lt.cond_var 1 = .waiting ∧
      s.lt.wait_for_graph.nodes 1 = [⟨2, 1⟩] ∧
      (∀ t, ¬ Relation.TransGen s.lt.wait_for_graph.edge t t) ∧
      ∃ t, 1 ≤ t ∧ t < 3 ∧ (s.thread t).point ≠ .terminated ∧
        (¬ (s.thread t).asleep ∨ s.lt.cond_var t = .signalled) := by
  obtain ⟨s, hreach, hwait, hcond, hedge, -⟩ := reachable_crossing
  obtain ⟨hacyclic, hlive⟩ := transactions_never_stuck hreach
  exact ⟨s, hwait, hcond, hedge, hacyclic, hlive ⟨1, by decide, by decide, by simp [hwait]⟩⟩

end Project2
