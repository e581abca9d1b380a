import ConcurrentProgramming.Lab11.FineSequential

/-! # The Sentinels of the Fine-Grained List (`fine_grained.cpp`)

    `list_init` gives the head the key `INT_MIN` and the tail the key `INT_MAX`,
    and both are keys that the workload may contain.

    `INT_MIN` does no harm: the operations never look at the key of the head.
    With keys other than `INT_MAX` the tail stays in the list, no pointer that is
    followed is `NULL`, and `list_contains` answers as it should
    (`sentinels_survive`).

    `INT_MAX` is found at the tail.  `list_contains(INT_MAX)` is true without an
    add, and `list_remove(INT_MAX)` unlinks and frees the tail, so that the next
    operation follows a `NULL` pointer (`tail_removed`).
-/

namespace Lab11

open CInt Sequential

/-- The keys that were added and not removed since. -/
def present (ops : List Operation) : Finset ℤ := ops.foldl (fun S op => op.update S) ∅

theorem present_concat (ops : List Operation) (op : Operation) :
    present (ops ++ [op]) = op.update (present ops) := by
  simp [present]

/-- The keys of `keep_one` are sorted, and they are those that are present. -/
theorem final_keep_one (ops : List Operation) :
    (final keep_one [] ops).Pairwise (· < ·) ∧ (final keep_one [] ops).toFinset = present ops := by
  induction ops using List.reverseRecOn with
  | nil => exact ⟨List.Pairwise.nil, rfl⟩
  | append_singleton ops op ih =>
    obtain ⟨-, hsorted, hupdate⟩ := keep_one_spec ih.1 op
    rw [final_concat, present_concat, ← ih.2]
    exact ⟨hsorted, hupdate⟩

end Lab11

namespace Lab11.Fine

open LTS CInt Linearizability SortedLinks Sequential Relation ListState

/-! ## Section 1: One thread, any keys -/

/-- One thread that calls operations; the keys are any values of type `int`. -/
def one_thread : System ListState ThreadStep where
  init := fun s => s = initial
  step := fun s l s' =>
    match l with
    | .call op => s.thread 0 = none ∧ (INT_MIN ≤ op.key ∧ op.key ≤ INT_MAX) ∧ s' = s.start 0 op
    | .run fresh => ∃ c, s.thread 0 = some c ∧ s.run 0 c fresh = some s'

/-- The step does not call an operation with the key of the tail. -/
def ThreadStep.below_tail : ThreadStep → Bool
  | .call op => op.key ≠ INT_MAX
  | .run _ => true

/-- The runs in which the key of the tail is not used. -/
def below_tail : System ListState ThreadStep :=
  one_thread.restrict fun _ l => l.below_tail = true

/-- The operations that were called so far. -/
def called (H : List (Event Operation Bool)) : List Operation :=
  H.filterMap fun e =>
    match e with
    | .call _ op => some op
    | .ret _ _ => none

theorem called_call (H : List (Event Operation Bool)) (id : ℕ) (op : Operation) :
    called (H ++ [.call id op]) = called H ++ [op] := by
  simp [called]

theorem called_ret (H : List (Event Operation Bool)) (id : ℕ) (r : Bool) :
    called (H ++ [.ret id r]) = called H := by
  simp [called]

/-! ## Section 2: The thread is between two calls or inside one -/

theorem idle.during_call {s₀ s : ListState} {keys : List ℤ} {op : Operation}
    (h : idle s₀ keys) (hrange : op.in_range)
    (hsteps : ReflTransGen (list_calls.step 0) (s₀.start 0 op) s) :
    ∃ live L c, FineInv live L s ∧ s.thread 0 = some c ∧ c.op = op := by
  obtain ⟨hnone, live, L, hinv, -⟩ := h
  obtain ⟨live', L', c, hinv', hp, -, hop, -⟩ :=
    (hinv.start (hnone 0) hrange).during_call rfl hsteps
  exact ⟨live', L', c, hinv', hp, hop⟩

/-- Between two calls the list has the keys of `keep_one`; a call began in such a
    state. -/
inductive OneInv (s : ListState) : Prop where
  | idle : Fine.idle s (final keep_one [] (called s.history)) → OneInv s
  | calling {s₀ : ListState} {op : Operation} {ops : List Operation} :
      Fine.idle s₀ (final keep_one [] ops) → op.in_range →
      ReflTransGen (list_calls.step 0) (s₀.start 0 op) s → called s.history = ops ++ [op] →
      OneInv s

theorem OneInv.run {s s' : ListState} {c : Call} {fresh : ℕ} (h : OneInv s)
    (hp : s.thread 0 = some c) (hrun : s.run 0 c fresh = some s') : OneInv s' := by
  cases h with
  | idle hidle =>
    rw [hidle.1 0] at hp
    cases hp
  | calling hidle hrange hsteps hcalled =>
    by_cases hfin : ∃ r, c.point = .finished r
    · obtain ⟨r, hc⟩ := hfin
      simp only [ListState.run, hc, Option.some.injEq] at hrun
      subst hrun
      apply OneInv.idle
      rw [ListState.return_call, called_ret, hcalled, final_concat]
      exact (hidle.return_call hrange hsteps hp hc).2
    · refine OneInv.calling hidle hrange (hsteps.tail ⟨c, fresh, hp, hfin, hrun⟩) ?_
      obtain ⟨_, _, _, rfl⟩ := run_frame hfin hrun
      exact hcalled

theorem one_inv_reachable {s : ListState} (h : Reachable below_tail s) : OneInv s := by
  apply h.invariant
  · intro s heq
    subst heq
    exact .idle fine_implements.init
  · intro s l s' _ hinv hstep
    obtain ⟨hmax, hstep⟩ := hstep
    cases l with
    | call op =>
      obtain ⟨hnone, hint, rfl⟩ := hstep
      have hrange : op.in_range := ⟨hint.1, lt_of_le_of_ne hint.2 (of_decide_eq_true hmax)⟩
      cases hinv with
      | idle hidle => exact .calling hidle hrange .refl (called_call _ _ _)
      | calling hidle hrange₀ hsteps _ =>
        obtain ⟨_, _, c, -, hp, -⟩ := hidle.during_call hrange₀ hsteps
        rw [hp] at hnone
        cases hnone
    | run fresh =>
      obtain ⟨c, hp, hrun⟩ := hstep
      exact hinv.run hp hrun

/-- The invariant of the list holds at every moment. -/
theorem OneInv.fine_inv {s : ListState} (h : OneInv s) :
    (∃ live L, Fine.FineInv live L s) ∧ list_calls.Alone 0 s := by
  cases h with
  | idle hidle =>
    obtain ⟨hnone, live, L, hinv, -⟩ := hidle
    exact ⟨⟨live, L, hinv⟩, fun q _ => hnone q⟩
  | calling hidle hrange hsteps _ =>
    obtain ⟨live, L, _, hinv, -⟩ := hidle.during_call hrange hsteps
    refine ⟨⟨live, L, hinv⟩, ?_⟩
    exact Calls.Alone.steps (Calls.alone_of_idle hidle.1 rfl) list_calls_frames hsteps

/-- The steps of `one_thread` as a function. -/
def ListState.next_alone (s : ListState) (l : ThreadStep) : Option ListState :=
  match l, s.thread 0 with
  | .call op, none =>
      if INT_MIN ≤ op.key ∧ op.key ≤ INT_MAX then some (s.start 0 op) else none
  | .run fresh, some c => s.run 0 c fresh
  | _, _ => none

theorem step_of_next_alone {s : ListState} {l : ThreadStep} {s' : ListState}
    (h : s.next_alone l = some s') : one_thread.step s l s' := by
  unfold ListState.next_alone at h
  cases l with
  | call op =>
    cases hp : s.thread 0 with
    | none =>
      simp only [hp, Option.ite_none_right_eq_some, Option.some.injEq] at h
      exact ⟨hp, h.1, h.2.symm⟩
    | some c => simp [hp] at h
  | run fresh =>
    cases hp : s.thread 0 with
    | none => simp [hp] at h
    | some c =>
      simp only [hp] at h
      exact ⟨c, hp, h⟩

/-- An operation that takes `n` steps. -/
def whole_call (op : Operation) (n : ℕ) : List ThreadStep :=
  .call op :: List.replicate n (.run 2)

/-! ## Section 3: The tail -/

theorem FineInv.unlink_ne_tail {live : Finset ℕ} {L : List (Entry Operation Bool)}
    {s : ListState} {p : ℕ} {c : Call} (h : FineInv live L s) (hp : s.thread p = some c)
    {prev curr : ℕ} {next : Option ℕ} (hc : c.point = .unlink prev curr next) : curr ≠ tail := by
  have hok := h.thread p c hp
  have hpoint := hok.point
  rw [point_ok, hc] at hpoint
  exact h.sorted.ne_tail_of_key hpoint.2.1 hok.range.2

theorem FineInv.free_ne_tail {live : Finset ℕ} {L : List (Entry Operation Bool)}
    {s : ListState} {p : ℕ} {c : Call} (h : FineInv live L s) (hp : s.thread p = some c)
    {a : ℕ} {r : Bool} (hc : c.point = .free a r) : a ≠ tail := by
  have hok := h.thread p c hp
  have hpoint := hok.point
  rw [point_ok, hc] at hpoint
  rintro rfl
  exact (hok.owned tail hpoint).1 h.sorted.tail_mem

/-- **The sentinels survive** all keys other than `INT_MAX`.  At every moment the
    tail is allocated, and a call can go on, which means that it follows no `NULL`
    pointer, and it does not unlink or free the tail; every call finishes.  Between two
    calls the pointers lead from the head to the tail.  `list_contains` returns
    whether its key was added and not removed since. -/
theorem sentinels_survive {s : ListState} (h : Reachable below_tail s) :
    s.heap.allocated tail ∧
    (s.thread 0 = none → ∃ l, Between s.heap.next tail head l) ∧
    ∀ c, s.thread 0 = some c →
      s.enabled 0 c ∧
      (∀ prev next, c.point ≠ .unlink prev tail next) ∧ (∀ r, c.point ≠ .free tail r) ∧
      (∃ s', ReflTransGen (list_calls.step 0) s s' ∧
        ∃ c', s'.thread 0 = some c' ∧ ∃ r, c'.point = .finished r) ∧
      ∀ k r, c.op = .contains k → c.point = .finished r →
        (r = true ↔ k ∈ present (called s.history)) := by
  have hone := one_inv_reachable h
  obtain ⟨⟨live, L, hinv⟩, halone⟩ := hone.fine_inv
  refine ⟨hinv.sorted.allocated tail hinv.sorted.tail_mem, ?_, ?_⟩
  · intro hnone
    have hidle : ∀ q, s.thread q = none := fun q => by
      by_cases hq : q = 0
      · rwa [hq]
      · exact halone q hq
    obtain ⟨_, ⟨l, hl, -⟩, -⟩ := hinv.key_sequence hidle
    exact ⟨l, hl⟩
  · intro c hp
    refine ⟨hinv.enabled_alone halone hp, fun prev next hc => hinv.unlink_ne_tail hp hc rfl,
      fun r hc => hinv.free_ne_tail hp hc rfl, hinv.call_finishes halone hp, ?_⟩
    intro k r hop hc
    cases hone with
    | idle hidle =>
      rw [hidle.1 0] at hp
      cases hp
    | @calling s₀ op ops hidle hrange hsteps hcalled =>
      -- The call is the one that began last, and it has changed no key.
      obtain ⟨_, _, c', -, hp', hop'⟩ := hidle.during_call hrange hsteps
      rw [hp, Option.some.injEq] at hp'
      subst hp'
      rw [hop] at hop'
      subst hop'
      have hr := (hidle.return_call hrange hsteps hp hc).1
      rw [hcalled, present_concat, ← (final_keep_one ops).2, hr]
      simp [keep_one, Operation.update]

/-- `list_contains(5)` after `list_add(5)`. -/
theorem sentinels_survive_contains :
    ∃ s c, Reachable below_tail s ∧ s.thread 0 = some c ∧ c.point = .finished true ∧
      5 ∈ present (called s.history) ∧ s.heap.allocated tail := by
  obtain ⟨s, hreach, hs⟩ := Reachable.exec_guarded
    (fun _ _ _ => step_of_next_alone) (s := initial) rfl (fun _ l => l.below_tail)
    (whole_call (.add 5) 11 ++ whole_call (.contains 5) 7)
    (fun s => s.thread 0 = some ⟨1, .contains 5, head, .finished true⟩) (by decide +kernel)
  have hp := of_decide_eq_true hs
  obtain ⟨htail, -, hcall⟩ := sentinels_survive hreach
  obtain ⟨-, -, -, -, hcontains⟩ := hcall _ hp
  exact ⟨s, _, hreach, hp, rfl, (hcontains 5 true rfl rfl).mp rfl, htail⟩

theorem one_thread_run (ls : List ThreadStep) (P : ListState → Bool)
    (h : (exec ListState.next_alone initial ls).any P = true) :
    ∃ s, Reachable one_thread s ∧ P s = true :=
  Reachable.exec_any (fun _ _ _ => step_of_next_alone) rfl ls P h

/-- `INT_MAX` is found at the tail: `list_contains(INT_MAX)` is true in the empty
    list, and `list_remove(INT_MAX)` unlinks and frees the tail.  The next operation
    then follows the pointer `head->next`, which is `NULL`. -/
theorem tail_removed :
    (∃ s c, Reachable one_thread s ∧ s.thread 0 = some c ∧ c.op = .contains INT_MAX ∧
      c.point = .finished true ∧ called s.history = [.contains INT_MAX]) ∧
    (∃ s, Reachable one_thread s ∧ s.thread 0 = none ∧ called s.history = [.remove INT_MAX] ∧
      ¬ s.heap.allocated tail ∧ s.heap.next head = none) ∧
    ∃ s c, Reachable one_thread s ∧ s.thread 0 = some c ∧ c.point = .load_first ∧
      s.heap.next head = none ∧ ¬ s.enabled 0 c := by
  refine ⟨?_, ?_, ?_⟩
  · obtain ⟨s, hreach, hs⟩ := one_thread_run (whole_call (.contains INT_MAX) 7)
      (fun s => s.thread 0 = some ⟨0, .contains INT_MAX, head, .finished true⟩ ∧
        called s.history = [.contains INT_MAX]) (by decide +kernel)
    obtain ⟨hp, hcalled⟩ := of_decide_eq_true hs
    exact ⟨s, _, hreach, hp, rfl, rfl, hcalled⟩
  · obtain ⟨s, hreach, hs⟩ := one_thread_run (whole_call (.remove INT_MAX) 11)
      (fun s => s.thread 0 = none ∧ called s.history = [.remove INT_MAX] ∧
        ¬ s.heap.allocated tail ∧ s.heap.next head = none) (by decide +kernel)
    exact ⟨s, hreach, of_decide_eq_true hs⟩
  · obtain ⟨s, hreach, hs⟩ := one_thread_run
      (whole_call (.remove INT_MAX) 11 ++ whole_call (.contains 5) 1)
      (fun s => s.thread 0 = some ⟨1, .contains 5, head, .load_first⟩ ∧ s.heap.next head = none)
      (by decide +kernel)
    obtain ⟨hp, hnull⟩ := of_decide_eq_true hs
    refine ⟨s, _, hreach, hp, rfl, hnull, ?_⟩
    rintro ⟨fresh, s', hrun⟩
    simp [ListState.run, hnull] at hrun

end Lab11.Fine
