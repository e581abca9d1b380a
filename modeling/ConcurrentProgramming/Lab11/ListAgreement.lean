import ConcurrentProgramming.Lab11.CoarseProperties
import ConcurrentProgramming.Lab11.FineSequential

/-! # Do the Coarse-Grained and the Fine-Grained List Agree?

    One thread executes the same operations on both lists.  The coarse-grained
    list implements `keep_all` (`coarse_implements`), the fine-grained list
    `keep_one`.  So the two agree exactly if no key is added that is already in
    the list (`lists_agree_iff`): `list_add` of the coarse-grained list does not
    look for its key.
-/

namespace Lab11.Coarse

open Threads Sequential Relation ListState

/-- The list, used by thread 0 alone. -/
def machine : Machine ListState Operation Bool (List ℤ) where
  init := initial
  start := fun s op => s.start 0 op
  step := list_calls.step 0
  ret := fun s r s' => ∃ c, s.thread 0 = some c ∧ c.point = .finished r ∧ s' = s.return_call 0 r
  view := fun s keys => key_sequence s.heap keys

/-- Between two operations `keys` are the keys of the list. -/
def idle (s : ListState) (keys : List ℤ) : Prop :=
  (∀ q, s.thread q = none) ∧ ∃ l D started, CoarseInv l D started s ∧
    (∀ q, q ≠ 0 → started q = []) ∧ keys = l.map s.heap.key

namespace CoarseInv

variable {l : List ℕ} {D : List Effect} {started : ℕ → List Operation} {s s' : ListState}
  {p : ℕ} {c : Call} {op : Operation} {r : Bool}

theorem during_call (h : CoarseInv l D started s)
    (hsteps : ReflTransGen (list_calls.step p) s s') :
    (∃ l' D', CoarseInv l' D' started s') ∧ s'.returned = s.returned := by
  induction hsteps with
  | refl => exact ⟨⟨l, D, h⟩, rfl⟩
  | tail _ hstep ih =>
    obtain ⟨⟨l₁, D₁, hinv⟩, hreturned⟩ := ih
    obtain ⟨c, fresh, hp, hended, hrun⟩ := hstep
    obtain ⟨l', D', hinv', -⟩ := hinv.run hp hrun
    obtain ⟨_, _, _, rfl⟩ := run_frame hended hrun
    exact ⟨⟨l', D', hinv'⟩, hreturned⟩

/-- If only thread 0 has called operations, all effects are those of its calls. -/
theorem effects_of_zero (h : CoarseInv l D started s) (hnone : ∀ q, s.thread q = none)
    (hstarted : ∀ q, q ≠ 0 → started q = []) :
    D.map Effect.op = started 0 ∧ D.map Effect.result = s.returned 0 := by
  have hzero : D.filter (·.thread = 0) = D := by
    refine List.filter_eq_self.mpr fun e he => ?_
    by_contra hne
    have hne' : e.thread ≠ 0 := by simpa using hne
    have horder := h.order e.thread
    rw [hstarted _ hne', List.append_eq_nil_iff, List.map_eq_nil_iff,
      List.filter_eq_nil_iff] at horder
    exact horder.1 e he (by simp)
  have horder := h.order 0
  have hreturned := h.returned 0
  rw [hzero, hnone 0, pending, List.append_nil] at horder
  rw [hzero, hnone 0, answer, List.append_nil] at hreturned
  exact ⟨horder, hreturned⟩

/-- Without calls the pointers lead through all nodes. -/
theorem key_sequence (h : CoarseInv l D started s) (hnone : ∀ q, s.thread q = none) :
    Lab11.key_sequence s.heap (l.map s.heap.key) := by
  rcases h.chain with hl | ⟨q, cq, prev, curr, hq, -⟩
  · exact key_sequence_of_linked h.nodup hl
  · rw [hnone q] at hq
    cases hq

end CoarseInv

/-- **The coarse-grained list, used by one thread, implements `keep_all`.** -/
theorem coarse_implements : Implements machine keep_all idle [] Operation.in_range where
  init := ⟨fun _ => rfl, [], [], fun _ => [], CoarseInv.initially, fun _ _ => rfl, rfl⟩
  sound := by
    intro s keys op hidle hrange s₁ r s₂ w hsteps hret hview
    obtain ⟨hnone, l, D, started, hinv, hstarted, rfl⟩ := hidle
    obtain ⟨c, hp, hc, rfl⟩ := hret
    obtain ⟨⟨l', D', hinv'⟩, hreturned⟩ := (hinv.start (hnone 0) hrange).during_call hsteps
    have hinv'' := hinv'.return_call hp hc
    have hnone' : ∀ q, list_calls.thread (s₁.return_call 0 r) q = none :=
      Calls.idle_after_call list_calls_frames hnone rfl hsteps rfl
    have hstarted' : ∀ q, q ≠ 0 → Function.update started 0 (started 0 ++ [op]) q = [] :=
      fun q hq => (Function.update_of_ne hq _ _).trans (hstarted q hq)
    obtain ⟨hops, hresults⟩ := hinv.effects_of_zero hnone hstarted
    obtain ⟨hops', hresults'⟩ := hinv''.effects_of_zero hnone' hstarted'
    -- One operation and its result have been added.
    have hD : D'.map Effect.op = D.map Effect.op ++ [op] := by
      rw [hops', hops]
      rfl
    have hR : D'.map Effect.result = D.map Effect.result ++ [r] := by
      rw [hresults', hresults]
      change s₁.returned 0 ++ [r] = _
      rw [hreturned]
      rfl
    have hr : r = (keep_all (l.map s.heap.key) op).1 := by
      have hlegal := hinv''.legal
      rw [hD, hR, outputs_concat, List.map_append, hinv.legal, ← hinv.keys] at hlegal
      exact (List.singleton_inj.mp (List.append_cancel_left hlegal))
    have hw : w = (keep_all (l.map s.heap.key) op).2 := by
      rw [key_sequence_unique hview (hinv''.key_sequence hnone'), hinv''.keys, hD, final_concat,
        hinv.keys]
    refine ⟨Prod.ext hr hw, hnone', l', D', _, hinv'', hstarted', ?_⟩
    rw [← hw, key_sequence_unique hview (hinv''.key_sequence hnone')]
  total := by
    intro s keys op hidle hrange
    obtain ⟨hnone, l, D, started, hinv, -, -⟩ := hidle
    have hstart := hinv.start (hnone 0) hrange
    obtain ⟨s₁, hsteps, c, hp, r, hc⟩ := hstart.call_finishes (Calls.alone_of_idle hnone rfl) rfl
    obtain ⟨⟨l', D', hinv'⟩, -⟩ := hstart.during_call hsteps
    have hnone' : ∀ q, list_calls.thread (s₁.return_call 0 r) q = none :=
      Calls.idle_after_call list_calls_frames hnone rfl hsteps rfl
    have hview := (hinv'.return_call hp hc).key_sequence hnone'
    exact ⟨s₁, r, _, _, hsteps, ⟨c, hp, hc, rfl⟩, hview⟩

end Lab11.Coarse

namespace Lab11

open Sequential

/-- **The two lists agree** on the results and on the keys after every operation
    exactly if no operation adds a key that is already in the list. -/
theorem lists_agree_iff (ops : List Operation) (hrange : ∀ op ∈ ops, op.in_range) :
    (∃ obs s, Coarse.machine.Executes ops obs s) ∧ (∃ obs s, Fine.machine.Executes ops obs s) ∧
    ((∀ obs s obs' s', Coarse.machine.Executes ops obs s → Fine.machine.Executes ops obs' s' →
      obs = obs') ↔ adds_new ∅ ops) := by
  have hcoarse := Coarse.coarse_implements.terminates ops hrange
  have hfine := Fine.fine_implements.terminates ops hrange
  refine ⟨hcoarse, hfine, ?_⟩
  obtain ⟨obs, s, hexec⟩ := hcoarse
  obtain ⟨obs', s', hexec'⟩ := hfine
  have hagree := outputs_eq_iff List.nodup_nil ops
  rw [List.toFinset_nil] at hagree
  rw [← hagree]
  constructor
  · intro h
    rw [← (Coarse.coarse_implements.outputs hexec hrange).1,
      ← (Fine.fine_implements.outputs hexec' hrange).1]
    exact (h obs s obs' s' hexec hexec').symm
  · intro h obs s obs' s' hexec hexec'
    rw [(Coarse.coarse_implements.outputs hexec hrange).1,
      (Fine.fine_implements.outputs hexec' hrange).1]
    exact h.symm

/-- A key that is removed in between can be added again. -/
theorem lists_agree_after_remove :
    (∃ obs s, Coarse.machine.Executes [.add 5, .remove 5, .add 5] obs s) ∧
    (∃ obs s, Fine.machine.Executes [.add 5, .remove 5, .add 5] obs s) ∧
    ∀ obs s obs' s', Coarse.machine.Executes [.add 5, .remove 5, .add 5] obs s →
      Fine.machine.Executes [.add 5, .remove 5, .add 5] obs' s' → obs = obs' := by
  obtain ⟨hcoarse, hfine, hagree⟩ := lists_agree_iff [.add 5, .remove 5, .add 5] (by decide)
  exact ⟨hcoarse, hfine, hagree.mpr (by decide)⟩

/-- The second `list_add(5)` returns `true` and links a second node in the
    coarse-grained list, and returns `false` in the fine-grained list. -/
theorem lists_differ_on_second_add :
    (∃ s, Coarse.machine.Executes [.add 5, .add 5] [(true, [5]), (true, [5, 5])] s) ∧
    ∃ s, Fine.machine.Executes [.add 5, .add 5] [(true, [5]), (false, [5])] s := by
  obtain ⟨obs, s, hexec⟩ := Coarse.coarse_implements.terminates [.add 5, .add 5] (by decide)
  obtain ⟨obs', s', hexec'⟩ := Fine.fine_implements.terminates [.add 5, .add 5] (by decide)
  have hobs : obs = [(true, [5]), (true, [5, 5])] :=
    (Coarse.coarse_implements.outputs hexec (by decide)).1
  have hobs' : obs' = [(true, [5]), (false, [5])] :=
    (Fine.fine_implements.outputs hexec' (by decide)).1
  exact ⟨⟨s, hobs ▸ hexec⟩, s', hobs' ▸ hexec'⟩

end Lab11
