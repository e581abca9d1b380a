import ConcurrentProgramming.Lab11.OptimisticSteps

/-! # Properties of the Optimistic List

    `list_add` does not leave its loop after it has linked its node.  If it gets
    through `list_validate` once more, it finds its own key and returns `false`,
    or, if the key was removed in the meantime, it links the same node again.

    Up to this point the list is a linearizable set
    (`optimistic_list_linearizable`).
-/

namespace Lab11.Optimistic

open LTS Linearizability ListState

/-- **The optimistic list is a linearizable set** in every run in which no
    `list_add` that has linked its node passes `list_validate` once more: every
    call links its node at most once, `list_add` returns `true` exactly if it
    linked its node, and some sequential order of the calls explains their
    results. -/
theorem optimistic_list_linearizable {s : ListState}
    (h : Reachable (list_threads.restrict links_once) s) :
    (∀ id, s.links id ≤ 1) ∧
    (∀ id k r, .call id (.add k) ∈ s.history → .ret id r ∈ s.history →
      (r = true ↔ s.links id = 1)) ∧
    ∃ L, Linearizes key_set s.history L := by
  obtain ⟨live, gone, n, L, hinv⟩ := opt_inv_of_reachable h
  refine ⟨hinv.once, fun id k r hcall hret => ?_, L, hinv.tracked.linearizes⟩
  obtain ⟨o, ho⟩ := hinv.tracked.complete id r hret
  have hop := hinv.tracked.call_unique (hinv.tracked.called _ ho) hcall
  subst hop
  exact hinv.results id k r ho

/-! ## Runs -/

/-- The steps of `list_threads` as a function. -/
def ListState.next (s : ListState) (l : ℕ × ThreadStep) : Option ListState :=
  match l.2, s.thread l.1 with
  | .call op, none => if op.in_range then some (s.start l.1 op) else none
  | .run fresh, some c => s.run l.1 c fresh
  | _, _ => none

theorem step_of_next {s : ListState} {l : ℕ × ThreadStep} {s' : ListState}
    (h : s.next l = some s') : list_threads.step s l s' := by
  obtain ⟨p, l⟩ := l
  unfold ListState.next at h
  cases l with
  | call op =>
    cases hp : s.thread p with
    | none =>
      simp only [hp, Option.ite_none_right_eq_some, Option.some.injEq] at h
      exact ⟨hp, h.1, h.2.symm⟩
    | some c => simp [hp] at h
  | run fresh =>
    cases hp : s.thread p with
    | none => simp [hp] at h
    | some c =>
      simp only [hp] at h
      exact ⟨c, hp, h⟩

/-- The steps that meet `links_once`. -/
def ListState.next_once (s : ListState) (l : ℕ × ThreadStep) : Option ListState :=
  match s.thread l.1 with
  | some c => if 0 < s.links c.id ∧ c.validates s.heap then none else s.next l
  | none => s.next l

theorem step_of_next_once {s : ListState} {l : ℕ × ThreadStep} {s' : ListState}
    (h : s.next_once l = some s') : (list_threads.restrict links_once).step s l s' := by
  unfold ListState.next_once at h
  cases hp : s.thread l.1 with
  | none =>
    simp only [hp] at h
    refine ⟨fun c hc => ?_, step_of_next h⟩
    rw [hp] at hc
    cases hc
  | some c =>
    simp only [hp, Option.ite_none_left_eq_some] at h
    refine ⟨fun c' hc' hpos => ?_, step_of_next h.2⟩
    rw [hp, Option.some.injEq] at hc'
    subst hc'
    cases hv : c.validates s.heap with
    | false => rfl
    | true => exact absurd ⟨hpos, hv⟩ h.1

/-- A single `list_add(5)`. -/
def single_add : ListState :=
  (exec ListState.next initial ((0, .call (.add 5)) :: List.replicate 20 (0, .run 2))).getD initial

/-- `list_add(5)` on the empty list links its node and returns `false`. -/
theorem optimistic_add_returns_false : Reachable list_threads single_add ∧
    .call 0 (.add 5) ∈ single_add.history ∧ .ret 0 false ∈ single_add.history ∧
    single_add.links 0 = 1 := by
  have hrun : exec ListState.next initial ((0, .call (.add 5)) :: List.replicate 20 (0, .run 2)) =
      some single_add := rfl
  refine ⟨?_, by decide +kernel, by decide +kernel, by decide +kernel⟩
  exact (Reachable.init rfl : Reachable list_threads initial).exec (fun _ _ _ => step_of_next) hrun

/-- Thread 0 has linked a node with the key 5, and thread 1 has found it. -/
def add_and_contains : ListState :=
  (exec ListState.next_once initial ((0, .call (.add 5)) :: (List.replicate 11 (0, .run 2) ++
    (1, .call (.contains 5)) :: List.replicate 9 (1, .run 0)))).getD initial

theorem optimistic_contains_after_add : .ret 1 true ∈ add_and_contains.history ∧
    add_and_contains.links 0 ≤ 1 ∧ ∃ L, Linearizes key_set add_and_contains.history L := by
  have hrun : exec ListState.next_once initial ((0, .call (.add 5)) ::
      (List.replicate 11 (0, .run 2) ++ (1, .call (.contains 5)) ::
        List.replicate 9 (1, .run 0))) = some add_and_contains := rfl
  have hreach := (Reachable.init rfl :
    Reachable (list_threads.restrict links_once) initial).exec (fun _ _ _ => step_of_next_once) hrun
  obtain ⟨honce, -, hlin⟩ := optimistic_list_linearizable hreach
  exact ⟨by decide +kernel, honce 0, hlin⟩

end Lab11.Optimistic
