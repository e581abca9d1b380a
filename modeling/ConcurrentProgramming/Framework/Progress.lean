import ConcurrentProgramming.Framework.Transition
import Mathlib.Order.WellFounded

/-! # Progress

    A system is not trapped if from every reachable state some run leads to a goal.
    It is enough that from every reachable state that is not a goal some run leads
    to a smaller state (`Reachable.can_reach`).  No fairness is assumed: the rule
    says that there is always a way on, whatever has happened so far.

    A stronger result is that every run ends: if every step lowers a rank, a run from
    `s` has at most as many steps as the rank of `s` (`System.Run.length_le`).
-/

namespace LTS

universe u v w

variable {State : Type u} {Label : Type v} {sys : System State Label}

/-- Some run from `s` ends in a state with `goal`. -/
def System.can_reach (sys : System State Label) (goal : State → Prop) (s : State) : Prop :=
  ∃ s', Relation.ReflTransGen sys.next s s' ∧ goal s'

theorem System.can_reach.of_steps {goal : State → Prop} {s s' : State}
    (hsteps : Relation.ReflTransGen sys.next s s') (h : sys.can_reach goal s') :
    sys.can_reach goal s := by
  obtain ⟨s'', hrest, hgoal⟩ := h
  exact ⟨s'', hsteps.trans hrest, hgoal⟩

/-- **The progress rule**: it is enough to come closer to the goal. -/
theorem Reachable.can_reach {goal : State → Prop} {α : Type w} [LT α] [WellFoundedLT α]
    (rank : State → α)
    (hcloser : ∀ s, Reachable sys s → ¬ goal s →
      sys.can_reach (fun s' => goal s' ∨ rank s' < rank s) s)
    {s : State} (h : Reachable sys s) : sys.can_reach goal s := by
  induction hn : rank s using WellFoundedLT.induction generalizing s with
  | _ n ih =>
    by_cases hgoal : goal s
    · exact ⟨s, .refl, hgoal⟩
    · obtain ⟨s', hsteps, hgoal' | hlt⟩ := hcloser s h hgoal
      · exact ⟨s', hsteps, hgoal'⟩
      · exact .of_steps hsteps (ih (rank s') (hn ▸ hlt) (h.steps hsteps) rfl)

/-! ## Runs that end -/

/-- `sys.Run s ls s'`: the steps `ls` lead from `s` to `s'`. -/
inductive System.Run (sys : System State Label) : State → List Label → State → Prop where
  | nil (s : State) : Run sys s [] s
  | cons {s s₁ s' : State} {l : Label} {ls : List Label} :
      sys.step s l s₁ → Run sys s₁ ls s' → Run sys s (l :: ls) s'

theorem System.Run.of_exec {next : State → Label → Option State}
    (hnext : ∀ s l s', next s l = some s' → sys.step s l s') {ls : List Label} {s s' : State}
    (h : LTS.exec next s ls = some s') : sys.Run s ls s' := by
  induction ls generalizing s with
  | nil =>
    cases h
    exact .nil _
  | cons l ls ih =>
    obtain ⟨s₁, hl, hrest⟩ := Option.bind_eq_some_iff.mp h
    exact .cons (hnext s l s₁ hl) (ih hrest)

/-- A run within `inv`, all of whose steps lower the rank, is no longer than the rank
    of its first state. -/
theorem System.Run.length_le (inv : State → Prop) (rank : State → ℕ)
    (hlower : ∀ s l s', inv s → sys.step s l s' → inv s' ∧ rank s' < rank s)
    {s s' : State} {ls : List Label} (h : sys.Run s ls s') (hs : inv s) :
    inv s' ∧ ls.length + rank s' ≤ rank s := by
  induction h with
  | nil s => exact ⟨hs, by simp⟩
  | cons hstep _ ih =>
    obtain ⟨hs₁, hlt⟩ := hlower _ _ _ hs hstep
    obtain ⟨hs', hle⟩ := ih hs₁
    refine ⟨hs', ?_⟩
    rw [List.length_cons]
    omega

end LTS
