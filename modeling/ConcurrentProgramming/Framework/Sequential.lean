import Mathlib.Data.List.Induction
import Mathlib.Data.Nat.Notation
import Mathlib.Logic.Function.Basic
import Mathlib.Logic.Relation

/-! # Sequential Executions

    A machine with small steps executes operations one after another.  What it
    shows to the outside is the result of every operation and a view of its state
    after the operation.

    * `Machine.Executes`: the operations, and what was seen.
    * `outputs f`: what a function `f` on views predicts.
    * `reaches_end`: an operation whose steps bring it closer to its end gets there.
    * `Calls`: threads that execute calls in small steps.  A call that is alone and
      never waits gets to its end (`Calls.finishes`).
    * `Implements`: every operation terminates and does what `f` predicts; then the
      same holds for all sequences of operations (`Implements.outputs`,
      `Implements.terminates`).
-/

namespace Sequential

open Relation

universe u v w x

variable {State : Type u} {Op : Type v} {Res : Type w} {View : Type x}

structure Machine (State : Type u) (Op : Type v) (Res : Type w) (View : Type x) where
  init  : State
  start : State → Op → State
  /-- One step inside an operation. -/
  step  : State → State → Prop
  /-- The operation returns. -/
  ret   : State → Res → State → Prop
  view  : State → View → Prop

/-- The machine has executed the operations; each one returned a result and left a
    view. -/
inductive Machine.Executes (M : Machine State Op Res View) :
    List Op → List (Res × View) → State → Prop where
  | nil : Executes M [] [] M.init
  | snoc {ops obs s o s₁ r s₂ v} : Executes M ops obs s → ReflTransGen M.step (M.start s o) s₁ →
      M.ret s₁ r s₂ → M.view s₂ v → Executes M (ops ++ [o]) (obs ++ [(r, v)]) s₂

/-- The results and views that `f` predicts. -/
def outputs (f : View → Op → Res × View) : View → List Op → List (Res × View)
  | _, [] => []
  | v, o :: ops => f v o :: outputs f (f v o).2 ops

/-- The view at the end. -/
def final (f : View → Op → Res × View) : View → List Op → View
  | v, [] => v
  | v, o :: ops => final f (f v o).2 ops

theorem outputs_concat {f : View → Op → Res × View} {ops : List Op} {o : Op} {v : View} :
    outputs f v (ops ++ [o]) = outputs f v ops ++ [f (final f v ops) o] := by
  induction ops generalizing v with
  | nil => rfl
  | cons o' ops ih =>
    rw [List.cons_append, outputs, outputs, final, ih, List.cons_append]

theorem final_concat {f : View → Op → Res × View} {ops : List Op} {o : Op} {v : View} :
    final f v (ops ++ [o]) = (f (final f v ops) o).2 := by
  induction ops generalizing v with
  | nil => rfl
  | cons o' ops ih => rw [List.cons_append, final, final, ih]

/-- If a state is not at the end, some step brings it closer: then the end is
    reached. -/
theorem reaches_end {step : State → State → Prop} {done : State → Prop} (inv : ℕ → State → Prop)
    (h : ∀ n s, inv n s → done s ∨ ∃ m s', m < n ∧ step s s' ∧ inv m s') {n : ℕ} {s : State}
    (hs : inv n s) : ∃ s', ReflTransGen step s s' ∧ done s' := by
  induction n using Nat.strongRecOn generalizing s with
  | _ n ih =>
    rcases h n s hs with hdone | ⟨m, s₁, hlt, hstep, hs₁⟩
    · exact ⟨s, .refl, hdone⟩
    · obtain ⟨s', hsteps, hdone⟩ := ih m hlt hs₁
      exact ⟨s', .head hstep hsteps, hdone⟩

/-! ## Calls of one thread -/

/-- How threads execute calls.  `run s p c fresh` is one step of thread `p` inside the
    call `c`, where `fresh` is the address that an allocation returns; a call that has
    `ended` returns in its next step. -/
structure Calls (State : Type u) (Call : Type v) where
  thread : State → ℕ → Option Call
  ended  : Call → Prop
  run    : State → ℕ → Call → ℕ → Option State

namespace Calls

variable {Call : Type v} {M : Calls State Call} {p : ℕ} {s s' : State} {c : Call}

/-- A step of thread `p` inside a call. -/
def step (M : Calls State Call) (p : ℕ) (s s' : State) : Prop :=
  ∃ c fresh, M.thread s p = some c ∧ ¬ M.ended c ∧ M.run s p c fresh = some s'

/-- No other thread than `p` is inside a call. -/
def Alone (M : Calls State Call) (p : ℕ) (s : State) : Prop := ∀ q, q ≠ p → M.thread s q = none

/-- A step inside a call changes nothing of the other threads. -/
def Frames (M : Calls State Call) : Prop :=
  ∀ s p c fresh s', ¬ M.ended c → M.run s p c fresh = some s' →
    ∃ c', M.thread s' = Function.update (M.thread s) p (some c')

theorem Alone.update (h : M.Alone p s) {c : Option Call}
    (hs' : M.thread s' = Function.update (M.thread s) p c) : M.Alone p s' := by
  intro q hq
  rw [hs', Function.update_of_ne hq]
  exact h q hq

theorem Alone.steps (h : M.Alone p s) (hframe : M.Frames)
    (hsteps : ReflTransGen (M.step p) s s') : M.Alone p s' := by
  induction hsteps with
  | refl => exact h
  | tail _ hstep ih =>
    obtain ⟨c, fresh, -, hended, hrun⟩ := hstep
    obtain ⟨c', hs'⟩ := hframe _ p c fresh _ hended hrun
    exact ih.update hs'

/-- Thread `p` has started a call when no thread was inside one. -/
theorem alone_of_idle (hnone : ∀ q, M.thread s q = none) {c : Option Call}
    (hs' : M.thread s' = Function.update (M.thread s) p c) : M.Alone p s' :=
  Alone.update (fun q _ => hnone q) hs'

/-- All threads are idle when the call of thread `p` has returned. -/
theorem idle_after_call (hframe : M.Frames) (hnone : ∀ q, M.thread s q = none)
    {s₀ s₁ : State} (hstart : M.thread s₀ = Function.update (M.thread s) p (some c))
    (hsteps : ReflTransGen (M.step p) s₀ s₁)
    (hreturn : M.thread s' = Function.update (M.thread s₁) p none) (q : ℕ) :
    M.thread s' q = none := by
  by_cases hq : q = p
  · rw [hreturn, hq, Function.update_self]
  · exact ((alone_of_idle hnone hstart).steps hframe hsteps).update hreturn q hq

/-- **A call that is alone finishes** if it can always go on, and `inv` counts how far it
    is from its end. -/
theorem finishes (hframe : M.Frames) (inv : ℕ → State → Call → Prop)
    (hcloser : ∀ n s c, inv n s c → M.Alone p s → M.thread s p = some c → ¬ M.ended c →
      ∃ fresh s', M.run s p c fresh = some s' ∧
        ∀ c', M.thread s' p = some c' → ∃ m < n, inv m s' c')
    {n : ℕ} (hinv : inv n s c) (halone : M.Alone p s) (hp : M.thread s p = some c) :
    ∃ s', ReflTransGen (M.step p) s s' ∧ ∃ c', M.thread s' p = some c' ∧ M.ended c' := by
  refine reaches_end (fun n s => ∃ c, inv n s c ∧ M.Alone p s ∧ M.thread s p = some c)
    ?_ ⟨c, hinv, halone, hp⟩
  intro n s hs
  obtain ⟨c, hinv, halone, hp⟩ := hs
  by_cases hended : M.ended c
  · exact .inl ⟨c, hp, hended⟩
  · obtain ⟨fresh, s', hrun, hless⟩ := hcloser n s c hinv halone hp hended
    obtain ⟨c', hs'⟩ := hframe s p c fresh s' hended hrun
    have hp' : M.thread s' p = some c' := by rw [hs', Function.update_self]
    obtain ⟨m, hlt, hinv'⟩ := hless c' hp'
    exact .inr ⟨m, s', hlt, ⟨c, fresh, hp, hended, hrun⟩, c', hinv', halone.update hs', hp'⟩

end Calls

/-! ## Operations one after another -/

/-- Between two operations `inv` relates the state to a view; the operations that
    are `ok` do what `f` predicts. -/
structure Implements (M : Machine State Op Res View) (f : View → Op → Res × View)
    (inv : State → View → Prop) (v₀ : View) (ok : Op → Prop) : Prop where
  init : inv M.init v₀
  sound : ∀ s v o, inv s v → ok o → ∀ s₁ r s₂ w, ReflTransGen M.step (M.start s o) s₁ →
    M.ret s₁ r s₂ → M.view s₂ w → (r, w) = f v o ∧ inv s₂ (f v o).2
  total : ∀ s v o, inv s v → ok o → ∃ s₁ r s₂ w, ReflTransGen M.step (M.start s o) s₁ ∧
    M.ret s₁ r s₂ ∧ M.view s₂ w

namespace Implements

variable {M : Machine State Op Res View} {f : View → Op → Res × View}
  {inv : State → View → Prop} {v₀ : View} {ok : Op → Prop}

theorem outputs (h : Implements M f inv v₀ ok) {ops : List Op} {obs : List (Res × View)}
    {s : State} (hexec : M.Executes ops obs s) (hok : ∀ o ∈ ops, ok o) :
    obs = Sequential.outputs f v₀ ops ∧ inv s (final f v₀ ops) := by
  induction hexec with
  | nil => exact ⟨rfl, h.init⟩
  | snoc _ hsteps hret hview ih =>
    obtain ⟨hobs, hinv⟩ := ih fun o ho => hok o (List.mem_append_left _ ho)
    obtain ⟨heq, hinv'⟩ := h.sound _ _ _ hinv
      (hok _ (List.mem_append_right _ List.mem_cons_self)) _ _ _ _ hsteps hret hview
    rw [outputs_concat, final_concat, hobs, heq]
    exact ⟨rfl, hinv'⟩

/-- The machine gets through every sequence of operations. -/
theorem terminates (h : Implements M f inv v₀ ok) (ops : List Op) (hok : ∀ o ∈ ops, ok o) :
    ∃ obs s, M.Executes ops obs s := by
  induction ops using List.reverseRecOn with
  | nil => exact ⟨[], M.init, .nil⟩
  | append_singleton ops o ih =>
    have hok' : ∀ o ∈ ops, ok o := fun o ho => hok o (List.mem_append_left _ ho)
    obtain ⟨obs, s, hexec⟩ := ih hok'
    obtain ⟨s₁, r, s₂, w, hsteps, hret, hview⟩ := h.total s _ o (h.outputs hexec hok').2
      (hok o (List.mem_append_right _ List.mem_cons_self))
    exact ⟨_, s₂, hexec.snoc hsteps hret hview⟩

end Implements

end Sequential
