import Mathlib.Logic.Relation

/-! # Labelled Transition Systems

    A small framework shared by every system of this development:

    * `System`: an initial-state predicate and a labelled step relation.
    * `Reachable`: the states some finite run from an initial state ends in.
    * `Reachable.invariant`: the inductive-invariant rule.
    * `System.restrict`: the runs whose steps all meet a condition.
    * `exec`: a run of steps that are computed by a function; `guarded` stops it
      at a step that does not meet a condition.
    * `System.observe`: the system with an observer that notes what its steps do.
    * `Simulation`: every concrete step is matched by finitely many abstract
      steps, possibly none, so reachability is mapped forward.
-/

namespace LTS

universe u v w x

/-- A labelled transition system over states `State` and labels `Label`. -/
structure System (State : Type u) (Label : Type v) where
  /-- The initial states. -/
  init : State → Prop
  /-- `step s l s'`: the system can move from `s` to `s'` under the label `l`. -/
  step : State → Label → State → Prop

variable {State : Type u} {Label : Type v}

/-- The unlabelled one-step relation. -/
def System.next (sys : System State Label) (s s' : State) : Prop :=
  ∃ l, sys.step s l s'

/-- States at the end of some finite run from an initial state. -/
inductive Reachable (sys : System State Label) : State → Prop where
  | init : ∀ {s}, sys.init s → Reachable sys s
  | step : ∀ {s l s'}, Reachable sys s → sys.step s l s' → Reachable sys s'

/-! ## Inductive invariants -/

/-- A predicate that holds initially and is preserved by every step from a
    reachable state holds in every reachable state. -/
theorem Reachable.invariant {sys : System State Label} {inv : State → Prop}
    (hinit : ∀ s, sys.init s → inv s)
    (hstep : ∀ s l s', Reachable sys s → inv s → sys.step s l s' → inv s')
    {s : State} (h : Reachable sys s) : inv s := by
  induction h with
  | init h => exact hinit _ h
  | step hreach hs ih => exact hstep _ _ _ hreach ih hs

/-- Finitely many further steps stay within the reachable states. -/
theorem Reachable.steps {sys : System State Label} {s s' : State}
    (h : Reachable sys s) (hs : Relation.ReflTransGen sys.next s s') :
    Reachable sys s' := by
  induction hs with
  | refl => exact h
  | tail _ hstep ih =>
    obtain ⟨l, hl⟩ := hstep
    exact ih.step hl

/-! ## Runs that meet a condition -/

/-- The runs of `sys` all of whose steps meet `ok`. -/
def System.restrict (sys : System State Label) (ok : State → Label → Prop) :
    System State Label where
  init := sys.init
  step := fun s l s' => ok s l ∧ sys.step s l s'

theorem Reachable.of_restrict {sys : System State Label} {ok : State → Label → Prop} {s : State}
    (h : Reachable (sys.restrict ok) s) : Reachable sys s := by
  induction h with
  | init h => exact Reachable.init h
  | step _ hs ih => exact ih.step hs.2

theorem Reachable.restrict_mono {sys : System State Label} {ok ok' : State → Label → Prop}
    (hok : ∀ s l, ok s l → ok' s l) {s : State} (h : Reachable (sys.restrict ok) s) :
    Reachable (sys.restrict ok') s := by
  induction h with
  | init h => exact Reachable.init h
  | step _ hs ih => exact ih.step ⟨hok _ _ hs.1, hs.2⟩

/-! ## Executing steps -/

/-- The state after the steps of a list, for steps given by a function. -/
def exec (next : State → Label → Option State) : State → List Label → Option State
  | s, [] => some s
  | s, l :: ls => (next s l).bind fun s' => exec next s' ls

theorem Reachable.exec {sys : System State Label} {next : State → Label → Option State}
    (hnext : ∀ s l s', next s l = some s' → sys.step s l s') {ls : List Label} {s s' : State}
    (h : Reachable sys s) (hexec : LTS.exec next s ls = some s') : Reachable sys s' := by
  induction ls generalizing s with
  | nil =>
    cases hexec
    exact h
  | cons l ls ih =>
    obtain ⟨s₁, hl, hrest⟩ := Option.bind_eq_some_iff.mp hexec
    exact ih (h.step (hnext s l s₁ hl)) hrest

/-- A property that is computed at the end of a run. -/
theorem Reachable.exec_any {sys : System State Label} {next : State → Label → Option State}
    (hnext : ∀ s l s', next s l = some s' → sys.step s l s') {s : State} (hinit : sys.init s)
    (ls : List Label) (P : State → Bool) (h : (LTS.exec next s ls).any P = true) :
    ∃ s', Reachable sys s' ∧ P s' = true := by
  obtain ⟨s', hrun, hP⟩ := (Option.any_eq_true _ _).mp h
  exact ⟨s', Reachable.exec hnext (Reachable.init hinit) hrun, hP⟩

/-- The steps of `next` that meet `ok`. -/
def guarded (ok : State → Label → Bool) (next : State → Label → Option State) (s : State)
    (l : Label) : Option State :=
  if ok s l then next s l else none

/-- A property that is computed at the end of a run whose steps all meet `ok`. -/
theorem Reachable.exec_guarded {sys : System State Label} {next : State → Label → Option State}
    (hnext : ∀ s l s', next s l = some s' → sys.step s l s') {s : State} (hinit : sys.init s)
    (ok : State → Label → Bool) (ls : List Label) (P : State → Bool)
    (h : (LTS.exec (guarded ok next) s ls).any P = true) :
    ∃ s', Reachable (sys.restrict fun s l => ok s l = true) s' ∧ P s' = true := by
  have hinit' : (sys.restrict fun s l => ok s l = true).init s := hinit
  refine Reachable.exec_any ?_ hinit' ls P h
  intro s l s' hl
  unfold guarded at hl
  split at hl
  · next hok => exact ⟨hok, hnext s l s' hl⟩
  · cases hl

/-! ## Observers -/

/-- A state, and what an observer has noted on the way to it. -/
structure Observed (State : Type u) (Note : Type w) where
  state : State
  notes : List Note

/-- The system with an observer, who writes down `note s l` at a step from `s`. -/
def System.observe {Note : Type w} (sys : System State Label) (note : State → Label → List Note) :
    System (Observed State Note) Label where
  init := fun o => sys.init o.state ∧ o.notes = []
  step := fun o l o' => sys.step o.state l o'.state ∧ o'.notes = o.notes ++ note o.state l

/-- The steps of `next` with the observer. -/
def observed {Note : Type w} (next : State → Label → Option State)
    (note : State → Label → List Note) (o : Observed State Note) (l : Label) :
    Option (Observed State Note) :=
  (next o.state l).map fun s' => ⟨s', o.notes ++ note o.state l⟩

theorem System.step_observed {Note : Type w} {sys : System State Label}
    {next : State → Label → Option State} {note : State → Label → List Note}
    (hnext : ∀ s l s', next s l = some s' → sys.step s l s') {o : Observed State Note} {l : Label}
    {o' : Observed State Note} (h : observed next note o l = some o') :
    (sys.observe note).step o l o' := by
  obtain ⟨s', hs', rfl⟩ := Option.map_eq_some_iff.mp h
  exact ⟨hnext _ _ _ hs', rfl⟩

/-- The observer changes nothing. -/
theorem Reachable.of_observe {Note : Type w} {sys : System State Label}
    {note : State → Label → List Note} {o : Observed State Note}
    (h : Reachable (sys.observe note) o) : Reachable sys o.state := by
  induction h with
  | init h => exact Reachable.init h.1
  | step _ hs ih => exact ih.step hs.1

/-- The observer erases nothing. -/
theorem System.notes_grow {Note : Type w} {sys : System State Label}
    {note : State → Label → List Note} {o o' : Observed State Note}
    (h : Relation.ReflTransGen (sys.observe note).next o o') : o.notes <+: o'.notes := by
  induction h with
  | refl => exact List.prefix_rfl
  | tail _ hstep ih =>
    obtain ⟨l, -, hnotes⟩ := hstep
    rw [hnotes]
    exact ih.trans (List.prefix_append _ _)

/-! ## Simulation -/

/-- `f` maps every concrete step taken from a state satisfying `inv` to a
    finite sequence of abstract steps. -/
structure Simulation {AState : Type w} {ALabel : Type x}
    (concrete : System State Label) (abstract : System AState ALabel)
    (inv : State → Prop) (f : State → AState) : Prop where
  /-- Initial states are mapped to initial states. -/
  init : ∀ s, concrete.init s → abstract.init (f s)
  /-- A step is mapped to zero or more steps. -/
  step : ∀ s l s', inv s → concrete.step s l s' →
    Relation.ReflTransGen abstract.next (f s) (f s')

/-- A simulation carries reachable states to reachable states. -/
theorem Simulation.reachable {AState : Type w} {ALabel : Type x}
    {concrete : System State Label} {abstract : System AState ALabel}
    {inv : State → Prop} {f : State → AState}
    (sim : Simulation concrete abstract inv f)
    (hinv : ∀ s, Reachable concrete s → inv s)
    {s : State} (h : Reachable concrete s) : Reachable abstract (f s) := by
  induction h with
  | init h => exact Reachable.init (sim.init _ h)
  | step hreach hs ih => exact ih.steps (sim.step _ _ _ (hinv _ hreach) hs)

end LTS
