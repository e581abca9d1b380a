import Mathlib.Data.List.Nodup
import Mathlib.Data.List.Sublists

/-! # Linearizability

    Concurrent calls of the operations of an object, seen as a history of calls
    and returns.

    * `Object`: the sequential specification, a step relation on its states.
    * `Linearizes`: a sequential order of the completed operations, and of some
      that are still in progress, with the same results, which the object allows
      and which respects real time.
    * `Tracked`: a history that was produced together with such an order, one
      call, one effect or one return at a time.  An effect is put at the end of
      the order, between the call and the return of its operation.
    * `Tracked.linearizes`: then the order linearizes the history.
-/

namespace Linearizability

universe u v w

/-- A sequential object: `step S o r S'` if the operation `o` can return `r` in
    the state `S` and lead to `S'`. -/
structure Object (State : Type u) (Op : Type v) (Res : Type w) where
  init : State
  step : State → Op → Res → State → Prop

/-- A call or a return; operations are told apart by their `id`. -/
inductive Event (Op : Type v) (Res : Type w) where
  | call (id : ℕ) (op : Op)
  | ret (id : ℕ) (res : Res)
  deriving DecidableEq

/-- An operation that has taken effect, with its result. -/
structure Entry (Op : Type v) (Res : Type w) where
  id  : ℕ
  op  : Op
  res : Res
  deriving DecidableEq

variable {State : Type u} {Op : Type v} {Res : Type w}

/-- An entry of the list, or the one that has been added. -/
theorem Entry.mem_or_id {L : List (Entry Op Res)} {id : ℕ} {op : Op} {res : Res} :
    ∀ e ∈ L ++ [⟨id, op, res⟩], e ∈ L ∨ e.id = id := by
  intro e he
  rcases List.mem_append.mp he with he | he
  · exact .inl he
  · exact .inr (by rw [List.mem_singleton.mp he])

/-- The object runs through the entries of a list. -/
def Object.runs (obj : Object State Op Res) : State → List (Entry Op Res) → State → Prop
  | S, [], S' => S' = S
  | S, e :: L, S' => ∃ S₁, obj.step S e.op e.res S₁ ∧ obj.runs S₁ L S'

theorem Object.runs_concat {obj : Object State Op Res} {S S₁ S₂ : State}
    {L : List (Entry Op Res)} {e : Entry Op Res} (h : obj.runs S L S₁)
    (hstep : obj.step S₁ e.op e.res S₂) : obj.runs S (L ++ [e]) S₂ := by
  induction L generalizing S with
  | nil =>
    cases h
    exact ⟨S₂, hstep, rfl⟩
  | cons e' L ih =>
    obtain ⟨S', he', hrest⟩ := h
    exact ⟨S', he', ih hrest⟩

theorem Object.runs_concat_inv {obj : Object State Op Res} {S S₂ : State}
    {L : List (Entry Op Res)} {e : Entry Op Res} (h : obj.runs S (L ++ [e]) S₂) :
    ∃ S₁, obj.runs S L S₁ ∧ obj.step S₁ e.op e.res S₂ := by
  induction L generalizing S with
  | nil =>
    obtain ⟨S', he, rfl⟩ := h
    exact ⟨S, rfl, he⟩
  | cons e' L ih =>
    obtain ⟨S', he', hrest⟩ := h
    obtain ⟨S₁, hruns, he⟩ := ih hrest
    exact ⟨S₁, ⟨S', he', hruns⟩, he⟩

/-- The final state is determined if every step is. -/
theorem Object.runs_unique {obj : Object State Op Res}
    (hdet : ∀ S o r S₁ S₂, obj.step S o r S₁ → obj.step S o r S₂ → S₁ = S₂)
    {S S₁ S₂ : State} {L : List (Entry Op Res)} (h₁ : obj.runs S L S₁) (h₂ : obj.runs S L S₂) :
    S₁ = S₂ := by
  induction L generalizing S with
  | nil => exact h₁.trans h₂.symm
  | cons e L ih =>
    obtain ⟨S', he, hrest⟩ := h₁
    obtain ⟨S'', he', hrest'⟩ := h₂
    rw [hdet _ _ _ _ _ he he'] at hrest
    exact ih hrest hrest'

/-- The operation `a` returned before `b` was called. -/
def Precedes (H : List (Event Op Res)) (a b : ℕ) : Prop :=
  ∃ H₁ H₂, H = H₁ ++ H₂ ∧ (∃ r, .ret a r ∈ H₁) ∧ ∃ o, .call b o ∈ H₂

/-- `L` is a sequential order for the history `H`. -/
structure Linearizes (obj : Object State Op Res) (H : List (Event Op Res))
    (L : List (Entry Op Res)) : Prop where
  /-- Every operation of the order was called. -/
  called : ∀ e ∈ L, .call e.id e.op ∈ H
  /-- No operation is in the order twice. -/
  nodup : (L.map Entry.id).Nodup
  /-- Every completed operation is in the order, with the result it returned. -/
  complete : ∀ id r, .ret id r ∈ H → ∃ o, ⟨id, o, r⟩ ∈ L
  /-- An operation that returned before another one was called comes first. -/
  real_time : ∀ a ∈ L, ∀ b ∈ L, Precedes H a.id b.id → [a, b].Sublist L
  /-- The object allows the order. -/
  legal : ∃ S, obj.runs obj.init L S

/-- `L` and the state `S` of the object have been built along with `H`. -/
inductive Tracked (obj : Object State Op Res) :
    List (Event Op Res) → List (Entry Op Res) → State → Prop where
  | start : Tracked obj [] [] obj.init
  | call {H L S} (id : ℕ) (o : Op) : Tracked obj H L S →
      (∀ o', .call id o' ∉ H) → Tracked obj (H ++ [.call id o]) L S
  | effect {H L S S'} (id : ℕ) (o : Op) (r : Res) : Tracked obj H L S →
      .call id o ∈ H → id ∉ L.map Entry.id → obj.step S o r S' →
      Tracked obj H (L ++ [⟨id, o, r⟩]) S'
  | ret {H L S} (id : ℕ) (o : Op) (r : Res) : Tracked obj H L S →
      ⟨id, o, r⟩ ∈ L → Tracked obj (H ++ [.ret id r]) L S

namespace Tracked

variable {obj : Object State Op Res} {H : List (Event Op Res)} {L : List (Entry Op Res)}
  {S : State}

theorem called (h : Tracked obj H L S) : ∀ e ∈ L, .call e.id e.op ∈ H := by
  induction h with
  | start => simp
  | call id o _ _ ih => exact fun e he => List.mem_append_left _ (ih e he)
  | effect id o r _ hcall _ _ ih =>
    intro e he
    rcases List.mem_append.mp he with he | he
    · exact ih e he
    · rw [List.mem_singleton.mp he]
      exact hcall
  | ret id o r _ _ ih => exact fun e he => List.mem_append_left _ (ih e he)

/-- An id stands for one operation. -/
theorem call_unique (h : Tracked obj H L S) {id : ℕ} {o o' : Op} (ho : .call id o ∈ H)
    (ho' : .call id o' ∈ H) : o = o' := by
  induction h with
  | start => cases ho
  | call id' o'' _ hnew ih =>
    rcases List.mem_append.mp ho with hold | hlast
    · rcases List.mem_append.mp ho' with hold' | hlast'
      · exact ih hold hold'
      · cases List.mem_singleton.mp hlast'
        exact absurd hold (hnew o)
    · cases List.mem_singleton.mp hlast
      rcases List.mem_append.mp ho' with hold' | hlast'
      · exact absurd hold' (hnew o')
      · cases List.mem_singleton.mp hlast'
        rfl
  | effect _ _ _ _ _ _ _ ih => exact ih ho ho'
  | ret id' o'' r _ _ ih =>
    rcases List.mem_append.mp ho with hold | hlast
    · rcases List.mem_append.mp ho' with hold' | hlast'
      · exact ih hold hold'
      · cases List.mem_singleton.mp hlast'
    · cases List.mem_singleton.mp hlast

theorem nodup (h : Tracked obj H L S) : (L.map Entry.id).Nodup := by
  induction h with
  | start => simp
  | call id o _ _ ih => exact ih
  | effect id o r _ _ hnew _ ih =>
    rw [List.map_append]
    exact List.nodup_append.mpr ⟨ih, by simp, fun a ha b hb => by
      rw [List.map_singleton, List.mem_singleton] at hb
      subst hb
      intro heq
      exact hnew (heq ▸ ha)⟩
  | ret id o r _ _ ih => exact ih

theorem complete (h : Tracked obj H L S) :
    ∀ id r, .ret id r ∈ H → ∃ o, ⟨id, o, r⟩ ∈ L := by
  induction h with
  | start => simp
  | call id o _ _ ih =>
    intro id' r hret
    rcases List.mem_append.mp hret with hret | hret
    · exact ih id' r hret
    · simp at hret
  | effect id o r _ _ _ _ ih =>
    intro id' r' hret
    obtain ⟨o', ho'⟩ := ih id' r' hret
    exact ⟨o', List.mem_append_left _ ho'⟩
  | ret id o r _ hmem ih =>
    intro id' r' hret
    rcases List.mem_append.mp hret with hret | hret
    · exact ih id' r' hret
    · obtain ⟨rfl, rfl⟩ : id' = id ∧ r' = r := by simpa using hret
      exact ⟨o, hmem⟩

theorem runs (h : Tracked obj H L S) : obj.runs obj.init L S := by
  induction h with
  | start => exact rfl
  | call id o _ _ ih => exact ih
  | effect id o r _ _ _ hstep ih => exact Object.runs_concat ih hstep
  | ret id o r _ _ ih => exact ih

/-- An operation that has not taken effect has not returned. -/
theorem not_precedes (h : Tracked obj H L S) {a b : ℕ} (ha : a ∉ L.map Entry.id) :
    ¬ Precedes H a b := by
  intro hprec
  obtain ⟨H₁, H₂, rfl, ⟨r, hr⟩, -⟩ := hprec
  obtain ⟨o, ho⟩ := h.complete a r (List.mem_append_left _ hr)
  exact ha (List.mem_map_of_mem ho)

end Tracked

/-- Precedence in a history that ends with a new event. -/
theorem Precedes.of_concat {H : List (Event Op Res)} {x : Event Op Res} {a b : ℕ}
    (h : Precedes (H ++ [x]) a b) :
    Precedes H a b ∨ (∃ o, x = .call b o) ∧ ∃ r, .ret a r ∈ H := by
  obtain ⟨H₁, H₂, hsplit, ⟨r, hr⟩, o, ho⟩ := h
  rcases List.eq_nil_or_concat H₂ with rfl | ⟨H₂', y, rfl⟩
  · simp at ho
  · rw [List.concat_eq_append, ← List.append_assoc] at hsplit
    obtain ⟨rfl, hx⟩ := List.append_inj' hsplit rfl
    rw [List.concat_eq_append, List.mem_append, List.mem_singleton] at ho
    rcases ho with ho | ho
    · exact .inl ⟨H₁, H₂', rfl, ⟨r, hr⟩, o, ho⟩
    · refine .inr ⟨⟨o, ?_⟩, r, List.mem_append_left _ hr⟩
      rw [List.cons.inj hx |>.1, ho]

/-- In a nonempty list, everything before the last element precedes it. -/
theorem pair_sublist_concat {α : Type u} {L : List α} {a b : α} (ha : a ∈ L) :
    [a, b].Sublist (L ++ [b]) :=
  (List.singleton_sublist.mpr ha).append (List.Sublist.refl [b])

namespace Tracked

variable {obj : Object State Op Res} {H : List (Event Op Res)} {L : List (Entry Op Res)}
  {S : State}

theorem real_time (h : Tracked obj H L S) :
    ∀ a ∈ L, ∀ b ∈ L, Precedes H a.id b.id → [a, b].Sublist L := by
  induction h with
  | start => simp
  | call id o htr hnew ih =>
    intro a ha b hb hprec
    rcases hprec.of_concat with hprec | ⟨⟨o', ho'⟩, -⟩
    · exact ih a ha b hb hprec
    · -- The operation that is called now has not taken effect yet.
      cases ho'
      exact absurd (htr.called b hb) (hnew b.op)
  | effect id o r htr hcall hnew hstep ih =>
    intro a ha b hb hprec
    rcases List.mem_append.mp hb with hb | hb
    · rcases List.mem_append.mp ha with ha | ha
      · exact (ih a ha b hb hprec).trans (List.sublist_append_left _ _)
      · rw [List.mem_singleton.mp ha] at hprec
        exact absurd hprec (htr.not_precedes hnew)
    · rw [List.mem_singleton.mp hb] at hprec ⊢
      rcases List.mem_append.mp ha with ha | ha
      · exact pair_sublist_concat ha
      · rw [List.mem_singleton.mp ha] at hprec
        exact absurd hprec (htr.not_precedes hnew)
  | ret id o r htr hmem ih =>
    intro a ha b hb hprec
    rcases hprec.of_concat with hprec | ⟨⟨o', ho'⟩, -⟩
    · exact ih a ha b hb hprec
    · cases ho'

/-- **The order of the effects linearizes the history.** -/
theorem linearizes (h : Tracked obj H L S) : Linearizes obj H L where
  called := h.called
  nodup := h.nodup
  complete := h.complete
  real_time := h.real_time
  legal := ⟨S, h.runs⟩

end Tracked

end Linearizability
