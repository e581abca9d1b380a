import ConcurrentProgramming.Framework.Linearizability
import Mathlib.Data.List.Perm.Subperm
import Mathlib.Logic.Function.Basic
import Mathlib.Algebra.BigOperators.Group.Finset.Piecewise

/-! # Histories of Threads

    A trace is a history in which every event has the thread it belongs to.

    * `OneAtATime T busy`: every thread makes one call after the other; `busy` has
      the calls that have not returned yet.
    * `OneAtATime.precedes_of_calls`, `OneAtATime.precedes_of_rets`: real time
      orders the calls of a thread.
    * `Linearizes.countP_calls`: an order has as many operations of a kind as were
      called, if all of them have returned.
    * `Fifo put got L`: what the operations of an order get is what they put, in
      the same order.  Then a thread gets the values of one other thread in the
      order in which that thread puts them (`Fifo.thread_order`).
-/

namespace Linearizability

universe u v w x

variable {State : Type u} {Op : Type v} {Res : Type w} {ι : Type x}

/-! ## Section 1: Threads that make one call at a time -/

/-- `busy p` is the call that thread `p` is executing. -/
inductive OneAtATime [DecidableEq ι] : List (ι × Event Op Res) → (ι → Option ℕ) → Prop where
  | start : OneAtATime [] fun _ => none
  | call {T busy} (p : ι) (id : ℕ) (o : Op) : OneAtATime T busy → busy p = none →
      (∀ q o', (q, .call id o') ∉ T) →
      OneAtATime (T ++ [(p, .call id o)]) (Function.update busy p (some id))
  | ret {T busy} (p : ι) (id : ℕ) (r : Res) : OneAtATime T busy → busy p = some id →
      OneAtATime (T ++ [(p, .ret id r)]) (Function.update busy p none)

theorem mem_history {T : List (ι × Event Op Res)} {e : Event Op Res} :
    e ∈ T.map Prod.snd ↔ ∃ p, (p, e) ∈ T := by
  simp

/-- Later events change nothing in the precedence of earlier ones. -/
theorem Precedes.append {H H' : List (Event Op Res)} {a b : ℕ} (h : Precedes H a b) :
    Precedes (H ++ H') a b := by
  obtain ⟨H₁, H₂, rfl, ha, o, hb⟩ := h
  exact ⟨H₁, H₂ ++ H', List.append_assoc _ _ _, ha, o, List.mem_append_left _ hb⟩

/-- A pair of events of which the second one is new, or none is. -/
theorem pair_sublist_concat_cases {α : Type x} {T : List α} {a b e : α}
    (h : [a, b].Sublist (T ++ [e])) : [a, b].Sublist T ∨ b = e ∧ a ∈ T := by
  obtain ⟨l₁, l₂, hl, h₁, h₂⟩ := List.sublist_append_iff.mp h
  match l₁, l₂, hl with
  | [], [_, _], _ => simp at h₂
  | [_], [_], rfl =>
    have hb : b = e := by simpa using h₂
    exact .inr ⟨hb, List.singleton_sublist.mp h₁⟩
  | [_, _], [], rfl => exact .inl h₁

theorem pair_sublist_or {α : Type x} {T : List α} {a b : α} (ha : a ∈ T) (hb : b ∈ T)
    (hne : a ≠ b) : [a, b].Sublist T ∨ [b, a].Sublist T := by
  obtain ⟨T₁, T₂, rfl⟩ := List.append_of_mem ha
  rcases List.mem_append.mp hb with hb | hb
  · refine .inr ?_
    exact (List.singleton_sublist.mpr hb).append (List.singleton_sublist.mpr List.mem_cons_self)
  · have hb' : b ∈ T₂ := (List.mem_cons.mp hb).resolve_left (Ne.symm hne)
    refine .inl ((List.Sublist.cons_cons _ ?_).trans (List.sublist_append_right T₁ _))
    exact List.singleton_sublist.mpr hb'

/-- In a list without duplicates two elements stand in one order only. -/
theorem not_pair_sublist_swap {α : Type x} {T : List α} {a b : α} (h : T.Nodup)
    (hab : [a, b].Sublist T) : ¬ [b, a].Sublist T := by
  intro hba
  obtain ⟨T₁, T₂, rfl, ha, hb⟩ := List.cons_sublist_iff.mp hab
  have hdisj : ∀ x ∈ T₁, x ∉ T₂ := fun x hx hx' => (List.disjoint_of_nodup_append h) hx hx'
  have hb₁ : b ∉ T₁ := fun hb₁ => hdisj b hb₁ (List.singleton_sublist.mp hb)
  obtain ⟨T₃, T₄, heq, hb₃, ha₄⟩ := List.cons_sublist_iff.mp hba
  -- `a` stands in `T₁`, so what follows `b` cannot have it.
  rcases List.append_eq_append_iff.mp heq with ⟨l, rfl, rfl⟩ | ⟨l, rfl, rfl⟩
  · have ha₄' := List.singleton_sublist.mp ha₄
    exact hdisj a ha (List.mem_append_right _ ha₄')
  · exact hb₁ (List.mem_append_left _ hb₃)

namespace OneAtATime

variable [DecidableEq ι] {T : List (ι × Event Op Res)} {busy : ι → Option ℕ} {p q : ι}
  {a b id : ℕ} {o o' : Op} {r r' : Res}

/-- A thread that is in a call has done nothing since it called. -/
theorem last_call (h : OneAtATime T busy) (hp : busy p = some id) :
    ∃ T₁ o T₂, T = T₁ ++ (p, .call id o) :: T₂ ∧ ∀ e ∈ T₂, e.1 ≠ p := by
  -- An event of another thread goes to the end of `T₂`.
  have hother : ∀ {T : List (ι × Event Op Res)} {e : ι × Event Op Res}, e.1 ≠ p →
      (∃ T₁ o T₂, T = T₁ ++ (p, .call id o) :: T₂ ∧ ∀ e ∈ T₂, e.1 ≠ p) →
      ∃ T₁ o T₂, T ++ [e] = T₁ ++ (p, .call id o) :: T₂ ∧ ∀ e ∈ T₂, e.1 ≠ p := by
    intro T e hne hT
    obtain ⟨T₁, o, T₂, rfl, hT₂⟩ := hT
    refine ⟨T₁, o, T₂ ++ [e], by simp, ?_⟩
    intro e' he'
    rcases List.mem_append.mp he' with he' | he'
    · exact hT₂ e' he'
    · rwa [List.mem_singleton.mp he']
  induction h with
  | start => cases hp
  | @call T busy q id' o _ _ _ ih =>
    by_cases hq : p = q
    · subst hq
      rw [Function.update_self] at hp
      cases hp
      exact ⟨T, o, [], rfl, by simp⟩
    · rw [Function.update_of_ne hq] at hp
      exact hother (Ne.symm hq) (ih hp)
  | @ret T busy q id' r _ _ ih =>
    by_cases hq : p = q
    · subst hq
      rw [Function.update_self] at hp
      cases hp
    · rw [Function.update_of_ne hq] at hp
      exact hother (Ne.symm hq) (ih hp)

theorem open_call (h : OneAtATime T busy) (hp : busy p = some id) : ∃ o, (p, .call id o) ∈ T := by
  obtain ⟨T₁, o, T₂, rfl, -⟩ := h.last_call hp
  exact ⟨o, by simp⟩

/-- An id stands for one call of one thread. -/
theorem call_unique (h : OneAtATime T busy) (hp : (p, .call id o) ∈ T)
    (hq : (q, .call id o') ∈ T) : p = q ∧ o = o' := by
  induction h with
  | start => cases hp
  | call p' id' o'' _ _ hnew ih =>
    rcases List.mem_append.mp hp with hold | hlast
    · rcases List.mem_append.mp hq with hold' | hlast'
      · exact ih hold hold'
      · cases List.mem_singleton.mp hlast'
        exact absurd hold (hnew p o)
    · cases List.mem_singleton.mp hlast
      rcases List.mem_append.mp hq with hold' | hlast'
      · exact absurd hold' (hnew q o')
      · cases List.mem_singleton.mp hlast'
        exact ⟨rfl, rfl⟩
  | ret p' id' r' _ _ ih =>
    rcases List.mem_append.mp hp with hp | hp
    · rcases List.mem_append.mp hq with hq | hq
      · exact ih hp hq
      · cases List.mem_singleton.mp hq
    · cases List.mem_singleton.mp hp

/-- A call has returned, or its thread is still executing it. -/
theorem busy_or_returned (h : OneAtATime T busy) (hp : (p, .call id o) ∈ T) :
    busy p = some id ∨ ∃ r, (p, .ret id r) ∈ T := by
  induction h with
  | start => cases hp
  | @call T busy p' id' o' _ hfree _ ih =>
    rcases List.mem_append.mp hp with hp | hp
    · rcases ih hp with hbusy | ⟨r, hr⟩
      · have hne : p ≠ p' := by
          intro heq
          rw [heq, hfree] at hbusy
          cases hbusy
        exact .inl ((Function.update_of_ne hne _ _).trans hbusy)
      · exact .inr ⟨r, List.mem_append_left _ hr⟩
    · cases List.mem_singleton.mp hp
      exact .inl (Function.update_self _ _ _)
  | @ret T busy p' id' r' _ hbusy' ih =>
    rcases List.mem_append.mp hp with hp | hp
    · rcases ih hp with hbusy | ⟨r, hr⟩
      · by_cases heq : p = p'
        · -- This is the call that returns.
          subst heq
          rw [hbusy'] at hbusy
          cases hbusy
          exact .inr ⟨r', by simp⟩
        · exact .inl ((Function.update_of_ne heq _ _).trans hbusy)
      · exact .inr ⟨r, List.mem_append_left _ hr⟩
    · cases List.mem_singleton.mp hp

/-- What a thread returned from, it had called. -/
theorem called (h : OneAtATime T busy) (hp : (p, .ret id r) ∈ T) : ∃ o, (p, .call id o) ∈ T := by
  induction h with
  | start => cases hp
  | call p' id' o' _ _ _ ih =>
    rcases List.mem_append.mp hp with hp | hp
    · obtain ⟨o, ho⟩ := ih hp
      exact ⟨o, List.mem_append_left _ ho⟩
    · cases List.mem_singleton.mp hp
  | ret p' id' r' hT hbusy ih =>
    rcases List.mem_append.mp hp with hp | hp
    · obtain ⟨o, ho⟩ := ih hp
      exact ⟨o, List.mem_append_left _ ho⟩
    · cases List.mem_singleton.mp hp
      obtain ⟨o, ho⟩ := hT.open_call hbusy
      exact ⟨o, List.mem_append_left _ ho⟩

/-- A thread has returned from its earlier calls when it makes a new one. -/
theorem precedes_of_calls (h : OneAtATime T busy)
    (hab : [(p, Event.call a o), (p, .call b o')].Sublist T) : Precedes (T.map Prod.snd) a b := by
  induction h with
  | start => simp at hab
  | @call T busy p' id' o'' hT hfree _ ih =>
    rw [List.map_append]
    rcases pair_sublist_concat_cases hab with hab | ⟨hb, ha⟩
    · exact (ih hab).append
    · cases hb
      rcases hT.busy_or_returned ha with hbusy | ⟨r, hr⟩
      · rw [hfree] at hbusy
        cases hbusy
      · exact ⟨T.map Prod.snd, [.call b o'], rfl, ⟨r, mem_history.mpr ⟨p, hr⟩⟩, o', by simp⟩
  | ret p' id' r' _ _ ih =>
    rw [List.map_append]
    rcases pair_sublist_concat_cases hab with hab | ⟨hb, -⟩
    · exact (ih hab).append
    · cases hb

/-- A thread that returns from `b` called it after it had returned from `a`. -/
theorem precedes_of_rets (h : OneAtATime T busy)
    (hab : [(p, Event.ret a r), (p, .ret b r')].Sublist T) : Precedes (T.map Prod.snd) a b := by
  induction h with
  | start => simp at hab
  | call p' id' o' _ _ _ ih =>
    rw [List.map_append]
    rcases pair_sublist_concat_cases hab with hab | ⟨hb, -⟩
    · exact (ih hab).append
    · cases hb
  | @ret T busy p' id' r'' hT hbusy ih =>
    rw [List.map_append]
    rcases pair_sublist_concat_cases hab with hab | ⟨hb, ha⟩
    · exact (ih hab).append
    · cases hb
      apply Precedes.append
      obtain ⟨T₁, o, T₂, rfl, hT₂⟩ := hT.last_call hbusy
      -- The return of `a` stands before the call of `b`: nothing follows it.
      have ha₁ : (p, Event.ret a r) ∈ T₁ := by
        rcases List.mem_append.mp ha with ha | ha
        · exact ha
        · rcases List.mem_cons.mp ha with ha | ha
          · cases ha
          · exact absurd rfl (hT₂ _ ha)
      exact ⟨T₁.map Prod.snd, .call b o :: T₂.map Prod.snd, by simp,
        ⟨r, mem_history.mpr ⟨p, ha₁⟩⟩, o, by simp⟩

end OneAtATime

/-! ## Section 2: Counting operations -/

/-- Is the event a call of an operation with `P`? -/
def Event.is_call (P : Op → Bool) : Event Op Res → Bool
  | .call _ o => P o
  | .ret _ _ => false

/-- The ids of the calls of operations with `P`. -/
def call_ids (P : Op → Bool) (T : List (ι × Event Op Res)) : List ℕ :=
  T.filterMap fun e => match e.2 with
    | .call id o => if P o then some id else none
    | .ret _ _ => none

theorem mem_call_ids {P : Op → Bool} {T : List (ι × Event Op Res)} {id : ℕ} :
    id ∈ call_ids P T ↔ ∃ p o, (p, .call id o) ∈ T ∧ P o = true := by
  unfold call_ids
  rw [List.mem_filterMap]
  constructor
  · intro h
    obtain ⟨⟨p, e⟩, hmem, he⟩ := h
    match e, he with
    | .call id' o, he =>
      simp only [Option.ite_none_right_eq_some, Option.some.injEq] at he
      obtain ⟨ho, rfl⟩ := he
      exact ⟨p, o, hmem, ho⟩
  · intro h
    obtain ⟨p, o, hmem, ho⟩ := h
    exact ⟨(p, .call id o), hmem, by simp [ho]⟩

theorem length_call_ids {P : Op → Bool} {T : List (ι × Event Op Res)} :
    (call_ids P T).length = (T.map Prod.snd).countP (Event.is_call P) := by
  induction T with
  | nil => rfl
  | cons e T ih =>
    obtain ⟨p, e⟩ := e
    simp only [call_ids] at ih
    rw [List.map_cons, List.countP_cons, ← ih, call_ids, List.filterMap_cons]
    match e with
    | .call id o =>
      cases hP : P o <;> simp [hP, Event.is_call]
    | .ret id r => simp [Event.is_call]

theorem OneAtATime.nodup_call_ids [DecidableEq ι] {T : List (ι × Event Op Res)}
    {busy : ι → Option ℕ} (h : OneAtATime T busy) (P : Op → Bool) : (call_ids P T).Nodup := by
  induction h with
  | start => exact List.nodup_nil
  | @call T busy p id o _ _ hnew ih =>
    have hfresh : id ∉ call_ids P T := by
      intro hmem
      obtain ⟨q, o', hq, -⟩ := mem_call_ids.mp hmem
      exact hnew q o' hq
    unfold call_ids at ih hfresh ⊢
    rw [List.filterMap_append]
    cases hP : P o
    · simpa [hP] using ih
    · simp only [List.filterMap_cons, hP, if_true, List.filterMap_nil]
      exact List.nodup_append.mpr ⟨ih, List.nodup_singleton id, fun a ha b hb => by
        rw [List.mem_singleton] at hb
        subst hb
        exact fun heq => hfresh (heq ▸ ha)⟩
  | ret p id r _ _ ih =>
    unfold call_ids at ih ⊢
    rw [List.filterMap_append]
    simpa using ih

section Counting

variable {obj : Object State Op Res} {T : List (ι × Event Op Res)} {L : List (Entry Op Res)}

theorem Linearizes.nodup_entries {H : List (Event Op Res)} (h : Linearizes obj H L) : L.Nodup :=
  h.nodup.of_map _

/-- Entries of an order are told apart by their ids. -/
theorem Linearizes.entry_ext {H : List (Event Op Res)} (h : Linearizes obj H L)
    {e e' : Entry Op Res} (he : e ∈ L) (he' : e' ∈ L) (hid : e.id = e'.id) : e = e' :=
  List.inj_on_of_nodup_map h.nodup he he' hid

/-- The ids of the operations with `P`. -/
theorem Linearizes.ids_subset (h : Linearizes obj (T.map Prod.snd) L) (P : Op → Bool) :
    (L.filter fun e => P e.op).map Entry.id ⊆ call_ids P T := by
  intro id hid
  obtain ⟨e, he, rfl⟩ := List.mem_map.mp hid
  obtain ⟨he, hP⟩ := List.mem_filter.mp he
  obtain ⟨q, hq⟩ := mem_history.mp (h.called e he)
  exact mem_call_ids.mpr ⟨q, e.op, hq, hP⟩

theorem Linearizes.nodup_ids {H : List (Event Op Res)} (h : Linearizes obj H L) (P : Op → Bool) :
    ((L.filter fun e => P e.op).map Entry.id).Nodup :=
  h.nodup.sublist (List.filter_sublist.map _)

theorem Linearizes.countP_le_calls (h : Linearizes obj (T.map Prod.snd) L) (P : Op → Bool) :
    L.countP (fun e => P e.op) ≤ (T.map Prod.snd).countP (Event.is_call P) := by
  have hle := (List.subperm_of_subset (h.nodup_ids P) (h.ids_subset P)).length_le
  rwa [List.length_map, length_call_ids, ← List.countP_eq_length_filter] at hle

/-- An order has fewer operations with `P` than were called, if it lacks one. -/
theorem Linearizes.countP_lt_calls (h : Linearizes obj (T.map Prod.snd) L) {P : Op → Bool}
    {p : ι} {id : ℕ} {o : Op} (hcall : (p, .call id o) ∈ T) (hP : P o = true)
    (hnew : id ∉ L.map Entry.id) :
    L.countP (fun e => P e.op) < (T.map Prod.snd).countP (Event.is_call P) := by
  have hnodup : (id :: (L.filter fun e => P e.op).map Entry.id).Nodup := by
    refine List.nodup_cons.mpr ⟨?_, h.nodup_ids P⟩
    exact fun hmem => hnew ((List.filter_sublist.map _).subset hmem)
  have hsub : id :: (L.filter fun e => P e.op).map Entry.id ⊆ call_ids P T :=
    List.cons_subset.mpr ⟨mem_call_ids.mpr ⟨p, o, hcall, hP⟩, h.ids_subset P⟩
  have hle := (List.subperm_of_subset hnodup hsub).length_le
  rwa [List.length_cons, List.length_map, length_call_ids, ← List.countP_eq_length_filter] at hle

/-- An order has as many operations with `P` as were called, if none of those calls
    is still going on. -/
theorem Linearizes.countP_calls [DecidableEq ι] {busy : ι → Option ℕ}
    (h : Linearizes obj (T.map Prod.snd) L) (hT : OneAtATime T busy) (P : Op → Bool)
    (hdone : ∀ p id o, busy p = some id → (p, .call id o) ∈ T → P o = false) :
    (T.map Prod.snd).countP (Event.is_call P) = L.countP fun e => P e.op := by
  have hperm : (call_ids P T).Perm ((L.filter fun e => P e.op).map Entry.id) := by
    rw [List.perm_ext_iff_of_nodup (hT.nodup_call_ids P) (h.nodup_ids P)]
    intro id
    refine ⟨?_, fun hid => h.ids_subset P hid⟩
    · intro hcall
      rw [List.mem_map]
      obtain ⟨p, o, hcall, hP⟩ := mem_call_ids.mp hcall
      rcases hT.busy_or_returned hcall with hbusy | ⟨r, hr⟩
      · rw [hdone p id o hbusy hcall] at hP
        cases hP
      · -- The call has returned, so it is in the order.
        obtain ⟨o', ho'⟩ := h.complete id r (mem_history.mpr ⟨p, hr⟩)
        obtain ⟨q, hq⟩ := mem_history.mp (h.called _ ho')
        obtain ⟨-, rfl⟩ := hT.call_unique hcall hq
        exact ⟨_, List.mem_filter.mpr ⟨ho', hP⟩, rfl⟩
  rw [← length_call_ids, hperm.length_eq, List.length_map, List.countP_eq_length_filter]

/-- The operations that thread `p` has called. -/
def ops_of [DecidableEq ι] (p : ι) (T : List (ι × Event Op Res)) : List Op :=
  T.filterMap fun e => match e.2 with
    | .call _ o => if e.1 = p then some o else none
    | .ret _ _ => none

theorem mem_ops_of [DecidableEq ι] {p : ι} {o : Op} :
    o ∈ ops_of p T ↔ ∃ id, (p, .call id o) ∈ T := by
  unfold ops_of
  rw [List.mem_filterMap]
  constructor
  · intro h
    obtain ⟨⟨q, e⟩, hmem, he⟩ := h
    match e, he with
    | .call id o', he =>
      simp only [Option.ite_none_right_eq_some, Option.some.injEq] at he
      obtain ⟨rfl, rfl⟩ := he
      exact ⟨id, hmem⟩
  · intro h
    obtain ⟨id, hmem⟩ := h
    exact ⟨(p, .call id o), hmem, by simp⟩

theorem ops_of_call [DecidableEq ι] {p q : ι} {id : ℕ} {o : Op} :
    ops_of p (T ++ [(q, .call id o)]) = if q = p then ops_of p T ++ [o] else ops_of p T := by
  unfold ops_of
  rw [List.filterMap_append]
  split <;> next h => simp [h]

theorem ops_of_ret [DecidableEq ι] {p q : ι} {id : ℕ} {r : Res} :
    ops_of p (T ++ [(q, .ret id r)]) = ops_of p T := by
  unfold ops_of
  rw [List.filterMap_append]
  simp

theorem ops_of_pair [DecidableEq ι] {p : ι} {a b : ℕ} {o o' : Op}
    (h : [(p, Event.call a o), (p, .call b o')].Sublist T) : [o, o'].Sublist (ops_of p T) := by
  have hops : ops_of p [(p, (.call a o : Event Op Res)), (p, .call b o')] = [o, o'] := by
    simp [ops_of]
  rw [← hops]
  exact h.filterMap _

/-- A thread that calls no operation twice. -/
theorem call_id_unique [DecidableEq ι] {p : ι} (h : (ops_of p T).Nodup) {a b : ℕ} {o : Op}
    (ha : (p, .call a o) ∈ T) (hb : (p, .call b o) ∈ T) : a = b := by
  by_contra hne
  rcases pair_sublist_or ha hb (by simp [hne]) with hab | hba
  · exact absurd (h.sublist (ops_of_pair hab)) (by simp)
  · exact absurd (h.sublist (ops_of_pair hba)) (by simp)

/-- The calls of all threads, thread by thread. -/
theorem countP_calls_eq_sum [DecidableEq ι] {S : Finset ι} (P : Op → Bool)
    (hS : ∀ p id o, (p, .call id o) ∈ T → p ∈ S) :
    (T.map Prod.snd).countP (Event.is_call P) = ∑ p ∈ S, (ops_of p T).countP P := by
  induction T using List.reverseRecOn with
  | nil => simp [ops_of]
  | append_singleton T e ih =>
    have ih := ih fun p id o hmem => hS p id o (List.mem_append_left _ hmem)
    obtain ⟨q, e⟩ := e
    rw [List.map_append, List.countP_append, ih]
    match e with
    | .call id o =>
      have hq : q ∈ S := hS q id o (by simp)
      have hone : ∀ p, (ops_of p (T ++ [(q, Event.call id o)])).countP P =
          (ops_of p T).countP P + if q = p then [o].countP P else 0 := by
        intro p
        rw [ops_of_call]
        split
        · rw [List.countP_append]
        · rfl
      simp only [hone, Finset.sum_add_distrib, Finset.sum_ite_eq, hq, if_true]
      rfl
    | .ret id r =>
      simp only [ops_of_ret]
      rfl

/-- The ids and the results of the calls that have returned. -/
def returns (T : List (ι × Event Op Res)) : List (ℕ × Res) :=
  T.filterMap fun e => match e.2 with
    | .call _ _ => none
    | .ret id r => some (id, r)

theorem mem_returns {id : ℕ} {r : Res} : (id, r) ∈ returns T ↔ ∃ p, (p, .ret id r) ∈ T := by
  unfold returns
  rw [List.mem_filterMap]
  constructor
  · intro h
    obtain ⟨⟨p, e⟩, hmem, he⟩ := h
    match e, he with
    | .ret id' r', he =>
      cases he
      exact ⟨p, hmem⟩
  · intro h
    obtain ⟨p, hmem⟩ := h
    exact ⟨(p, .ret id r), hmem, rfl⟩

/-- A call that is going on has not returned. -/
theorem OneAtATime.not_returned [DecidableEq ι] {busy : ι → Option ℕ} (h : OneAtATime T busy)
    {p q : ι} {id : ℕ} {r : Res} (hp : busy p = some id) : (q, .ret id r) ∉ T := by
  induction h with
  | start => cases hp
  | @call T busy p' id' o _ hT hnew ih =>
    intro hmem
    have hmem' : (q, Event.ret id r) ∈ T := by simpa using hmem
    by_cases heq : p = p'
    · subst heq
      rw [Function.update_self] at hp
      cases hp
      obtain ⟨o', ho'⟩ := OneAtATime.called ‹_› hmem'
      exact hnew q o' ho'
    · rw [Function.update_of_ne heq] at hp
      exact ih hp hmem'
  | @ret T busy p' id' r' hT hbusy ih =>
    intro hmem
    by_cases heq : p = p'
    · subst heq
      rw [Function.update_self] at hp
      cases hp
    · rw [Function.update_of_ne heq] at hp
      rcases List.mem_append.mp hmem with hmem | hmem
      · exact ih hp hmem
      · -- Two threads are not in the same call.
        cases List.mem_singleton.mp hmem
        obtain ⟨o, ho⟩ := hT.open_call hp
        obtain ⟨o', ho'⟩ := hT.open_call hbusy
        exact heq (hT.call_unique ho ho').1

/-- A call returns once. -/
theorem OneAtATime.nodup_returns [DecidableEq ι] {busy : ι → Option ℕ} (h : OneAtATime T busy) :
    ((returns T).map Prod.fst).Nodup := by
  induction h with
  | start => exact List.nodup_nil
  | call p id o _ _ _ ih =>
    unfold returns at ih ⊢
    rw [List.filterMap_append]
    simpa using ih
  | @ret T busy p id r hT hbusy ih =>
    have hnew : id ∉ (returns T).map Prod.fst := by
      intro hmem
      obtain ⟨⟨id', r'⟩, hret, rfl⟩ := List.mem_map.mp hmem
      obtain ⟨q, hq⟩ := mem_returns.mp hret
      exact hT.not_returned hbusy hq
    unfold returns at ih hnew ⊢
    rw [List.filterMap_append, List.map_append]
    exact List.nodup_append.mpr ⟨ih, by simp, fun a ha b hb => by
      simp only [List.filterMap_cons, List.filterMap_nil, List.map_cons, List.map_nil,
        List.mem_singleton] at hb
      subst hb
      exact fun heq => hnew (heq ▸ ha)⟩

/-- The results of the calls that have returned are results of the order. -/
theorem Linearizes.returns_subperm [DecidableEq ι] {busy : ι → Option ℕ}
    (h : Linearizes obj (T.map Prod.snd) L) (hT : OneAtATime T busy) :
    (returns T).Subperm (L.map fun e => (e.id, e.res)) := by
  apply List.subperm_of_subset (hT.nodup_returns.of_map _)
  intro x hx
  obtain ⟨p, hp⟩ := mem_returns.mp hx
  obtain ⟨o, ho⟩ := h.complete x.1 x.2 (mem_history.mpr ⟨p, hp⟩)
  exact List.mem_map.mpr ⟨_, ho, rfl⟩

/-- If no call is going on, they are all the results. -/
theorem Linearizes.returns_perm [DecidableEq ι] {busy : ι → Option ℕ}
    (h : Linearizes obj (T.map Prod.snd) L) (hT : OneAtATime T busy) (hidle : ∀ p, busy p = none) :
    (returns T).Perm (L.map fun e => (e.id, e.res)) := by
  refine (h.returns_subperm hT).antisymm (List.subperm_of_subset ?_ ?_)
  · have hids : (L.map fun e => (e.id, e.res)).map Prod.fst = L.map Entry.id := by
      rw [List.map_map]
      rfl
    exact List.Nodup.of_map Prod.fst (hids ▸ h.nodup)
  · intro x hx
    obtain ⟨e, he, rfl⟩ := List.mem_map.mp hx
    obtain ⟨p, hp⟩ := mem_history.mp (h.called e he)
    rcases hT.busy_or_returned hp with hbusy | ⟨r, hr⟩
    · rw [hidle p] at hbusy
      cases hbusy
    · obtain ⟨o, ho⟩ := h.complete e.id r (mem_history.mpr ⟨p, hr⟩)
      have hres : r = e.res := congrArg Entry.res (h.entry_ext ho he rfl)
      exact mem_returns.mpr ⟨p, hres ▸ hr⟩

end Counting

/-! ## Section 3: First in, first out -/

section Fifo

variable {Key : Type x} {put : Op → Option Key} {got : Res → Option Key} {L : List (Entry Op Res)}

/-- What the operations of `L` get is what they put, in this order. -/
def Fifo (put : Op → Option Key) (got : Res → Option Key) (L : List (Entry Op Res)) : Prop :=
  L.filterMap (fun e => got e.res) <+: L.filterMap fun e => put e.op

/-- Two values that a list of values has in this order come from two entries in
    this order. -/
theorem pair_sublist_of_filterMap {f : Entry Op Res → Option Key} {k k' : Key}
    (h : [k, k'].Sublist (L.filterMap f)) :
    ∃ e e', [e, e'].Sublist L ∧ f e = some k ∧ f e' = some k' := by
  obtain ⟨l, hl, heq⟩ := List.sublist_filterMap_iff.mp h
  obtain ⟨l₁, e, l₂, rfl, -, he, hrest⟩ := List.filterMap_eq_cons_iff.mp heq.symm
  obtain ⟨l₃, e', l₄, rfl, -, he', -⟩ := List.filterMap_eq_cons_iff.mp hrest
  refine ⟨e, e', List.Sublist.trans ?_ hl, he, he'⟩
  exact (List.Sublist.cons_cons e (List.singleton_sublist.mpr (by simp))).trans
    (List.sublist_append_right l₁ _)

/-- Of two values, the one that is got first was put first. -/
theorem Fifo.order (h : Fifo put got L) {x y : Entry Op Res} {k k' : Key}
    (hxy : [x, y].Sublist L) (hx : got x.res = some k) (hy : got y.res = some k') :
    ∃ e e', [e, e'].Sublist L ∧ put e.op = some k ∧ put e'.op = some k' := by
  apply pair_sublist_of_filterMap (f := fun e => put e.op)
  have hgot : [k, k'].Sublist (L.filterMap fun e => got e.res) := by
    have := hxy.filterMap fun e => got e.res
    simpa [hx, hy] using this
  exact hgot.trans h.sublist

/-- **Between two threads**: if no value is put twice, a thread `p` gets the values
    of a thread `q` in the order in which `q` puts them. -/
theorem Fifo.thread_order {ι : Type v} [DecidableEq ι] {obj : Object State Op Res}
    {T : List (ι × Event Op Res)} {busy : ι → Option ℕ} (hfifo : Fifo put got L)
    (h : Linearizes obj (T.map Prod.snd) L) (hT : OneAtATime T busy)
    (hinj : ∀ q id o q' id' o' k, (q, .call id o) ∈ T → (q', .call id' o') ∈ T →
      put o = some k → put o' = some k → id = id')
    {p q : ι} {a b c d : ℕ} {r r' : Res} {o o' : Op} {k k' : Key}
    (hgets : [(p, Event.ret a r), (p, .ret b r')].Sublist T) (hr : got r = some k)
    (hr' : got r' = some k') (hc : (q, .call c o) ∈ T) (hd : (q, .call d o') ∈ T)
    (ho : put o = some k) (ho' : put o' = some k') :
    [(q, Event.call c o), (q, .call d o')].Sublist T := by
  -- The two gets, and then the two puts, stand in the order one after the other.
  obtain ⟨oa, ha⟩ := h.complete a r (mem_history.mpr ⟨p, hgets.subset (by simp)⟩)
  obtain ⟨ob, hb⟩ := h.complete b r' (mem_history.mpr ⟨p, hgets.subset (by simp)⟩)
  have hab := h.real_time _ ha _ hb (hT.precedes_of_rets hgets)
  obtain ⟨e, e', hee', he, he'⟩ := hfifo.order hab hr hr'
  have hmem : e ∈ L := hee'.subset (by simp)
  have hmem' : e' ∈ L := hee'.subset (by simp)
  obtain ⟨p₁, hp₁⟩ := mem_history.mp (h.called e hmem)
  obtain ⟨p₂, hp₂⟩ := mem_history.mp (h.called e' hmem')
  have hec : e.id = c := hinj _ _ _ _ _ _ k hp₁ hc he ho
  have hed : e'.id = d := hinj _ _ _ _ _ _ k' hp₂ hd he' ho'
  have hne : c ≠ d := by
    intro heq
    have : e = e' := h.entry_ext hmem hmem' (by omega)
    rw [this] at hee'
    exact absurd (hee'.nodup h.nodup_entries) (by simp)
  rcases pair_sublist_or hc hd (by simp [hne]) with hcd | hdc
  · exact hcd
  · -- The other order of the puts would be visible in real time.
    have hprec := hT.precedes_of_calls hdc
    rw [← hec, ← hed] at hprec
    exact absurd (h.real_time _ hmem' _ hmem hprec)
      (not_pair_sublist_swap h.nodup_entries hee')

end Fifo

end Linearizability
