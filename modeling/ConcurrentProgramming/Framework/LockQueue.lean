import Mathlib.Data.List.Nodup
import Mathlib.Data.List.TakeWhile
import Mathlib.Logic.Relation
import Mathlib.Order.WellFounded
import Mathlib.Data.Finset.Max

/-! # Wait Queues of a Reader-Writer Lock Manager

    The mathematics of first-come-first-served lock queues, over an arbitrary
    type of queue entries.  An entry has an `owner` and is either exclusive
    (a writer) or shared (a reader).

    * `blocked_by`: the full conflict relation of a queue.  An owner is blocked
      by every owner ahead of it with which it conflicts.
    * `blockers`, `waits_on`: a sparse selection of it.  A shared entry points
      only to the nearest exclusive entry ahead; an exclusive entry points to
      the run of shared entries right ahead, or to the exclusive entry right
      ahead.
    * The two have the same transitive closure (`transGen_waits_iff`).
    * An entry that waits for nobody can leave the queue, and its departure
      only deletes the arrows into it (`waits_on_remove`).

    Queues are kept in arrival order.  The sparse selection recurses on the
    reversed queue, where what is ahead of an entry is the tail behind it.
-/

namespace LockQueue

universe u v w

variable {ε : Type u} {α : Type v} [DecidableEq α]

/-! ## Section 1: The sparse wait-for selection -/

/-- The entries an entry of mode `me` points to, given the entries ahead of it
    from the nearest to the farthest. -/
def blockers (excl : ε → Bool) (me : Bool) (ahead : List ε) : List ε :=
  if me then
    match ahead with
    | [] => []
    | e :: es => if excl e then [e] else (e :: es).takeWhile (fun x => !excl x)
  else (ahead.find? excl).toList

/-- The entries that owner `t` points to in a reversed queue. -/
def waits_on (owner : ε → α) (excl : ε → Bool) : List ε → α → List ε
  | [], _ => []
  | e :: ahead, t =>
    if owner e = t then blockers excl (excl e) ahead
    else waits_on owner excl ahead t

section basic
variable {owner : ε → α} {excl : ε → Bool}

omit [DecidableEq α] in
@[simp] theorem blockers_nil (me : Bool) : blockers excl me [] = [] := by
  cases me <;> simp [blockers]

omit [DecidableEq α] in
theorem blockers_subset (me : Bool) (ahead : List ε) : blockers excl me ahead ⊆ ahead := by
  intro x hx
  cases me with
  | false =>
    simp only [blockers, Bool.false_eq_true, if_false, Option.mem_toList] at hx
    exact List.mem_of_find?_eq_some hx
  | true =>
    cases ahead with
    | nil => simp at hx
    | cons e es =>
      simp only [blockers, if_true] at hx
      split at hx
      · simp only [List.mem_singleton] at hx
        simp [hx]
      · exact (List.takeWhile_sublist _).subset hx

omit [DecidableEq α] in
theorem blockers_sublist (me : Bool) (ahead : List ε) :
    (blockers excl me ahead).Sublist ahead := by
  cases me with
  | false =>
    simp only [blockers, Bool.false_eq_true, if_false]
    cases h : ahead.find? excl with
    | none => simp
    | some x => simpa using List.mem_of_find?_eq_some h
  | true =>
    cases ahead with
    | nil => simp
    | cons e es =>
      simp only [blockers, if_true]
      split
      · simp
      · exact List.takeWhile_sublist _

omit [DecidableEq α] in
/-- A shared entry points to nobody exactly when no exclusive entry is ahead. -/
theorem blockers_shared_eq_nil {ahead : List ε} :
    blockers excl false ahead = [] ↔ ∀ x ∈ ahead, excl x = false := by
  simp only [blockers, Bool.false_eq_true, if_false]
  cases h : ahead.find? excl with
  | none => simpa [List.find?_eq_none] using h
  | some x =>
    have hx := List.find?_some h
    have hm := List.mem_of_find?_eq_some h
    simp only [Option.toList_some, List.cons_ne_nil, false_iff, not_forall]
    exact ⟨x, hm, by simp [hx]⟩

omit [DecidableEq α] in
/-- An exclusive entry points to nobody exactly when it is at the front. -/
theorem blockers_excl_eq_nil {ahead : List ε} :
    blockers excl true ahead = [] ↔ ahead = [] := by
  cases ahead with
  | nil => simp
  | cons e es =>
    simp only [blockers, if_true]
    by_cases he : excl e <;> simp [he]

theorem waits_on_subset (rq : List ε) (t : α) : waits_on owner excl rq t ⊆ rq := by
  induction rq with
  | nil => simp [waits_on]
  | cons e ahead ih =>
    intro x hx
    simp only [waits_on] at hx
    split at hx
    · exact List.mem_cons_of_mem _ (blockers_subset _ _ hx)
    · exact List.mem_cons_of_mem _ (ih hx)

theorem waits_on_sublist (rq : List ε) (t : α) :
    (waits_on owner excl rq t).Sublist rq := by
  induction rq with
  | nil => simp [waits_on]
  | cons e ahead ih =>
    simp only [waits_on]
    split
    · exact (blockers_sublist _ _).cons e
    · exact ih.cons e

/-- An owner without an entry points to nobody. -/
theorem waits_on_not_mem {rq : List ε} {t : α} (h : t ∉ rq.map owner) :
    waits_on owner excl rq t = [] := by
  induction rq with
  | nil => simp [waits_on]
  | cons e ahead ih =>
    simp only [List.map_cons, List.mem_cons, not_or] at h
    simp [waits_on, Ne.symm h.1, ih h.2]

/-- Entries behind owner `t` do not matter for where `t` points. -/
theorem waits_on_append {behind ahead : List ε} {e : ε} {t : α}
    (h : t ∉ behind.map owner) (he : owner e = t) :
    waits_on owner excl (behind ++ e :: ahead) t = blockers excl (excl e) ahead := by
  induction behind with
  | nil => simp [waits_on, he]
  | cons b behind ih =>
    simp only [List.map_cons, List.mem_cons, not_or] at h
    simp [waits_on, Ne.symm h.1, ih h.2]

/-- Nobody points to itself. -/
theorem not_mem_waits_on_self {rq : List ε} (hnd : (rq.map owner).Nodup) (t : α) :
    t ∉ (waits_on owner excl rq t).map owner := by
  induction rq with
  | nil => simp [waits_on]
  | cons e ahead ih =>
    simp only [List.map_cons, List.nodup_cons] at hnd
    simp only [waits_on]
    split
    · next he =>
      intro hm
      obtain ⟨x, hx, hxt⟩ := List.mem_map.mp hm
      exact hnd.1 (List.mem_map.mpr ⟨x, blockers_subset _ _ hx, by rw [hxt, he]⟩)
    · exact ih hnd.2

end basic

/-! ## Section 2: Sparse and full conflicts have the same closure -/

/-- Owner `t` is blocked by owner `u` in a queue: both have an entry, the one
    of `u` is ahead, and at least one of the two is exclusive. -/
def blocked_by (owner : ε → α) (excl : ε → Bool) (q : List ε) (t u : α) : Prop :=
  ∃ a b, [a, b].Sublist q ∧ owner a = u ∧ owner b = t ∧ (excl a = true ∨ excl b = true)

section closure
variable {owner : ε → α} {excl : ε → Bool}

omit [DecidableEq α] in
/-- From an exclusive entry one reaches everything ahead of it along the sparse
    selection; from a shared one, every exclusive entry ahead.

    The induction is on the entries ahead, nearest first: the tail behind an
    entry is what that entry itself has ahead, so the hypothesis applies to it. -/
theorem reach_ahead (owner : ε → α) (excl : ε → Bool) {S : α → α → Prop} (ahead : List ε)
    (hS : ∀ e es, (e :: es) <:+ ahead → ∀ b ∈ blockers excl (excl e) es, S (owner e) (owner b)) :
    (∀ t, (∀ b ∈ blockers excl true ahead, S t (owner b)) →
      ∀ x ∈ ahead, Relation.TransGen S t (owner x)) ∧
    (∀ t, (∀ b ∈ blockers excl false ahead, S t (owner b)) →
      ∀ x ∈ ahead, excl x = true → Relation.TransGen S t (owner x)) := by
  induction ahead with
  | nil => simp
  | cons e es ih =>
    obtain ⟨ihx, ihs⟩ := ih (fun e' es' h => hS e' es' (h.trans (List.suffix_cons e es)))
    have hself := hS e es (List.suffix_refl _)
    by_cases he : excl e = true
    · -- `e` is exclusive: both modes point at `e`, and `e` reaches the rest.
      rw [he] at hself
      refine ⟨fun t ht x hx => ?_, fun t ht x hx _ => ?_⟩
      · have hte : S t (owner e) := ht e (by simp [blockers, he])
        rcases List.mem_cons.mp hx with rfl | hx
        · exact .single hte
        · exact .head hte (ihx (owner e) hself x hx)
      · have hte : S t (owner e) := ht e (by simp [blockers, he])
        rcases List.mem_cons.mp hx with rfl | hx
        · exact .single hte
        · exact .head hte (ihx (owner e) hself x hx)
    · have hef : excl e = false := by simpa using he
      rw [hef] at hself
      refine ⟨fun t ht x hx => ?_, fun t ht x hx hxe => ?_⟩
      · have hte : S t (owner e) := ht e (by simp [blockers, hef])
        rcases List.mem_cons.mp hx with rfl | hx
        · exact .single hte
        · cases es with
          | nil => simp at hx
          | cons f fs =>
            by_cases hf : excl f = true
            · -- The run of shared entries ends at `f`, which `e` points to.
              refine .head hte (ihx (owner e) (fun b hb => hself b ?_) x hx)
              simpa [blockers, hf] using hb
            · -- The run goes on, so `t` also points to the run behind `e`.
              have hff : excl f = false := by simpa using hf
              refine ihx t (fun b hb => ht b ?_) x hx
              simp only [blockers, if_true, hef, hff, Bool.false_eq_true, if_false] at hb ⊢
              simp only [List.takeWhile_cons, hef, hff, Bool.not_false, if_true] at hb ⊢
              exact List.mem_cons_of_mem _ hb
      · have hxes : x ∈ es := by
          rcases List.mem_cons.mp hx with rfl | hx
          · exact absurd hxe he
          · exact hx
        refine ihs t (fun b hb => ht b ?_) x hxes hxe
        simpa [blockers, hef] using hb

omit [DecidableEq α] in
theorem blockers_conflict {me : Bool} {ahead : List ε} {b : ε}
    (h : b ∈ blockers excl me ahead) : excl b = true ∨ me = true := by
  cases me with
  | true => exact Or.inr rfl
  | false =>
    simp only [blockers, Bool.false_eq_true, if_false, Option.mem_toList] at h
    exact Or.inl (List.find?_some h)

/-- Every sparse arrow is a conflict with an entry ahead. -/
theorem blocked_by_of_waits_on {rq : List ε} {t u : α}
    (h : u ∈ (waits_on owner excl rq t).map owner) :
    blocked_by owner excl rq.reverse t u := by
  induction rq with
  | nil => simp [waits_on] at h
  | cons e ahead ih =>
    simp only [waits_on] at h
    split at h
    · next he =>
      obtain ⟨b, hb, hbu⟩ := List.mem_map.mp h
      refine ⟨b, e, ?_, hbu, he, blockers_conflict hb⟩
      have hm : [b].Sublist ahead.reverse := by
        simpa using blockers_subset _ _ hb
      simpa using hm.append (List.Sublist.refl [e])
    · obtain ⟨a, b, hsub, hab⟩ := ih h
      refine ⟨a, b, ?_, hab⟩
      simpa using hsub.trans (List.sublist_append_left ahead.reverse [e])

/-- Every conflict with an entry ahead is covered by a path of sparse arrows. -/
theorem transGen_of_blocked_by {S : α → α → Prop} (rq : List ε) {t u : α}
    (hnd : (rq.map owner).Nodup)
    (hS : ∀ x, ∀ b ∈ waits_on owner excl rq x, S x (owner b))
    (h : blocked_by owner excl rq.reverse t u) : Relation.TransGen S t u := by
  obtain ⟨a, b, hsub, rfl, rfl, hab⟩ := h
  have hsub' : [b, a].Sublist rq := by simpa using hsub.reverse
  -- Split the queue at the blocked entry `b`; the blocking one is ahead of it.
  obtain ⟨behind, ahead, hrq, ha⟩ : ∃ behind ahead, rq = behind ++ b :: ahead ∧ a ∈ ahead := by
    obtain ⟨l₁, l₂, hrq, h₁, h₂⟩ := List.cons_sublist_iff.mp hsub'
    obtain ⟨x, y, rfl⟩ := List.append_of_mem h₁
    exact ⟨x, y ++ l₂, by simp [hrq], List.mem_append_right _ (by simpa using h₂)⟩
  have hwait : ∀ e es, (e :: es) <:+ rq →
      ∀ c ∈ blockers excl (excl e) es, S (owner e) (owner c) := by
    intro e es hsuf c hc
    obtain ⟨pre, rfl⟩ := hsuf
    apply hS
    have hpre : owner e ∉ pre.map owner := by
      intro hm
      simp only [List.map_append, List.map_cons] at hnd
      exact (List.nodup_append.mp hnd).2.2 _ hm _ (by simp) rfl
    rw [waits_on_append hpre rfl]
    exact hc
  have hsuf : (b :: ahead) <:+ rq := ⟨behind, hrq.symm⟩
  have hreach := reach_ahead owner excl (S := S) ahead
    (fun e es h => hwait e es (h.trans ((List.suffix_cons b ahead).trans hsuf)))
  have hb := hwait b ahead hsuf
  by_cases hbx : excl b = true
  · rw [hbx] at hb
    exact hreach.1 _ hb a ha
  · rw [show excl b = false by simpa using hbx] at hb
    exact hreach.2 _ hb a ha (hab.resolve_right hbx)

/-- The sparse arrows of a family of queues. -/
def waits {ρ : Type w} (owner : ε → α) (excl : ε → Bool) (queue : ρ → List ε) (t u : α) : Prop :=
  ∃ r, u ∈ (waits_on owner excl (queue r).reverse t).map owner

/-- **Sparse and full conflicts agree.** Over any family of queues, the sparse
    arrows and the full conflict relation have the same transitive closure. -/
theorem transGen_waits_iff {ρ : Type w} {queue : ρ → List ε}
    (hnd : ∀ r, ((queue r).map owner).Nodup) (t u : α) :
    Relation.TransGen (waits owner excl queue) t u ↔
      Relation.TransGen (fun t u => ∃ r, blocked_by owner excl (queue r) t u) t u := by
  constructor
  · intro h
    refine Relation.TransGen.mono (fun a b ⟨r, hr⟩ => ⟨r, ?_⟩) _ _ h
    simpa using blocked_by_of_waits_on hr
  · intro h
    induction h with
    | single hb =>
      obtain ⟨r, hr⟩ := hb
      refine transGen_of_blocked_by (queue r).reverse ?_ ?_ (by simpa using hr)
      · simpa using hnd r
      · exact fun x b hb => ⟨r, List.mem_map_of_mem hb⟩
    | tail _ hb ih =>
      obtain ⟨r, hr⟩ := hb
      refine ih.trans (transGen_of_blocked_by (queue r).reverse ?_ ?_ (by simpa using hr))
      · simpa using hnd r
      · exact fun x b hb => ⟨r, List.mem_map_of_mem hb⟩

end closure

/-! ## Section 3: Leaving the queue

    An entry that points to nobody may leave.  What every other owner points to
    then only loses the leaving entry, and the owners that lose it are found by
    the same sparse selection, run over the queue in the other direction. -/

section leaving
variable {owner : ε → α} {excl : ε → Bool}

theorem filter_owner_eq_self {l : List ε} {t : α} (h : t ∉ l.map owner) :
    l.filter (fun x => owner x ≠ t) = l := by
  rw [List.filter_eq_self]
  intro x hx
  have : owner x ≠ t := fun hxt => h (List.mem_map.mpr ⟨x, hx, hxt⟩)
  simpa using this

/-- The queue without the entry of `t`. -/
theorem filter_owner_split {front behind : List ε} {d : ε}
    (hnd : ((front ++ d :: behind).map owner).Nodup) :
    (front ++ d :: behind).filter (fun x => owner x ≠ owner d) = front ++ behind := by
  rw [List.map_append, List.map_cons, List.nodup_middle, List.nodup_cons] at hnd
  rw [List.filter_append, List.filter_cons_of_neg (by simp), ← List.filter_append]
  exact filter_owner_eq_self (by simpa using hnd.1)

theorem takeWhile_remove {near far : List ε} {d : ε}
    (hclear : blockers excl (excl d) far = [])
    (hd : owner d ∉ (near ++ far).map owner) :
    (near ++ far).takeWhile (fun x => !excl x) =
      ((near ++ d :: far).takeWhile (fun x => !excl x)).filter
        (fun x => owner x ≠ owner d) := by
  induction near with
  | nil =>
    cases hdx : excl d with
    | true =>
      rw [hdx, blockers_excl_eq_nil] at hclear
      simp [hclear, hdx]
    | false =>
      rw [hdx, blockers_shared_eq_nil] at hclear
      have hall : far.takeWhile (fun x => !excl x) = far := by
        rw [List.takeWhile_eq_self_iff]
        intro x hx
        simp [hclear x hx]
      simp only [List.nil_append] at hd ⊢
      rw [List.takeWhile_cons_of_pos (by simp [hdx]), List.filter_cons_of_neg (by simp), hall,
        filter_owner_eq_self hd]
  | cons e near ih =>
    simp only [List.cons_append, List.map_cons, List.mem_cons, not_or] at hd
    cases hex : excl e with
    | true => simp [hex]
    | false =>
      simp only [List.cons_append, List.takeWhile_cons, hex, Bool.not_false, if_true]
      rw [List.filter_cons_of_pos (by simpa using Ne.symm hd.1), ih hd.2]

theorem blockers_remove {me : Bool} {near far : List ε} {d : ε}
    (hclear : blockers excl (excl d) far = [])
    (hd : owner d ∉ (near ++ far).map owner) :
    blockers excl me (near ++ far) =
      (blockers excl me (near ++ d :: far)).filter (fun x => owner x ≠ owner d) := by
  cases me with
  | false =>
    simp only [blockers, Bool.false_eq_true, if_false, List.find?_append]
    cases hn : near.find? excl with
    | some x =>
      have hx : owner x ≠ owner d := by
        intro hxd
        refine hd (List.mem_map.mpr ⟨x, ?_, hxd⟩)
        exact List.mem_append_left _ (List.mem_of_find?_eq_some hn)
      simp [hx]
    | none =>
      cases hdx : excl d with
      | true =>
        rw [hdx, blockers_excl_eq_nil] at hclear
        simp [hclear, hdx]
      | false =>
        rw [hdx, blockers_shared_eq_nil] at hclear
        have hfar : far.find? excl = none := by
          rw [List.find?_eq_none]
          intro x hx
          simp [hclear x hx]
        simp [hdx, hfar]
  | true =>
    have htake := takeWhile_remove hclear hd
    cases near with
    | nil =>
      cases hdx : excl d with
      | true =>
        rw [hdx, blockers_excl_eq_nil] at hclear
        simp [blockers, hclear, hdx]
      | false =>
        -- The leaving entry is shared, so everything ahead of it is shared too.
        rw [hdx, blockers_shared_eq_nil] at hclear
        simp only [List.nil_append] at htake ⊢
        have hfar : blockers excl true far = far.takeWhile (fun x => !excl x) := by
          cases far with
          | nil => simp
          | cons f fs => simp [blockers, hclear f (by simp)]
        rw [hfar, htake]
        simp [blockers, hdx]
    | cons e es =>
      simp only [List.cons_append, blockers, if_true] at htake ⊢
      cases hex : excl e with
      | true =>
        have hed : owner e ≠ owner d := by
          intro h
          exact hd (by simp [h])
        simp [hed]
      | false => simpa using htake

/-- **Departure.** When an entry that points to nobody leaves, every other owner
    points to the same entries as before, less the one that left. -/
theorem waits_on_remove {behind ahead : List ε} {d : ε} {t : α}
    (hclear : blockers excl (excl d) ahead = [])
    (hnd : ((behind ++ d :: ahead).map owner).Nodup) (ht : t ≠ owner d) :
    waits_on owner excl (behind ++ ahead) t =
      (waits_on owner excl (behind ++ d :: ahead) t).filter (fun x => owner x ≠ owner d) := by
  induction behind with
  | nil =>
    simp only [List.nil_append, List.map_cons, List.nodup_cons] at hnd ⊢
    rw [waits_on, if_neg (Ne.symm ht)]
    refine (filter_owner_eq_self fun h => hnd.1 ?_).symm
    obtain ⟨x, hx, hxd⟩ := List.mem_map.mp h
    exact List.mem_map.mpr ⟨x, waits_on_subset _ _ hx, hxd⟩
  | cons e behind ih =>
    simp only [List.cons_append, List.map_cons, List.nodup_cons] at hnd
    simp only [List.cons_append, waits_on]
    split
    · refine blockers_remove hclear fun h => ?_
      have hnd' := hnd.2
      rw [List.map_append, List.map_cons, List.nodup_middle, List.nodup_cons] at hnd'
      exact hnd'.1 (by simpa using h)
    · exact ih hnd.2

omit [DecidableEq α] in
theorem mem_takeWhile_split (p : ε → Bool) {near : List ε} (far : List ε) {d : ε}
    (hnear : d ∉ near) :
    d ∈ (near ++ d :: far).takeWhile p ↔ (∀ x ∈ near, p x = true) ∧ p d = true := by
  induction near with
  | nil => by_cases hd : p d = true <;> simp [hd]
  | cons e near ih =>
    simp only [List.mem_cons, not_or] at hnear
    by_cases he : p e = true
    · simp [he, hnear.1, ih hnear.2]
    · simp [he]

omit [DecidableEq α] in
/-- When an entry is selected: either the two differ in mode and only shared
    entries stand between them, or both are exclusive and adjacent. -/
theorem mem_blockers_split {me : Bool} {near far : List ε} {d : ε}
    (hnear : d ∉ near) (hfar : d ∉ far) :
    d ∈ blockers excl me (near ++ d :: far) ↔
      ((∀ x ∈ near, excl x = false) ∧ me ≠ excl d) ∨
        (near = [] ∧ me = true ∧ excl d = true) := by
  cases me with
  | false =>
    simp only [blockers, Bool.false_eq_true, if_false, List.find?_append, Option.mem_toList,
      false_and, and_false, or_false]
    cases hn : near.find? excl with
    | some x =>
      have hx := List.find?_some hn
      have hm := List.mem_of_find?_eq_some hn
      constructor
      · intro h
        simp only [Option.some_or, Option.some.injEq] at h
        exact absurd (h ▸ hm) hnear
      · intro h
        obtain ⟨h, -⟩ := h
        rw [h x hm] at hx
        exact absurd hx (by simp)
    | none =>
      have hall : ∀ x ∈ near, excl x = false := by simpa [List.find?_eq_none] using hn
      cases hdx : excl d with
      | true =>
        simp only [Option.none_or, List.find?_cons_of_pos hdx, ne_eq, reduceCtorEq,
          not_false_eq_true, and_true, true_iff]
        exact hall
      | false =>
        simp only [Option.none_or, List.find?_cons_of_neg (show ¬ excl d = true by simp [hdx]),
          ne_eq, not_true_eq_false, and_false, iff_false]
        exact fun h => hfar (List.mem_of_find?_eq_some h)
  | true =>
    cases near with
    | nil =>
      cases hdx : excl d <;> simp [blockers, hdx]
    | cons e es =>
      simp only [List.cons_append, blockers, if_true, List.mem_cons, not_or] at hnear ⊢
      cases hex : excl e with
      | true =>
        simp [hnear.1, hex]
      | false =>
        have hnear' : d ∉ e :: es := by simpa using hnear
        have hmem := mem_takeWhile_split (fun x => !excl x) far hnear'
        simp only [List.cons_append] at hmem
        simp only [Bool.false_eq_true, if_false, hmem, reduceCtorEq, false_and, or_false]
        cases hdx : excl d <;> simp

/-- **Duality.** The owners that point to an entry are selected among the
    entries behind it exactly as the entry's own blockers are among those ahead. -/
theorem mem_waits_on_iff {front behind : List ε} {d : ε}
    (hnd : ((front ++ d :: behind).map owner).Nodup) (t : α) :
    owner d ∈ (waits_on owner excl (front ++ d :: behind).reverse t).map owner ↔
      t ∈ (blockers excl (excl d) behind).map owner := by
  have hinj : ∀ x ∈ front ++ d :: behind, ∀ y ∈ front ++ d :: behind,
      owner x = owner y → x = y := by
    intro x hx y hy hxy
    exact List.inj_on_of_nodup_map hnd hx hy hxy
  have hmemd : ∀ l ⊆ front ++ d :: behind, owner d ∈ l.map owner ↔ d ∈ l := by
    intro l hl
    constructor
    · intro h
      obtain ⟨x, hx, hxd⟩ := List.mem_map.mp h
      exact hinj x (hl hx) d (by simp) hxd ▸ hx
    · exact fun h => List.mem_map_of_mem h
  have hsub : waits_on owner excl (front ++ d :: behind).reverse t ⊆ front ++ d :: behind := by
    intro x hx
    exact List.mem_reverse.mp (waits_on_subset _ _ hx)
  rw [hmemd _ hsub]
  have hnodup := hnd.of_map
  by_cases htb : t ∈ behind.map owner
  · obtain ⟨e, he, rfl⟩ := List.mem_map.mp htb
    obtain ⟨near, far, rfl⟩ := List.append_of_mem he
    have hnd' : ((front ++ d :: near).map owner ++ owner e :: far.map owner).Nodup := by
      simpa using hnd
    -- `e` is the entry of `t`: ahead of it stand `near`, then `d`, then `front`.
    have hrev : (front ++ d :: (near ++ e :: far)).reverse =
        far.reverse ++ e :: (near.reverse ++ d :: front.reverse) := by simp
    have hefar : owner e ∉ far.reverse.map owner := by
      intro h
      rw [List.nodup_append] at hnd'
      have := (List.nodup_cons.mp hnd'.2.1).1
      exact this (by simpa using h)
    rw [hrev, waits_on_append hefar rfl]
    have hdnear : d ∉ near := by
      intro h
      simp only [List.nodup_append, List.nodup_cons] at hnodup
      exact hnodup.2.1.1 (List.mem_append_left _ h)
    have hdfront : d ∉ front := by
      intro h
      exact (List.nodup_append.mp hnodup).2.2 d h d (by simp) rfl
    have henear : e ∉ near := by
      intro h
      have h2 := (List.nodup_append.mp hnodup).2.1
      have h3 := (List.nodup_cons.mp h2).2
      exact (List.nodup_append.mp h3).2.2 e h e (by simp) rfl
    have hefar' : e ∉ far := fun h => hefar (by simpa using List.mem_map_of_mem h)
    rw [mem_blockers_split (by simpa using hdnear) (by simpa using hdfront)]
    have hown : owner e ∈ (blockers excl (excl d) (near ++ e :: far)).map owner ↔
        e ∈ blockers excl (excl d) (near ++ e :: far) := by
      constructor
      · intro h
        obtain ⟨x, hx, hxe⟩ := List.mem_map.mp h
        have hxq : x ∈ front ++ d :: (near ++ e :: far) := by
          exact List.mem_append_right _ (List.mem_cons_of_mem _ (blockers_subset _ _ hx))
        exact hinj x hxq e (by simp) hxe ▸ hx
      · exact fun h => List.mem_map_of_mem h
    rw [hown, mem_blockers_split henear hefar']
    simp only [List.mem_reverse, List.reverse_eq_nil_iff]
    constructor
    · intro hcase
      rcases hcase with ⟨h, hne⟩ | ⟨h, h1, h2⟩
      · exact Or.inl ⟨h, Ne.symm hne⟩
      · exact Or.inr ⟨h, h2, h1⟩
    · intro hcase
      rcases hcase with ⟨h, hne⟩ | ⟨h, h1, h2⟩
      · exact Or.inl ⟨h, Ne.symm hne⟩
      · exact Or.inr ⟨h, h2, h1⟩
  · -- An owner with no entry behind `d` never has `d` ahead of it.
    have hright : t ∉ (blockers excl (excl d) behind).map owner := by
      intro h
      obtain ⟨x, hx, hxt⟩ := List.mem_map.mp h
      exact htb (List.mem_map.mpr ⟨x, blockers_subset _ _ hx, hxt⟩)
    simp only [hright, iff_false]
    intro h
    have hskip : ∀ (pre : List ε), t ∉ pre.map owner →
        waits_on owner excl (pre ++ d :: front.reverse) t =
          waits_on owner excl (d :: front.reverse) t := by
      intro pre hpre
      induction pre with
      | nil => rfl
      | cons p pre ih =>
        simp only [List.map_cons, List.mem_cons, not_or] at hpre
        simp only [List.cons_append, waits_on, if_neg (Ne.symm hpre.1)]
        simpa [waits_on] using ih hpre.2
    have hrev : (front ++ d :: behind).reverse = behind.reverse ++ d :: front.reverse := by simp
    rw [hrev, hskip _ (by simpa using htb)] at h
    have hdf : d ∈ front.reverse := by
      simp only [waits_on] at h
      split at h
      · exact blockers_subset _ _ h
      · exact waits_on_subset _ _ h
    exact (List.nodup_append.mp hnodup).2.2 d (by simpa using hdf) d (by simp) rfl

end leaving

end LockQueue
