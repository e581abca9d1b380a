import ConcurrentProgramming.Framework.Transition
import ConcurrentProgramming.Framework.LockQueue
import Mathlib.Data.Fintype.EquivFin
import Mathlib.Order.WellFounded

/-! # The Abstract Lock Manager

    A first-come-first-served reader-writer lock manager over arbitrary entries,
    owners and resources, with deadlock avoidance by refusal:

    * a request is appended to the queue of its resource; it is granted at once
      when it points to nobody, otherwise its owner waits, unless waiting would
      close a cycle of arrows through the owner, in which case it is refused;
    * a waiting owner is granted once it points to nobody;
    * a granted entry may leave its queue.

    What such a manager is for is stated as one invariant (`ManagerInv`):
    granted entries point to nobody, so two granted entries of one resource
    never conflict (`granted_compatible`), and the arrows never form a cycle, so
    some owner of any finite group can always move (`exists_unblocked`).
-/

namespace LockQueue

open LTS

universe u v w

variable {ε : Type u} {α : Type v} {ρ : Type w} [DecidableEq α] [DecidableEq ρ]

/-- Queues of entries in arrival order, and the resource each owner waits for. -/
structure Manager (ε : Type u) (α : Type v) (ρ : Type w) where
  queue   : ρ → List ε
  waiting : α → Option ρ

/-- The queues after entry `e` has arrived at resource `r`. -/
def arrive (queue : ρ → List ε) (r : ρ) (e : ε) : ρ → List ε :=
  Function.update queue r (queue r ++ [e])

/-- The queues after owner `t` has left resource `r`. -/
def depart (owner : ε → α) (queue : ρ → List ε) (r : ρ) (t : α) : ρ → List ε :=
  Function.update queue r ((queue r).filter (fun x => owner x ≠ t))

inductive Action (ε : Type u) (α : Type v) (ρ : Type w) where
  /-- A request that is granted on arrival. -/
  | enter (e : ε) (r : ρ)
  /-- A request that has to wait. -/
  | wait (e : ε) (r : ρ)
  /-- A waiting owner is granted. -/
  | grant (t : α) (r : ρ)
  /-- A granted owner leaves. -/
  | release (t : α) (r : ρ)

/-- The manager as a labelled transition system.  A refused request is not a
    step: it leaves the manager as it was. -/
def manager (owner : ε → α) (excl : ε → Bool) : System (Manager ε α ρ) (Action ε α ρ) where
  init := fun m => (∀ r, m.queue r = []) ∧ (∀ t, m.waiting t = none)
  step := fun m act m' =>
    match act with
    | .enter e r =>
        m.waiting (owner e) = none ∧
        owner e ∉ (m.queue r).map owner ∧
        waits_on owner excl (arrive m.queue r e r).reverse (owner e) = [] ∧
        m' = { m with queue := arrive m.queue r e }
    | .wait e r =>
        m.waiting (owner e) = none ∧
        owner e ∉ (m.queue r).map owner ∧
        ¬ Relation.TransGen (waits owner excl (arrive m.queue r e)) (owner e) (owner e) ∧
        m' = { queue := arrive m.queue r e
               waiting := Function.update m.waiting (owner e) (some r) }
    | .grant t r =>
        m.waiting t = some r ∧
        waits_on owner excl (m.queue r).reverse t = [] ∧
        m' = { m with waiting := Function.update m.waiting t none }
    | .release t r =>
        m.waiting t = none ∧
        t ∈ (m.queue r).map owner ∧
        m' = { m with queue := depart owner m.queue r t }

/-! ## Section 1: Arrival and departure -/

section moves
variable {owner : ε → α} {excl : ε → Bool}

omit [DecidableEq α] in
@[simp] theorem arrive_self (queue : ρ → List ε) (r : ρ) (e : ε) :
    arrive queue r e r = queue r ++ [e] := by
  simp [arrive]

omit [DecidableEq α] in
@[simp] theorem arrive_ne (queue : ρ → List ε) {r r' : ρ} (e : ε) (h : r' ≠ r) :
    arrive queue r e r' = queue r' := by
  simp [arrive, h]

@[simp] theorem depart_self (queue : ρ → List ε) (r : ρ) (t : α) :
    depart owner queue r t r = (queue r).filter (fun x => owner x ≠ t) := by
  simp [depart]

@[simp] theorem depart_ne (queue : ρ → List ε) {r r' : ρ} (t : α) (h : r' ≠ r) :
    depart owner queue r t r' = queue r' := by
  simp [depart, h]

/-- An arrival does not change where the other owners point. -/
theorem waits_on_arrive {queue : ρ → List ε} {r : ρ} {e : ε} {t : α} (ht : t ≠ owner e)
    (r' : ρ) :
    waits_on owner excl (arrive queue r e r').reverse t =
      waits_on owner excl (queue r').reverse t := by
  by_cases hr : r' = r
  · subst hr
    simp [waits_on, Ne.symm ht]
  · rw [arrive_ne _ _ hr]

omit [DecidableEq α] in
theorem arrive_nodup {queue : ρ → List ε} {r : ρ} {e : ε}
    (hnd : ∀ r, ((queue r).map owner).Nodup) (he : owner e ∉ (queue r).map owner) (r' : ρ) :
    ((arrive queue r e r').map owner).Nodup := by
  by_cases hr : r' = r
  · subst hr
    rw [arrive_self, List.map_append, List.map_singleton, List.nodup_append]
    refine ⟨hnd r', by simp, ?_⟩
    intro x hx y hy heq
    subst heq
    rw [List.mem_singleton.mp hy] at hx
    exact he hx
  · rw [arrive_ne _ _ hr]
    exact hnd r'

theorem depart_nodup {queue : ρ → List ε} {r : ρ} {t : α}
    (hnd : ∀ r, ((queue r).map owner).Nodup) (r' : ρ) :
    ((depart owner queue r t r').map owner).Nodup := by
  by_cases hr : r' = r
  · subst hr
    rw [depart_self]
    exact (hnd r').sublist (List.filter_sublist.map owner)
  · rw [depart_ne _ _ hr]
    exact hnd r'

/-- A departure of an owner that points to nobody deletes the arrows into it. -/
theorem waits_on_depart {queue : ρ → List ε} {r : ρ} {t u : α}
    (hnd : ((queue r).map owner).Nodup)
    (hclear : waits_on owner excl (queue r).reverse t = []) (hu : u ≠ t) :
    waits_on owner excl (depart owner queue r t r).reverse u =
      (waits_on owner excl (queue r).reverse u).filter (fun x => owner x ≠ t) := by
  by_cases ht : t ∈ (queue r).map owner
  · obtain ⟨d, hd, rfl⟩ := List.mem_map.mp ht
    obtain ⟨front, behind, hq⟩ := List.append_of_mem hd
    rw [depart_self, hq, filter_owner_split (hq ▸ hnd)]
    have hrev : (front ++ d :: behind).reverse = behind.reverse ++ d :: front.reverse := by simp
    have hnd' : ((behind.reverse ++ d :: front.reverse).map owner).Nodup := by
      rw [← hrev, ← hq]
      simpa using hnd
    have hnotin : owner d ∉ behind.reverse.map owner := by
      rw [List.map_append, List.map_cons, List.nodup_append] at hnd'
      exact fun h => hnd'.2.2 _ h _ (by simp) rfl
    rw [hq, hrev, waits_on_append hnotin rfl] at hclear
    rw [hrev, List.reverse_append]
    exact waits_on_remove hclear hnd' hu
  · rw [depart_self, filter_owner_eq_self ht, filter_owner_eq_self]
    intro h
    obtain ⟨x, hx, hxt⟩ := List.mem_map.mp h
    exact ht (List.mem_map.mpr ⟨x, List.mem_reverse.mp (waits_on_subset _ _ hx), hxt⟩)

/-- The owner that left points to nobody. -/
theorem waits_on_depart_self {queue : ρ → List ε} {r : ρ} {t : α} :
    waits_on owner excl (depart owner queue r t r).reverse t = [] := by
  apply waits_on_not_mem
  rw [depart_self]
  intro h
  obtain ⟨x, hx, hxt⟩ := List.mem_map.mp h
  have := (List.mem_filter.mp (List.mem_reverse.mp hx)).2
  simp [hxt] at this

end moves

/-! ## Section 2: The invariant -/

/-- What holds in every reachable state of the manager. -/
structure ManagerInv (owner : ε → α) (excl : ε → Bool) (m : Manager ε α ρ) : Prop where
  /-- Nobody has two entries on one resource. -/
  nodup : ∀ r, ((m.queue r).map owner).Nodup
  /-- Who waits for a resource has an entry there. -/
  waiting_mem : ∀ t r, m.waiting t = some r → t ∈ (m.queue r).map owner
  /-- Who does not wait for a resource points to nobody there. -/
  clear : ∀ t r, m.waiting t ≠ some r → waits_on owner excl (m.queue r).reverse t = []
  /-- The arrows form no cycle. -/
  acyclic : ∀ t, ¬ Relation.TransGen (waits owner excl m.queue) t t

section invariant
variable {owner : ε → α} {excl : ε → Bool}

omit [DecidableEq α] in
/-- New arrows that all start at `x` close a cycle only through `x`. -/
theorem acyclic_of_new_source {S S' : α → α → Prop} {x : α}
    (hold : ∀ t, ¬ Relation.TransGen S t t)
    (hnew : ∀ t u, S' t u → t ≠ x → S t u)
    (hx : ¬ Relation.TransGen S' x x) : ∀ t, ¬ Relation.TransGen S' t t := by
  -- A walk either uses old arrows only, or it passes through `x`.
  have walk : ∀ a b, Relation.TransGen S' a b →
      Relation.TransGen S a b ∨
        (Relation.ReflTransGen S' a x ∧ Relation.TransGen S' x b) := by
    intro a b h
    induction h with
    | single h =>
      by_cases ha : a = x
      · subst ha
        exact Or.inr ⟨.refl, .single h⟩
      · exact Or.inl (.single (hnew _ _ h ha))
    | @tail c d hac hcd ih =>
      rcases ih with ih | ⟨hax, hxc⟩
      · by_cases hc : c = x
        · subst hc
          exact Or.inr ⟨hac.to_reflTransGen, .single hcd⟩
        · exact Or.inl (ih.tail (hnew _ _ hcd hc))
      · exact Or.inr ⟨hax, hxc.tail hcd⟩
  intro t ht
  rcases walk t t ht with h | ⟨htx, hxt⟩
  · exact hold t h
  · exact hx (hxt.trans_left htx)

theorem managerInv_init {m : Manager ε α ρ} (h : (manager owner excl).init m) :
    ManagerInv owner excl m := by
  obtain ⟨hq, hw⟩ := h
  refine ⟨?_, ?_, ?_, ?_⟩
  · intro r
    simp [hq]
  · intro t r ht
    simp [hw] at ht
  · intro t r _
    simp [hq, waits_on]
  · intro t ht
    obtain ⟨u, ⟨r, hr⟩, _⟩ := Relation.TransGen.head'_iff.mp ht
    simp [hq, waits_on] at hr

omit [DecidableEq α] in
/-- Nobody leaves a queue at an arrival. -/
theorem mem_arrive {queue : ρ → List ε} {r r' : ρ} {e : ε} {t : α}
    (h : t ∈ (queue r').map owner) : t ∈ (arrive queue r e r').map owner := by
  by_cases hr : r' = r
  · subst hr
    rw [arrive_self, List.map_append]
    exact List.mem_append_left _ h
  · rwa [arrive_ne _ _ hr]

/-- An arrival leaves nobody else pointing differently, so the arrows that are
    new start at the owner that arrived. -/
theorem waits_of_arrive {queue : ρ → List ε} {r : ρ} {e : ε} {t u : α}
    (h : waits owner excl (arrive queue r e) t u) (ht : t ≠ owner e) :
    waits owner excl queue t u := by
  obtain ⟨r', hr'⟩ := h
  exact ⟨r', by rwa [waits_on_arrive ht] at hr'⟩

theorem managerInv_enter {m m' : Manager ε α ρ} {e : ε} {r : ρ}
    (hinv : ManagerInv owner excl m) (h : (manager owner excl).step m (.enter e r) m') :
    ManagerInv owner excl m' := by
  obtain ⟨hrun, hnew, hfree, rfl⟩ := h
  have hclear : ∀ r', waits_on owner excl (arrive m.queue r e r').reverse (owner e) = [] := by
    intro r'
    by_cases hr : r' = r
    · exact hr ▸ hfree
    · rw [arrive_ne _ _ hr]
      exact hinv.clear _ _ (by simp [hrun])
  refine ⟨arrive_nodup hinv.nodup hnew, ?_, ?_, ?_⟩
  · intro t r' ht
    exact mem_arrive (hinv.waiting_mem t r' ht)
  · intro t r' ht
    by_cases hte : t = owner e
    · exact hte ▸ hclear r'
    · simpa [waits_on_arrive hte] using hinv.clear t r' ht
  · apply acyclic_of_new_source hinv.acyclic (fun t u h ht => waits_of_arrive h ht)
    intro hcycle
    obtain ⟨u, ⟨r', hr'⟩, _⟩ := Relation.TransGen.head'_iff.mp hcycle
    simp [hclear] at hr'

theorem managerInv_wait {m m' : Manager ε α ρ} {e : ε} {r : ρ}
    (hinv : ManagerInv owner excl m) (h : (manager owner excl).step m (.wait e r) m') :
    ManagerInv owner excl m' := by
  obtain ⟨hrun, hnew, hcycle, rfl⟩ := h
  refine ⟨arrive_nodup hinv.nodup hnew, ?_, ?_, ?_⟩
  · intro t r' ht
    by_cases hte : t = owner e
    · subst hte
      simp only [Function.update_self, Option.some.injEq] at ht
      simp [← ht]
    · simp only [Function.update_of_ne hte] at ht
      exact mem_arrive (hinv.waiting_mem t r' ht)
  · intro t r' ht
    by_cases hte : t = owner e
    · subst hte
      simp only [Function.update_self, ne_eq, Option.some.injEq] at ht
      show waits_on owner excl (arrive m.queue r e r').reverse (owner e) = []
      rw [arrive_ne _ _ (Ne.symm ht)]
      exact hinv.clear _ _ (by simp [hrun])
    · simp only [Function.update_of_ne hte] at ht
      simpa [waits_on_arrive hte] using hinv.clear t r' ht
  · exact acyclic_of_new_source hinv.acyclic (fun t u h ht => waits_of_arrive h ht) hcycle

theorem managerInv_grant {m m' : Manager ε α ρ} {t : α} {r : ρ}
    (hinv : ManagerInv owner excl m) (h : (manager owner excl).step m (.grant t r) m') :
    ManagerInv owner excl m' := by
  obtain ⟨hwait, hfree, rfl⟩ := h
  refine ⟨hinv.nodup, ?_, ?_, hinv.acyclic⟩
  · intro u r' hu
    by_cases hut : u = t
    · subst hut
      simp at hu
    · simp only [Function.update_of_ne hut] at hu
      exact hinv.waiting_mem u r' hu
  · intro u r' hu
    by_cases hut : u = t
    · subst hut
      by_cases hr : r' = r
      · exact hr ▸ hfree
      · exact hinv.clear u r' (by simp [hwait, Ne.symm hr])
    · simp only [Function.update_of_ne hut] at hu
      exact hinv.clear u r' hu

/-- Leaving only deletes arrows. -/
theorem waits_of_depart {m : Manager ε α ρ} {r : ρ} {t u v : α}
    (hinv : ManagerInv owner excl m) (hrun : m.waiting t = none)
    (h : waits owner excl (depart owner m.queue r t) u v) : waits owner excl m.queue u v := by
  obtain ⟨r', hr'⟩ := h
  by_cases hr : r' = r
  · subst hr
    by_cases hut : u = t
    · subst hut
      rw [waits_on_depart_self] at hr'
      exact absurd hr' (by simp)
    · rw [waits_on_depart (hinv.nodup r') (hinv.clear t r' (by simp [hrun])) hut] at hr'
      exact ⟨r', (List.filter_sublist.map owner).subset hr'⟩
  · rw [depart_ne _ _ hr] at hr'
    exact ⟨r', hr'⟩

theorem managerInv_release {m m' : Manager ε α ρ} {t : α} {r : ρ}
    (hinv : ManagerInv owner excl m) (h : (manager owner excl).step m (.release t r) m') :
    ManagerInv owner excl m' := by
  obtain ⟨hrun, hmem, rfl⟩ := h
  refine ⟨depart_nodup hinv.nodup, ?_, ?_, ?_⟩
  · intro u r' hu
    have hut : u ≠ t := by
      intro heq
      subst heq
      simp [hrun] at hu
    have hmem' := hinv.waiting_mem u r' hu
    by_cases hr : r' = r
    · subst hr
      obtain ⟨x, hx, rfl⟩ := List.mem_map.mp hmem'
      refine List.mem_map.mpr ⟨x, ?_, rfl⟩
      simp [hx, hut]
    · simpa [hr] using hmem'
  · intro u r' hu
    by_cases hr : r' = r
    · subst hr
      by_cases hut : u = t
      · subst hut
        exact waits_on_depart_self
      · show waits_on owner excl (depart owner m.queue r' t r').reverse u = []
        rw [waits_on_depart (hinv.nodup r') (hinv.clear t r' (by simp [hrun])) hut,
          hinv.clear u r' hu]
        rfl
    · show waits_on owner excl (depart owner m.queue r t r').reverse u = []
      rw [depart_ne _ _ hr]
      exact hinv.clear u r' hu
  · intro u hu
    refine hinv.acyclic u (Relation.TransGen.mono (fun a b h => ?_) _ _ hu)
    exact waits_of_depart hinv hrun h

theorem managerInv_step {m m' : Manager ε α ρ} {act : Action ε α ρ}
    (hinv : ManagerInv owner excl m) (h : (manager owner excl).step m act m') :
    ManagerInv owner excl m' := by
  cases act with
  | enter e r => exact managerInv_enter hinv h
  | wait e r => exact managerInv_wait hinv h
  | grant t r => exact managerInv_grant hinv h
  | release t r => exact managerInv_release hinv h

end invariant

/-! ## Section 3: What the invariant is for -/

section consequences
variable {owner : ε → α} {excl : ε → Bool}

/-- An entry of the queue whose owner does not wait for the resource. -/
def granted (owner : ε → α) (m : Manager ε α ρ) (r : ρ) (e : ε) : Prop :=
  e ∈ m.queue r ∧ m.waiting (owner e) ≠ some r

/-- What an owner of a split queue points to. -/
theorem waits_on_split {front behind : List ε} {e : ε}
    (hnd : ((front ++ e :: behind).map owner).Nodup) :
    waits_on owner excl (front ++ e :: behind).reverse (owner e) =
      blockers excl (excl e) front.reverse := by
  have hrev : (front ++ e :: behind).reverse = behind.reverse ++ e :: front.reverse := by simp
  rw [hrev]
  refine waits_on_append ?_ rfl
  rw [List.map_append, List.map_cons, List.nodup_append] at hnd
  intro h
  exact (List.nodup_cons.mp hnd.2.1).1 (by simpa using h)

omit [DecidableEq ρ] in
/-- A granted exclusive entry is at the front; a granted shared entry has only
    shared entries ahead. -/
theorem granted_front {m : Manager ε α ρ} (hinv : ManagerInv owner excl m) {r : ρ} {e : ε}
    {front behind : List ε} (hq : m.queue r = front ++ e :: behind)
    (hg : m.waiting (owner e) ≠ some r) :
    (excl e = true → front = []) ∧ (excl e = false → ∀ x ∈ front, excl x = false) := by
  have hclear := hinv.clear (owner e) r hg
  have hnd := hinv.nodup r
  rw [hq] at hclear hnd
  rw [waits_on_split hnd] at hclear
  constructor
  · intro he
    rw [he, blockers_excl_eq_nil] at hclear
    simpa using hclear
  · intro he x hx
    rw [he, blockers_shared_eq_nil] at hclear
    exact hclear x (by simpa using hx)

omit [DecidableEq ρ] in
/-- **Exclusion.** Two granted entries of one resource are both shared. -/
theorem granted_compatible {m : Manager ε α ρ} (hinv : ManagerInv owner excl m) {r : ρ}
    {a b : ε} (ha : granted owner m r a) (hb : granted owner m r b) (hab : a ≠ b) :
    excl a = false ∧ excl b = false := by
  -- Whichever is behind has the other one ahead of it.
  have key : ∀ {x y : ε}, granted owner m r x → granted owner m r y →
      [x, y].Sublist (m.queue r) → excl x = false ∧ excl y = false := by
    intro x y hx hy hsub
    obtain ⟨l₁, l₂, hq, h₁, h₂⟩ := List.cons_sublist_iff.mp hsub
    obtain ⟨mid, behind, rfl⟩ := List.append_of_mem (List.singleton_sublist.mp h₂)
    have hq' : m.queue r = (l₁ ++ mid) ++ y :: behind := by simp [hq]
    obtain ⟨hexcl, hshared⟩ := granted_front hinv hq' hy.2
    have hmem : x ∈ l₁ ++ mid := List.mem_append_left _ h₁
    cases hye : excl y with
    | true =>
      rw [hexcl hye] at hmem
      exact absurd hmem (by simp)
    | false => exact ⟨hshared hye x hmem, rfl⟩
  obtain ⟨l₁, l₂, hq⟩ := List.append_of_mem ha.1
  have hbm := hb.1
  rw [hq, List.mem_append, List.mem_cons] at hbm
  rcases hbm with h | h | h
  · have hsub : [b, a].Sublist (m.queue r) := by
      rw [hq]
      simpa using (List.singleton_sublist.mpr h).append
        (List.singleton_sublist.mpr (List.mem_cons_self (a := a) (l := l₂)))
    exact (key hb ha hsub).symm
  · exact absurd h.symm hab
  · have hsub : [a, b].Sublist (m.queue r) := by
      rw [hq]
      exact (List.Sublist.cons_cons a (List.singleton_sublist.mpr h)).trans
        (List.sublist_append_right l₁ (a :: l₂))
    exact key ha hb hsub

/-! ### How each action changes what is granted -/

theorem granted_enter {m m' : Manager ε α ρ} {e : ε} {r : ρ}
    (h : (manager owner excl).step m (.enter e r) m') (r' : ρ) (x : ε) :
    granted owner m' r' x ↔ granted owner m r' x ∨ (r' = r ∧ x = e) := by
  obtain ⟨hrun, -, -, rfl⟩ := h
  by_cases hr : r' = r
  · subst hr
    simp only [granted, arrive_self, List.mem_append, List.mem_singleton, true_and]
    constructor
    · intro hqueued
      obtain ⟨hx | rfl, hw⟩ := hqueued
      · exact .inl ⟨hx, hw⟩
      · exact .inr rfl
    · intro hcase
      rcases hcase with ⟨hx, hw⟩ | rfl
      · exact ⟨.inl hx, hw⟩
      · exact ⟨.inr rfl, by simp [hrun]⟩
  · simp [granted, hr]

theorem granted_wait {m m' : Manager ε α ρ} {e : ε} {r : ρ}
    (h : (manager owner excl).step m (.wait e r) m') (r' : ρ) (x : ε) :
    granted owner m' r' x ↔ granted owner m r' x := by
  obtain ⟨hrun, hnew, -, rfl⟩ := h
  by_cases hx : owner x = owner e
  · -- The caller's other entries stay granted, and the new one waits.
    by_cases hr : r' = r
    · subst hr
      have hmem : x ∉ m.queue r' := fun hmem => hnew (hx ▸ List.mem_map_of_mem hmem)
      simp [granted, hx, hmem]
    · simp [granted, hx, hrun, arrive_ne _ _ hr, Ne.symm hr]
  · have hxe : x ≠ e := fun h => hx (h ▸ rfl)
    by_cases hr : r' = r
    · subst hr
      simp [granted, hx, hxe]
    · simp [granted, hx, arrive_ne _ _ hr]

theorem granted_grant {m m' : Manager ε α ρ} {t : α} {r : ρ}
    (h : (manager owner excl).step m (.grant t r) m') (r' : ρ) (x : ε) :
    granted owner m' r' x ↔
      granted owner m r' x ∨ (r' = r ∧ x ∈ m.queue r ∧ owner x = t) := by
  obtain ⟨hwait, -, rfl⟩ := h
  by_cases hx : owner x = t
  · by_cases hr : r' = r
    · subst hr
      simp [granted, hx, hwait]
    · simp [granted, hx, hwait, hr, Ne.symm hr]
  · simp [granted, hx]

theorem granted_release {m m' : Manager ε α ρ} {t : α} {r : ρ}
    (h : (manager owner excl).step m (.release t r) m') (r' : ρ) (x : ε) :
    granted owner m' r' x ↔ granted owner m r' x ∧ ¬ (r' = r ∧ owner x = t) := by
  obtain ⟨-, -, rfl⟩ := h
  by_cases hr : r' = r
  · subst hr
    simp only [granted, depart_self, List.mem_filter, decide_eq_true_eq, true_and]
    tauto
  · simp [granted, hr]

omit [DecidableEq α] in
/-- **Progress.** Without cycles, not everybody in a finite nonempty group can
    have an arrow into the group. -/
theorem exists_unblocked {S : α → α → Prop} (hacyclic : ∀ t, ¬ Relation.TransGen S t t)
    (group : Finset α) (hne : group.Nonempty) : ∃ t ∈ group, ∀ u ∈ group, ¬ S t u := by
  classical
  -- On the finite group the closure of the arrows is a strict order.
  let R : group → group → Prop := fun a b => Relation.TransGen S b.1 a.1
  have htrans : IsTrans group R := ⟨fun a b c hab hbc => hbc.trans hab⟩
  have hirr : Std.Irrefl R := ⟨fun a h => hacyclic a.1 h⟩
  have hwf : WellFounded R := Finite.wellFounded_of_trans_of_irrefl R
  obtain ⟨x, hx⟩ := hne
  obtain ⟨t, -, ht⟩ := hwf.has_min Set.univ ⟨⟨x, hx⟩, trivial⟩
  exact ⟨t.1, t.2, fun u hu h => ht ⟨u, hu⟩ trivial (.single h)⟩

end consequences

end LockQueue
