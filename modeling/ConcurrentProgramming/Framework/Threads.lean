import Mathlib.Logic.Function.Basic
import Mathlib.Data.List.Basic

/-! # Threads with Calls and Mutexes

    A table `thread` gives the call that each thread is executing, if any.

    * `update_some`, `update_none`: the table after one thread has moved.
    * `Distinct thread f`: no two threads have the same `f`, for something like an
      id or a piece of memory that belongs to one call.
    * `Locked mutex thread holds`: the mutexes are held by the threads whose calls
      say so.

    A thread that moves, starts a call or finishes one keeps these properties.
-/

namespace Threads

universe u v w

variable {ι : Type u} {κ : Type v} {α : Type w}
variable {thread : ι → Option κ} {p q : ι} {c c' cq : κ}

/-! ## Section 1: The table of calls -/

section Table

variable [DecidableEq ι]

theorem update_some (h : Function.update thread p (some c') q = some cq) :
    q = p ∧ cq = c' ∨ q ≠ p ∧ thread q = some cq := by
  by_cases hq : q = p
  · subst hq
    rw [Function.update_self, Option.some.injEq] at h
    exact .inl ⟨rfl, h.symm⟩
  · rw [Function.update_of_ne hq] at h
    exact .inr ⟨hq, h⟩

theorem update_none (h : Function.update thread p none q = some cq) :
    q ≠ p ∧ thread q = some cq := by
  by_cases hq : q = p
  · rw [hq, Function.update_self] at h
    cases h
  · rw [Function.update_of_ne hq] at h
    exact ⟨hq, h⟩

end Table

/-! ## Section 2: What belongs to one thread -/

/-- No two threads have the same `f`. -/
def Distinct (thread : ι → Option κ) (f : κ → Option α) : Prop :=
  ∀ p c q cq a, thread p = some c → thread q = some cq → f c = some a → f cq = some a → p = q

namespace Distinct

variable [DecidableEq ι] {f f' : κ → Option α}

/-- Thread `p` goes on with the call `c'`, and `f` may change for this thread. -/
theorem update_of (h : Distinct thread f)
    (hsame : ∀ q cq, q ≠ p → thread q = some cq → f' cq = f cq)
    (hnew : ∀ a, f' c' = some a → (∃ c, thread p = some c ∧ f c = some a) ∨
      ∀ q cq, thread q = some cq → f cq ≠ some a) :
    Distinct (Function.update thread p (some c')) f' := by
  have hself : ∀ q cq a, q ≠ p → thread q = some cq → f' c' = some a → f' cq = some a → p = q := by
    intro q cq a hne hq ha haq
    rw [hsame q cq hne hq] at haq
    rcases hnew a ha with ⟨c, hp, hc⟩ | hfresh
    · exact h p c q cq a hp hq hc haq
    · exact absurd haq (hfresh q cq hq)
  intro p₁ c₁ p₂ c₂ a h₁ h₂ ha₁ ha₂
  rcases update_some h₁ with ⟨rfl, rfl⟩ | ⟨hne₁, h₁'⟩
  · rcases update_some h₂ with ⟨rfl, rfl⟩ | ⟨hne₂, h₂'⟩
    · rfl
    · exact hself p₂ c₂ a hne₂ h₂' ha₁ ha₂
  · rcases update_some h₂ with ⟨rfl, rfl⟩ | ⟨hne₂, h₂'⟩
    · exact (hself p₁ c₁ a hne₁ h₁' ha₂ ha₁).symm
    · rw [hsame p₁ c₁ hne₁ h₁'] at ha₁
      rw [hsame p₂ c₂ hne₂ h₂'] at ha₂
      exact h p₁ c₁ p₂ c₂ a h₁' h₂' ha₁ ha₂

theorem update (h : Distinct thread f)
    (hnew : ∀ a, f c' = some a → (∃ c, thread p = some c ∧ f c = some a) ∨
      ∀ q cq, thread q = some cq → f cq ≠ some a) :
    Distinct (Function.update thread p (some c')) f :=
  h.update_of (fun _ _ _ _ => rfl) hnew

/-- Thread `p` has finished its call. -/
theorem finish (h : Distinct thread f) : Distinct (Function.update thread p none) f :=
  fun p₁ c₁ p₂ c₂ a h₁ h₂ => h p₁ c₁ p₂ c₂ a (update_none h₁).2 (update_none h₂).2

end Distinct

/-! ## Section 3: Mutexes -/

/-- `mutex a` is the thread whose call holds `a`. -/
def Locked (mutex : α → Option ι) (thread : ι → Option κ) (holds : κ → List α) : Prop :=
  ∀ a p, mutex a = some p ↔ ∃ c, thread p = some c ∧ a ∈ holds c

namespace Locked

variable {mutex mutex' : α → Option ι} {holds : κ → List α} {a : α}

theorem held (h : Locked mutex thread holds) (hp : thread p = some c) (ha : a ∈ holds c) :
    mutex a = some p :=
  (h a p).mpr ⟨c, hp, ha⟩

/-- Nobody else holds what a thread holds. -/
theorem not_held (h : Locked mutex thread holds) (hp : thread p = some c) (hq : thread q = some cq)
    (hne : q ≠ p) (ha : a ∈ holds c) : a ∉ holds cq := by
  intro haq
  have heq := h.held hp ha
  rw [h.held hq haq, Option.some.injEq] at heq
  exact hne heq

/-- A mutex that no call holds is free. -/
theorem free (h : Locked mutex thread holds) (ha : ∀ q cq, thread q = some cq → a ∉ holds cq) :
    mutex a = none := by
  cases hm : mutex a with
  | none => rfl
  | some q =>
    obtain ⟨cq, hq, haq⟩ := (h a q).mp hm
    exact absurd haq (ha q cq hq)

/-- The mutexes after a step that locks and unlocks nothing. -/
theorem same [DecidableEq α] (h : Locked mutex thread holds) (hp : thread p = some c) {l : List α}
    (hl : l = holds c) (hsame : ∀ b, mutex' b = mutex b) (b : α) :
    mutex' b = if b ∈ l then some p else if b ∈ holds c then none else mutex b := by
  rw [hl, hsame]
  split
  · next hb => exact h.held hp hb
  · rfl

/-- The mutexes after a step that locks `a`. -/
theorem lock [DecidableEq α] (h : Locked mutex thread holds) (hp : thread p = some c) {l : List α}
    (hl : ∀ b, b ∈ l ↔ b = a ∨ b ∈ holds c)
    (hlock : ∀ b, mutex' b = if b = a then some p else mutex b) (b : α) :
    mutex' b = if b ∈ l then some p else if b ∈ holds c then none else mutex b := by
  rw [hlock]
  by_cases hb : b = a
  · simp [hb, hl]
  · by_cases hb' : b ∈ holds c
    · simp only [hb, hl, hb', if_false, or_true, if_true]
      exact h.held hp hb'
    · simp [hb, hl, hb']

/-- The mutexes after a step that unlocks `a`. -/
theorem unlock [DecidableEq α] (h : Locked mutex thread holds) (hp : thread p = some c)
    {l : List α} (hl : ∀ b, b ∈ l ↔ b ≠ a ∧ b ∈ holds c) (ha : a ∈ holds c)
    (hunlock : ∀ b, mutex' b = if b = a then none else mutex b) (b : α) :
    mutex' b = if b ∈ l then some p else if b ∈ holds c then none else mutex b := by
  rw [hunlock]
  by_cases hb : b = a
  · simp [hb, hl, ha]
  · by_cases hb' : b ∈ holds c
    · simp only [hb, hl, hb', if_false, ne_eq, not_false_eq_true, and_self, if_true]
      exact h.held hp hb'
    · simp [hb, hl, hb']

variable [DecidableEq ι]

/-- Thread `p` goes on with the call `c'`: what this call holds is taken, the rest
    of what `c` held is released. -/
theorem update [DecidableEq α] (h : Locked mutex thread holds) (hp : thread p = some c)
    (hmutex : ∀ b, mutex' b = if b ∈ holds c' then some p
      else if b ∈ holds c then none else mutex b)
    (hfree : ∀ b ∈ holds c', b ∉ holds c → mutex b = none) :
    Locked mutex' (Function.update thread p (some c')) holds := by
  intro a q
  rw [hmutex]
  by_cases hq : q = p
  · subst hq
    rw [Function.update_self]
    simp only [Option.some.injEq, exists_eq_left']
    by_cases hnew : a ∈ holds c'
    · simp [hnew]
    · simp only [hnew, if_false, iff_false]
      by_cases hold : a ∈ holds c
      · simp [hold]
      · simp only [hold, if_false]
        intro heq
        obtain ⟨cq, hcq, hcq'⟩ := (h a q).mp heq
        rw [hp, Option.some.injEq] at hcq
        exact hold (hcq ▸ hcq')
  · rw [Function.update_of_ne hq, ← h a q]
    by_cases hnew : a ∈ holds c'
    · simp only [hnew, if_true, Option.some.injEq]
      constructor
      · exact fun heq => absurd heq.symm hq
      · intro heq
        by_cases hold : a ∈ holds c
        · rw [h.held hp hold, Option.some.injEq] at heq
          exact heq
        · rw [hfree a hnew hold] at heq
          cases heq
    · simp only [hnew, if_false]
      by_cases hold : a ∈ holds c
      · simp only [hold, if_true]
        constructor
        · exact fun heq => by cases heq
        · intro heq
          rw [h.held hp hold, Option.some.injEq] at heq
          exact absurd heq.symm hq
      · simp only [hold, if_false]

/-- Thread `p` starts a call that holds nothing. -/
theorem start (h : Locked mutex thread holds) (hp : thread p = none) (hholds : holds c' = []) :
    Locked mutex (Function.update thread p (some c')) holds := by
  intro a q
  rw [h a q]
  constructor
  · intro hq
    obtain ⟨cq, hq, ha⟩ := hq
    have hne : q ≠ p := by
      intro heq
      rw [heq, hp] at hq
      cases hq
    exact ⟨cq, (Function.update_of_ne hne _ _).trans hq, ha⟩
  · intro hq
    obtain ⟨cq, hq, ha⟩ := hq
    rcases update_some hq with ⟨rfl, rfl⟩ | ⟨-, hq'⟩
    · rw [hholds] at ha
      cases ha
    · exact ⟨cq, hq', ha⟩

/-- Thread `p` finishes a call that holds nothing. -/
theorem finish (h : Locked mutex thread holds) (hp : thread p = some c) (hholds : holds c = []) :
    Locked mutex (Function.update thread p none) holds := by
  intro a q
  rw [h a q]
  constructor
  · intro hq
    obtain ⟨cq, hq, ha⟩ := hq
    have hne : q ≠ p := by
      intro heq
      rw [heq, hp, Option.some.injEq] at hq
      rw [← hq, hholds] at ha
      cases ha
    exact ⟨cq, (Function.update_of_ne hne _ _).trans hq, ha⟩
  · intro hq
    obtain ⟨cq, hq, ha⟩ := hq
    exact ⟨cq, (update_none hq).2, ha⟩

end Locked

end Threads
