import ConcurrentProgramming.Lab11.ListSet
import Mathlib.Logic.Function.Basic

/-! # Nodes with Mutexes (`Node`, `list_init`)

    The memory of the three lists: allocated nodes by address.  A pointer that is
    `NULL` or was never set is `none`.  The coarse-grained list has no mutexes in
    its nodes.

    An access to memory that is not allocated, or an unlock by a thread that does
    not hold the mutex, is undefined and has no result.  Locking a mutex that is
    held has no result either: the thread waits.
-/

namespace Lab11

open CInt

/-- `struct Node`; `mutex` is the thread that holds it. -/
structure Node where
  key   : ℤ
  next  : Option ℕ
  mutex : Option ℕ
  deriving DecidableEq, Repr

abbrev Heap := ℕ → Option Node

/-- The address of the first node. -/
abbrev head : ℕ := 0

/-- The address of the last node. -/
abbrev tail : ℕ := 1

/-- `list_init`. -/
def list_init : Heap := fun a =>
  if a = head then some ⟨INT_MIN, some tail, none⟩
  else if a = tail then some ⟨INT_MAX, none, none⟩
  else none

namespace Heap

variable {h h' : Heap} {a p : ℕ}

/-! ## Section 1: Accesses -/

/-- `pthread_mutex_lock(&a->mutex)` by thread `p`. -/
def lock (h : Heap) (p a : ℕ) : Option Heap :=
  match h a with
  | some n =>
      if n.mutex = none then some (Function.update h a (some { n with mutex := some p })) else none
  | none => none

/-- `pthread_mutex_unlock(&a->mutex)` by thread `p`. -/
def unlock (h : Heap) (p a : ℕ) : Option Heap :=
  match h a with
  | some n =>
      if n.mutex = some p then some (Function.update h a (some { n with mutex := none })) else none
  | none => none

/-- `a->next = pointer`. -/
def store_next (h : Heap) (a : ℕ) (pointer : Option ℕ) : Option Heap :=
  match h a with
  | some n => some (Function.update h a (some { n with next := pointer }))
  | none => none

/-- `malloc` with `node->key = key`, at the address `a`. -/
def malloc (h : Heap) (a : ℕ) (key : ℤ) : Option Heap :=
  match h a with
  | some _ => none
  | none => some (Function.update h a (some ⟨key, none, none⟩))

/-- `free(a)`. -/
def free (h : Heap) (a : ℕ) : Option Heap :=
  match h a with
  | some _ => some (Function.update h a none)
  | none => none

/-! ## Section 2: Fields -/

def key (h : Heap) (a : ℕ) : ℤ := ((h a).map Node.key).getD 0

def next (h : Heap) (a : ℕ) : Option ℕ := (h a).bind Node.next

def mutex (h : Heap) (a : ℕ) : Option ℕ := (h a).bind Node.mutex

def allocated (h : Heap) (a : ℕ) : Prop := h a ≠ none

instance (h : Heap) (a : ℕ) : Decidable (h.allocated a) := inferInstanceAs (Decidable (h a ≠ none))

/-- What a change of one node leaves alone. -/
structure KeepsNodes (h h' : Heap) : Prop where
  key       : ∀ b, h'.key b = h.key b
  allocated : ∀ b, h'.allocated b ↔ h.allocated b

theorem bounded_of_allocated (hsame : ∀ b, h'.allocated b ↔ h.allocated b)
    (hbounded : ∃ N, ∀ b, N ≤ b → h b = none) : ∃ N, ∀ b, N ≤ b → h' b = none := by
  obtain ⟨N, hN⟩ := hbounded
  refine ⟨N, fun b hb => ?_⟩
  by_contra halloc
  exact (hsame b).mp halloc (hN b hb)

theorem lock_spec (hl : h.lock p a = some h') :
    h.mutex a = none ∧ h.allocated a ∧ KeepsNodes h h' ∧ (∀ b, h'.next b = h.next b) ∧
      (∀ b, h'.mutex b = if b = a then some p else h.mutex b) ∧ ∀ b, b ≠ a → h' b = h b := by
  unfold lock at hl
  split at hl
  · next n hn =>
    split at hl
    · next hfree =>
      cases hl
      refine ⟨by simp [mutex, hn, hfree], by simp [allocated, hn], ⟨?_, ?_⟩, ?_, ?_, ?_⟩ <;>
        intro b <;> by_cases hb : b = a <;>
        simp [key, allocated, next, mutex, hb, hn]
    · cases hl
  · cases hl

theorem lock_eq_some (ha : h.allocated a) (hm : h.mutex a = none) : ∃ h', h.lock p a = some h' := by
  cases hn : h a with
  | none => exact absurd hn ha
  | some n =>
    simp only [mutex, hn, Option.bind_some] at hm
    exact ⟨_, by rw [lock, hn]; exact if_pos hm⟩

theorem unlock_spec (hl : h.unlock p a = some h') :
    h.mutex a = some p ∧ KeepsNodes h h' ∧ (∀ b, h'.next b = h.next b) ∧
      (∀ b, h'.mutex b = if b = a then none else h.mutex b) ∧ ∀ b, b ≠ a → h' b = h b := by
  unfold unlock at hl
  split at hl
  · next n hn =>
    split at hl
    · next hheld =>
      cases hl
      refine ⟨by simp [mutex, hn, hheld], ⟨?_, ?_⟩, ?_, ?_, ?_⟩ <;>
        intro b <;> by_cases hb : b = a <;>
        simp [key, allocated, next, mutex, hb, hn]
    · cases hl
  · cases hl

theorem unlock_eq_some (hm : h.mutex a = some p) : ∃ h', h.unlock p a = some h' := by
  cases hn : h a with
  | none => simp [mutex, hn] at hm
  | some n =>
    simp only [mutex, hn, Option.bind_some] at hm
    exact ⟨_, by rw [unlock, hn]; exact if_pos hm⟩

theorem store_next_spec {pointer : Option ℕ} (hs : h.store_next a pointer = some h') :
    KeepsNodes h h' ∧ (∀ b, h'.mutex b = h.mutex b) ∧
      (∀ b, h'.next b = if b = a then pointer else h.next b) ∧
      ∀ b, b ≠ a → h' b = h b := by
  unfold store_next at hs
  split at hs
  · next n hn =>
    cases hs
    refine ⟨⟨?_, ?_⟩, ?_, ?_, ?_⟩ <;>
      intro b <;> by_cases hb : b = a <;>
      simp [key, allocated, next, mutex, hb, hn]
  · cases hs

theorem store_next_eq_some {pointer : Option ℕ} (ha : h.allocated a) :
    ∃ h', h.store_next a pointer = some h' := by
  cases hn : h a with
  | none => exact absurd hn ha
  | some n => exact ⟨_, by rw [store_next, hn]⟩

theorem malloc_spec {k : ℤ} (hm : h.malloc a k = some h') :
    ¬ h.allocated a ∧ h' a = some ⟨k, none, none⟩ ∧ ∀ b, b ≠ a → h' b = h b := by
  unfold malloc at hm
  split at hm
  · cases hm
  · next hn =>
    cases hm
    exact ⟨fun ha => ha hn, Function.update_self _ _ _, fun b hb => Function.update_of_ne hb _ _⟩

/-- A new node has no pointer and a free mutex, as if it were not there. -/
theorem malloc_fields {k : ℤ} (hm : h.malloc a k = some h') :
    (∀ b, h'.next b = h.next b) ∧ ∀ b, h'.mutex b = h.mutex b := by
  obtain ⟨hnew, hat, hother⟩ := malloc_spec hm
  have hnone : h a = none := not_not.mp hnew
  refine ⟨fun b => ?_, fun b => ?_⟩
  · by_cases hb : b = a
    · simp [next, hb, hat, hnone]
    · rw [next, next, hother b hb]
  · by_cases hb : b = a
    · simp [mutex, hb, hat, hnone]
    · rw [mutex, mutex, hother b hb]

theorem free_spec (hf : h.free a = some h') :
    h.allocated a ∧ h' a = none ∧ ∀ b, b ≠ a → h' b = h b := by
  unfold free at hf
  split at hf
  · next n hn =>
    cases hf
    exact ⟨by simp [allocated, hn], Function.update_self _ _ _,
      fun b hb => Function.update_of_ne hb _ _⟩
  · cases hf

/-- All mutexes are free at the beginning. -/
theorem mutex_init : list_init.mutex a = none := by
  unfold mutex list_init
  split
  · rfl
  · split <;> rfl

end Heap

end Lab11
