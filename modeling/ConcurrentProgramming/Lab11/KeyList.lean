import ConcurrentProgramming.Framework.Sequential
import ConcurrentProgramming.Framework.SortedLinks
import ConcurrentProgramming.Lab11.NodeHeap
import Mathlib.Data.List.Sort
import Mathlib.Data.List.Count

/-! # The Keys of a List

    What the lists show to the outside is the sequence of keys between the head
    and the tail.  As operations on this sequence,

    * `keep_all` is what the coarse-grained list does: a key can occur several
      times,
    * `keep_one` is what the fine-grained list does: a key occurs once.

    How often a key occurs depends only on the operations with this key, in their
    order (`count_final`).  So if every key is used by one thread only, the order
    of the operations of different threads does not matter (`final_eq_of_projections`).
-/

namespace Lab11

open SortedLinks Sequential

/-- The keys from `head->next` up to the tail. -/
def key_sequence (h : Heap) (keys : List ℤ) : Prop :=
  ∃ l, Between h.next tail head l ∧ keys = l.map h.key

theorem key_sequence_unique {h : Heap} {keys keys' : List ℤ} (hk : key_sequence h keys)
    (hk' : key_sequence h keys') : keys = keys' := by
  obtain ⟨l, hl, rfl⟩ := hk
  obtain ⟨l', hl', rfl⟩ := hk'
  rw [hl.unique hl']

/-- The coarse-grained list: result and keys of an operation. -/
def keep_all (keys : List ℤ) : Operation → Bool × List ℤ
  | .add k => (true, keys.orderedInsert (· ≤ ·) k)
  | .remove k => (decide (k ∈ keys), keys.erase k)
  | .contains k => (decide (k ∈ keys), keys)

/-- The fine-grained list: result and keys of an operation. -/
def keep_one (keys : List ℤ) : Operation → Bool × List ℤ
  | .add k => if k ∈ keys then (false, keys) else (true, keys.orderedInsert (· ≤ ·) k)
  | .remove k => (decide (k ∈ keys), keys.erase k)
  | .contains k => (decide (k ∈ keys), keys)

/-! ## Section 1: Sorted sequences -/

theorem keep_all_sorted {keys : List ℤ} (h : keys.Pairwise (· ≤ ·)) (op : Operation) :
    (keep_all keys op).2.Pairwise (· ≤ ·) := by
  cases op with
  | add k => exact h.orderedInsert k keys
  | remove k => exact h.sublist List.erase_sublist
  | contains k => exact h

theorem final_sorted {keys : List ℤ} (h : keys.Pairwise (· ≤ ·)) (ops : List Operation) :
    (final keep_all keys ops).Pairwise (· ≤ ·) := by
  induction ops generalizing keys with
  | nil => exact h
  | cons op ops ih => exact ih (keep_all_sorted h op)

/-- The place where a key is inserted. -/
theorem orderedInsert_append {keys₁ keys₂ : List ℤ} {k : ℤ} (h₁ : ∀ x ∈ keys₁, x < k)
    (h₂ : ∀ x ∈ keys₂, k ≤ x) :
    (keys₁ ++ keys₂).orderedInsert (· ≤ ·) k = keys₁ ++ k :: keys₂ := by
  induction keys₁ with
  | nil =>
    cases keys₂ with
    | nil => rfl
    | cons x keys₂ => exact List.orderedInsert_cons_of_le _ _ (h₂ x List.mem_cons_self)
  | cons x keys₁ ih =>
    have hx : ¬ k ≤ x := not_le.mpr (h₁ x List.mem_cons_self)
    rw [List.cons_append, List.orderedInsert_of_not_le _ _ hx,
      ih fun y hy => h₁ y (List.mem_cons_of_mem x hy), List.cons_append]

/-! ## Section 2: How often a key occurs -/

/-- How often the key of an operation occurs afterwards. -/
def tally (n : ℕ) : Operation → ℕ
  | .add _ => n + 1
  | .remove _ => n - 1
  | .contains _ => n

theorem count_keep_all (keys : List ℤ) (op : Operation) (k : ℤ) :
    (keep_all keys op).2.count k =
      if op.key = k then tally (keys.count k) op else keys.count k := by
  cases op with
  | add k' =>
    by_cases hk : k' = k <;> simp [keep_all, Operation.key, tally, List.orderedInsert_count, hk]
  | remove k' =>
    by_cases hk : k' = k <;> simp [keep_all, Operation.key, tally, List.count_erase, hk]
  | contains k' => exact (ite_self _).symm

/-- Only the operations with this key matter. -/
theorem count_final (keys : List ℤ) (ops : List Operation) (k : ℤ) :
    (final keep_all keys ops).count k =
      (ops.filter (·.key = k)).foldl tally (keys.count k) := by
  induction ops generalizing keys with
  | nil => rfl
  | cons op ops ih =>
    rw [final, ih, count_keep_all]
    by_cases hk : op.key = k
    · rw [if_pos hk, List.filter_cons_of_pos (by simpa using hk), List.foldl_cons]
    · rw [if_neg hk, List.filter_cons_of_neg (by simpa using hk)]

/-- Sorted sequences in which every key occurs equally often are equal. -/
theorem eq_of_count {keys keys' : List ℤ} (h : keys.Pairwise (· ≤ ·))
    (h' : keys'.Pairwise (· ≤ ·)) (hcount : ∀ k, keys.count k = keys'.count k) : keys = keys' :=
  (List.perm_iff_count.mpr hcount).eq_of_pairwise' h h'

/-! ## Section 3: Several threads -/

/-- No key is used by two threads. -/
def disjoint_keys (work : ℕ → List Operation) : Prop :=
  ∀ p q, p ≠ q → ∀ op ∈ work p, ∀ op' ∈ work q, op.key ≠ op'.key

/-- For every key there is a thread that may use it alone. -/
theorem exists_owner {work : ℕ → List Operation} (h : disjoint_keys work) (k : ℤ) :
    ∃ p, ∀ q, q ≠ p → ∀ op ∈ work q, op.key ≠ k := by
  by_cases huse : ∃ p, ∃ op ∈ work p, op.key = k
  · obtain ⟨p, op, hop, hk⟩ := huse
    exact ⟨p, fun q hne op' hop' => hk ▸ h q p hne op' hop' op hop⟩
  · refine ⟨0, fun q _ op hop hk => ?_⟩
    exact huse ⟨q, op, hop, hk⟩

/-- The operations with a key are those of its thread, in the order of this
    thread. -/
theorem filter_key {work : ℕ → List Operation} {order : List (ℕ × Operation)} {k : ℤ} {p : ℕ}
    (hproj : ∀ q, (order.filter (·.1 = q)).map Prod.snd = work q)
    (hown : ∀ q, q ≠ p → ∀ op ∈ work q, op.key ≠ k) :
    (order.map Prod.snd).filter (·.key = k) = (work p).filter (·.key = k) := by
  rw [← hproj p, List.filter_map, List.filter_map, List.filter_filter]
  congr 1
  apply List.filter_congr
  intro e he
  by_cases hk : e.2.key = k
  · have hp : e.1 = p := by
      by_contra hne
      have hmem : e.2 ∈ work e.1 := by
        rw [← hproj e.1]
        exact List.mem_map_of_mem (List.mem_filter.mpr ⟨he, by simp⟩)
      exact hown e.1 hne e.2 hmem hk
    simp [hk, hp]
  · simp [hk]

/-- **The order of the operations of different threads does not matter.** -/
theorem final_eq_of_projections {work : ℕ → List Operation} (hdisjoint : disjoint_keys work)
    {order order' : List (ℕ × Operation)}
    (hproj : ∀ q, (order.filter (·.1 = q)).map Prod.snd = work q)
    (hproj' : ∀ q, (order'.filter (·.1 = q)).map Prod.snd = work q) :
    final keep_all [] (order.map Prod.snd) = final keep_all [] (order'.map Prod.snd) := by
  apply eq_of_count (final_sorted List.Pairwise.nil _) (final_sorted List.Pairwise.nil _)
  intro k
  obtain ⟨p, hown⟩ := exists_owner hdisjoint k
  rw [count_final, count_final, filter_key hproj hown, filter_key hproj' hown]

/-! ## Section 4: Where the two lists agree -/

/-- No operation adds a key that is `present`, which means that it was added and
    not removed since then. -/
def adds_new : Finset ℤ → List Operation → Prop
  | _, [] => True
  | present, .add k :: ops => k ∉ present ∧ adds_new (insert k present) ops
  | present, .remove k :: ops => adds_new (present.erase k) ops
  | present, .contains _ :: ops => adds_new present ops

instance adds_new_decidable : (present : Finset ℤ) → (ops : List Operation) →
    Decidable (adds_new present ops)
  | _, [] => isTrue trivial
  | present, .add k :: ops =>
      have := adds_new_decidable (insert k present) ops
      inferInstanceAs (Decidable (k ∉ present ∧ adds_new (insert k present) ops))
  | present, .remove k :: ops => adds_new_decidable (present.erase k) ops
  | present, .contains _ :: ops => adds_new_decidable present ops

theorem nodup_orderedInsert {keys : List ℤ} {k : ℤ} (h : keys.Nodup) (hk : k ∉ keys) :
    (keys.orderedInsert (· ≤ ·) k).Nodup :=
  (List.perm_orderedInsert (· ≤ ·) k keys).nodup_iff.mpr (List.nodup_cons.mpr ⟨hk, h⟩)

theorem toFinset_orderedInsert (keys : List ℤ) (k : ℤ) :
    (keys.orderedInsert (· ≤ ·) k).toFinset = insert k keys.toFinset := by
  ext x
  simp [List.mem_orderedInsert]

theorem toFinset_erase {keys : List ℤ} (h : keys.Nodup) (k : ℤ) :
    (keys.erase k).toFinset = keys.toFinset.erase k := by
  ext x
  simp [h.mem_erase_iff]

/-- The results of `keep_one` are those of a set. -/
theorem keep_one_spec {keys : List ℤ} (h : keys.Pairwise (· < ·)) (op : Operation) :
    (keep_one keys op).1 = op.result (decide (op.key ∈ keys.toFinset)) ∧
      (keep_one keys op).2.Pairwise (· < ·) ∧
      (keep_one keys op).2.toFinset = op.update keys.toFinset := by
  have hnodup : keys.Nodup := h.imp fun hlt => ne_of_lt hlt
  cases op with
  | add k =>
    by_cases hk : k ∈ keys
    · simp only [keep_one, hk, if_true, Operation.result, Operation.key, Operation.update]
      refine ⟨by simp [hk], h, ?_⟩
      exact (Finset.insert_eq_of_mem (List.mem_toFinset.mpr hk)).symm
    · simp only [keep_one, hk, if_false, Operation.result, Operation.key, Operation.update]
      refine ⟨by simp [hk], ?_, toFinset_orderedInsert keys k⟩
      have hle := (h.imp le_of_lt).orderedInsert k keys
      exact (hle.and (nodup_orderedInsert hnodup hk)).imp fun hx => lt_of_le_of_ne hx.1 hx.2
  | remove k =>
    refine ⟨by simp [keep_one, Operation.result, Operation.key], h.sublist List.erase_sublist, ?_⟩
    exact toFinset_erase hnodup k
  | contains k => exact ⟨by simp [keep_one, Operation.result, Operation.key], h, rfl⟩

/-- A sorted sequence is determined by the set of its keys. -/
theorem eq_of_toFinset {keys keys' : List ℤ} (h : keys.Pairwise (· < ·))
    (h' : keys'.Pairwise (· < ·)) (heq : keys.toFinset = keys'.toFinset) : keys = keys' := by
  have hperm := List.perm_of_nodup_nodup_toFinset_eq (h.imp fun hlt => ne_of_lt hlt)
    (h'.imp fun hlt => ne_of_lt hlt) heq
  exact hperm.eq_of_pairwise' (h.imp le_of_lt) (h'.imp le_of_lt)

/-- **`keep_one` and `keep_all` show the same** exactly if no key is added that is
    already there. -/
theorem outputs_eq_iff {keys : List ℤ} (h : keys.Nodup) (ops : List Operation) :
    outputs keep_one keys ops = outputs keep_all keys ops ↔ adds_new keys.toFinset ops := by
  induction ops generalizing keys with
  | nil => exact iff_of_true rfl trivial
  | cons op ops ih =>
    cases op with
    | add k =>
      by_cases hk : k ∈ keys
      · refine iff_of_false (fun heq => ?_) (fun hnew => hnew.1 (List.mem_toFinset.mpr hk))
        have hhead := (List.cons.inj heq).1
        simp [keep_one, keep_all, hk] at hhead
      · have hstep : keep_one keys (.add k) = keep_all keys (.add k) := by
          simp [keep_one, keep_all, hk]
        rw [outputs, outputs, hstep, List.cons_inj_right, keep_all, ih (nodup_orderedInsert h hk),
          toFinset_orderedInsert, adds_new, List.mem_toFinset]
        exact (and_iff_right hk).symm
    | remove k =>
      have hstep : keep_one keys (.remove k) = keep_all keys (.remove k) := rfl
      rw [outputs, outputs, hstep, List.cons_inj_right, keep_all, ih (h.erase k), toFinset_erase h,
        adds_new]
    | contains k =>
      have hstep : keep_one keys (.contains k) = keep_all keys (.contains k) := rfl
      rw [outputs, outputs, hstep, List.cons_inj_right, keep_all, ih h, adds_new]

end Lab11
