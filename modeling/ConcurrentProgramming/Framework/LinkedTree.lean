import Mathlib.Data.Finmap
import Mathlib.Data.Finset.Union
import Mathlib.Data.Fintype.Basic
import Mathlib.Logic.Pairwise

/-! # Trees in Memory

    A heap is a finite map from addresses to cells, and a pointer is an address or
    null.  A tree is laid out in a heap if its root is a cell whose pointers lead to
    its subtrees, and no cell is used twice (`Holds`).  The set of addresses that
    belong to the tree is part of the statement, so that what happens elsewhere is
    known not to matter (`Holds.frame`).

    * `Rewrites h h' A A'`: the cells `A` of `h` have been given up for the cells `A'`
      of `h'`, and all others are as they were.  Such changes compose.
    * `Opened`: the root of a tree together with its subtrees, so that one subtree can
      be replaced by another (`Opened.replace`).
    * `walk`: the cell at the end of a path; the cells of a tree are its paths
      (`Holds.exists_path`, `Holds.path_unique`).
-/

namespace LinkedTree

abbrev Address : Type := ℕ

/-- `none` is the null pointer. -/
abbrev Pointer : Type := Option Address

/-- What is allocated, with its contents. -/
abbrev Heap (C : Type) : Type := Finmap fun _ : Address => C

variable {C D ι T : Type}

/-- How cells hold trees.  A cell has some data and a pointer for each direction; a
    tree is empty, or it has some data and a subtree for each direction. -/
structure Layout (C D ι T : Type) where
  data : C → D
  link : C → ι → Pointer
  view : T → Option (D × (ι → T))

/-! ## Section 1: Changes of the heap -/

/-- The cells `A` have been given up for the cells `A'`. -/
structure Rewrites (h h' : Heap C) (A A' : Finset Address) : Prop where
  frame : ∀ x, x ∉ A → x ∉ A' → h'.lookup x = h.lookup x
  freed : ∀ x, x ∈ A → x ∉ A' → h'.lookup x = none
  fresh : ∀ x, x ∈ A' → x ∈ A ∨ h.lookup x = none

namespace Rewrites

variable {h h₁ h₂ : Heap C} {A A₁ A₂ : Finset Address}

theorem refl (h : Heap C) (A : Finset Address) : Rewrites h h A A :=
  ⟨fun _ _ _ => rfl, fun _ hin hout => absurd hin hout, fun _ hin => .inl hin⟩

theorem trans (r₁ : Rewrites h h₁ A A₁) (r₂ : Rewrites h₁ h₂ A₁ A₂) : Rewrites h h₂ A A₂ := by
  refine ⟨?_, ?_, ?_⟩
  · intro x hA hA₂
    by_cases hA₁ : x ∈ A₁
    · -- The cell was allocated in the first half and freed in the second.
      rw [r₂.freed x hA₁ hA₂, (r₁.fresh x hA₁).resolve_left hA]
    · rw [r₂.frame x hA₁ hA₂, r₁.frame x hA hA₁]
  · intro x hA hA₂
    by_cases hA₁ : x ∈ A₁
    · exact r₂.freed x hA₁ hA₂
    · rw [r₂.frame x hA₁ hA₂, r₁.freed x hA hA₁]
  · intro x hA₂
    by_cases hA : x ∈ A
    · exact .inl hA
    right
    by_cases hA₁ : x ∈ A₁
    · exact (r₁.fresh x hA₁).resolve_left hA
    · rw [← r₁.frame x hA hA₁]
      exact (r₂.fresh x hA₂).resolve_left hA₁

/-- Cells that are kept may be counted on both sides. -/
theorem widen (r : Rewrites h h₁ A A₁) (K : Finset Address) :
    Rewrites h h₁ (A ∪ K) (A₁ ∪ K) := by
  refine ⟨?_, ?_, ?_⟩
  · intro x hA hA₁
    rw [Finset.mem_union, not_or] at hA hA₁
    exact r.frame x hA.1 hA₁.1
  · intro x hA hA₁
    rw [Finset.mem_union, not_or] at hA₁
    exact r.freed x ((Finset.mem_union.mp hA).resolve_right hA₁.2) hA₁.1
  · intro x hA₁
    rw [Finset.mem_union] at hA₁ ⊢
    rcases hA₁ with hin | hin
    · exact (r.fresh x hin).imp_left .inl
    · exact .inl (.inr hin)

theorem alloc (h : Heap C) {a : Address} (ha : h.lookup a = none) (cell : C) :
    Rewrites h (h.insert a cell) ∅ {a} := by
  refine ⟨?_, by simp, ?_⟩
  · intro x _ hx
    exact Finmap.lookup_insert_of_ne h (by simpa using hx)
  · intro x hx
    rw [Finset.mem_singleton.mp hx]
    exact .inr ha

theorem store (h : Heap C) (a : Address) (cell : C) : Rewrites h (h.insert a cell) {a} {a} := by
  refine ⟨?_, fun x hin hout => absurd hin hout, fun x hin => .inl hin⟩
  intro x hx _
  exact Finmap.lookup_insert_of_ne h (by simpa using hx)

theorem free (h : Heap C) (a : Address) : Rewrites h (h.erase a) {a} ∅ := by
  refine ⟨?_, ?_, by simp⟩
  · intro x hx _
    exact Finmap.lookup_erase_ne (by simpa using hx)
  · intro x hx _
    rw [Finset.mem_singleton.mp hx]
    exact Finmap.lookup_erase a h

/-- An allocated cell that is not given up is not among the new cells, -/
theorem notMem {x : Address} {cell : C} (r : Rewrites h h₁ A A₁) (hx : x ∉ A)
    (hcell : h.lookup x = some cell) : x ∉ A₁ := by
  intro hin
  have hnone := (r.fresh x hin).resolve_left hx
  rw [hcell] at hnone
  cases hnone

/-- and stays as it is. -/
theorem lookup_eq {x : Address} {cell : C} (r : Rewrites h h₁ A A₁) (hx : x ∉ A)
    (hcell : h.lookup x = some cell) : h₁.lookup x = some cell := by
  rw [r.frame x hx (r.notMem hx hcell), hcell]

/-- When the heap consisted of the cells that were given up, it consists of the new ones. -/
theorem keys_eq (r : Rewrites h h₁ A A₁) (hA : h.keys = A) (hA₁ : A₁ ⊆ h₁.keys) :
    h₁.keys = A₁ := by
  refine Finset.Subset.antisymm ?_ hA₁
  intro x hx
  by_contra hout
  have hin : h₁.lookup x ≠ none := by
    rwa [Ne, Finmap.lookup_eq_none, not_not, ← Finmap.mem_keys]
  by_cases hxA : x ∈ A
  · exact hin (r.freed x hxA hout)
  · refine hin ((r.frame x hxA hout).trans ?_)
    rwa [Finmap.lookup_eq_none, ← Finmap.mem_keys, hA]

end Rewrites

/-! ## Section 2: Trees that are laid out in a heap -/

section Holds

variable [Fintype ι]

/-- The tree `t` lies at `p` and takes up the cells `A`. -/
inductive Holds (L : Layout C D ι T) (h : Heap C) : T → Pointer → Finset Address → Prop where
  | empty {t : T} (view : L.view t = none) : Holds L h t none ∅
  | node {t : T} {a : Address} {cell : C} {ts : ι → T} {B : ι → Finset Address}
      (lookup : h.lookup a = some cell)
      (view : L.view t = some (L.data cell, ts))
      (children : ∀ i, Holds L h (ts i) (L.link cell i) (B i))
      (apart : ∀ i, a ∉ B i)
      (disjoint : Pairwise fun i j => Disjoint (B i) (B j)) :
      Holds L h t (some a) (insert a (Finset.univ.biUnion B))

/-- The tree `t` lies at `a`, in `cell`, and its subtrees `ts` take up the cells `B`. -/
structure Opened (L : Layout C D ι T) (h : Heap C) (t : T) (a : Address) (cell : C)
    (ts : ι → T) (B : ι → Finset Address) : Prop where
  lookup   : h.lookup a = some cell
  view     : L.view t = some (L.data cell, ts)
  children : ∀ i, Holds L h (ts i) (L.link cell i) (B i)
  apart    : ∀ i, a ∉ B i
  disjoint : Pairwise fun i j => Disjoint (B i) (B j)

/-- The cells of a tree with the root `a`. -/
def cells (a : Address) (B : ι → Finset Address) : Finset Address :=
  insert a (Finset.univ.biUnion B)

theorem mem_cells {a x : Address} {B : ι → Finset Address} :
    x ∈ cells a B ↔ x = a ∨ ∃ i, x ∈ B i := by
  simp [cells]

variable {L : Layout C D ι T} {h h' : Heap C} {t : T} {p : Pointer} {a : Address}
  {A : Finset Address} {cell : C} {ts : ι → T} {B : ι → Finset Address}

theorem Opened.holds (o : Opened L h t a cell ts B) : Holds L h t (some a) (cells a B) :=
  .node o.lookup o.view o.children o.apart o.disjoint

theorem Holds.opened (hold : Holds L h t (some a) A) :
    ∃ cell ts B, Opened L h t a cell ts B ∧ A = cells a B := by
  cases hold with
  | node hlookup hview hchildren hapart hdisjoint =>
    exact ⟨_, _, _, ⟨hlookup, hview, hchildren, hapart, hdisjoint⟩, rfl⟩

theorem Holds.null (hold : Holds L h t none A) : L.view t = none ∧ A = ∅ := by
  cases hold with
  | empty hview => exact ⟨hview, rfl⟩

/-- Whether a tree is empty is seen from the pointer. -/
theorem Holds.eq_none_iff (hold : Holds L h t p A) : p = none ↔ L.view t = none := by
  cases hold with
  | empty hview => simp [hview]
  | node _ hview => simp [hview]

/-- Only the cells of the tree matter. -/
theorem Holds.frame (hold : Holds L h t p A) (heq : ∀ x ∈ A, h'.lookup x = h.lookup x) :
    Holds L h' t p A := by
  induction hold with
  | empty hview => exact .empty hview
  | @node t a cell ts B hlookup hview hchildren hapart hdisjoint ih =>
    refine .node ?_ hview ?_ hapart hdisjoint
    · rw [heq a (Finset.mem_insert_self _ _), hlookup]
    · intro i
      exact ih i fun x hx => heq x (mem_cells.mpr (.inr ⟨i, hx⟩))

theorem Holds.subset_keys (hold : Holds L h t p A) : A ⊆ h.keys := by
  induction hold with
  | empty => exact Finset.empty_subset _
  | @node t a cell ts B hlookup hview hchildren hapart hdisjoint ih =>
    intro x hx
    rcases mem_cells.mp hx with rfl | ⟨i, hi⟩
    · exact Finmap.mem_keys.mpr (Finmap.mem_of_lookup_eq_some hlookup)
    · exact ih i hi

section Replace

variable [DecidableEq ι] {i : ι} {p' : Pointer} {u : T} {B' : Finset Address}

omit [Fintype ι] in
theorem mem_update {x : Address} {j : ι} :
    x ∈ Function.update B i B' j ↔ (j = i ∧ x ∈ B') ∨ (j ≠ i ∧ x ∈ B j) := by
  by_cases hj : j = i
  · subst hj
    simp
  · simp [hj]

/-- The cells of the subtree `i` have been rewritten, and the root has got the pointer
    to the new one: the tree has the new subtree. -/
theorem Opened.replace (o : Opened L h t a cell ts B) (r : Rewrites h h' (B i) B')
    (hold : Holds L h' u p' B') (t' : T) (cell' : C) (hdata : L.data cell' = L.data cell)
    (hlink : L.link cell' = Function.update (L.link cell) i p')
    (hview : L.view t' = some (L.data cell, Function.update ts i u)) :
    Opened L (h'.insert a cell') t' a cell' (Function.update ts i u) (Function.update B i B') := by
  have haB' : a ∉ B' := r.notMem (o.apart i) o.lookup
  -- The new cells were not allocated before, so they are not cells of other subtrees.
  have hother : ∀ j, j ≠ i → Disjoint B' (B j) := by
    intro j hj
    rw [Finset.disjoint_left]
    intro x hx hxj
    rcases r.fresh x hx with hxi | hnone
    · exact Finset.disjoint_left.mp (o.disjoint hj) hxj hxi
    · exact Finmap.lookup_eq_none.mp hnone (Finmap.mem_keys.mp ((o.children j).subset_keys hxj))
  refine ⟨Finmap.lookup_insert h', by rw [hview, hdata], ?_, ?_, ?_⟩
  · intro j
    rw [hlink]
    by_cases hj : j = i
    · subst hj
      simp only [Function.update_self]
      refine hold.frame ?_
      intro x hx
      exact Finmap.lookup_insert_of_ne h' (fun heq => haB' (heq ▸ hx))
    · simp only [Function.update_of_ne hj]
      refine (o.children j).frame ?_
      intro x hx
      have hxa : x ≠ a := fun heq => o.apart j (heq ▸ hx)
      rw [Finmap.lookup_insert_of_ne h' hxa]
      exact r.frame x (fun hxi => Finset.disjoint_left.mp (o.disjoint hj) hx hxi)
        (fun hxB => Finset.disjoint_left.mp (hother j hj) hxB hx)
  · intro j hin
    rcases mem_update.mp hin with ⟨-, hin⟩ | ⟨-, hin⟩
    · exact haB' hin
    · exact o.apart j hin
  · intro j k hjk
    by_cases hj : j = i
    · subst hj
      rw [Function.update_self, Function.update_of_ne hjk.symm]
      exact hother k hjk.symm
    · rw [Function.update_of_ne hj]
      by_cases hk : k = i
      · subst hk
        rw [Function.update_self]
        exact (hother j hj).symm
      · rw [Function.update_of_ne hk]
        exact o.disjoint hjk

/-- Seen from the tree, its cells have been given up for those of the new tree. -/
theorem Opened.rewrites (o : Opened L h t a cell ts B) (r : Rewrites h h' (B i) B')
    (cell' : C) :
    Rewrites h (h'.insert a cell') (cells a B) (cells a (Function.update B i B')) := by
  -- The root and the cells of the other subtrees.
  have hsplit : ∀ B'' : Finset Address, cells a (Function.update B i B'') =
      B'' ∪ cells a (Function.update B i ∅) := by
    intro B''
    ext x
    rw [Finset.mem_union, mem_cells, mem_cells]
    simp only [mem_update]
    constructor
    · rintro (rfl | ⟨j, ⟨-, hx⟩ | ⟨hj, hx⟩⟩)
      · exact .inr (.inl rfl)
      · exact .inl hx
      · exact .inr (.inr ⟨j, .inr ⟨hj, hx⟩⟩)
    · rintro (hx | rfl | ⟨j, ⟨-, hx⟩ | ⟨hj, hx⟩⟩)
      · exact .inr ⟨i, .inl ⟨rfl, hx⟩⟩
      · exact .inl rfl
      · exact absurd hx (Finset.notMem_empty x)
      · exact .inr ⟨j, .inr ⟨hj, hx⟩⟩
  have hroot : a ∈ cells a (Function.update B i B') := mem_cells.mpr (.inl rfl)
  have hstore := (Rewrites.store h' a cell').widen (cells a (Function.update B i B'))
  rw [Finset.union_eq_right.mpr (Finset.singleton_subset_iff.mpr hroot)] at hstore
  have hwide := r.widen (cells a (Function.update B i ∅))
  rw [← hsplit, ← hsplit, Function.update_eq_self] at hwide
  exact hwide.trans hstore

/-- The same when the pointer to the subtree stays. -/
theorem Opened.replace_in_place (o : Opened L h t a cell ts B) (r : Rewrites h h' (B i) B')
    (hold : Holds L h' u (L.link cell i) B') (t' : T)
    (hview : L.view t' = some (L.data cell, Function.update ts i u)) :
    Opened L h' t' a cell (Function.update ts i u) (Function.update B i B') ∧
      Rewrites h h' (cells a B) (cells a (Function.update B i B')) := by
  have hlookup : h'.lookup a = some cell := r.lookup_eq (o.apart i) o.lookup
  -- Storing the cell again changes nothing.
  have hsame : h'.insert a cell = h' := by
    apply Finmap.ext_lookup
    intro x
    by_cases hx : x = a
    · rw [hx, Finmap.lookup_insert, hlookup]
    · rw [Finmap.lookup_insert_of_ne h' hx]
  have hnew := o.replace r hold t' cell rfl (Function.update_eq_self i _).symm hview
  have hrewrites := o.rewrites r cell
  rw [hsame] at hnew hrewrites
  exact ⟨hnew, hrewrites⟩

end Replace

/-- New data at the root. -/
theorem Opened.set_data (o : Opened L h t a cell ts B) (t' : T) (cell' : C)
    (hlink : L.link cell' = L.link cell) (hview : L.view t' = some (L.data cell', ts)) :
    Opened L (h.insert a cell') t' a cell' ts B ∧
      Rewrites h (h.insert a cell') (cells a B) (cells a B) := by
  constructor
  · refine ⟨Finmap.lookup_insert h, hview, ?_, o.apart, o.disjoint⟩
    intro i
    rw [hlink]
    refine (o.children i).frame ?_
    intro x hx
    exact Finmap.lookup_insert_of_ne h (fun heq => o.apart i (heq ▸ hx))
  · have hroot : a ∈ cells a B := mem_cells.mpr (.inl rfl)
    have hstore := (Rewrites.store h a cell').widen (cells a B)
    rwa [Finset.union_eq_right.mpr (Finset.singleton_subset_iff.mpr hroot)] at hstore

/-- A root without subtrees is all there is. -/
theorem Opened.cells_of_leaf (o : Opened L h t a cell ts B) (hleaf : ∀ i, L.link cell i = none) :
    cells a B = {a} := by
  ext x
  rw [mem_cells, Finset.mem_singleton, or_iff_left]
  rintro ⟨i, hx⟩
  have hchild := o.children i
  rw [hleaf i] at hchild
  rw [hchild.null.2] at hx
  exact Finset.notMem_empty x hx

/-! ## Section 4: Paths -/

/-- The cell at the end of a path. -/
def walk (L : Layout C D ι T) (h : Heap C) : Pointer → List ι → Pointer
  | none, _ => none
  | some a, [] => some a
  | some a, i :: path => (h.lookup a).bind fun cell => walk L h (L.link cell i) path

omit [Fintype ι] in
@[simp] theorem walk_null (path : List ι) : walk L h none path = none := by
  cases path <;> rfl

theorem Opened.walk_cons (o : Opened L h t a cell ts B) (i : ι) (path : List ι) :
    walk L h (some a) (i :: path) = walk L h (L.link cell i) path := by
  rw [walk, o.lookup, Option.bind_some]

theorem Holds.walk_mem (hold : Holds L h t p A) {path : List ι} {x : Address}
    (hwalk : walk L h p path = some x) : x ∈ A := by
  induction hold generalizing path with
  | empty => simp at hwalk
  | @node t a cell ts B hlookup hview hchildren hapart hdisjoint ih =>
    have o : Opened L h t a cell ts B := ⟨hlookup, hview, hchildren, hapart, hdisjoint⟩
    cases path with
    | nil =>
      cases hwalk
      exact Finset.mem_insert_self _ _
    | cons i path =>
      rw [o.walk_cons] at hwalk
      exact mem_cells.mpr (.inr ⟨i, ih i hwalk⟩)

/-- Every cell of the tree is the end of a path. -/
theorem Holds.exists_path (hold : Holds L h t p A) {x : Address} (hx : x ∈ A) :
    ∃ path, walk L h p path = some x := by
  induction hold with
  | empty => exact absurd hx (Finset.notMem_empty x)
  | @node t a cell ts B hlookup hview hchildren hapart hdisjoint ih =>
    have o : Opened L h t a cell ts B := ⟨hlookup, hview, hchildren, hapart, hdisjoint⟩
    rcases mem_cells.mp hx with rfl | ⟨i, hi⟩
    · exact ⟨[], rfl⟩
    · obtain ⟨path, hpath⟩ := ih i hi
      exact ⟨i :: path, (o.walk_cons i path).trans hpath⟩

/-- Two paths do not end in the same cell. -/
theorem Holds.path_unique (hold : Holds L h t p A) {v w : List ι} {x : Address}
    (hv : walk L h p v = some x) (hw : walk L h p w = some x) : v = w := by
  induction hold generalizing v w with
  | empty => simp at hv
  | @node t a cell ts B hlookup hview hchildren hapart hdisjoint ih =>
    have o : Opened L h t a cell ts B := ⟨hlookup, hview, hchildren, hapart, hdisjoint⟩
    -- A path that is not empty ends in a subtree, and so not at the root.
    have hroot : ∀ i path, walk L h (some a) (i :: path) ≠ some a := by
      intro i path heq
      rw [o.walk_cons] at heq
      exact hapart i ((hchildren i).walk_mem heq)
    cases v with
    | nil =>
      cases hv
      cases w with
      | nil => rfl
      | cons j w => exact absurd hw (hroot j w)
    | cons i v =>
      cases w with
      | nil =>
        cases hw
        exact absurd hv (hroot i v)
      | cons j w =>
        rw [o.walk_cons] at hv hw
        have hij : i = j := by
          by_contra hne
          exact Finset.disjoint_left.mp (hdisjoint hne) ((hchildren i).walk_mem hv)
            ((hchildren j).walk_mem hw)
        subst hij
        rw [ih i hv hw]

end Holds

end LinkedTree
