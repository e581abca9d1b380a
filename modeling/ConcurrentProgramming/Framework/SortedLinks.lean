import Mathlib.Data.Finset.Max
import Mathlib.Data.Finset.Card

/-! # Sorted Linked Structures

    A finite set `live` of nodes with different ranks.  `Adjacent a b` says that
    `b` is the node of `live` with the least rank above `a`, which is where the
    link of `a` in a sorted list has to point.

    * Linking a node between two adjacent ones, and unlinking one, changes the
      neighbours of no other node.
    * `Adjacent.mem_iff`: a window of adjacent nodes around a rank decides
      whether it occurs.
    * `descend`: induction from the last node back to the first.
    * `Path`, `Between`: the nodes a chain of pointers passes.
-/

namespace SortedLinks

universe u v

variable {α : Type u} {κ : Type v}

/-- Different nodes have different ranks. -/
def Ranked (live : Finset α) (rank : α → κ) : Prop :=
  ∀ a ∈ live, ∀ b ∈ live, rank a = rank b → a = b

theorem Ranked.congr {live : Finset α} {rank rank' : α → κ} (h : Ranked live rank)
    (hrank : ∀ x ∈ live, rank' x = rank x) : Ranked live rank' := by
  intro a ha b hb heq
  rw [hrank a ha, hrank b hb] at heq
  exact h a ha b hb heq

theorem Ranked.erase [DecidableEq α] {live : Finset α} {rank : α → κ} {c : α}
    (h : Ranked live rank) : Ranked (live.erase c) rank :=
  fun a ha b hb => h a (Finset.mem_of_mem_erase ha) b (Finset.mem_of_mem_erase hb)

variable [LinearOrder κ]

/-- `b` follows `a` in the order of ranks. -/
structure Adjacent (live : Finset α) (rank : α → κ) (a b : α) : Prop where
  left  : a ∈ live
  right : b ∈ live
  lt    : rank a < rank b
  least : ∀ c ∈ live, rank a < rank c → rank b ≤ rank c

variable {live : Finset α} {rank rank' : α → κ} {a b c d n p : α}

/-- Only the ranks of the nodes matter. -/
theorem Adjacent.congr (h : Adjacent live rank a b) (hrank : ∀ x ∈ live, rank' x = rank x) :
    Adjacent live rank' a b where
  left := h.left
  right := h.right
  lt := by
    rw [hrank a h.left, hrank b h.right]
    exact h.lt
  least := by
    intro c hc hlt
    rw [hrank a h.left, hrank c hc] at hlt
    rw [hrank b h.right, hrank c hc]
    exact h.least c hc hlt

theorem Adjacent.right_unique (hinj : Ranked live rank) (h : Adjacent live rank a b)
    (h' : Adjacent live rank a c) : b = c :=
  hinj b h.right c h'.right
    (le_antisymm (h.least c h'.right h'.lt) (h'.least b h.right h.lt))

theorem Adjacent.left_unique (hinj : Ranked live rank) (h : Adjacent live rank a c)
    (h' : Adjacent live rank b c) : a = b := by
  apply hinj a h.left b h'.left
  rcases lt_trichotomy (rank a) (rank b) with hlt | heq | hgt
  · exact absurd h'.lt (not_lt.mpr (h.least b h'.left hlt))
  · exact heq
  · exact absurd h.lt (not_lt.mpr (h'.least a h.left hgt))

theorem Adjacent.ne (h : Adjacent live rank a b) : a ≠ b := by
  intro heq
  rw [heq] at h
  exact lt_irrefl _ h.lt

/-- Does a rank between two adjacent nodes occur? -/
theorem Adjacent.mem_iff (h : Adjacent live rank a b) {k : κ} (hlt : rank a < k)
    (hle : k ≤ rank b) : (∃ c ∈ live, rank c = k) ↔ rank b = k := by
  constructor
  · intro hk
    obtain ⟨c, hc, rfl⟩ := hk
    exact le_antisymm (h.least c hc hlt) hle
  · exact fun heq => ⟨b, h.right, heq⟩

/-- A node that is not the last one has a neighbour. -/
theorem exists_adjacent (ha : a ∈ live) (hb : b ∈ live) (hlt : rank a < rank b) :
    ∃ c, Adjacent live rank a c := by
  obtain ⟨c, hc, hleast⟩ := Finset.exists_min_image (live.filter (rank a < rank ·)) rank
    ⟨b, Finset.mem_filter.mpr ⟨hb, hlt⟩⟩
  rw [Finset.mem_filter] at hc
  exact ⟨c, ha, hc.1, hc.2, fun d hd hlt => hleast d (Finset.mem_filter.mpr ⟨hd, hlt⟩)⟩

/-- Induction from the last node back to the first. -/
theorem descend {top : α} {P : α → Prop} (htop : top ∈ live) (hmax : ∀ a ∈ live, rank a ≤ rank top)
    (hinj : Ranked live rank) (hbase : P top)
    (hstep : ∀ a b, Adjacent live rank a b → P b → P a) : ∀ a ∈ live, P a := by
  intro a
  induction hn : (live.filter (rank a < rank ·)).card using Nat.strong_induction_on
    generalizing a with
  | _ n ih =>
    intro ha
    rcases (hmax a ha).lt_or_eq with hlt | heq
    · obtain ⟨b, hb⟩ := exists_adjacent ha htop hlt
      refine hstep a b hb (ih _ ?_ b rfl hb.right)
      rw [← hn]
      apply Finset.card_lt_card
      refine ⟨?_, ?_⟩
      · intro x hx
        rw [Finset.mem_filter] at hx ⊢
        exact ⟨hx.1, hb.lt.trans hx.2⟩
      · intro hsub
        have := hsub (Finset.mem_filter.mpr ⟨hb.right, hb.lt⟩)
        exact lt_irrefl _ (Finset.mem_filter.mp this).2
    · rw [hinj a ha top htop heq]
      exact hbase

section Update

variable [DecidableEq α]

/-! ## Linking a node -/

theorem Adjacent.insert_left (h : Adjacent live rank p c) (hlt : rank p < rank n)
    (hlt' : rank n < rank c) : Adjacent (insert n live) rank p n where
  left := Finset.mem_insert_of_mem h.left
  right := Finset.mem_insert_self _ _
  lt := hlt
  least := by
    intro x hx hpx
    rcases Finset.mem_insert.mp hx with rfl | hx
    · exact le_rfl
    · exact hlt'.le.trans (h.least x hx hpx)

theorem Adjacent.insert_right (h : Adjacent live rank p c) (hlt : rank p < rank n)
    (hlt' : rank n < rank c) : Adjacent (insert n live) rank n c where
  left := Finset.mem_insert_self _ _
  right := Finset.mem_insert_of_mem h.right
  lt := hlt'
  least := by
    intro x hx hnx
    rcases Finset.mem_insert.mp hx with rfl | hx
    · exact absurd hnx (lt_irrefl _)
    · exact h.least x hx (hlt.trans hnx)

/-- The neighbour of another node stays the same. -/
theorem Adjacent.insert_ne (hinj : Ranked live rank) (h : Adjacent live rank p c)
    (hlt : rank p < rank n) (hlt' : rank n < rank c) (hab : Adjacent live rank a b) (hne : a ≠ p) :
    Adjacent (insert n live) rank a b where
  left := Finset.mem_insert_of_mem hab.left
  right := Finset.mem_insert_of_mem hab.right
  lt := hab.lt
  least := by
    intro x hx hax
    rcases Finset.mem_insert.mp hx with rfl | hx
    · rcases lt_trichotomy (rank a) (rank p) with hap | heq | hpa
      · exact (hab.least p h.left hap).trans hlt.le
      · exact absurd (hinj a hab.left p h.left heq) hne
      · exact absurd (hax.trans hlt') (not_lt.mpr (h.least a hab.left hpa))
    · exact hab.least x hx hax

theorem Ranked.insert (hinj : Ranked live rank) (h : Adjacent live rank p c)
    (hlt : rank p < rank n) (hlt' : rank n < rank c) : Ranked (insert n live) rank := by
  have hnew : ∀ x ∈ live, rank x ≠ rank n := by
    intro x hx heq
    have hle := h.least x hx (heq ▸ hlt)
    exact absurd hlt' (not_lt.mpr (heq ▸ hle))
  intro a ha b hb heq
  rcases Finset.mem_insert.mp ha with rfl | ha
  · rcases Finset.mem_insert.mp hb with rfl | hb
    · rfl
    · exact absurd heq.symm (hnew b hb)
  · rcases Finset.mem_insert.mp hb with rfl | hb
    · exact absurd heq (hnew a (by assumption))
    · exact hinj a ha b hb heq

/-! ## Unlinking a node -/

theorem Adjacent.erase (hinj : Ranked live rank) (h : Adjacent live rank p c)
    (h' : Adjacent live rank c d) : Adjacent (live.erase c) rank p d where
  left := Finset.mem_erase.mpr ⟨h.ne, h.left⟩
  right := Finset.mem_erase.mpr ⟨h'.ne.symm, h'.right⟩
  lt := h.lt.trans h'.lt
  least := by
    intro x hx hpx
    rw [Finset.mem_erase] at hx
    rcases (h.least x hx.2 hpx).lt_or_eq with hlt | heq
    · exact h'.least x hx.2 hlt
    · exact absurd (hinj c h.right x hx.2 heq).symm hx.1

/-- The neighbour of another node stays the same. -/
theorem Adjacent.erase_ne (hinj : Ranked live rank) (h : Adjacent live rank p c)
    (hab : Adjacent live rank a b) (hp : a ≠ p) (hc : a ≠ c) :
    Adjacent (live.erase c) rank a b where
  left := Finset.mem_erase.mpr ⟨hc, hab.left⟩
  right := by
    refine Finset.mem_erase.mpr ⟨?_, hab.right⟩
    intro heq
    rw [heq] at hab
    exact hp (hab.left_unique hinj h)
  lt := hab.lt
  least := fun x hx hax => hab.least x (Finset.mem_of_mem_erase hx) hax

end Update

/-! ## Chains of pointers -/

/-- `l` has the nodes that a chain from `a` to `b` passes after `a`. -/
inductive Path (r : α → α → Prop) : α → List α → α → Prop where
  | refl (a : α) : Path r a [] a
  | step {a b c : α} {l : List α} : r a b → Path r b l c → Path r a (b :: l) c

/-- `l` has the nodes that a chain of pointers passes between `a` and the first
    visit of `stop`. -/
inductive Between (next : α → Option α) (stop : α) : α → List α → Prop where
  | last {a : α} : next a = some stop → Between next stop a []
  | step {a b : α} {l : List α} : next a = some b → b ≠ stop → Between next stop b l →
      Between next stop a (b :: l)

/-- There is only one such chain. -/
theorem Between.unique {next : α → Option α} {stop : α} {l l' : List α}
    (h : Between next stop a l) (h' : Between next stop a l') : l = l' := by
  induction h generalizing l' with
  | last hnext =>
    cases h' with
    | last => rfl
    | step hnext' hne _ =>
      rw [hnext, Option.some.injEq] at hnext'
      exact absurd hnext'.symm hne
  | step hnext hne _ ih =>
    cases h' with
    | last hnext' =>
      rw [hnext, Option.some.injEq] at hnext'
      exact absurd hnext' hne
    | step hnext' _ hrest =>
      rw [hnext, Option.some.injEq] at hnext'
      subst hnext'
      rw [ih hrest]

end SortedLinks
