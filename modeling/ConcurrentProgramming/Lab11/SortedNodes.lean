import ConcurrentProgramming.Framework.SortedLinks
import ConcurrentProgramming.Lab11.NodeHeap
import Mathlib.Data.Finset.Image
import Mathlib.Algebra.Order.Group.Int

/-! # The Nodes of a Sorted List

    What the proofs about the fine-grained and about the optimistic list share:
    the set `live` of the nodes that are in the list, ordered by their keys, and
    the set of their keys.

    The key `INT_MIN` is a key like any other, so the head gets a rank of its own
    below all keys.
-/

namespace Lab11

open CInt SortedLinks

/-- The position of a node in the list. -/
def Heap.rank (h : Heap) (a : ℕ) : ℤ := if a = head then INT_MIN - 1 else h.key a

theorem Heap.rank_head {h : Heap} : h.rank head = INT_MIN - 1 := if_pos rfl

theorem Heap.rank_of_ne {h : Heap} {a : ℕ} (ha : a ≠ head) : h.rank a = h.key a := if_neg ha

theorem Heap.rank_congr {h h' : Heap} {a : ℕ} (hkey : h'.key a = h.key a) :
    h'.rank a = h.rank a := by
  unfold Heap.rank
  rw [hkey]

/-- Neighbours stay neighbours if no key changes. -/
theorem Heap.KeepsNodes.adjacent {h h' : Heap} {live : Finset ℕ} {a b : ℕ}
    (hkeep : KeepsNodes h h') (hadj : Adjacent live h.rank a b) : Adjacent live h'.rank a b :=
  hadj.congr fun a _ => Heap.rank_congr (hkeep.key a)

/-- The nodes of a sorted list. -/
structure SortedNodes (live : Finset ℕ) (h : Heap) : Prop where
  head_mem  : head ∈ live
  tail_mem  : tail ∈ live
  allocated : ∀ a ∈ live, h.allocated a
  tail_key  : h.key tail = INT_MAX
  range     : ∀ a ∈ live, a ≠ head → a ≠ tail → INT_MIN ≤ h.key a ∧ h.key a < INT_MAX
  ranked    : Ranked live h.rank

/-- The keys between the head and the tail. -/
def live_keys (live : Finset ℕ) (h : Heap) : Finset ℤ := ((live.erase head).erase tail).image h.key

theorem mem_live_keys {live : Finset ℕ} {h : Heap} {k : ℤ} :
    k ∈ live_keys live h ↔ ∃ a ∈ live, a ≠ head ∧ a ≠ tail ∧ h.key a = k := by
  simp only [live_keys, Finset.mem_image, Finset.mem_erase]
  constructor
  · intro hk
    obtain ⟨a, ⟨htail, hhead, ha⟩, hkey⟩ := hk
    exact ⟨a, ha, hhead, htail, hkey⟩
  · intro hk
    obtain ⟨a, ha, hhead, htail, hkey⟩ := hk
    exact ⟨a, ⟨htail, hhead, ha⟩, hkey⟩

theorem sorted_nodes_init : SortedNodes {head, tail} list_init where
  head_mem := by decide
  tail_mem := by decide
  allocated := by decide
  tail_key := rfl
  range := by decide
  ranked := by
    intro a ha b hb heq
    rw [Finset.mem_insert, Finset.mem_singleton] at ha hb
    rcases ha with rfl | rfl
    · rcases hb with rfl | rfl
      · rfl
      · exact absurd heq (by decide)
    · rcases hb with rfl | rfl
      · exact absurd heq (by decide)
      · rfl

theorem next_init : ∀ a ∈ ({head, tail} : Finset ℕ), a ≠ tail →
    ∃ b, list_init.next a = some b ∧ Adjacent {head, tail} list_init.rank a b := by
  intro a ha htail
  rcases Finset.mem_insert.mp ha with rfl | ha
  · refine ⟨tail, rfl, by decide, by decide, by decide, ?_⟩
    intro b hb hlt
    rcases Finset.mem_insert.mp hb with rfl | hb
    · exact absurd hlt (lt_irrefl _)
    · rw [Finset.mem_singleton.mp hb]
  · exact absurd (Finset.mem_singleton.mp ha) htail

namespace SortedNodes

variable {live : Finset ℕ} {h h' : Heap} {a prev curr node : ℕ} {k : ℤ}

theorem rank_tail (hs : SortedNodes live h) : h.rank tail = INT_MAX := hs.tail_key

theorem rank_le_tail (hs : SortedNodes live h) (ha : a ∈ live) : h.rank a ≤ h.rank tail := by
  rw [hs.rank_tail]
  by_cases hhead : a = head
  · rw [hhead, Heap.rank_head]
    decide
  · rw [Heap.rank_of_ne hhead]
    by_cases htail : a = tail
    · rw [htail, hs.tail_key]
    · exact (hs.range a ha hhead htail).2.le

/-- Induction from the tail back to the head. -/
theorem from_tail (hs : SortedNodes live h) {P : ℕ → Prop} (hbase : P tail)
    (hstep : ∀ a b, Adjacent live h.rank a b → P b → P a) : ∀ a ∈ live, P a := by
  have hmax : ∀ a ∈ live, h.rank a ≤ h.rank tail := fun _ ha => hs.rank_le_tail ha
  exact descend hs.tail_mem hmax hs.ranked hbase hstep

theorem left_ne_tail (hs : SortedNodes live h) (hadj : Adjacent live h.rank prev curr) :
    prev ≠ tail := by
  intro heq
  rw [heq] at hadj
  exact absurd hadj.lt (not_lt.mpr (hs.rank_le_tail hadj.right))

/-- The head comes first. -/
theorem rank_head_lt (hs : SortedNodes live h) (ha : a ∈ live) (hhead : a ≠ head) :
    h.rank head < h.rank a := by
  rw [Heap.rank_head, Heap.rank_of_ne hhead]
  by_cases htail : a = tail
  · rw [htail, hs.tail_key]
    decide
  · have := (hs.range a ha hhead htail).1
    omega

theorem ne_head_of_lt (hs : SortedNodes live h) {b : ℕ} (ha : a ∈ live)
    (hlt : h.rank a < h.rank b) : b ≠ head := by
  intro heq
  rw [heq] at hlt
  by_cases hhead : a = head
  · rw [hhead] at hlt
    exact lt_irrefl _ hlt
  · exact lt_irrefl _ (hlt.trans (hs.rank_head_lt ha hhead))

/-- A node behind another one is not the head. -/
theorem ne_head (hs : SortedNodes live h) (hadj : Adjacent live h.rank prev curr) :
    curr ≠ head :=
  hs.ne_head_of_lt hadj.left hadj.lt

/-- Only the keys of the nodes matter. -/
theorem congr (hs : SortedNodes live h) (hkey : ∀ a ∈ live, h'.key a = h.key a)
    (halloc : ∀ a ∈ live, h'.allocated a) : SortedNodes live h' where
  head_mem := hs.head_mem
  tail_mem := hs.tail_mem
  allocated := halloc
  tail_key := (hkey tail hs.tail_mem).trans hs.tail_key
  range := by
    intro a ha hhead htail
    rw [hkey a ha]
    exact hs.range a ha hhead htail
  ranked := hs.ranked.congr fun a ha => Heap.rank_congr (hkey a ha)

theorem keep (hs : SortedNodes live h) (hkeep : Heap.KeepsNodes h h') : SortedNodes live h' :=
  hs.congr (fun a _ => hkeep.key a) fun a ha => (hkeep.allocated a).mpr (hs.allocated a ha)

/-- The key of the tail is not the key of an operation. -/
theorem ne_tail_of_key (hs : SortedNodes live h) (hkey : h.key a = k) (hmax : k < INT_MAX) :
    a ≠ tail := by
  intro heq
  rw [heq, hs.tail_key] at hkey
  omega

/-- A window around a key decides whether the key is in the list. -/
theorem mem_iff (hs : SortedNodes live h) (hadj : Adjacent live h.rank prev curr)
    (hmin : INT_MIN ≤ k) (hmax : k < INT_MAX) (hlt : h.rank prev < k) (hle : k ≤ h.key curr) :
    k ∈ live_keys live h ↔ h.key curr = k := by
  have hcurr := Heap.rank_of_ne (h := h) (hs.ne_head hadj)
  rw [← hcurr] at hle ⊢
  rw [mem_live_keys, ← hadj.mem_iff hlt hle]
  constructor
  · intro hk
    obtain ⟨a, ha, hhead, -, hkey⟩ := hk
    exact ⟨a, ha, (Heap.rank_of_ne hhead).trans hkey⟩
  · intro hk
    obtain ⟨a, ha, hkey⟩ := hk
    have hhead : a ≠ head := by
      intro heq
      rw [heq, Heap.rank_head] at hkey
      omega
    have htail : a ≠ tail := by
      intro heq
      rw [heq, hs.rank_tail] at hkey
      omega
    exact ⟨a, ha, hhead, htail, (Heap.rank_of_ne hhead).symm.trans hkey⟩

/-- A node is linked into its window. -/
theorem insert (hs : SortedNodes live h) (hadj : Adjacent live h.rank prev curr)
    (hmin : INT_MIN ≤ h.key node) (hmax : h.key node < INT_MAX) (hnode : node ∉ live)
    (halloc : h.allocated node) (hlt : h.rank prev < h.key node)
    (hlt' : h.key node < h.key curr) : SortedNodes (insert node live) h := by
  have hhead : node ≠ head := fun heq => hnode (heq ▸ hs.head_mem)
  have hrank := Heap.rank_of_ne (h := h) hhead
  have hcurr := Heap.rank_of_ne (h := h) (hs.ne_head hadj)
  refine ⟨Finset.mem_insert_of_mem hs.head_mem, Finset.mem_insert_of_mem hs.tail_mem, ?_,
    hs.tail_key, ?_, ?_⟩
  · intro a ha
    rcases Finset.mem_insert.mp ha with rfl | ha
    · exact halloc
    · exact hs.allocated a ha
  · intro a ha hahead hatail
    rcases Finset.mem_insert.mp ha with rfl | ha
    · exact ⟨hmin, hmax⟩
    · exact hs.range a ha hahead hatail
  · exact hs.ranked.insert hadj (by rwa [hrank]) (by rwa [hrank, hcurr])

theorem live_keys_insert (hs : SortedNodes live h) (hnode : node ∉ live) :
    live_keys (Insert.insert node live) h = Insert.insert (h.key node) (live_keys live h) := by
  ext k
  simp only [mem_live_keys, Finset.mem_insert]
  constructor
  · intro hk
    obtain ⟨a, rfl | ha, hhead, htail, hkey⟩ := hk
    · exact .inl hkey.symm
    · exact .inr ⟨a, ha, hhead, htail, hkey⟩
  · intro hk
    rcases hk with rfl | ⟨a, ha, hhead, htail, hkey⟩
    · exact ⟨node, .inl rfl, fun heq => hnode (heq ▸ hs.head_mem),
        fun heq => hnode (heq ▸ hs.tail_mem), rfl⟩
    · exact ⟨a, .inr ha, hhead, htail, hkey⟩

/-- A node between the head and the tail is unlinked. -/
theorem erase (hs : SortedNodes live h) (hhead : curr ≠ head) (htail : curr ≠ tail) :
    SortedNodes (live.erase curr) h where
  head_mem := Finset.mem_erase.mpr ⟨hhead.symm, hs.head_mem⟩
  tail_mem := Finset.mem_erase.mpr ⟨htail.symm, hs.tail_mem⟩
  allocated := fun a ha => hs.allocated a (Finset.mem_of_mem_erase ha)
  tail_key := hs.tail_key
  range := fun a ha => hs.range a (Finset.mem_of_mem_erase ha)
  ranked := hs.ranked.erase

theorem live_keys_erase (hs : SortedNodes live h) (hcurr : curr ∈ live) (hhead : curr ≠ head) :
    live_keys (live.erase curr) h = (live_keys live h).erase (h.key curr) := by
  ext k
  simp only [mem_live_keys, Finset.mem_erase]
  constructor
  · intro hk
    obtain ⟨a, ⟨hne, ha⟩, hahead, hatail, rfl⟩ := hk
    refine ⟨?_, a, ha, hahead, hatail, rfl⟩
    intro heq
    apply hne
    apply hs.ranked a ha curr hcurr
    rw [Heap.rank_of_ne hahead, Heap.rank_of_ne hhead, heq]
  · intro hk
    obtain ⟨hne, a, ha, hahead, hatail, rfl⟩ := hk
    exact ⟨a, ⟨fun heq => hne (heq ▸ rfl), ha⟩, hahead, hatail, rfl⟩

theorem live_keys_congr (hkey : ∀ a ∈ live, h'.key a = h.key a) :
    live_keys live h' = live_keys live h := by
  ext k
  simp only [mem_live_keys]
  constructor
  · intro hk
    obtain ⟨a, ha, hhead, htail, hk⟩ := hk
    exact ⟨a, ha, hhead, htail, (hkey a ha).symm.trans hk⟩
  · intro hk
    obtain ⟨a, ha, hhead, htail, hk⟩ := hk
    exact ⟨a, ha, hhead, htail, (hkey a ha).trans hk⟩

/-- `list_add` links a node: its key is a new key of the set. -/
theorem add_effect (hs : SortedNodes live h) (hkeep : Heap.KeepsNodes h h') (hnode : node ∉ live)
    (hkey : h.key node = k) (hnew : k ∉ live_keys live h) :
    key_set.step (live_keys live h) (.add k) true (live_keys (Insert.insert node live) h') := by
  refine ⟨?_, ?_⟩
  · rw [Operation.key, decide_eq_false hnew]
    rfl
  · rw [live_keys_congr fun a _ => hkeep.key a, hs.live_keys_insert hnode, hkey]
    rfl

/-- `list_remove` unlinks a node: its key is a key of the set no more. -/
theorem remove_effect (hs : SortedNodes live h) (hkeep : Heap.KeepsNodes h h')
    (hcurr : curr ∈ live) (hhead : curr ≠ head) (hkey : h.key curr = k)
    (hmem : k ∈ live_keys live h) :
    key_set.step (live_keys live h) (.remove k) true (live_keys (live.erase curr) h') := by
  refine ⟨?_, ?_⟩
  · rw [Operation.key, decide_eq_true hmem]
    rfl
  · rw [live_keys_congr fun a _ => hkeep.key a, hs.live_keys_erase hcurr hhead, hkey]
    rfl

end SortedNodes

end Lab11
