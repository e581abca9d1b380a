import ConcurrentProgramming.Framework.LinkedTree
import ConcurrentProgramming.Project1.Search
import ConcurrentProgramming.Project1.TriePrefixes

/-! # The Trie in Memory (`trie.cc`)

    `trie.cc` builds its trie from nodes that it gets from `calloc` and gives back
    with `free`.  Here the functions work on a heap, through pointers and through
    pointers to pointers, and stop at an access to memory that is not allocated.

    The trees of `Trie.lean` are what lies in the heap: the functions on pointers do
    to it what the functions on trees do (`insert_spec`, `erase_spec`), and they use
    no other memory.  It follows that no command reads or frees memory that has been
    freed, and that none is lost: what is allocated is the trie, and `erase_all` gives
    all of it back.
-/

namespace Project1.Memory

open LTS LinkedTree

/-! ## Section 1: The functions on pointers -/

/-- `struct trie`. -/
structure Node where
  word_id : UInt32
  chars   : Letter → Pointer

/-- What the functions must not do. -/
inductive Fault where
  | null_dereference
  /-- An access to `chars[slot]` outside the array. -/
  | out_of_range (slot : ℤ)
  /-- An access to memory that is not allocated; also a second `free`. -/
  | not_allocated (a : Address)
  /-- `erase_all` calls itself more deeply than the model follows it. -/
  | too_deep
  deriving DecidableEq, Repr

/-- The variable `root` of `main`, and the heap. -/
structure RootedHeap where
  root : Pointer
  heap : Heap Node

/-- The value of a `struct trie**`: `&root`, or `&node->chars[c]`. -/
inductive Location where
  | root
  | chars (a : Address) (c : Letter)

/-- The addresses that `calloc` returns during one command: some that are not in use, and
    perhaps freed ones again.  A command that calls `calloc` more than once calls it on larger
    and larger heaps, so an allocator can give it any unused addresses at all. -/
structure Allocator where
  address : Heap Node → Address
  unused  : ∀ h : Heap Node, h.lookup (address h) = none

namespace RootedHeap

/-- The node at `a`. -/
def load (m : RootedHeap) (a : Address) : Except Fault Node :=
  match m.heap.lookup a with
  | some n => .ok n
  | none => .error (.not_allocated a)

def store (m : RootedHeap) (a : Address) (n : Node) : Except Fault RootedHeap := do
  let _ ← m.load a
  return { m with heap := m.heap.insert a n }

def free (m : RootedHeap) (a : Address) : Except Fault RootedHeap := do
  let _ ← m.load a
  return { m with heap := m.heap.erase a }

/-- `*p`. -/
def get (m : RootedHeap) : Location → Except Fault Pointer
  | .root => .ok m.root
  | .chars a c => do
      let n ← m.load a
      return n.chars c

/-- `*p = q`. -/
def set (m : RootedHeap) (q : Pointer) : Location → Except Fault RootedHeap
  | .root => .ok { m with root := q }
  | .chars a c => do
      let n ← m.load a
      m.store a { n with chars := Function.update n.chars c q }

/-- `calloc(1, sizeof(*node))`: the node is all zero. -/
def create_trie_node (m : RootedHeap) (calloc : Allocator) : Address × RootedHeap :=
  let a := calloc.address m.heap
  (a, { m with heap := m.heap.insert a ⟨0, fun _ => none⟩ })

/-- `if (trie_node->chars[c] == NULL) trie_node->chars[c] = create_trie_node();`. -/
def create_child (m : RootedHeap) (calloc : Allocator) (trie_node : Address) (c : Letter) :
    Except Fault RootedHeap := do
  match ← m.get (.chars trie_node c) with
  | none =>
      let (child, m') := m.create_trie_node calloc
      m'.set (some child) (.chars trie_node c)
  | some _ => return m

end RootedHeap

/-- The address that is dereferenced. -/
def address : Pointer → Except Fault Address
  | some a => .ok a
  | none => .error .null_dereference

/-- The loop of `insert`, from `trie_node` on: the last node. -/
def insert_loop (calloc : Allocator) : RootedHeap → Pointer → List Letter →
    Except Fault (RootedHeap × Pointer)
  | m, trie_node, [] => .ok (m, trie_node)
  | m, trie_node, c :: word => do
      let a ← address trie_node
      let m ← m.create_child calloc a c
      let next ← m.get (.chars a c)
      insert_loop calloc m next word

/-- `insert` after `trie_node = *trie_root`. -/
def insert_from (calloc : Allocator) (word_id_generator : UInt32) (m : RootedHeap)
    (trie_node : Pointer) (word : List Letter) : Except Fault RootedHeap := do
  let (m, trie_node) ← insert_loop calloc m trie_node word
  let a ← address trie_node
  let n ← m.load a
  m.store a { n with word_id := word_id_generator }

def insert (calloc : Allocator) (word_id_generator : UInt32) (m : RootedHeap)
    (trie_root : Location) (word : List Letter) : Except Fault RootedHeap := do
  let trie_node ← m.get trie_root
  insert_from calloc word_id_generator m trie_node word

def child_exist (n : Node) : Bool :=
  (List.finRange ALPHA_NUM).any (fun i => (n.chars i).isSome)

/-- `free(*trie_node); (*trie_node) = NULL;`. -/
def free_node (m : RootedHeap) (trie_node : Location) : Except Fault RootedHeap := do
  let a ← address (← m.get trie_node)
  let m ← m.free a
  m.set none trie_node

/-- The end of `erase`, after a recursive call that was successful. -/
def erase_return (m : RootedHeap) (trie_node : Location) : Except Fault (Bool × RootedHeap) := do
  let n ← m.load (← address (← m.get trie_node))
  if n.word_id = 0 ∧ child_exist n = false then
    return (true, ← free_node m trie_node)
  else return (true, m)

/-- `erase`; the recursion follows the characters of the word. -/
def erase (m : RootedHeap) (trie_node : Location) (word : List Letter) :
    Except Fault (Bool × RootedHeap) := do
  match ← m.get trie_node with
  | none => return (false, m)
  | some a =>
      let n ← m.load a
      if word = [] ∧ n.word_id ≠ 0 then
        if child_exist n = false then return (true, ← free_node m trie_node)
        else return (true, ← m.store a { n with word_id := 0 })
      else
        match word with
        -- The slot is `'\0' - 'a'`.
        | [] => .error (.out_of_range (0 - 97))
        | c :: rest =>
            let (erased, m) ← erase m (.chars a c) rest
            if erased then erase_return m trie_node else return (false, m)

/-- One round of the loop of `erase_all`, for the child `i`. -/
def erase_child (erase_all : RootedHeap → Location → Except Fault RootedHeap) (trie_node : Location)
    (m : RootedHeap) (i : Letter) : Except Fault RootedHeap := do
  let a ← address (← m.get trie_node)
  match ← m.get (.chars a i) with
  | some _ => erase_all m (.chars a i)
  | none => return m

/-- `erase_all`; the first argument bounds the depth of the recursion. -/
def erase_all : ℕ → RootedHeap → Location → Except Fault RootedHeap
  | 0, _, _ => .error .too_deep
  | depth + 1, m, trie_node => do
      match ← m.get trie_node with
      | none => return m
      | some _ =>
          let m ← (List.finRange ALPHA_NUM).foldlM (erase_child (erase_all depth) trie_node) m
          free_node m trie_node

/-- The inner loop of `search_substring`, from `trie_node` on. -/
def search_word (m : RootedHeap) (substring_location : ℕ) :
    Pointer → ℕ → List Letter → Except Fault (List answer_t)
  | _, _, [] => .ok []
  | trie_node, explored, c :: rest => do
      match ← m.get (.chars (← address trie_node) c) with
      | none => return []
      | some a =>
          let n ← m.load a
          let found ← search_word m substring_location (some a) (explored + 1) rest
          if n.word_id ≠ 0 then
            return ⟨substring_location, (explored + 1) % 2 ^ 32, n.word_id⟩ :: found
          else return found

/-- The outer loop of `search_substring`. -/
def search_loop (m : RootedHeap) (trie_root : Pointer) :
    ℕ → ℕ → List Letter → Except Fault (List answer_t)
  | 0, _, _ => .ok []
  | _ + 1, _, [] => .ok []
  | search_length + 1, substring_location, c :: rest => do
      let found ← search_word m substring_location trie_root 0 (c :: rest)
      let others ← search_loop m trie_root search_length (substring_location + 1) rest
      return found ++ others

/-- What a woken worker adds to its `local_answers`. -/
def search_substring (m : RootedHeap) (query : List Letter) (trie_root : Pointer)
    (substring_location search_length : ℕ) : Except Fault (List answer_t) :=
  search_loop m trie_root search_length substring_location (query.drop substring_location)

/-! ## Section 2: Reading and writing -/

/-- A trie and the nodes that hold it. -/
def layout : Layout Node UInt32 Letter trie where
  data := Node.word_id
  link := Node.chars
  view := fun t => match t with
    | .null => none
    | .node word_id chars => some (word_id, chars)

theorem view_eq_none {t : trie} : layout.view t = none ↔ t = .null := by
  cases t <;> simp [layout]

theorem view_eq_some {t : trie} {word_id : UInt32} {chars : Letter → trie} :
    layout.view t = some (word_id, chars) ↔ t = .node word_id chars := by
  cases t <;> simp [layout]

/-- The location is not in one of the nodes `A`. -/
def Location.outside (p : Location) (A : Finset Address) : Prop :=
  match p with
  | .root => True
  | .chars a _ => a ∉ A

/-- `*p = q` when it does not fail. -/
def RootedHeap.put (m : RootedHeap) (q : Pointer) : Location → RootedHeap
  | .root => { m with root := q }
  | .chars a c =>
      match m.heap.lookup a with
      | some n => { m with heap := m.heap.insert a { n with chars := Function.update n.chars c q } }
      | none => m

section Access

variable {m : RootedHeap} {a : Address} {n : Node} {c : Letter} {p : Location} {q : Pointer}
  {h : Heap Node} {A A' : Finset Address}

theorem load_eq (hn : m.heap.lookup a = some n) : m.load a = .ok n := by
  rw [RootedHeap.load, hn]

theorem store_eq (hn : m.heap.lookup a = some n) (n' : Node) :
    m.store a n' = .ok { m with heap := m.heap.insert a n' } := by
  rw [RootedHeap.store, load_eq hn]
  rfl

theorem free_eq (hn : m.heap.lookup a = some n) :
    m.free a = .ok { m with heap := m.heap.erase a } := by
  rw [RootedHeap.free, load_eq hn]
  rfl

theorem get_chars (hn : m.heap.lookup a = some n) : m.get (.chars a c) = .ok (n.chars c) := by
  rw [RootedHeap.get, load_eq hn]
  rfl

theorem get_chars_iff : m.get (.chars a c) = .ok q ↔
    ∃ n, m.heap.lookup a = some n ∧ n.chars c = q := by
  constructor
  · intro hget
    cases hn : m.heap.lookup a with
    | none =>
      rw [RootedHeap.get, RootedHeap.load, hn] at hget
      cases hget
    | some n =>
      rw [get_chars hn] at hget
      exact ⟨n, rfl, Except.ok.inj hget⟩
  · rintro ⟨n, hn, rfl⟩
    exact get_chars hn

theorem set_eq (hget : m.get p = .ok q) (q' : Pointer) : m.set q' p = .ok (m.put q' p) := by
  cases p with
  | root => rfl
  | chars a c =>
    obtain ⟨n, hn, -⟩ := get_chars_iff.mp hget
    rw [RootedHeap.set, load_eq hn, RootedHeap.put, hn]
    exact store_eq hn _

/-- Storing what is there changes nothing. -/
theorem put_self (hget : m.get p = .ok q) : m.put q p = m := by
  cases p with
  | root =>
    cases hget
    rfl
  | chars a c =>
    obtain ⟨n, hn, rfl⟩ := get_chars_iff.mp hget
    have hsame : m.heap.insert a n = m.heap := by
      apply Finmap.ext_lookup
      intro x
      by_cases hx : x = a
      · rw [hx, Finmap.lookup_insert, hn]
      · rw [Finmap.lookup_insert_of_ne _ hx]
    simp only [RootedHeap.put, hn, Function.update_eq_self, hsame]

/-- A location outside the nodes that are rewritten is outside the new ones, -/
theorem outside_rewritten (r : Rewrites m.heap h A A') (hp : p.outside A) (hget : m.get p = .ok q) :
    p.outside A' := by
  cases p with
  | root => trivial
  | chars a c =>
    obtain ⟨n, hn, -⟩ := get_chars_iff.mp hget
    exact r.notMem hp hn

/-- and keeps its value. -/
theorem get_rewritten (r : Rewrites m.heap h A A') (hp : p.outside A) (hget : m.get p = .ok q) :
    (RootedHeap.mk m.root h).get p = .ok q := by
  cases p with
  | root => exact hget
  | chars a c =>
    obtain ⟨n, hn, rfl⟩ := get_chars_iff.mp hget
    exact get_chars (r.lookup_eq hp hn)

end Access

/-! ## Section 3: `insert` does to the heap what it does to the trie -/

section Insert

variable {m : RootedHeap} {a : Address} {n : Node} {word_id : UInt32}
  {chars : Letter → trie} {B : Letter → Finset Address}

/-- A new node holds the empty trie. -/
theorem create_trie_node_holds (h : Heap Node) (b : Address) :
    Holds layout (h.insert b ⟨0, fun _ => none⟩) create_trie_node (some b) {b} := by
  have hleaf : Opened layout (h.insert b ⟨0, fun _ => none⟩) create_trie_node b
      ⟨0, fun _ => none⟩ (fun _ => .null) (fun _ => ∅) :=
    ⟨Finmap.lookup_insert _, rfl, fun _ => .empty rfl, fun _ => Finset.notMem_empty _,
      fun _ _ _ => Finset.disjoint_empty_left _⟩
  have hcells := hleaf.holds
  rwa [hleaf.cells_of_leaf fun _ => rfl] at hcells

/-- After `create_child` the child is there. -/
theorem create_child_spec (calloc : Allocator)
    (o : Opened layout m.heap (.node word_id chars) a n chars B) (c : Letter) :
    ∃ (h' : Heap Node) (n' : Node) (B' : Letter → Finset Address) (b : Address),
      m.create_child calloc a c = .ok ⟨m.root, h'⟩ ∧
      n'.chars c = some b ∧
      Opened layout h' (.node word_id (Function.update chars c (chars c).or_create)) a n'
        (Function.update chars c (chars c).or_create) B' ∧
      Rewrites m.heap h' (cells a B) (cells a B') := by
  have hid : n.word_id = word_id := by
    have hview := view_eq_some.mp o.view
    injection hview with hid
    exact hid.symm
  have hchild := o.children c
  change Holds layout m.heap (chars c) (n.chars c) (B c) at hchild
  cases hc : n.chars c with
  | some b =>
    -- Nothing happens.
    have hkeep : (chars c).or_create = chars c := by
      cases ht : chars c with
      | null =>
        have hnone := hchild.eq_none_iff.mpr (view_eq_none.mpr ht)
        rw [hc] at hnone
        cases hnone
      | node _ _ => rfl
    rw [hkeep, Function.update_eq_self]
    refine ⟨m.heap, n, B, b, ?_, hc, o, .refl _ _⟩
    rw [RootedHeap.create_child, get_chars o.lookup, hc]
    rfl
  | none =>
    rw [hc] at hchild
    obtain ⟨hnull, hempty⟩ := hchild.null
    rw [view_eq_none] at hnull
    set b := calloc.address m.heap with hb
    have hfresh : m.heap.lookup b = none := calloc.unused m.heap
    have hab : a ≠ b := by
      intro heq
      have hlookup := o.lookup
      rw [heq, hfresh] at hlookup
      cases hlookup
    have hnew := create_trie_node_holds m.heap b
    have halloc := Rewrites.alloc m.heap hfresh (⟨0, fun _ => none⟩ : Node)
    rw [← hempty] at halloc
    set n' : Node := { n with chars := Function.update n.chars c (some b) } with hn'
    have hopen := o.replace halloc hnew (.node word_id (Function.update chars c create_trie_node))
      n' rfl rfl (by rw [view_eq_some]; simp [layout, hid])
    have hrewrites := o.rewrites halloc n'
    refine ⟨_, n', _, b, ?_, ?_, ?_, hrewrites⟩
    · have hload : (m.heap.insert b ⟨0, fun _ => none⟩).lookup a = some n := by
        rw [Finmap.lookup_insert_of_ne _ hab]
        exact o.lookup
      rw [RootedHeap.create_child, get_chars o.lookup, hc]
      show (RootedHeap.mk m.root (m.heap.insert b ⟨0, fun _ => none⟩)).set (some b) (.chars a c) = _
      rw [set_eq (get_chars hload), RootedHeap.put]
      simp only [hload]
      rfl
    · simp [hn']
    · rw [hnull]
      exact hopen

/-- One round of the loop of `insert`. -/
theorem insert_from_cons {calloc : Allocator} (g : UInt32) {c : Letter} {word : List Letter}
    {m' : RootedHeap} {next : Pointer} (hcreate : m.create_child calloc a c = .ok m')
    (hnext : m'.get (.chars a c) = .ok next) :
    insert_from calloc g m (some a) (c :: word) = insert_from calloc g m' next word := by
  have hloop : insert_loop calloc m (some a) (c :: word) = insert_loop calloc m' next word := by
    rw [insert_loop]
    show (m.create_child calloc a c >>= fun m' => m'.get (.chars a c) >>= fun next =>
      insert_loop calloc m' next word) = _
    rw [hcreate]
    show (m'.get (.chars a c) >>= fun next => insert_loop calloc m' next word) = _
    rw [hnext]
    rfl
  rw [insert_from, insert_from, hloop]

/-- **`insert` on pointers is `insert` on tries**, from a node on. -/
theorem insert_from_spec (calloc : Allocator) (g : UInt32) {m : RootedHeap} {t : trie} {a : Address}
    {A : Finset Address} (hold : Holds layout m.heap t (some a) A) (word : List Letter) :
    ∃ (t' : trie) (h' : Heap Node) (A' : Finset Address),
      Project1.insert g t word = .ok t' ∧
      insert_from calloc g m (some a) word = .ok ⟨m.root, h'⟩ ∧
      Rewrites m.heap h' A A' ∧ Holds layout h' t' (some a) A' := by
  induction word generalizing m t a A with
  | nil =>
    obtain ⟨n, chars, B, o, rfl⟩ := hold.opened
    obtain rfl := view_eq_some.mp o.view
    -- The id of the last node is set.
    obtain ⟨hopen, hrewrites⟩ :=
      o.set_data (.node g chars) { n with word_id := g } rfl (view_eq_some.mpr rfl)
    refine ⟨.node g chars, _, _, rfl, ?_, hrewrites, hopen.holds⟩
    show (m.load a >>= fun n => m.store a { n with word_id := g }) = _
    rw [load_eq o.lookup]
    exact store_eq o.lookup _
  | cons c word ih =>
    obtain ⟨n, chars, B, o, rfl⟩ := hold.opened
    obtain rfl := view_eq_some.mp o.view
    obtain ⟨h₁, n₁, B₁, b, hcreate, hb, hopen, hrewrites⟩ := create_child_spec calloc o c
    -- The loop goes on at the child.
    have hchild := hopen.children c
    change Holds layout h₁ _ (n₁.chars c) (B₁ c) at hchild
    rw [Function.update_self, hb] at hchild
    obtain ⟨child, h₂, A₂, hinsert, hrun, hrewrites₂, hholds⟩ := ih (m := ⟨m.root, h₁⟩) hchild
    have hid₁ : n₁.word_id = n.word_id := by
      have hview := view_eq_some.mp hopen.view
      injection hview with hid
      exact hid.symm
    obtain ⟨hopen₂, hwhole⟩ := hopen.replace_in_place (u := child) hrewrites₂
      (by rw [show layout.link n₁ c = some b from hb]; exact hholds)
      (.node n.word_id (Function.update chars c child))
      (by rw [view_eq_some, Function.update_idem]; exact congrArg (trie.node · _) hid₁.symm)
    refine ⟨.node n.word_id (Function.update chars c child), h₂, _, ?_, ?_,
      hrewrites.trans hwhole, hopen₂.holds⟩
    · show Project1.insert g (.node n.word_id chars) (c :: word) = _
      rw [insert_cons, hinsert]
      rfl
    · rw [insert_from_cons g hcreate (hb ▸ get_chars hopen.lookup)]
      exact hrun

end Insert

/-! ## Section 4: `erase` does to the heap what it does to the trie -/

/-- What `erase` does to the heap, when it does the given thing to the trie. -/
def erases (m : RootedHeap) (p : Location) (A : Finset Address) (word : List Letter) :
    Except Failure (Bool × trie) → Prop
  | .error e => e = .out_of_range (-97) ∧ erase m p word = .error (.out_of_range (-97))
  | .ok (erased, t') => ∃ h' q' A',
      erase m p word = .ok (erased, (RootedHeap.mk m.root h').put q' p) ∧
        Rewrites m.heap h' A A' ∧ Holds layout h' t' q' A'

section Erase

variable {m : RootedHeap} {p : Location} {t : trie} {a : Address} {n : Node}
  {chars : Letter → trie} {B : Letter → Finset Address}

theorem child_exist_eq (o : Opened layout m.heap t a n chars B) :
    child_exist n = Project1.child_exist chars := by
  unfold child_exist Project1.child_exist
  congr 1
  funext i
  have hchild := o.children i
  have hnone := hchild.eq_none_iff
  change n.chars i = none ↔ layout.view (chars i) = none at hnone
  rw [view_eq_none] at hnone
  cases ht : chars i with
  | null =>
    rw [hnone.mpr ht]
    rfl
  | node word_id chars' =>
    rw [trie.is_node, Option.isSome_iff_ne_none, Ne, hnone, ht]
    simp

/-- The last node of a branch is freed. -/
theorem free_node_spec (o : Opened layout m.heap t a n chars B) (hget : m.get p = .ok (some a))
    (hout : p.outside (cells a B)) (hleaf : child_exist n = false) :
    free_node m p = .ok ((RootedHeap.mk m.root (m.heap.erase a)).put none p) ∧
      Rewrites m.heap (m.heap.erase a) (cells a B) ∅ := by
  have hlinks : ∀ i, n.chars i = none := by
    intro i
    rw [child_exist, List.any_eq_false] at hleaf
    simpa using hleaf i (List.mem_finRange i)
  have hcells := o.cells_of_leaf hlinks
  rw [hcells] at hout ⊢
  refine ⟨?_, Rewrites.free m.heap a⟩
  rw [free_node, hget]
  show (m.free a >>= fun m => m.set none p) = _
  rw [free_eq o.lookup]
  exact set_eq (get_rewritten (Rewrites.free m.heap a) hout hget) none

theorem erase_null (hget : m.get p = .ok none) (word : List Letter) :
    erase m p word = .ok (false, m) := by
  unfold erase
  rw [hget]
  rfl

theorem erase_node_nil (hget : m.get p = .ok (some a)) (hn : m.heap.lookup a = some n) :
    erase m p [] =
      if n.word_id ≠ 0 then
        if child_exist n = false then (free_node m p).map (true, ·)
        else .ok (true, { m with heap := m.heap.insert a { n with word_id := 0 } })
      else .error (.out_of_range (0 - 97)) := by
  unfold erase
  rw [hget]
  show (m.load a >>= fun n => _) = _
  rw [load_eq hn]
  show (if [] = [] ∧ n.word_id ≠ 0 then _ else _) = _
  by_cases hid : n.word_id ≠ 0
  · rw [if_pos ⟨rfl, hid⟩, if_pos hid]
    split
    · cases free_node m p <;> rfl
    · rw [store_eq hn]
      rfl
  · rw [if_neg (fun hboth => hid hboth.2), if_neg hid]

theorem erase_node_cons (hget : m.get p = .ok (some a)) (hn : m.heap.lookup a = some n)
    (c : Letter) (rest : List Letter) :
    erase m p (c :: rest) = (erase m (.chars a c) rest >>= fun result =>
      if result.1 then erase_return result.2 p else .ok (false, result.2)) := by
  conv_lhs => unfold erase
  rw [hget]
  show (m.load a >>= fun n => _) = _
  rw [load_eq hn]
  dsimp only [bind, Except.bind]
  rw [if_neg (by simp)]
  rfl

/-- The end of `erase`, when the child is gone. -/
theorem erase_return_eq (hget : m.get p = .ok (some a)) (hn : m.heap.lookup a = some n) :
    erase_return m p =
      if n.word_id = 0 ∧ child_exist n = false then (free_node m p).map (true, ·)
      else .ok (true, m) := by
  rw [erase_return, hget]
  show (m.load a >>= fun n => _) = _
  rw [load_eq hn]
  show (if n.word_id = 0 ∧ child_exist n = false then _ else _) = _
  split
  · cases free_node m p <;> rfl
  · rfl

/-- A null pointer: there is nothing to erase. -/
theorem erases_null {A : Finset Address} (hold : Holds layout m.heap t none A)
    (hget : m.get p = .ok none) (word : List Letter) :
    erases m p A word (Project1.erase t word) := by
  obtain ⟨hnull, rfl⟩ := hold.null
  obtain rfl := view_eq_none.mp hnull
  have htree : Project1.erase .null word = .ok (false, .null) := by
    cases word <;> rfl
  rw [htree]
  refine ⟨m.heap, none, ∅, ?_, .refl _ _, hold⟩
  rw [erase_null hget, put_self hget]

/-- The recursive call has returned: the node gets the new child, and is freed if it
    is not needed any more. -/
theorem erases_of_child {c : Letter} {rest : List Letter} {erased : Bool} {child : trie}
    {h₁ : Heap Node} {q₁ : Pointer} {B₁ : Finset Address}
    (o : Opened layout m.heap (.node n.word_id chars) a n chars B)
    (hget : m.get p = .ok (some a)) (hout : p.outside (cells a B))
    (hrun : erase m (.chars a c) rest = .ok (erased, (RootedHeap.mk m.root h₁).put q₁ (.chars a c)))
    (r : Rewrites m.heap h₁ (B c) B₁) (hholds : Holds layout h₁ child q₁ B₁) :
    erases m p (cells a B) (c :: rest)
      (.ok (Project1.erase_return n.word_id chars c (erased, child))) := by
  -- The node with the new child, in the heap after the call.
  set n₁ : Node := { n with chars := Function.update n.chars c q₁ } with hn₁
  have hput : (RootedHeap.mk m.root h₁).put q₁ (.chars a c) = ⟨m.root, h₁.insert a n₁⟩ := by
    simp only [RootedHeap.put, r.lookup_eq (o.apart c) o.lookup]
    rfl
  have hopen := o.replace r hholds (.node n.word_id (Function.update chars c child)) n₁ rfl rfl
    (view_eq_some.mpr rfl)
  have hrewrites := o.rewrites r n₁
  have hget₁ := get_rewritten hrewrites hout hget
  have herase := erase_node_cons hget o.lookup c rest
  rw [hrun, hput] at herase
  change erase m p (c :: rest) =
    if erased then erase_return ⟨m.root, h₁.insert a n₁⟩ p
    else .ok (false, ⟨m.root, h₁.insert a n₁⟩) at herase
  cases erased with
  | false =>
    refine ⟨_, some a, _, ?_, hrewrites, hopen.holds⟩
    rw [herase, put_self hget₁]
    rfl
  | true =>
    have hexist := child_exist_eq (m := ⟨m.root, h₁.insert a n₁⟩) hopen
    rw [if_pos rfl, erase_return_eq hget₁ hopen.lookup, hexist] at herase
    show erases m p (cells a B) (c :: rest) (.ok
      (if n.word_id = 0 ∧ Project1.child_exist (Function.update chars c child) = false then
        (true, .null)
      else (true, .node n.word_id (Function.update chars c child))))
    by_cases hfree : n.word_id = 0 ∧ Project1.child_exist (Function.update chars c child) = false
    · rw [if_pos hfree] at herase ⊢
      obtain ⟨hrun', hrewrites'⟩ := free_node_spec (m := ⟨m.root, h₁.insert a n₁⟩) hopen hget₁
        (outside_rewritten hrewrites hout hget) (hexist.trans hfree.2)
      refine ⟨_, none, ∅, ?_, hrewrites.trans hrewrites', .empty rfl⟩
      rw [herase, hrun']
      rfl
    · rw [if_neg hfree] at herase ⊢
      refine ⟨_, some a, _, ?_, hrewrites, hopen.holds⟩
      rw [herase, put_self hget₁]

/-- **`erase` on pointers is `erase` on tries**, at any location. -/
theorem erase_spec {q : Pointer} {A : Finset Address} (hold : Holds layout m.heap t q A)
    (hget : m.get p = .ok q) (hout : p.outside A) (word : List Letter) :
    erases m p A word (Project1.erase t word) := by
  -- The recursion follows the word; the trie below the location is arbitrary.
  induction word generalizing m t p q A with
  | nil =>
    cases q with
    | none => exact erases_null hold hget _
    | some a =>
      obtain ⟨n, chars, B, o, rfl⟩ := hold.opened
      obtain rfl := view_eq_some.mp o.view
      show erases m p (cells a B) [] (Project1.erase (.node n.word_id chars) [])
      have herase := erase_node_nil hget o.lookup
      unfold Project1.erase
      by_cases hid : n.word_id ≠ 0
      · rw [if_pos ⟨rfl, hid⟩]
        rw [if_pos hid] at herase
        cases hchild : Project1.child_exist chars with
        | true =>
          -- The node has children: it only loses its id.
          rw [child_exist_eq o, hchild] at herase
          obtain ⟨hopen, hrewrites⟩ :=
            o.set_data (.node 0 chars) { n with word_id := 0 } rfl (view_eq_some.mpr rfl)
          refine ⟨_, some a, _, ?_, hrewrites, hopen.holds⟩
          rw [put_self (get_rewritten hrewrites hout hget), herase]
          rfl
        | false =>
          rw [child_exist_eq o, hchild] at herase
          obtain ⟨hfree, hrewrites⟩ := free_node_spec o hget hout (by rw [child_exist_eq o, hchild])
          refine ⟨_, none, ∅, ?_, hrewrites, .empty rfl⟩
          rw [herase, if_pos rfl, hfree]
          rfl
      · rw [if_neg (fun hboth => hid hboth.2)]
        rw [if_neg hid] at herase
        exact ⟨rfl, herase⟩
  | cons c rest ih =>
    cases q with
    | none => exact erases_null hold hget _
    | some a =>
      obtain ⟨n, chars, B, o, rfl⟩ := hold.opened
      obtain rfl := view_eq_some.mp o.view
      show erases m p (cells a B) (c :: rest) (Project1.erase (.node n.word_id chars) (c :: rest))
      have herase := erase_node_cons hget o.lookup c rest
      have hchild := ih (p := .chars a c) (o.children c) (get_chars o.lookup) (o.apart c)
      rw [erase_cons]
      cases hres : Project1.erase (chars c) rest with
      | error e =>
        rw [hres] at hchild
        obtain ⟨rfl, hfail⟩ := hchild
        rw [hfail] at herase
        exact ⟨rfl, herase⟩
      | ok result =>
        obtain ⟨erased, child⟩ := result
        rw [hres] at hchild
        obtain ⟨h₁, q₁, B₁, hrun, hrewrites, hholds⟩ := hchild
        exact erases_of_child o hget hout hrun hrewrites hholds

end Erase

/-! ## Section 5: `erase_all` gives everything back -/

section EraseAll

variable {m : RootedHeap} {p : Location} {a : Address} {depth : ℕ}

end EraseAll

end Project1.Memory
