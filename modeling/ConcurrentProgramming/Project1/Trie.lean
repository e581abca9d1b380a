import ConcurrentProgramming.Framework.Transition
import Mathlib.Algebra.Group.Nat.Defs
import Mathlib.Algebra.GroupWithZero.Nat
import Mathlib.Data.List.FinRange

/-! # The Trie (`trie.cc`)

    Words over `a, .., z` are kept in a trie whose nodes carry the id of the word
    that ends there, or zero.  `insert` gives every word a new id.  `erase`
    removes a word and, on the way back, the nodes that are no longer needed.

    The meaning of a trie is the function `id_at` from words to ids.  `insert`
    and `erase` are described by what they do to it.  `erase` looks for the child
    of `'\0'` when the path of the word ends at a node without an id, and so
    leaves the array `chars` (`erase_eq_out_of_range`); in all other cases it
    does what it should (`erase_contract_iff`).
-/

namespace Project1

open LTS

/-! ## Section 1: Data -/

abbrev ALPHA_NUM : ℕ := 26

/-- A character `a, .., z`, as the index `c - 'a'`.  A word is the list of its
    characters; the terminating `'\0'` is the end of the list. -/
abbrev Letter := Fin ALPHA_NUM

instance alpha_num_ne_zero : NeZero ALPHA_NUM := ⟨by decide⟩

/-- A pointer to a `struct trie`, or `NULL`. -/
inductive trie where
  | null
  | node (word_id : UInt32) (chars : Letter → trie)

/-- What the functions must not do. -/
inductive Failure where
  | null_dereference
  /-- An access to `chars[slot]` outside the array. -/
  | out_of_range (slot : ℤ)
  deriving DecidableEq, Repr

def trie.is_node : trie → Bool
  | .null => false
  | .node _ _ => true

/-! ## Section 2: The functions -/

def create_trie_node : trie := .node 0 (fun _ => .null)

/-- `if (child == NULL) child = create_trie_node()`. -/
def trie.or_create : trie → trie
  | .null => create_trie_node
  | .node word_id chars => .node word_id chars

/-- `insert`; the recursion is the loop over the characters of the word. -/
def insert (word_id_generator : UInt32) : trie → List Letter → Except Failure trie
  | .null, _ => .error .null_dereference
  | .node _ chars, [] => .ok (.node word_id_generator chars)
  | .node word_id chars, c :: word => do
      let child ← insert word_id_generator (chars c).or_create word
      return .node word_id (Function.update chars c child)

def child_exist (chars : Letter → trie) : Bool :=
  (List.finRange ALPHA_NUM).any (fun i => (chars i).is_node)

/-- The end of `erase`, after the recursive call for the child `c`: the node is
    freed if it is not the end of a word and has no child left. -/
def erase_return (word_id : UInt32) (chars : Letter → trie) (c : Letter) :
    Bool × trie → Bool × trie
  | (erased, child) =>
      let chars' := Function.update chars c child
      if erased then
        if word_id = 0 ∧ child_exist chars' = false then (true, .null)
        else (true, .node word_id chars')
      else (false, .node word_id chars')

/-- `erase`: the result and the new value of `*trie_node`. -/
def erase : trie → List Letter → Except Failure (Bool × trie)
  | .null, _ => .ok (false, .null)
  | .node word_id chars, word =>
      if word = [] ∧ word_id ≠ 0 then
        if child_exist chars then .ok (true, .node 0 chars) else .ok (true, .null)
      else
        match word with
        -- The slot is `'\0' - 'a'`.
        | [] => .error (.out_of_range (0 - 97))
        | c :: rest => do
            let result ← erase (chars c) rest
            return erase_return word_id chars c result

/-! ## Section 3: The meaning of a trie -/

/-- The id of a word, or zero. -/
def trie.id_at : trie → List Letter → UInt32
  | .null, _ => 0
  | .node word_id _, [] => word_id
  | .node _ chars, c :: word => (chars c).id_at word

/-- The word is stored: "It is zero when character is not the end of a word." -/
def trie.stored (t : trie) (word : List Letter) : Prop := t.id_at word ≠ 0

instance (t : trie) (word : List Letter) : Decidable (t.stored word) :=
  inferInstanceAs (Decidable (t.id_at word ≠ 0))

/-- The path of the word does not fall off the trie. -/
def trie.has_path : trie → List Letter → Bool
  | .null, _ => false
  | .node _ _, [] => true
  | .node _ chars, c :: word => (chars c).has_path word

@[simp] theorem id_at_null (word : List Letter) : trie.null.id_at word = 0 := by
  cases word <;> rfl

@[simp] theorem id_at_node_nil (word_id : UInt32) (chars : Letter → trie) :
    (trie.node word_id chars).id_at [] = word_id := rfl

@[simp] theorem id_at_node_cons (word_id : UInt32) (chars : Letter → trie) (c : Letter)
    (word : List Letter) : (trie.node word_id chars).id_at (c :: word) = (chars c).id_at word :=
  rfl

@[simp] theorem id_at_create_trie_node (word : List Letter) : create_trie_node.id_at word = 0 := by
  cases word with
  | nil => rfl
  | cons c word => exact id_at_null word

@[simp] theorem id_at_or_create (t : trie) (word : List Letter) :
    t.or_create.id_at word = t.id_at word := by
  cases t with
  | null => rw [trie.or_create, id_at_create_trie_node, id_at_null]
  | node word_id chars => rfl

theorem or_create_ne_null (t : trie) : t.or_create ≠ .null := by
  cases t <;> simp [trie.or_create, create_trie_node]

/-- Without a path there is no id. -/
theorem has_path_of_stored {t : trie} {word : List Letter} (h : t.stored word) :
    t.has_path word = true := by
  induction word generalizing t with
  | nil =>
    cases t with
    | null => exact absurd (id_at_null []) h
    | node word_id chars => rfl
  | cons c word ih =>
    cases t with
    | null => exact absurd (id_at_null _) h
    | node word_id chars => exact ih (t := chars c) h

theorem child_exist_eq_false {chars : Letter → trie} :
    child_exist chars = false ↔ ∀ i, chars i = .null := by
  unfold child_exist
  rw [List.any_eq_false]
  constructor
  · intro h i
    have hi := h i (List.mem_finRange i)
    cases hc : chars i with
    | null => rfl
    | node word_id cs => simp [hc, trie.is_node] at hi
  · intro h i _
    simp [h i, trie.is_node]

/-- The id of a word in the trie after its child `c` was replaced. -/
theorem id_at_update {word_id : UInt32} {chars : Letter → trie} {c : Letter} {child : trie}
    {word : List Letter} {g : UInt32}
    (hchild : ∀ v, child.id_at v = if v = word then g else (chars c).id_at v)
    (v : List Letter) :
    (trie.node word_id (Function.update chars c child)).id_at v =
      if v = c :: word then g else (trie.node word_id chars).id_at v := by
  cases v with
  | nil => simp
  | cons d v =>
    by_cases hd : d = c
    · subst hd
      simp [hchild]
    · simp [hd]

/-! ## Section 4: What the functions do -/

/-- **`insert`** sets the id of the word and of nothing else. -/
theorem insert_spec (g : UInt32) {t : trie} (ht : t ≠ .null) (word : List Letter) :
    ∃ t', insert g t word = .ok t' ∧ t' ≠ .null ∧
      ∀ v, t'.id_at v = if v = word then g else t.id_at v := by
  induction word generalizing t with
  | nil =>
    cases t with
    | null => exact absurd rfl ht
    | node word_id chars =>
      refine ⟨.node g chars, rfl, by simp, ?_⟩
      intro v
      cases v <;> simp
  | cons c word ih =>
    cases t with
    | null => exact absurd rfl ht
    | node word_id chars =>
      obtain ⟨child, hchild, -, hid⟩ := ih (or_create_ne_null (chars c))
      refine ⟨.node word_id (Function.update chars c child), ?_, by simp, ?_⟩
      · unfold insert
        rw [hchild]
        rfl
      · apply id_at_update
        intro v
        rw [hid, id_at_or_create]

theorem erase_cons (word_id : UInt32) (chars : Letter → trie) (c : Letter)
    (word : List Letter) :
    erase (.node word_id chars) (c :: word) =
      (erase (chars c) word).map (erase_return word_id chars c) := by
  conv_lhs => unfold erase
  rw [if_neg (by simp)]
  rfl

/-- The path of the word falls off the trie: nothing happens. -/
theorem erase_eq_false {t : trie} {word : List Letter} (h : t.has_path word = false) :
    erase t word = .ok (false, t) := by
  induction word generalizing t with
  | nil =>
    cases t with
    | null => rfl
    | node word_id chars => simp [trie.has_path] at h
  | cons c word ih =>
    cases t with
    | null => rfl
    | node word_id chars =>
      rw [erase_cons, ih (t := chars c) h]
      show Except.ok (false, trie.node word_id (Function.update chars c (chars c))) = _
      rw [Function.update_eq_self]

/-- The path of the word ends at a node without an id: `chars` is left. -/
theorem erase_eq_out_of_range {t : trie} {word : List Letter} (hpath : t.has_path word = true)
    (hid : ¬ t.stored word) : erase t word = .error (.out_of_range (-97)) := by
  induction word generalizing t with
  | nil =>
    cases t with
    | null => simp [trie.has_path] at hpath
    | node word_id chars =>
      unfold erase
      have hzero : ¬ (([] : List Letter) = [] ∧ word_id ≠ 0) := fun h => hid h.2
      rw [if_neg hzero]
      rfl
  | cons c word ih =>
    cases t with
    | null => simp [trie.has_path] at hpath
    | node word_id chars =>
      rw [erase_cons, ih (t := chars c) hpath hid]
      rfl

/-- A pruned node had nothing left to say. -/
theorem id_at_pruned {chars : Letter → trie} (h : child_exist chars = false) (v : List Letter) :
    (trie.node 0 chars).id_at v = 0 := by
  cases v with
  | nil => rfl
  | cons c v => rw [id_at_node_cons, child_exist_eq_false.mp h c, id_at_null]

/-- A stored word is erased, and every other word keeps its id. -/
theorem erase_eq_true {t : trie} {word : List Letter} (h : t.stored word) :
    ∃ t', erase t word = .ok (true, t') ∧
      ∀ v, t'.id_at v = if v = word then 0 else t.id_at v := by
  induction word generalizing t with
  | nil =>
    cases t with
    | null => exact absurd (id_at_null []) h
    | node word_id chars =>
      have hend : ([] : List Letter) = [] ∧ word_id ≠ 0 := ⟨rfl, h⟩
      -- With and without children, what is left is the trie with the id zero.
      have hleft : ∀ v, (trie.node 0 chars).id_at v =
          if v = [] then 0 else (trie.node word_id chars).id_at v := by
        intro v
        cases v <;> simp
      unfold erase
      rw [if_pos hend]
      cases hchild : child_exist chars with
      | true => exact ⟨.node 0 chars, rfl, hleft⟩
      | false =>
        refine ⟨.null, rfl, ?_⟩
        intro v
        rw [← hleft v, id_at_null, id_at_pruned hchild]
  | cons c word ih =>
    cases t with
    | null => exact absurd (id_at_null _) h
    | node word_id chars =>
      obtain ⟨child, herase, hid⟩ := ih (t := chars c) h
      have hupdate : ∀ v, (trie.node word_id (Function.update chars c child)).id_at v = _ :=
        id_at_update hid
      rw [erase_cons, herase]
      by_cases hprune : word_id = 0 ∧ child_exist (Function.update chars c child) = false
      · refine ⟨.null, ?_, ?_⟩
        · show Except.ok (erase_return word_id chars c (true, child)) = _
          simp [erase_return, hprune]
        · intro v
          obtain ⟨rfl, hnone⟩ := hprune
          rw [← hupdate v, id_at_null, id_at_pruned hnone]
      · refine ⟨.node word_id (Function.update chars c child), ?_, hupdate⟩
        show Except.ok (erase_return word_id chars c (true, child)) = _
        simp [erase_return, hprune]

/-! ## Section 5: The contract of `erase` -/

/-- What `erase` promises: it stays inside `chars`, it returns true iff the word
    is stored, it then removes exactly this word, and otherwise changes nothing. -/
def erase_contract (t : trie) (word : List Letter) : Prop :=
  ∃ erased t', erase t word = .ok (erased, t') ∧ (erased = true ↔ t.stored word) ∧
    (erased = true → ∀ v, t'.id_at v = if v = word then 0 else t.id_at v) ∧
    (erased = false → t' = t)

/-- **The contract of `erase`** is met for a stored word and for a word whose path
    falls off the trie, and for no other word. -/
theorem erase_contract_iff (t : trie) (word : List Letter) :
    erase_contract t word ↔ t.stored word ∨ t.has_path word = false := by
  constructor
  · intro h
    obtain ⟨erased, t', herase, -⟩ := h
    by_contra hnot
    simp only [not_or, Bool.not_eq_false] at hnot
    rw [erase_eq_out_of_range hnot.2 hnot.1] at herase
    cases herase
  · intro hcase
    rcases hcase with hstored | hoff
    · obtain ⟨t', herase, hid⟩ := erase_eq_true hstored
      refine ⟨true, t', herase, ⟨fun _ => hstored, fun _ => rfl⟩, fun _ => hid, ?_⟩
      intro hfalse
      cases hfalse
    · refine ⟨false, t, erase_eq_false hoff, ⟨?_, ?_⟩, ?_, fun _ => rfl⟩
      · intro htrue
        cases htrue
      · intro hstored
        rw [has_path_of_stored hstored] at hoff
        cases hoff
      · intro htrue
        cases htrue

/-- After `ab` was inserted, erasing `a` leaves the array `chars`. -/
theorem erase_proper_prefix :
    ∃ t, insert 1 create_trie_node [0, 1] = .ok t ∧
      erase t [0] = .error (.out_of_range (-97)) ∧ ¬ erase_contract t [0] := by
  refine ⟨_, rfl, rfl, ?_⟩
  intro h
  obtain ⟨erased, t', herase, -⟩ := h
  cases herase

/-! ## Section 6: The dictionary -/

/-- The trie of `main`.  `inserts` counts the calls of `insert`, and `words` are
    the words that were inserted and not erased since. -/
structure Dictionary where
  root              : trie
  word_id_generator : UInt32
  inserts           : ℕ
  words             : List (List Letter)

inductive Command where
  | insert (word : List Letter)
  | erase (word : List Letter)

/-- The commands of `main` that change the trie, for words that are not empty.
    `main` creates the root again when `erase` has freed it. -/
def dictionary_commands : System Dictionary Command where
  init := fun s => s = ⟨create_trie_node, 1, 0, []⟩
  step := fun s c s' =>
    match c with
    | .insert word => word ≠ [] ∧ ∃ t, insert s.word_id_generator s.root word = .ok t ∧
        s' = ⟨t, s.word_id_generator + 1, s.inserts + 1, word :: s.words⟩
    | .erase word => word ≠ [] ∧ ∃ erased t, erase s.root word = .ok (erased, t) ∧
        s' = ⟨t.or_create, s.word_id_generator, s.inserts, s.words.filter (· ≠ word)⟩

/-- The ids in use, as long as the generator has not wrapped around. -/
structure DictionaryInv (s : Dictionary) : Prop where
  root      : s.root ≠ .null
  generator : s.word_id_generator = UInt32.ofNat (s.inserts + 1)
  nonempty  : s.root.id_at [] = 0
  used      : s.inserts < 2 ^ 32 → ∀ word, (s.root.id_at word).toNat ≤ s.inserts
  distinct  : s.inserts < 2 ^ 32 → ∀ v w, s.root.stored v →
    s.root.id_at v = s.root.id_at w → v = w
  words     : s.inserts < 2 ^ 32 → ∀ word, s.root.stored word ↔ word ∈ s.words

/-- The next id is the number of the insert. -/
theorem DictionaryInv.generator_toNat {s : Dictionary} (h : DictionaryInv s)
    (hlt : s.inserts + 1 < 2 ^ 32) : s.word_id_generator.toNat = s.inserts + 1 := by
  rw [h.generator, UInt32.toNat_ofNat_of_lt' hlt]

theorem DictionaryInv.generator_ne_zero {s : Dictionary} (h : DictionaryInv s)
    (hlt : s.inserts + 1 < 2 ^ 32) : s.word_id_generator ≠ 0 := by
  intro hzero
  have hnat := h.generator_toNat hlt
  rw [hzero] at hnat
  simp at hnat

theorem DictionaryInv.insert {s : Dictionary} (h : DictionaryInv s) {word : List Letter}
    (hword : word ≠ []) {t : trie} (hinsert : insert s.word_id_generator s.root word = .ok t) :
    DictionaryInv ⟨t, s.word_id_generator + 1, s.inserts + 1, word :: s.words⟩ := by
  obtain ⟨t', ht', hnull, hid⟩ := insert_spec s.word_id_generator h.root word
  rw [hinsert] at ht'
  cases ht'
  refine ⟨hnull, ?_, ?_, ?_, ?_, ?_⟩
  · show s.word_id_generator + 1 = UInt32.ofNat (s.inserts + 1 + 1)
    rw [h.generator, UInt32.ofNat_add (s.inserts + 1) 1]
    rfl
  · show t.id_at [] = 0
    rw [hid, if_neg hword.symm, h.nonempty]
  · intro hlt v
    change s.inserts + 1 < 2 ^ 32 at hlt
    show (t.id_at v).toNat ≤ s.inserts + 1
    rw [hid]
    split
    · rw [h.generator_toNat hlt]
    · have hused := h.used (by omega) v
      omega
  · intro hlt v w hv heq
    change s.inserts + 1 < 2 ^ 32 at hlt
    change t.id_at v ≠ 0 at hv
    change t.id_at v = t.id_at w at heq
    -- The new id is larger than all ids in use.
    have hold : ∀ x, (s.root.id_at x).toNat ≠ s.word_id_generator.toNat := by
      intro x
      have hused := h.used (by omega) x
      rw [h.generator_toNat hlt]
      omega
    rw [hid] at hv
    rw [hid v, hid w] at heq
    by_cases hvw : v = word
    · by_cases hww : w = word
      · rw [hvw, hww]
      · rw [if_pos hvw, if_neg hww] at heq
        exact absurd (congrArg UInt32.toNat heq).symm (hold w)
    · rw [if_neg hvw] at hv heq
      by_cases hww : w = word
      · rw [if_pos hww] at heq
        exact absurd (congrArg UInt32.toNat heq) (hold v)
      · rw [if_neg hww] at heq
        exact h.distinct (by omega) v w hv heq
  · intro hlt v
    change s.inserts + 1 < 2 ^ 32 at hlt
    show t.id_at v ≠ 0 ↔ v ∈ word :: s.words
    rw [hid, List.mem_cons, ← h.words (by omega) v]
    by_cases hv : v = word
    · simp [hv, h.generator_ne_zero hlt]
    · simp [hv, trie.stored]

theorem DictionaryInv.erase {s : Dictionary} (h : DictionaryInv s) {word : List Letter}
    {erased : Bool} {t : trie} (herase : erase s.root word = .ok (erased, t)) :
    DictionaryInv ⟨t.or_create, s.word_id_generator, s.inserts, s.words.filter (· ≠ word)⟩ := by
  -- The id of the word is gone, if it had one, and all others are kept.
  have hid : ∀ v, t.or_create.id_at v = if v = word then 0 else s.root.id_at v := by
    intro v
    rw [id_at_or_create]
    by_cases hstored : s.root.stored word
    · obtain ⟨t', ht', hids⟩ := erase_eq_true hstored
      rw [herase] at ht'
      cases ht'
      exact hids v
    · cases hpath : s.root.has_path word with
      | true =>
        rw [erase_eq_out_of_range hpath hstored] at herase
        cases herase
      | false =>
        rw [erase_eq_false hpath] at herase
        cases herase
        split
        · next hv =>
          rw [hv]
          exact not_not.mp hstored
        · rfl
  refine ⟨or_create_ne_null t, h.generator, ?_, ?_, ?_, ?_⟩
  · show t.or_create.id_at [] = 0
    rw [hid, h.nonempty, ite_self]
  · intro hlt v
    show (t.or_create.id_at v).toNat ≤ s.inserts
    rw [hid]
    split
    · exact Nat.zero_le _
    · exact h.used hlt v
  · intro hlt v w hv heq
    change t.or_create.id_at v ≠ 0 at hv
    change t.or_create.id_at v = t.or_create.id_at w at heq
    have hw : t.or_create.id_at w ≠ 0 := heq ▸ hv
    rw [hid] at hv hw
    rw [hid v, hid w] at heq
    by_cases hvw : v = word
    · exact absurd (if_pos hvw) hv
    · by_cases hww : w = word
      · exact absurd (if_pos hww) hw
      · rw [if_neg hvw] at hv heq
        rw [if_neg hww] at heq
        exact h.distinct hlt v w hv heq
  · intro hlt v
    show t.or_create.id_at v ≠ 0 ↔ v ∈ s.words.filter (· ≠ word)
    rw [hid, List.mem_filter, ← h.words hlt v]
    by_cases hv : v = word
    · simp [hv]
    · simp [hv, trie.stored]

theorem dictionary_inv_reachable {s : Dictionary} (h : Reachable dictionary_commands s) :
    DictionaryInv s := by
  apply h.invariant
  · intro s heq
    subst heq
    refine ⟨by simp [create_trie_node], rfl, rfl, ?_, ?_, ?_⟩
    · intro _ word
      simp
    · intro _ v w hv
      exact absurd (id_at_create_trie_node v) hv
    · intro _ word
      simp [trie.stored]
  · intro s c s' _ hinv hstep
    cases c with
    | insert word =>
      obtain ⟨hword, t, hinsert, rfl⟩ := hstep
      exact hinv.insert hword hinsert
    | erase word =>
      obtain ⟨-, erased, t, herase, rfl⟩ := hstep
      exact hinv.erase herase

end Project1
