import ConcurrentProgramming.Project1.Trie
import Mathlib.Data.List.Infix

/-! # Dead Branches and Used-Up Ids (`trie.cc`, `main.cc`)

    Two properties of the trie over whole histories of commands, when only
    stored words are erased:

    * its nodes are the prefixes of the stored words, so `erase` prunes exactly
      the branches that nobody needs any more (`trie_holds_prefixes`);
    * the ids of the stored words are not zero and differ (`word_ids_usable`).

    Both rest on `word_id_generator` not having wrapped around.  The insert
    number `2 ^ 32` stores a word under the id zero, which means "no word": such
    a word is not found, and `erase` of a longer word cuts its branch.
-/

namespace Project1

open LTS

/-! ## Section 1: Tries without dead branches -/

/-- Every node is the end of a word or has a child. -/
def trie.trim : trie → Prop
  | .null => True
  | .node word_id chars => (word_id ≠ 0 ∨ child_exist chars = true) ∧ ∀ c, (chars c).trim

/-- The same below the root; the root stays when the trie is empty. -/
def trie.trim_below : trie → Prop
  | .null => True
  | .node _ chars => ∀ c, (chars c).trim

theorem child_exist_eq_true {chars : Letter → trie} :
    child_exist chars = true ↔ ∃ c, chars c ≠ .null := by
  rw [← Bool.not_eq_false, child_exist_eq_false]
  exact not_forall

theorem child_exist_update {chars : Letter → trie} {c : Letter} {child : trie}
    (h : child ≠ .null) : child_exist (Function.update chars c child) = true :=
  child_exist_eq_true.mpr ⟨c, by rwa [Function.update_self]⟩

theorem trim_update {chars : Letter → trie} (h : ∀ d, (chars d).trim) {c : Letter} {child : trie}
    (hchild : child.trim) (d : Letter) : (Function.update chars c child d).trim := by
  by_cases hd : d = c
  · subst hd
    rwa [Function.update_self]
  · rw [Function.update_of_ne hd]
    exact h d

theorem trie.trim.below {t : trie} (h : t.trim) : t.trim_below := by
  cases t with
  | null => trivial
  | node word_id chars => exact h.2

theorem or_create_trim_below {t : trie} (h : t.trim) : t.or_create.trim_below := by
  cases t with
  | null => exact fun _ => trivial
  | node word_id chars => exact h.2

/-- From every node a word can be reached. -/
theorem exists_stored {t : trie} (h : t.trim) (hne : t ≠ .null) : ∃ word, t.stored word := by
  induction t with
  | null => exact absurd rfl hne
  | node word_id chars ih =>
    rcases h.1 with hid | hchild
    · exact ⟨[], hid⟩
    · obtain ⟨c, hc⟩ := child_exist_eq_true.mp hchild
      obtain ⟨word, hword⟩ := ih c (h.2 c) hc
      exact ⟨c :: word, hword⟩

/-- Every path is the beginning of a stored word. -/
theorem exists_stored_of_path {t : trie} (h : t.trim) {v : List Letter}
    (hpath : t.has_path v = true) : ∃ word, t.stored word ∧ v <+: word := by
  induction v generalizing t with
  | nil =>
    have hne : t ≠ .null := by
      intro hnull
      rw [hnull] at hpath
      cases hpath
    obtain ⟨word, hword⟩ := exists_stored h hne
    exact ⟨word, hword, List.nil_prefix⟩
  | cons c v ih =>
    cases t with
    | null => cases hpath
    | node word_id chars =>
      obtain ⟨word, hword, hv⟩ := ih (h.2 c) hpath
      exact ⟨c :: word, hword, List.cons_prefix_cons.mpr ⟨rfl, hv⟩⟩

/-- The beginning of a path is a path. -/
theorem has_path_mono {t : trie} {v word : List Letter} (hv : v <+: word)
    (hpath : t.has_path word = true) : t.has_path v = true := by
  induction v generalizing t word with
  | nil =>
    cases t with
    | null => cases word <;> cases hpath
    | node word_id chars => rfl
  | cons c v ih =>
    obtain ⟨rest, rfl⟩ := hv
    cases t with
    | null => cases hpath
    | node word_id chars => exact ih (t := chars c) (List.prefix_append v rest) hpath

/-- The nodes below the root of a trie without dead branches. -/
theorem has_path_iff {t : trie} (h : t.trim_below) {v : List Letter} (hv : v ≠ []) :
    t.has_path v = true ↔ ∃ word, t.stored word ∧ v <+: word := by
  constructor
  · intro hpath
    cases v with
    | nil => exact absurd rfl hv
    | cons c v =>
      cases t with
      | null => cases hpath
      | node word_id chars =>
        obtain ⟨word, hword, hprefix⟩ := exists_stored_of_path (h c) hpath
        exact ⟨c :: word, hword, List.cons_prefix_cons.mpr ⟨rfl, hprefix⟩⟩
  · intro hword
    obtain ⟨word, hstored, hprefix⟩ := hword
    exact has_path_mono hprefix (has_path_of_stored hstored)

/-! ## Section 2: `insert` and `erase` leave no dead branches -/

theorem insert_cons (g word_id : UInt32) (chars : Letter → trie) (c : Letter)
    (word : List Letter) :
    insert g (.node word_id chars) (c :: word) =
      (insert g (chars c).or_create word).map
        (fun child => .node word_id (Function.update chars c child)) := by
  conv_lhs => unfold insert
  rfl

/-- With an id that is not zero, every node on the way of `insert` is needed. -/
theorem insert_trim {g : UInt32} (hg : g ≠ 0) {t t' : trie} (h : t.trim_below)
    {word : List Letter} (hinsert : insert g t word = .ok t') : t'.trim ∧ t' ≠ .null := by
  induction word generalizing t t' with
  | nil =>
    cases t with
    | null => cases hinsert
    | node word_id chars =>
      cases hinsert
      exact ⟨⟨.inl hg, h⟩, by simp⟩
  | cons c word ih =>
    cases t with
    | null => cases hinsert
    | node word_id chars =>
      rw [insert_cons] at hinsert
      cases hchild : insert g (chars c).or_create word with
      | error e =>
        rw [hchild] at hinsert
        cases hinsert
      | ok child =>
        rw [hchild] at hinsert
        cases hinsert
        obtain ⟨htrim, hne⟩ := ih (or_create_trim_below (h c)) hchild
        exact ⟨⟨.inr (child_exist_update hne), trim_update h htrim⟩, by simp⟩

/-- `erase` of a stored word prunes on the way back, also the root. -/
theorem erase_trim {t t' : trie} (h : t.trim_below) {word : List Letter}
    (herase : erase t word = .ok (true, t')) : t'.trim := by
  induction word generalizing t t' with
  | nil =>
    cases t with
    | null => cases herase
    | node word_id chars =>
      unfold erase at herase
      split at herase
      · split at herase
        · next hchild =>
          cases herase
          exact ⟨.inr hchild, h⟩
        · cases herase
          trivial
      · cases herase
  | cons c word ih =>
    cases t with
    | null => cases herase
    | node word_id chars =>
      rw [erase_cons] at herase
      cases hchild : erase (chars c) word with
      | error e =>
        rw [hchild] at herase
        cases herase
      | ok result =>
        obtain ⟨erased, child⟩ := result
        rw [hchild] at herase
        replace herase := Except.ok.inj herase
        cases erased with
        | false => simp [erase_return] at herase
        | true =>
          -- The child is trim again; the node stays for a word of its own or another child.
          have htrim := trim_update h (ih (h c).below hchild) (c := c)
          simp only [erase_return, if_true] at herase
          split at herase
          · cases herase
            trivial
          · next hkeep =>
            cases herase
            refine ⟨?_, htrim⟩
            by_cases hid : word_id = 0
            · right
              simpa [hid] using hkeep
            · exact .inl hid

/-! ## Section 3: Histories that erase stored words -/

/-- The histories in which a word is erased only while it is stored. -/
def stored_commands : System Dictionary Command :=
  dictionary_commands.restrict fun s c =>
    match c with
    | .insert _ => True
    | .erase word => word ∈ s.words

theorem reachable_insert {s : Dictionary} (h : Reachable stored_commands s) {word : List Letter}
    (hword : word ≠ []) {t : trie} (hinsert : insert s.word_id_generator s.root word = .ok t) :
    Reachable stored_commands ⟨t, s.word_id_generator + 1, s.inserts + 1, word :: s.words⟩ :=
  h.step (l := Command.insert word) ⟨trivial, hword, t, hinsert, rfl⟩

theorem trim_below_reachable {s : Dictionary} (h : Reachable stored_commands s)
    (hcount : s.inserts < 2 ^ 32) : s.root.trim_below := by
  induction h with
  | init heq =>
    rw [heq]
    exact fun _ => trivial
  | @step s c s' hreach hstep ih =>
    have hinv := dictionary_inv_reachable hreach.of_restrict
    obtain ⟨hstored, hstep⟩ := hstep
    cases c with
    | insert word =>
      obtain ⟨-, t, hinsert, rfl⟩ := hstep
      change s.inserts + 1 < 2 ^ 32 at hcount
      have hbelow := ih (Nat.lt_of_succ_lt hcount)
      exact (insert_trim (hinv.generator_ne_zero hcount) hbelow hinsert).1.below
    | erase word =>
      obtain ⟨-, erased, t, herase, rfl⟩ := hstep
      -- A stored word is found, so the nodes on its way were pruned.
      obtain ⟨t', ht', -⟩ := erase_eq_true ((hinv.words hcount word).mpr hstored)
      rw [herase] at ht'
      cases ht'
      exact or_create_trim_below (erase_trim (ih hcount) herase)

/-! ## Section 4: The generator wraps around

    `ab` is inserted once and then `a` again and again; every insert uses up an
    id.  The insert number `2 ^ 32` gives `a` the id zero, the next one the id of
    `ab`. -/

/-- The trie of `a`, with the id `word_id`, and `ab`, with the id one. -/
def wrap_trie (word_id : UInt32) : trie :=
  .node 0 (Function.update (fun _ => .null) 0
    (.node word_id (Function.update (fun _ => .null) 1 (.node 1 fun _ => .null))))

/-- After `ab` and then `n` times `a`. -/
def wrap_state (word_id : UInt32) (n : ℕ) : Dictionary :=
  ⟨wrap_trie word_id, UInt32.ofNat (n + 2), n + 1, List.replicate n [0] ++ [[0, 1]]⟩

theorem wrap_insert (g word_id : UInt32) :
    insert g (wrap_trie word_id) [0] = .ok (wrap_trie g) := by
  rw [wrap_trie, insert_cons, Function.update_self]
  show Except.ok (trie.node 0 (Function.update _ _ _)) = _
  rw [Function.update_idem]
  rfl

theorem wrap_first : Reachable stored_commands (wrap_state 0 0) := by
  have hinsert : insert 1 create_trie_node [0, 1] = .ok (wrap_trie 0) := rfl
  exact reachable_insert (s := ⟨create_trie_node, 1, 0, []⟩) (Reachable.init rfl) (by simp) hinsert

theorem wrap_step {word_id : UInt32} {n : ℕ}
    (h : Reachable stored_commands (wrap_state word_id n)) :
    Reachable stored_commands (wrap_state (UInt32.ofNat (n + 2)) (n + 1)) := by
  have hstep := reachable_insert h (by simp) (wrap_insert (UInt32.ofNat (n + 2)) word_id)
  have hgen : UInt32.ofNat (n + 2) + 1 = UInt32.ofNat (n + 1 + 2) :=
    (UInt32.ofNat_add (n + 2) 1).symm
  rw [wrap_state, ← hgen]
  exact hstep

theorem wrap_reachable (n : ℕ) :
    Reachable stored_commands (wrap_state (UInt32.ofNat (n + 2)) (n + 1)) := by
  induction n with
  | zero => exact wrap_step wrap_first
  | succ n ih => exact wrap_step ih

theorem wrap_words (word_id : UInt32) (n : ℕ) :
    [0] ∈ (wrap_state word_id (n + 1)).words ∧ [0, 1] ∈ (wrap_state word_id (n + 1)).words := by
  simp [wrap_state]

/-! ## Section 5: Nodes and ids over whole histories -/

/-- **The nodes are the prefixes**: before the generator has wrapped around, the
    nodes below the root are the prefixes of the stored words, `erase` frees the
    root exactly with the last word, and the other words keep their ids. -/
theorem trie_holds_prefixes {s : Dictionary} (h : Reachable stored_commands s)
    (hcount : s.inserts < 2 ^ 32) :
    (∀ v, v ≠ [] → (s.root.has_path v = true ↔ ∃ word ∈ s.words, v <+: word)) ∧
    (∀ word ∈ s.words, ∃ t, erase s.root word = .ok (true, t) ∧
      (t = .null ↔ ∀ v ∈ s.words, v = word) ∧
      ∀ v ∈ s.words, v ≠ word → t.id_at v = s.root.id_at v) ∧
    (∀ word, ∃ t, insert s.word_id_generator s.root word = .ok t ∧
      ∀ v ∈ s.words, v ≠ word → t.id_at v = s.root.id_at v) := by
  have hinv := dictionary_inv_reachable h.of_restrict
  have hbelow := trim_below_reachable h hcount
  have hwords := hinv.words hcount
  refine ⟨?_, ?_, ?_⟩
  · intro v hv
    simp only [has_path_iff hbelow hv, hwords]
  · intro word hword
    obtain ⟨t, herase, hid⟩ := erase_eq_true ((hwords word).mpr hword)
    refine ⟨t, herase, ⟨?_, ?_⟩, fun v _ hne => by rw [hid, if_neg hne]⟩
    · intro hnull v hv
      by_contra hne
      have hzero := hid v
      rw [hnull, id_at_null, if_neg hne] at hzero
      exact (hwords v).mpr hv hzero.symm
    · intro honly
      by_contra hnull
      -- A trie that is left holds a word, and this word was there before.
      obtain ⟨v, hv⟩ := exists_stored (erase_trim hbelow herase) hnull
      rw [trie.stored, hid] at hv
      have hne : v ≠ word := fun heq => hv (if_pos heq)
      rw [if_neg hne] at hv
      exact hne (honly v ((hwords v).mp hv))
  · intro word
    obtain ⟨t, hinsert, -, hid⟩ := insert_spec s.word_id_generator hinv.root word
    exact ⟨t, hinsert, fun v _ hne => by rw [hid, if_neg hne]⟩

theorem trie_holds_prefixes_two :
    Reachable stored_commands (wrap_state 2 1) ∧
    ∃ t, erase (wrap_trie 2) [0] = .ok (true, t) ∧ t ≠ .null ∧ t.id_at [0, 1] = 1 := by
  have hreach : Reachable stored_commands (wrap_state 2 1) := wrap_reachable 0
  have hwords := wrap_words 2 0
  obtain ⟨t, herase, hroot, hid⟩ :=
    (trie_holds_prefixes hreach (by decide)).2.1 [0] hwords.1
  refine ⟨hreach, t, herase, ?_, hid [0, 1] hwords.2 (by decide)⟩
  intro hnull
  have honly := hroot.mp hnull [0, 1] hwords.2
  simp at honly

/-- The insert number `2 ^ 32` gives `a` the id zero.  `erase` of `ab` then frees
    the root, and `a`, which was never erased, has no node. -/
theorem wrapped_id_cuts_branch :
    ∃ s s', Reachable stored_commands s ∧ s.inserts = 2 ^ 32 ∧ [0] ∈ s.words ∧
      [0, 1] ∈ s.words ∧ erase s.root [0, 1] = .ok (true, .null) ∧
      stored_commands.step s (.erase [0, 1]) s' ∧ [0] ∈ s'.words ∧
      s'.root.has_path [0] = false := by
  have hreach := wrap_reachable (2 ^ 32 - 2)
  have hwords := wrap_words (UInt32.ofNat (2 ^ 32 - 2 + 2)) (2 ^ 32 - 2)
  have hzero : UInt32.ofNat (2 ^ 32 - 2 + 2) = 0 := rfl
  rw [hzero] at hreach hwords
  generalize hn : 2 ^ 32 - 2 = n at hreach hwords
  have herase : erase (wrap_state 0 (n + 1)).root [0, 1] = .ok (true, .null) := rfl
  refine ⟨_, _, hreach, ?_, hwords.1, hwords.2, herase,
    ⟨hwords.2, by simp, true, .null, herase, rfl⟩, ?_, rfl⟩
  · show n + 2 = 2 ^ 32
    omega
  · rw [List.mem_filter]
    exact ⟨hwords.1, by decide⟩

/-- **Ids are usable**: before the generator has wrapped around, the stored words
    have ids that are not zero and differ. -/
theorem word_ids_usable {s : Dictionary} (h : Reachable stored_commands s)
    (hcount : s.inserts < 2 ^ 32) :
    (∀ word ∈ s.words, s.root.id_at word ≠ 0) ∧
    ∀ v ∈ s.words, ∀ w ∈ s.words, s.root.id_at v = s.root.id_at w → v = w := by
  have hinv := dictionary_inv_reachable h.of_restrict
  have hwords := hinv.words hcount
  exact ⟨fun word hword => (hwords word).mpr hword,
    fun v hv w _ heq => hinv.distinct hcount v w ((hwords v).mpr hv) heq⟩

theorem word_ids_usable_two :
    Reachable stored_commands (wrap_state 2 1) ∧
    (wrap_trie 2).id_at [0] ≠ 0 ∧ (wrap_trie 2).id_at [0] ≠ (wrap_trie 2).id_at [0, 1] := by
  have hreach : Reachable stored_commands (wrap_state 2 1) := wrap_reachable 0
  have hwords := wrap_words 2 0
  obtain ⟨hne, hinj⟩ := word_ids_usable hreach (by decide)
  refine ⟨hreach, hne [0] hwords.1, ?_⟩
  intro heq
  have hsame := hinj [0] hwords.1 [0, 1] hwords.2 heq
  simp at hsame

/-- The insert number `2 ^ 32` stores a word under the id zero; after the next
    one two words share the id one. -/
theorem wrapped_ids_not_usable :
    (∃ s, Reachable stored_commands s ∧ s.inserts = 2 ^ 32 ∧ [0] ∈ s.words ∧
      s.root.id_at [0] = 0) ∧
    ∃ s, Reachable stored_commands s ∧ s.inserts = 2 ^ 32 + 1 ∧ [0] ∈ s.words ∧
      [0, 1] ∈ s.words ∧ s.root.id_at [0] = 1 ∧ s.root.id_at [0, 1] = 1 := by
  refine ⟨⟨_, wrap_reachable (2 ^ 32 - 2), rfl, (wrap_words _ _).1, rfl⟩, ?_⟩
  exact ⟨_, wrap_reachable (2 ^ 32 - 1), rfl, (wrap_words _ _).1, (wrap_words _ _).2, rfl, rfl⟩

end Project1
