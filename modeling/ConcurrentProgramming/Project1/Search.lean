import ConcurrentProgramming.Framework.FirstSeen
import ConcurrentProgramming.Project1.Trie
import Mathlib.Data.List.Sort
import Mathlib.Data.List.Infix

/-! # Searching a Query (`search_substring`, `search_all_patterns`)

    Every substring of the query is looked up in the trie.  Up to 42 workers scan
    the starting positions in chunks, the answers are merged, sorted, and printed
    unless a word with the same id was printed before.

    The purpose of all this is `plain_scan`: go through the substrings by start
    and length, and list every stored word when it occurs first.  The main result
    is that the program prints this list.
-/

namespace Project1

open LTS FirstSeen

/-! ## Section 1: The workers -/

abbrev THREAD_NUM : ℕ := 42

/-- `answer_t`; locations are positions in the query, lengths are `uint32_t`. -/
structure answer_t where
  substring_location : ℕ
  length             : ℕ
  word_id            : UInt32
  deriving DecidableEq, Repr

/-- `thread_arg_t`.  The root is not `NULL`, it is given by its children. -/
structure thread_arg_t where
  trie_root          : Letter → trie
  substring_location : ℕ
  search_length      : ℕ

/-- The inner loop of `search_substring`, from the node with the children `chars`;
    `explored` is `query_exploring_ptr - data.substring_location`. -/
def search_word (substring_location : ℕ) :
    (Letter → trie) → ℕ → List Letter → List answer_t
  | _, _, [] => []
  | chars, explored, c :: rest =>
      match chars c with
      | .null => []
      | .node word_id chars' =>
          if word_id ≠ 0 then
            ⟨substring_location, (explored + 1) % 2 ^ 32, word_id⟩ ::
              search_word substring_location chars' (explored + 1) rest
          else search_word substring_location chars' (explored + 1) rest

/-- The outer loop of `search_substring`; the last argument is the query from
    `substring_location` on. -/
def search_loop (trie_root : Letter → trie) : ℕ → ℕ → List Letter → List answer_t
  | 0, _, _ => []
  | _ + 1, _, [] => []
  | search_length + 1, substring_location, c :: rest =>
      search_word substring_location trie_root 0 (c :: rest) ++
        search_loop trie_root search_length (substring_location + 1) rest

/-- What a woken worker adds to its `local_answers`. -/
def search_substring (query : List Letter) (data : thread_arg_t) : List answer_t :=
  search_loop data.trie_root data.search_length data.substring_location
    (query.drop data.substring_location)

/-- The loop that prepares the arguments, for the remaining thread ids. -/
def prepare_args (trie_root : Letter → trie) (query_length search_itertion_number : ℕ) :
    ℕ → ℕ → List thread_arg_t
  | 0, _ => []
  | threads + 1, substring_location =>
      if substring_location < query_length then
        ⟨trie_root, substring_location, search_itertion_number⟩ ::
          prepare_args trie_root query_length search_itertion_number threads
            (substring_location + search_itertion_number)
      else []

/-- The scan of the worker `tid`, if it has got arguments. -/
def run_worker (query : List Letter) (args : List thread_arg_t)
    (local_answers : ℕ → List answer_t) (tid : ℕ) : ℕ → List answer_t :=
  match args[tid]? with
  | some data =>
      Function.update local_answers tid (local_answers tid ++ search_substring query data)
  | none => local_answers

/-- The woken workers run one after the other, in the given order. -/
def run_workers (query : List Letter) (args : List thread_arg_t)
    (local_answers : ℕ → List answer_t) (order : List ℕ) : ℕ → List answer_t :=
  order.foldl (run_worker query args) local_answers

/-! ## Section 2: Sorting and printing -/

/-- The comparison that is passed to `std::sort`. -/
def answer_less (lhs rhs : answer_t) : Bool :=
  if lhs.substring_location < rhs.substring_location then true
  else if lhs.substring_location > rhs.substring_location then false
  else if lhs.length < rhs.length then true
  else false

/-- `std::sort` with this comparison: some ordered permutation of its argument. -/
structure StdSort where
  run    : List answer_t → List answer_t
  perm   : ∀ l, (run l).Perm l
  sorted : ∀ l, (run l).Pairwise (fun a b => answer_less b a = false)

/-- The characters of a word. -/
def text (word : List Letter) : String :=
  String.ofList (word.map (fun c => Char.ofNat ('a'.toNat + c.val)))

/-- The loop that prints `answer.length` characters from `answer.substring_location` on. -/
def print_answer (query : List Letter) (answer : answer_t) : String :=
  text ((query.drop answer.substring_location).take answer.length)

/-- The loop that prints all answers but the first. -/
def print_others (query : List Letter) : List UInt32 → List answer_t → String
  | _, [] => ""
  | printed, answer :: rest =>
      if answer.word_id ∈ printed then print_others query printed rest
      else
        "|" ++ print_answer query answer ++
          print_others query (answer.word_id :: printed) rest

/-- The printing procedure; `size` is a `uint32_t`. -/
def print_answers (query : List Letter) (global_answers : List answer_t) : String :=
  let size := global_answers.length % 2 ^ 32
  match global_answers with
  | first :: rest =>
      if size ≠ 0 then
        print_answer query first ++
          print_others query [first.word_id] (rest.take (size - 1)) ++ "\n"
      else "-1\n"
  | [] => "-1\n"

/-- The arguments of the woken workers. -/
def thread_args (trie_root : Letter → trie) (query : List Letter) : List thread_arg_t :=
  let query_length := query.length % 2 ^ 32
  prepare_args trie_root query_length (query_length / THREAD_NUM + 1) THREAD_NUM 0

/-- The threads that are woken up. -/
def woken_workers (trie_root : trie) (query : List Letter) : List ℕ :=
  match trie_root with
  | .null => []
  | .node _ chars => List.range (thread_args chars query).length

/-- `search_all_patterns`, when the woken workers run in the given order. -/
def search_all_patterns (trie_root : trie) (query : List Letter) (sort : StdSort)
    (order : List ℕ) : String :=
  match trie_root with
  | .null => ""
  | .node _ chars =>
      let local_answers := run_workers query (thread_args chars query) (fun _ => []) order
      let global_answers := (List.range THREAD_NUM).flatMap local_answers
      print_answers query (sort.run global_answers)

/-! ## Section 3: The plain scan -/

/-- The substring with the given start and length. -/
def substring (query : List Letter) (position : ℕ × ℕ) : List Letter :=
  (query.drop position.1).take position.2

/-- All starts and lengths, in order. -/
def positions (query : List Letter) : List (ℕ × ℕ) :=
  (List.range query.length).flatMap (fun start =>
    (List.range' 1 (query.length - start)).map (fun length => (start, length)))

/-- Where stored words occur. -/
def occurrences (t : trie) (query : List Letter) : List (ℕ × ℕ) :=
  (positions query).filter (fun p => t.stored (substring query p))

/-- The stored words in the query, each where it occurs first. -/
def plain_scan (t : trie) (query : List Letter) : List (List Letter) :=
  (firsts (substring query) [] (occurrences t query)).map (substring query)

/-- The output for a list of words. -/
def render : List (List Letter) → String
  | [] => "-1\n"
  | word :: words => text word ++ String.join (words.map (fun w => "|" ++ text w)) ++ "\n"

/-- Where the word occurs first. -/
def first_start (query word : List Letter) : ℕ :=
  (List.range query.length).findIdx (fun start => word.isPrefixOf (query.drop start))

/-! ## Section 4: The workers together scan the whole query -/

/-- The prefixes of `s` that are stored, by their lengths. -/
def stored_prefixes (t : trie) (s : List Letter) : List ℕ :=
  (List.range' 1 s.length).filter (fun length => t.stored (s.take length))

theorem stored_prefixes_null (s : List Letter) : stored_prefixes .null s = [] := by
  unfold stored_prefixes
  rw [List.filter_eq_nil_iff]
  intro length _
  simp [trie.stored]

/-- The stored prefixes of `c :: rest` belong to the child `c`. -/
theorem stored_prefixes_cons (word_id : UInt32) (chars : Letter → trie) (c : Letter)
    (rest : List Letter) :
    stored_prefixes (.node word_id chars) (c :: rest) =
      if (chars c).stored [] then 1 :: (stored_prefixes (chars c) rest).map (1 + ·)
      else (stored_prefixes (chars c) rest).map (1 + ·) := by
  unfold stored_prefixes
  rw [List.length_cons, List.range'_succ, List.filter_cons, ← List.map_add_range', List.filter_map]
  -- The prefix of length `1 + n` starts with `c`.
  have htail : ((fun length => decide ((trie.node word_id chars).stored ((c :: rest).take length)))
      ∘ (1 + ·)) = fun length => decide ((chars c).stored (rest.take length)) := by
    funext length
    show decide ((trie.node word_id chars).stored ((c :: rest).take (1 + length))) = _
    rw [Nat.add_comm 1 length]
    rfl
  rw [htail]
  by_cases hhead : (chars c).stored []
  · have hone : (trie.node word_id chars).stored ((c :: rest).take 1) := hhead
    rw [if_pos hhead, if_pos (decide_eq_true hone)]
  · have hone : ¬ (trie.node word_id chars).stored ((c :: rest).take 1) := hhead
    rw [if_neg hhead, if_neg (by rwa [decide_eq_true_eq])]

/-- The inner loop finds the stored prefixes. -/
theorem search_word_eq (loc : ℕ) (word_id : UInt32) (chars : Letter → trie) (explored : ℕ)
    (s : List Letter) :
    search_word loc chars explored s =
      (stored_prefixes (.node word_id chars) s).map (fun length =>
        ⟨loc, (explored + length) % 2 ^ 32, (trie.node word_id chars).id_at (s.take length)⟩) := by
  induction s generalizing word_id chars explored with
  | nil => rfl
  | cons c rest ih =>
    unfold search_word
    cases hc : chars c with
    | null =>
      rw [stored_prefixes_cons, hc, stored_prefixes_null]
      simp [trie.stored]
    | node word_id' chars' =>
      rw [stored_prefixes_cons, hc]
      have hrest : search_word loc chars' (explored + 1) rest =
          ((stored_prefixes (.node word_id' chars') rest).map (1 + ·)).map (fun length =>
            ⟨loc, (explored + length) % 2 ^ 32,
              (trie.node word_id chars).id_at ((c :: rest).take length)⟩) := by
        rw [ih word_id' chars' (explored + 1), List.map_map]
        apply List.map_congr_left
        intro length _
        have hlen : explored + 1 + length = explored + (1 + length) := by omega
        simp only [Function.comp_apply, hlen, Nat.add_comm 1 length, List.take_succ_cons,
          id_at_node_cons, hc]
      by_cases hid : word_id' ≠ 0
      · have hst : (trie.node word_id' chars').stored [] := hid
        simp only [if_pos hid, if_pos hst, List.map_cons, hrest, List.take_succ_cons,
          List.take_zero, id_at_node_cons, hc, id_at_node_nil]
      · have hst : ¬ (trie.node word_id' chars').stored [] := hid
        simp only [if_neg hid, if_neg hst, hrest]

theorem search_loop_nil (trie_root : Letter → trie) (n loc : ℕ) :
    search_loop trie_root n loc [] = [] := by
  cases n <;> rfl

/-- A chunk of `a + b` positions is a chunk of `a` positions and one of `b`. -/
theorem search_loop_add (trie_root : Letter → trie) (a b loc : ℕ) (s : List Letter) :
    search_loop trie_root (a + b) loc s =
      search_loop trie_root a loc s ++ search_loop trie_root b (loc + a) (s.drop a) := by
  induction a generalizing loc s with
  | zero => simp [search_loop]
  | succ a ih =>
    cases s with
    | nil => simp [search_loop_nil]
    | cons c rest =>
      have hadd : a + 1 + b = (a + b) + 1 := by omega
      rw [hadd]
      simp only [search_loop, List.drop_succ_cons, List.append_assoc]
      rw [ih, show loc + 1 + a = loc + (a + 1) by omega]

/-- A loop that is long enough visits every position. -/
theorem search_loop_eq (trie_root : Letter → trie) (n loc : ℕ) (s : List Letter)
    (hn : s.length ≤ n) :
    search_loop trie_root n loc s =
      (List.range s.length).flatMap (fun i => search_word (loc + i) trie_root 0 (s.drop i)) := by
  induction s generalizing n loc with
  | nil => simp [search_loop_nil]
  | cons c rest ih =>
    obtain ⟨m, rfl⟩ : ∃ m, n = m + 1 := ⟨n - 1, by simp only [List.length_cons] at hn; omega⟩
    rw [search_loop, ih m (loc + 1) (by simpa using hn), List.length_cons,
      List.range_succ_eq_map, List.flatMap_cons, List.flatMap_map]
    simp [Nat.add_assoc, Nat.add_comm 1]

/-- The chunks of the woken workers, one after the other. -/
theorem prepare_args_scan (trie_root : Letter → trie) (query : List Letter) (k threads loc : ℕ) :
    (prepare_args trie_root query.length k threads loc).flatMap (search_substring query) =
      search_loop trie_root (threads * k) loc (query.drop loc) := by
  induction threads generalizing loc with
  | zero => simp [prepare_args, search_loop]
  | succ threads ih =>
    unfold prepare_args
    by_cases hloc : loc < query.length
    · have hmul : (threads + 1) * k = k + threads * k := by
        rw [Nat.succ_mul, Nat.add_comm]
      rw [if_pos hloc, List.flatMap_cons, ih, hmul, search_loop_add, List.drop_drop]
      rfl
    · rw [if_neg hloc, List.drop_eq_nil_of_le (by omega), search_loop_nil]
      rfl

theorem prepare_args_length (trie_root : Letter → trie) (query_length k threads loc : ℕ) :
    (prepare_args trie_root query_length k threads loc).length ≤ threads := by
  induction threads generalizing loc with
  | zero => simp [prepare_args]
  | succ threads ih =>
    unfold prepare_args
    split
    · rw [List.length_cons]
      exact Nat.succ_le_succ (ih _)
    · exact Nat.zero_le _

/-- What the worker `tid` finds, nothing without arguments. -/
def chunk_answers (query : List Letter) (args : List thread_arg_t) (tid : ℕ) : List answer_t :=
  (args[tid]?).elim [] (search_substring query)

theorem run_worker_eq (query : List Letter) (args : List thread_arg_t)
    (local_answers : ℕ → List answer_t) (tid : ℕ) :
    run_worker query args local_answers tid =
      Function.update local_answers tid (local_answers tid ++ chunk_answers query args tid) := by
  unfold run_worker chunk_answers
  cases args[tid]? with
  | some data => rfl
  | none => simp

/-- The order in which the workers run does not matter. -/
theorem run_workers_eq (query : List Letter) (args : List thread_arg_t) {order : List ℕ}
    (horder : order.Nodup) (local_answers : ℕ → List answer_t) (tid : ℕ) :
    run_workers query args local_answers order tid =
      local_answers tid ++ if tid ∈ order then chunk_answers query args tid else [] := by
  induction order generalizing local_answers with
  | nil => simp [run_workers]
  | cons t order ih =>
    obtain ⟨ht, horder⟩ := List.nodup_cons.mp horder
    show run_workers query args (run_worker query args local_answers t) order tid = _
    rw [ih horder, run_worker_eq]
    by_cases htid : tid = t
    · subst htid
      simp [ht]
    · simp [htid]

/-- Merging in the order of the thread ids gives the chunks in order. -/
theorem merge_chunks (query : List Letter) (args : List thread_arg_t) (n : ℕ)
    (hn : args.length ≤ n) :
    (List.range n).flatMap (chunk_answers query args) = args.flatMap (search_substring query) := by
  induction args generalizing n with
  | nil =>
    rw [List.flatMap_nil, List.flatMap_eq_nil_iff]
    intro tid _
    rfl
  | cons data args ih =>
    obtain ⟨m, rfl⟩ : ∃ m, n = m + 1 := ⟨n - 1, by simp only [List.length_cons] at hn; omega⟩
    rw [List.range_succ_eq_map, List.flatMap_cons, List.flatMap_map, List.flatMap_cons,
      ← ih m (by simpa using hn)]
    rfl

/-- The answer for an occurrence. -/
def answer_of (t : trie) (query : List Letter) (position : ℕ × ℕ) : answer_t :=
  ⟨position.1, position.2 % 2 ^ 32, t.id_at (substring query position)⟩

/-- The merged answers are the occurrences of the stored words, in order. -/
theorem merged_answers (word_id : UInt32) (chars : Letter → trie) (query : List Letter)
    (hquery : query.length < 2 ^ 32) {order : List ℕ}
    (horder : order.Perm (List.range (thread_args chars query).length)) :
    (List.range THREAD_NUM).flatMap
        (run_workers query (thread_args chars query) (fun _ => []) order) =
      (occurrences (.node word_id chars) query).map (answer_of (.node word_id chars) query) := by
  -- Every woken worker has run once, so each has its chunk.
  have hlocal : run_workers query (thread_args chars query) (fun _ => []) order =
      chunk_answers query (thread_args chars query) := by
    funext tid
    rw [run_workers_eq query _ (horder.nodup_iff.mpr List.nodup_range)]
    by_cases htid : tid ∈ order
    · simp [htid]
    · have hlen : (thread_args chars query).length ≤ tid := by
        rw [horder.mem_iff, List.mem_range] at htid
        omega
      simp [htid, chunk_answers, List.getElem?_eq_none hlen]
  -- The 42 chunks cover the query.
  have hcover : query.length ≤ THREAD_NUM * (query.length / THREAD_NUM + 1) := by
    unfold THREAD_NUM
    omega
  have hlength : (thread_args chars query).length ≤ THREAD_NUM := prepare_args_length _ _ _ _ _
  rw [hlocal, merge_chunks query _ _ hlength, thread_args, Nat.mod_eq_of_lt hquery,
    prepare_args_scan, List.drop_zero, search_loop_eq _ _ _ _ hcover, occurrences, positions,
    List.filter_flatMap, List.map_flatMap]
  apply List.flatMap_congr
  intro start _
  rw [search_word_eq _ word_id, stored_prefixes, List.length_drop, List.filter_map, List.map_map]
  simp only [Nat.zero_add]
  rfl

/-! ## Section 5: The answers are in order -/

/-- The order of the answers: by start, then by length. -/
def before (p q : ℕ × ℕ) : Prop := p.1 < q.1 ∨ p.1 = q.1 ∧ p.2 < q.2

theorem mem_positions {query : List Letter} {p : ℕ × ℕ} :
    p ∈ positions query ↔ p.1 < query.length ∧ 1 ≤ p.2 ∧ p.1 + p.2 ≤ query.length := by
  unfold positions
  rw [List.mem_flatMap]
  constructor
  · intro h
    obtain ⟨start, hstart, hp⟩ := h
    obtain ⟨length, hlength, rfl⟩ := List.mem_map.mp hp
    rw [List.mem_range] at hstart
    rw [List.mem_range'_1] at hlength
    show start < query.length ∧ 1 ≤ length ∧ start + length ≤ query.length
    omega
  · intro h
    obtain ⟨hstart, hpos, hend⟩ := h
    refine ⟨p.1, List.mem_range.mpr hstart, List.mem_map.mpr ⟨p.2, ?_, rfl⟩⟩
    rw [List.mem_range'_1]
    omega

theorem positions_pairwise (query : List Letter) : (positions query).Pairwise before := by
  unfold positions
  rw [List.pairwise_flatMap]
  constructor
  · -- Within one start, by length.
    intro start _
    rw [List.pairwise_map]
    exact (List.pairwise_lt_range').imp (fun hlt => .inr ⟨rfl, hlt⟩)
  · apply (List.pairwise_lt_range).imp
    intro a b hab p hp q hq
    obtain ⟨_, -, rfl⟩ := List.mem_map.mp hp
    obtain ⟨_, -, rfl⟩ := List.mem_map.mp hq
    exact .inl hab

theorem occurrences_pairwise (t : trie) (query : List Letter) :
    (occurrences t query).Pairwise before :=
  (positions_pairwise query).filter _

theorem answer_less_iff {a b : answer_t} :
    answer_less a b = true ↔
      before (a.substring_location, a.length) (b.substring_location, b.length) := by
  unfold answer_less before
  simp only
  split
  · next hlt => simp [hlt]
  · split
    · next hgt =>
      simp only [Bool.false_eq_true, false_iff]
      omega
    · split
      · next hlt =>
        simp only [true_iff]
        omega
      · simp only [Bool.false_eq_true, false_iff]
        omega

theorem answer_less_eq_false {a b : answer_t} :
    answer_less b a = false ↔ a.substring_location < b.substring_location ∨
      a.substring_location = b.substring_location ∧ a.length ≤ b.length := by
  rw [← Bool.not_eq_true, answer_less_iff]
  unfold before
  simp only
  omega

theorem answer_less_of_before {t : trie} {query : List Letter} {p q : ℕ × ℕ}
    (hp : p.2 < 2 ^ 32) (hq : q.2 < 2 ^ 32) (h : before p q) :
    answer_less (answer_of t query p) (answer_of t query q) = true := by
  rw [answer_less_iff]
  unfold answer_of
  rwa [Nat.mod_eq_of_lt hp, Nat.mod_eq_of_lt hq]

/-- Of two different members of an ordered list, one comes first. -/
theorem pairwise_total {l : List answer_t}
    (h : l.Pairwise (fun a b => answer_less a b = true)) {a b : answer_t} (ha : a ∈ l)
    (hb : b ∈ l) (hne : a ≠ b) : answer_less a b = true ∨ answer_less b a = true := by
  induction l with
  | nil => cases ha
  | cons x l ih =>
    obtain ⟨hx, hl⟩ := List.pairwise_cons.mp h
    rcases List.mem_cons.mp ha with rfl | ha'
    · rcases List.mem_cons.mp hb with rfl | hb'
      · exact absurd rfl hne
      · exact .inl (hx b hb')
    · rcases List.mem_cons.mp hb with rfl | hb'
      · exact .inr (hx a ha')
      · exact ih hl ha' hb'

/-- `std::sort` leaves an ordered vector without equal keys as it is. -/
theorem StdSort.run_eq (sort : StdSort) {l : List answer_t}
    (h : l.Pairwise (fun a b => answer_less a b = true)) : sort.run l = l := by
  have hl : l.Pairwise (fun a b => answer_less b a = false) := by
    apply h.imp
    intro a b hless
    rw [answer_less_iff] at hless
    rw [answer_less_eq_false]
    unfold before at hless
    omega
  refine List.Perm.eq_of_pairwise ?_ (sort.sorted l) hl (sort.perm l)
  intro a b ha hb hba hab
  by_contra hne
  rcases pairwise_total h ((sort.perm l).mem_iff.mp ha) hb hne with hless | hless
  · rw [hab] at hless
    cases hless
  · rw [hba] at hless
    cases hless

/-! ## Section 6: Printing -/

theorem print_others_eq (query : List Letter) (printed : List UInt32) (answers : List answer_t) :
    print_others query printed answers =
      String.join ((firsts (·.word_id) printed answers).map
        (fun a => "|" ++ print_answer query a)) := by
  induction answers generalizing printed with
  | nil => rfl
  | cons answer rest ih =>
    unfold print_others firsts
    split
    · exact ih printed
    · rw [ih, List.map_cons, String.join_cons]

/-- The printed words: one for each id, where it was found first. -/
theorem print_answers_eq (query : List Letter) (answers : List answer_t)
    (hsize : answers.length < 2 ^ 32) :
    print_answers query answers =
      render ((firsts (·.word_id) [] answers).map
        (fun a => (query.drop a.substring_location).take a.length)) := by
  unfold print_answers
  rw [Nat.mod_eq_of_lt hsize]
  cases answers with
  | nil => rfl
  | cons first rest =>
    have hrest : rest.take ((first :: rest).length - 1) = rest := by simp
    have hfirsts : firsts (·.word_id) [] (first :: rest) =
        first :: firsts (·.word_id) [first.word_id] rest := by
      simp [firsts]
    simp only [List.length_cons, ne_eq, Nat.succ_ne_zero, not_false_eq_true, if_true]
    rw [← List.length_cons (a := first), hrest, hfirsts, print_others_eq, List.map_cons, render,
      List.map_map]
    rfl

/-! ## Section 7: The answers to a query -/

/-- The words in the answer are the stored words in the query. -/
theorem mem_plain_scan {t : trie} (ht : t.id_at [] = 0) {query word : List Letter} :
    word ∈ plain_scan t query ↔ t.stored word ∧ word <:+: query := by
  unfold plain_scan
  rw [mem_map_firsts, List.mem_map]
  constructor
  · intro hscanned
    obtain ⟨⟨p, hp, rfl⟩, -⟩ := hscanned
    obtain ⟨-, hstored⟩ := List.mem_filter.mp hp
    refine ⟨of_decide_eq_true hstored, ?_⟩
    exact (List.take_prefix _ _).isInfix.trans (List.drop_suffix _ _).isInfix
  · intro hoccurs
    obtain ⟨hstored, pre, post, rfl⟩ := hoccurs
    refine ⟨⟨(pre.length, word.length), ?_, ?_⟩, List.not_mem_nil⟩
    · have hsub : substring (pre ++ word ++ post) (pre.length, word.length) = word := by
        simp [substring]
      have hne : word ≠ [] := by
        intro heq
        subst heq
        exact hstored ht
      have hpos := List.length_pos_iff.mpr hne
      refine List.mem_filter.mpr ⟨?_, ?_⟩
      · rw [mem_positions]
        simp only [List.length_append]
        omega
      · rw [hsub]
        exact decide_eq_true hstored
    · simp [substring]

/-- A kept occurrence is the first one of its word. -/
theorem kept_first {t : trie} {query : List Letter} {p : ℕ × ℕ}
    (hp : p ∈ firsts (substring query) [] (occurrences t query)) :
    first_start query (substring query p) = p.1 ∧ (substring query p).length = p.2 := by
  have hmem := (firsts_sublist _ [] _).mem hp
  obtain ⟨hpos, hstored⟩ := List.mem_filter.mp hmem
  obtain ⟨hstart, hone, hend⟩ := mem_positions.mp hpos
  have hlength : (substring query p).length = p.2 := by
    simp only [substring, List.length_take, List.length_drop]
    omega
  refine ⟨?_, hlength⟩
  unfold first_start
  rw [List.findIdx_eq (by simpa using hstart)]
  constructor
  · rw [List.getElem_range, List.isPrefixOf_iff_prefix]
    exact List.take_prefix _ _
  · -- An earlier start would be an earlier occurrence of the same word.
    intro i hi
    rw [List.getElem_range, ← Bool.not_eq_true, List.isPrefixOf_iff_prefix]
    intro hprefix
    have hlen := hprefix.length_le
    rw [hlength, List.length_drop] at hlen
    have hsame : substring query (i, p.2) = substring query p := by
      rw [← hlength]
      exact (List.prefix_iff_eq_take.mp hprefix).symm
    have hearlier : (i, p.2) ∈ occurrences t query := by
      refine List.mem_filter.mpr ⟨?_, ?_⟩
      · rw [mem_positions]
        simp only
        omega
      · rw [hsame]
        exact hstored
    rcases firsts_first (occurrences_pairwise t query) hp hearlier hsame with heq | hbefore
    · have hfst := congrArg Prod.fst heq
      simp only at hfst
      omega
    · rcases hbefore with hlt | ⟨heq, -⟩
      · simp only at hlt
        omega
      · simp only at heq
        omega

/-- The answer is ordered by the start of the first occurrence, then by length. -/
theorem plain_scan_pairwise (t : trie) (query : List Letter) :
    (plain_scan t query).Pairwise (fun v w => first_start query v < first_start query w ∨
      first_start query v = first_start query w ∧ v.length < w.length) := by
  unfold plain_scan
  rw [List.pairwise_map]
  have hkept := (occurrences_pairwise t query).sublist (firsts_sublist (substring query) [] _)
  apply hkept.imp_of_mem
  intro p q hp hq hbefore
  obtain ⟨hps, hpl⟩ := kept_first hp
  obtain ⟨hqs, hql⟩ := kept_first hq
  rw [hps, hqs, hpl, hql]
  exact hbefore

/-- The program prints the plain scan. -/
theorem search_all_patterns_eq {s : Dictionary} (hinv : DictionaryInv s)
    (hinserts : s.inserts < 2 ^ 32) {query : List Letter} (hquery : query.length < 2 ^ 32)
    (hmatches : (occurrences s.root query).length < 2 ^ 32) (sort : StdSort) {order : List ℕ}
    (horder : order.Perm (woken_workers s.root query)) :
    search_all_patterns s.root query sort order = render (plain_scan s.root query) := by
  have hbound : ∀ p ∈ occurrences s.root query, p.2 < 2 ^ 32 := by
    intro p hp
    obtain ⟨hpos, -⟩ := List.mem_filter.mp hp
    obtain ⟨-, -, hend⟩ := mem_positions.mp hpos
    omega
  -- The answers are in order, so sorting does nothing.
  have hordered : ((occurrences s.root query).map (answer_of s.root query)).Pairwise
      (fun a b => answer_less a b = true) := by
    rw [List.pairwise_map]
    apply (occurrences_pairwise s.root query).imp_of_mem
    intro p q hp hq hbefore
    exact answer_less_of_before (hbound p hp) (hbound q hq) hbefore
  -- The ids identify the words, so the same answers are printed.
  have hkeys : firsts (fun p => (answer_of s.root query p).word_id) []
      (occurrences s.root query) = firsts (substring query) [] (occurrences s.root query) := by
    apply firsts_congr []
    intro p hp q hq
    obtain ⟨-, hstored⟩ := List.mem_filter.mp hp
    constructor
    · exact hinv.distinct hinserts _ _ (of_decide_eq_true hstored)
    · intro hsame
      show s.root.id_at _ = s.root.id_at _
      rw [hsame]
  have hprint : search_all_patterns s.root query sort order =
      print_answers query ((occurrences s.root query).map (answer_of s.root query)) := by
    rw [← sort.run_eq hordered]
    cases hroot : s.root with
    | null => exact absurd hroot hinv.root
    | node word_id chars =>
      rw [hroot] at horder
      show print_answers query (sort.run _) = _
      rw [merged_answers word_id chars query hquery horder]
  rw [hprint, print_answers_eq _ _ (by simpa using hmatches), firsts_map, hkeys, List.map_map]
  unfold plain_scan
  congr 1
  apply List.map_congr_left
  intro p hp
  have hmem := (firsts_sublist _ [] _).mem hp
  simp only [Function.comp_apply, answer_of, Nat.mod_eq_of_lt (hbound p hmem)]
  rfl

/-- `-1` is printed for no word only: a word starts with a letter. -/
theorem render_eq_none {words : List (List Letter)} (hne : ∀ word ∈ words, word ≠ []) :
    render words = "-1\n" ↔ words = [] := by
  constructor
  · intro h
    cases words with
    | nil => rfl
    | cons word words =>
      obtain ⟨c, rest, rfl⟩ := List.exists_cons_of_ne_nil (hne word List.mem_cons_self)
      have hhead := congrArg (fun out : String => out.toList.head?) h
      have hdash : ∀ c : Letter, Char.ofNat ('a'.toNat + c.val) ≠ '-' := by decide
      simp [render, text] at hhead
      exact absurd hhead (hdash c)
  · intro heq
    subst heq
    rfl

/-- **The answer to a query.**  Whatever the order of the workers, the program
    prints each stored word that occurs in the query exactly once, by the start of
    its first occurrence and then by length, and `-1` iff there is none. -/
theorem search_all_patterns_correct {s : Dictionary} (h : Reachable dictionary_commands s)
    (hinserts : s.inserts < 2 ^ 32 - 1) (query : List Letter) (hquery : query.length < 2 ^ 32)
    (hmatches : (occurrences s.root query).length < 2 ^ 32) (sort : StdSort) (order : List ℕ)
    (horder : order.Perm (woken_workers s.root query)) :
    search_all_patterns s.root query sort order = render (plain_scan s.root query) ∧
      (plain_scan s.root query).Nodup ∧
      (∀ word, word ∈ plain_scan s.root query ↔ word ∈ s.words ∧ word <:+: query) ∧
      (plain_scan s.root query).Pairwise (fun v w => first_start query v < first_start query w ∨
        first_start query v = first_start query w ∧ v.length < w.length) ∧
      (search_all_patterns s.root query sort order = "-1\n" ↔
        ∀ word ∈ s.words, ¬ word <:+: query) := by
  have hinv := dictionary_inv_reachable h
  have hlt : s.inserts < 2 ^ 32 := by omega
  have hprint := search_all_patterns_eq hinv hlt hquery hmatches sort horder
  have hmem : ∀ word, word ∈ plain_scan s.root query ↔ word ∈ s.words ∧ word <:+: query := by
    intro word
    rw [mem_plain_scan hinv.nonempty, hinv.words hlt]
  have hne : ∀ word ∈ plain_scan s.root query, word ≠ [] := by
    intro word hword heq
    subst heq
    exact ((mem_plain_scan hinv.nonempty).mp hword).1 hinv.nonempty
  refine ⟨hprint, firsts_nodup _ _, hmem, plain_scan_pairwise _ _, ?_⟩
  rw [hprint, render_eq_none hne, List.eq_nil_iff_forall_not_mem]
  constructor
  · intro hnone word hword hinfix
    exact hnone word ((hmem word).mpr ⟨hword, hinfix⟩)
  · intro hnone word hword
    obtain ⟨hstored, hinfix⟩ := (hmem word).mp hword
    exact hnone word hstored hinfix

/-- A sort that the standard library could use. -/
def merge_std_sort : StdSort where
  run := fun l => l.mergeSort (fun a b => !answer_less b a)
  perm := fun l => List.mergeSort_perm l _
  sorted := by
    intro l
    have hsorted : (l.mergeSort (fun a b => !answer_less b a)).Pairwise
        (fun a b => (!answer_less b a) = true) := by
      apply List.pairwise_mergeSort
      · intro a b c
        simp only [Bool.not_eq_true', answer_less_eq_false]
        omega
      · intro a b
        simp only [Bool.or_eq_true, Bool.not_eq_true', answer_less_eq_false]
        omega
    exact hsorted.imp (fun h => by simpa using h)

/-- The dictionary with the word `a`. -/
def one_word : Dictionary :=
  ⟨.node 0 (Function.update (fun _ => .null) 0 (.node 1 (fun _ => .null))), 2, 1, [[0]]⟩

/-- The query `aba` finds `a` once, also when its three workers run backwards. -/
theorem search_aba :
    search_all_patterns one_word.root [0, 1, 0] merge_std_sort [2, 1, 0] = "a\n" := by
  have hreach : Reachable dictionary_commands one_word := by
    have hstart : Reachable dictionary_commands ⟨create_trie_node, 1, 0, []⟩ := Reachable.init rfl
    exact hstart.step (l := Command.insert [0]) ⟨by simp, _, rfl, rfl⟩
  have hcorrect := search_all_patterns_correct hreach (by decide) [0, 1, 0] (by decide) (by decide)
    merge_std_sort [2, 1, 0] (by decide)
  rw [hcorrect.1]
  decide

end Project1
