import ConcurrentProgramming.Framework.Progress
import ConcurrentProgramming.Project1.Program
import Mathlib.Data.List.Perm.Basic
import Mathlib.Data.Prod.Lex

/-! # The Program Answers All Queries (`main.cc`, `trie.cc`)

    For an input that stands for words and admissible requests, and in every run
    without spurious wake-ups, `main` and its workers print the wanted output and
    nothing else (`program_output`), and can always get to the end (`program_can_finish`).

    The first part reads the input back, the second one follows the dictionary, the
    third one what the handshake prints.
-/

namespace Project1.Program

open LTS InputStream Decimal Handshake

/-! ## Section 1: Reading the input back -/

theorem to_letter_text : ∀ c : Letter, to_letter (Char.ofNat ('a'.toNat + c.val)) = some c := by
  decide

theorem letter_not_space : ∀ c : Letter, is_space (Char.ofNat ('a'.toNat + c.val)) = false := by
  decide

theorem to_word_text (word : List Letter) : to_word (word_text word) = some word := by
  unfold to_word
  induction word with
  | nil => rfl
  | cons c word ih =>
    show (List.mapM to_letter (Char.ofNat _ :: word_text word)) = _
    rw [List.mapM_cons, to_letter_text, ih]
    rfl

theorem word_text_not_space {word : List Letter} {c : Char} (h : c ∈ word_text word) :
    is_space c = false := by
  obtain ⟨d, -, rfl⟩ := List.mem_map.mp h
  exact letter_not_space d

theorem not_mem_word_text (word : List Letter) : '\n' ∉ word_text word := by
  intro h
  have hspace := word_text_not_space h
  cases hspace

theorem blank_line_feed : blank ['\n'] := by
  intro c hc
  rw [List.mem_singleton.mp hc]
  rfl

/-- A line with a command is read as a whole. -/
theorem read_command_line {s : Process} {spaces tail : List Char} {word : List Letter} {cmd : Char}
    (hspaces : blank spaces) (hcmd : is_space cmd = false)
    (hcin : s.cin = Stream.of (spaces ++ (cmd :: ' ' :: (word_text word ++ ['\n'])) ++ tail)) :
    s.read_command =
      { s with cin := Stream.of tail, str_buffer := word_text word }.dispatch cmd := by
  have hchar : s.cin.read_char =
      (Stream.of (' ' :: (word_text word ++ '\n' :: tail)), some cmd) := by
    rw [hcin, List.append_assoc, List.cons_append, read_char_of_text hspaces hcmd]
    simp
  have hline : (Stream.of (' ' :: (word_text word ++ '\n' :: tail))).get.getline s.str_buffer =
      (Stream.of tail, word_text word) := by
    rw [get_of_text, getline_line (not_mem_word_text word)]
  rw [Process.read_command, hchar]
  show { s with
    cin := ((Stream.of (' ' :: (word_text word ++ '\n' :: tail))).get.getline s.str_buffer).1
    str_buffer :=
      ((Stream.of (' ' :: (word_text word ++ '\n' :: tail))).get.getline s.str_buffer).2
    }.dispatch cmd = _
  rw [hline]

/-- At the end of the input the threads are told to end. -/
theorem read_command_end {s : Process} {spaces : List Char} (hspaces : blank spaces)
    (hcin : s.cin = Stream.of spaces) :
    s.read_command = some { s with
      cin := ⟨[], true, true⟩
      shared := { s.shared.go (.stop 0) with finished := true } } := by
  rw [Process.read_command, hcin, read_char_end hspaces]

/-! ## Section 2: The dictionary -/

/-- The trie has come about by `inserts` calls of `insert`, and holds these words. -/
def Process.stores (s : Process) (words : List (List Letter)) (inserts : ℕ) : Prop :=
  ∃ W, Reachable stored_commands ⟨s.root, s.word_id_generator, inserts, W⟩ ∧
    ∀ v, v ∈ W ↔ v ∈ words

section Dictionary

variable {s : Process} {words : List (List Letter)} {word : List Letter} {inserts : ℕ}

theorem add_spec (h : s.stores words inserts) (hne : word ≠ [])
    (hbuffer : s.str_buffer = word_text word) :
    ∃ root g, s.add = some { s with root := root, word_id_generator := g } ∧
      Process.stores { s with root := root, word_id_generator := g } (word :: words)
        (inserts + 1) := by
  obtain ⟨W, hreach, hW⟩ := h
  have hroot := (dictionary_inv_reachable hreach.of_restrict).root
  obtain ⟨t, hinsert, -, -⟩ := insert_spec s.word_id_generator hroot word
  refine ⟨t, s.word_id_generator + 1, ?_, word :: W, reachable_insert hreach hne hinsert, ?_⟩
  · change insert s.word_id_generator s.root word = .ok t at hinsert
    rw [Process.add, hbuffer, to_word_text]
    show ((insert s.word_id_generator s.root word).toOption.bind fun root => _) = _
    rw [hinsert]
    rfl
  · intro v
    simp [hW]

/-- The node of a word that is not a prefix of a stored word does not exist. -/
theorem delete_spec (h : s.stores words inserts) (hcount : inserts < 2 ^ 32) (hne : word ≠ [])
    (hword : word ∈ words ∨ ∀ v ∈ words, ¬ word <+: v)
    (hbuffer : s.str_buffer = word_text word) :
    ∃ root, s.delete = some { s with root := root } ∧
      Process.stores { s with root := root } (words.filter (· ≠ word)) inserts := by
  obtain ⟨W, hreach, hW⟩ := h
  have hinv := dictionary_inv_reachable hreach.of_restrict
  have hstored : ∀ v, s.root.stored v ↔ v ∈ words := fun v =>
    (hinv.words hcount v).trans (hW v)
  have hdelete : ∀ erased t, erase s.root word = .ok (erased, t) →
      s.delete = some { s with root := t.or_create } := by
    intro erased t herase
    rw [Process.delete, hbuffer, to_word_text]
    show ((erase s.root word).toOption.bind fun result => _) = _
    rw [herase]
    rfl
  rcases hword with hin | hnone
  · obtain ⟨t, herase, -⟩ := erase_eq_true ((hstored word).mpr hin)
    refine ⟨t.or_create, hdelete true t herase, W.filter (· ≠ word), ?_, ?_⟩
    · exact hreach.step (l := Command.erase word) ⟨(hW word).mpr hin, hne, true, t, herase, rfl⟩
    · intro v
      simp [hW]
  · -- There is no such path, so nothing happens.
    have hpath : s.root.has_path word = false := by
      rw [← Bool.not_eq_true]
      intro hpath
      obtain ⟨v, hv, hprefix⟩ := (has_path_iff (trim_below_reachable hreach hcount) hne).mp hpath
      exact hnone v ((hstored v).mp hv) hprefix
    have hkeep : s.root.or_create = s.root := by
      cases hroot : s.root with
      | null => exact absurd hroot hinv.root
      | node _ _ => rfl
    refine ⟨s.root, ?_, W, hreach, ?_⟩
    · rw [hdelete false s.root (erase_eq_false hpath), hkeep]
    · intro v
      rw [hW, List.mem_filter, decide_eq_true_eq, iff_self_and]
      intro hv heq
      exact hnone v hv (heq ▸ List.prefix_rfl)

/-- The words are read and inserted one after the other. -/
theorem read_words_spec {tail : List Char} (new : List (List Letter)) (hnew : ∀ w ∈ new, w ≠ [])
    (h : s.stores words inserts)
    (hcin : s.cin = Stream.of ('\n' ::
      (new.flatMap (fun word => word_text word ++ ['\n']) ++ tail))) :
    ∃ s', Process.read_words new.length s = some s' ∧ s'.cin = Stream.of ('\n' :: tail) ∧
      s'.shared = s.shared ∧ s'.exited = s.exited ∧
      s'.stores (new.reverse ++ words) (inserts + new.length) := by
  induction new generalizing s words inserts with
  | nil => exact ⟨s, rfl, hcin, rfl, rfl, h⟩
  | cons word new ih =>
    have hne : word_text word ≠ [] := by
      simpa [word_text] using hnew word List.mem_cons_self
    have hread : s.cin.read_string s.str_buffer =
        (Stream.of ('\n' :: (new.flatMap (fun word => word_text word ++ ['\n']) ++ tail)),
          word_text word) := by
      rw [hcin, List.flatMap_cons, List.append_assoc, List.append_assoc]
      exact read_string_line blank_line_feed hne (fun c hc => word_text_not_space hc) _ _
    obtain ⟨root, g, hadd, hstores⟩ := add_spec (s := { s with
      cin := Stream.of ('\n' :: (new.flatMap (fun word => word_text word ++ ['\n']) ++ tail))
      str_buffer := word_text word }) h (hnew word List.mem_cons_self) rfl
    obtain ⟨s', hrun, hcin', hshared, hexited, hstores'⟩ :=
      ih (fun w hw => hnew w (List.mem_cons_of_mem word hw)) hstores rfl
    refine ⟨s', ?_, hcin', hshared, hexited, ?_⟩
    · rw [List.length_cons, Process.read_words, hread]
      show (Process.add _ >>= _) = _
      rw [hadd]
      exact hrun
    · rw [List.reverse_cons, List.append_assoc, List.length_cons, Nat.add_comm new.length 1,
        ← Nat.add_assoc]
      exact hstores'

end Dictionary

/-! ## Section 3: The answer to a query -/

/-- A word that occurs does so at its first start. -/
theorem prefix_at_first_start {query word : List Letter} (h : word <:+: query) :
    word <+: query.drop (first_start query word) := by
  by_cases hne : word = []
  · rw [hne]
    exact List.nil_prefix
  obtain ⟨before, after, rfl⟩ := h
  have hexists : ∃ start ∈ List.range (before ++ word ++ after).length,
      word.isPrefixOf ((before ++ word ++ after).drop start) = true := by
    refine ⟨before.length, ?_, ?_⟩
    · have hpos := List.length_pos_of_ne_nil hne
      simp only [List.mem_range, List.length_append]
      omega
    · rw [List.isPrefixOf_iff_prefix, List.append_assoc, List.drop_left]
      exact List.prefix_append word after
  have hlt := List.findIdx_lt_length_of_exists hexists
  have hfound := List.findIdx_getElem (w := hlt)
  rw [List.getElem_range, List.isPrefixOf_iff_prefix] at hfound
  exact hfound

instance earlier_trans (query : List Letter) : IsTrans (List Letter) (earlier query) where
  trans := by
    intro a b c hab hbc
    unfold earlier at *
    omega

instance earlier_total (query : List Letter) : Std.Total (earlier query) where
  total := by
    intro a b
    unfold earlier
    omega

/-- Two words that occur with the same first start and the same length are equal. -/
theorem earlier_antisymm {query v w : List Letter} (hv : v <:+: query) (hw : w <:+: query)
    (hvw : earlier query v w) (hwv : earlier query w v) : v = w := by
  unfold earlier at hvw hwv
  have hstart : first_start query v = first_start query w := by omega
  have hlength : v.length = w.length := by omega
  have hpv := prefix_at_first_start hv
  rw [hstart] at hpv
  calc v = (query.drop (first_start query w)).take v.length := List.prefix_iff_eq_take.mp hpv
    _ = (query.drop (first_start query w)).take w.length := by rw [hlength]
    _ = w := (List.prefix_iff_eq_take.mp (prefix_at_first_start hw)).symm

/-- The trie and the set of words give the same answer. -/
theorem plain_scan_eq {s : Process} {words : List (List Letter)} {inserts : ℕ}
    (h : s.stores words inserts) (hcount : inserts < 2 ^ 32) (query : List Letter) :
    plain_scan s.root query = occurring words query := by
  obtain ⟨W, hreach, hW⟩ := h
  have hinv := dictionary_inv_reachable hreach.of_restrict
  have hmem : ∀ word, word ∈ plain_scan s.root query ↔ word ∈ words ∧ word <:+: query := by
    intro word
    rw [mem_plain_scan hinv.nonempty, ← hW]
    exact and_congr_left fun _ => hinv.words hcount word
  have hmem' : ∀ word, word ∈ occurring words query ↔ word ∈ words ∧ word <:+: query := by
    intro word
    simp [occurring]
  refine List.Perm.eq_of_pairwise ?_ ?_ (List.pairwise_insertionSort (earlier query) _) ?_
  · intro v w hv hw
    exact earlier_antisymm ((hmem v).mp hv).2 ((hmem' w).mp hw).2
  · refine (plain_scan_pairwise s.root query).imp ?_
    intro v w hlt
    exact hlt.imp_right fun heq => ⟨heq.1, Nat.le_of_lt heq.2⟩
  · have hnodup : (occurring words query).Nodup :=
      (List.perm_insertionSort _ _).nodup_iff.mpr (words.nodup_dedup.filter _)
    have hscan : (plain_scan s.root query).Nodup := FirstSeen.firsts_nodup _ _
    rw [List.perm_ext_iff_of_nodup hscan hnodup]
    intro word
    rw [hmem, hmem']

/-- What `search_all_patterns` prints is the answer that is wanted. -/
theorem search_eq {s : Process} {words : List (List Letter)} {inserts : ℕ}
    (h : s.stores words inserts) (hcount : inserts < 2 ^ 32) {query : List Letter}
    (hquery : query.length < 2 ^ 32) (hplaces : (places words query).length < 2 ^ 32)
    (sort : StdSort) :
    search_all_patterns s.root query sort (woken_workers s.root query) =
      render (occurring words query) := by
  rw [← plain_scan_eq h hcount query]
  obtain ⟨W, hreach, hW⟩ := h
  have hinv := dictionary_inv_reachable hreach.of_restrict
  have hsame : occurrences s.root query = places words query := by
    refine List.filter_congr fun p _ => ?_
    rw [decide_eq_decide]
    exact (hinv.words hcount _).trans (hW _)
  exact search_all_patterns_eq hinv hcount hquery (hsame ▸ hplaces) sort (.refl _)

/-! ## Section 4: What the handshake prints -/

/-- The answer that is being worked out. -/
def pending (sort : StdSort) (p : State) : List String :=
  if p.main.searching then
    [search_all_patterns p.root p.query sort (woken_workers p.root p.query)]
  else []

/-- The answers that have been printed or are being worked out. -/
def emitted (sort : StdSort) (p : State) : List String := p.output ++ pending sort p

section Emitted

variable {sort : StdSort} {p p' : State} {t : ℕ}

theorem emitted_worker_step (hstep : p.worker_step t = some p') :
    emitted sort p' = emitted sort p := by
  obtain ⟨hkeeps, hmain, -, -⟩ := worker_step_frame hstep
  rw [emitted, emitted, pending, pending, hmain, hkeeps.output, hkeeps.root, hkeeps.query]

/-- Only the step that prints an answer changes `output`, and it prints what was
    pending. -/
theorem emitted_main_step (h : HandshakeInv sort p) (hstep : p.main_step sort = some p') :
    emitted sort p' = emitted sort p ∧ p'.main.ending = p.main.ending := by
  cases hm : p.main with
  | collect =>
    simp only [State.main_step, hm] at hstep
    cases hstep
    refine ⟨?_, rfl⟩
    rw [emitted, emitted, pending, pending, hm]
    show (p.output ++ [_]) ++ [] = p.output ++ [_]
    rw [h.printed hm, List.append_nil]
  | command =>
    simp only [State.main_step, hm] at hstep
    cases hstep
  | signal i =>
    simp only [State.main_step, hm] at hstep
    split at hstep
    · obtain ⟨-, rfl⟩ := wake_eq hstep
      simp only [emitted, pending, hm]
      exact ⟨rfl, rfl⟩
    · cases hstep
      simp only [emitted, pending, hm]
      exact ⟨rfl, rfl⟩
  | stop i =>
    simp only [State.main_step, hm] at hstep
    split at hstep
    · obtain ⟨-, rfl⟩ := wake_eq hstep
      simp only [emitted, pending, hm]
      exact ⟨rfl, rfl⟩
    · cases hstep
      simp only [emitted, pending, hm]
      exact ⟨rfl, rfl⟩
  | check i =>
    simp only [State.main_step, hm] at hstep
    split at hstep
    · split at hstep <;> cases hstep <;> simp only [emitted, pending, hm] <;> exact ⟨rfl, rfl⟩
    · cases hstep
      simp only [emitted, pending, hm]
      exact ⟨rfl, rfl⟩
  | create i =>
    simp only [State.main_step, hm] at hstep
    cases hstep
    simp only [emitted, pending, hm]
    exact ⟨rfl, rfl⟩
  | await_new i =>
    simp only [State.main_step, hm] at hstep
    split at hstep
    · cases hstep
      simp only [emitted, pending, hm]
      exact ⟨rfl, rfl⟩
    · cases hstep
      exact ⟨rfl, by rw [hm]⟩
  | reset_new i | set_args i | reset i | join i =>
    simp only [State.main_step, hm] at hstep
    split at hstep <;> cases hstep <;> simp only [emitted, pending, hm] <;> exact ⟨rfl, rfl⟩

end Emitted

/-! ## Section 5: The invariant -/

/-- How far the program has come: `words` are stored, and `rest` is still to be read. -/
structure Follows (sort : StdSort) (goal : List String) (bound : ℕ) (s : Process)
    (words : List (List Letter)) (rest : List Request) : Prop where
  alive      : s.exited = false
  input      : s.shared.main.ending = false →
    ∃ spaces, blank spaces ∧ s.cin = Stream.of (spaces ++ rest.flatMap request_line)
  at_end     : s.shared.main.ending = true → rest = []
  stored     : ∃ inserts, s.stores words inserts ∧ inserts + rest.length ≤ bound
  admissible : admissible words rest
  shared     : Reachable ((workers sort).restrict fun p l => Handshake.not_spurious p l = true)
    s.shared
  printed    : emitted sort s.shared ++ answers words rest = goal

section Follows

variable {sort : StdSort} {goal : List String} {bound : ℕ} {s s' : Process}
  {words : List (List Letter)} {rest : List Request}

/-- The threads go on, inside a query or outside of queries. -/
theorem Follows.of_shared (h : Follows sort goal bound s words rest) {p : State}
    (hreach : Reachable ((workers sort).restrict fun p l => Handshake.not_spurious p l = true) p)
    (hemitted : emitted sort p = emitted sort s.shared)
    (hending : p.main.ending = s.shared.main.ending) :
    Follows sort goal bound { s with shared := p } words rest where
  alive := h.alive
  input := fun hfalse => h.input (hending ▸ hfalse)
  at_end := fun htrue => h.at_end (hending ▸ htrue)
  stored := h.stored
  admissible := h.admissible
  shared := hreach
  printed := hemitted ▸ h.printed

theorem Follows.worker_step (h : Follows sort goal bound s words rest) {t : ℕ} {p : State}
    (hstep : s.shared.worker_step t = some p) :
    Follows sort goal bound { s with shared := p } words rest := by
  obtain ⟨-, hmain, -, -⟩ := worker_step_frame hstep
  exact h.of_shared (h.shared.step (l := Handshake.Label.worker t) ⟨rfl, hstep⟩)
    (emitted_worker_step hstep) (by rw [hmain])

theorem Follows.main_step (h : Follows sort goal bound s words rest) {p : State}
    (hstep : s.shared.main_step sort = some p) :
    Follows sort goal bound { s with shared := p } words rest := by
  obtain ⟨hemitted, hending⟩ := emitted_main_step (HandshakeInv.reachable h.shared) hstep
  exact h.of_shared (h.shared.step (l := Handshake.Label.main) ⟨rfl, hstep⟩) hemitted hending

/-- Outside of queries nothing is pending. -/
theorem emitted_command {p : State} (hm : p.main = .command) : emitted sort p = p.output := by
  rw [emitted, pending, hm]
  exact List.append_nil _

/-- The answer to a new query is pending. -/
theorem emitted_begin_query (sort : StdSort) (p : State) {root : trie}
    (hroot : root ≠ .null) (query : List Letter) :
    emitted sort (p.begin_query root query) = p.output ++
      [search_all_patterns root query sort (woken_workers root query)] ∧
      (p.begin_query root query).main.ending = false := by
  cases root with
  | null => exact absurd rfl hroot
  | node word_id chars => exact ⟨rfl, rfl⟩

/-- A command that changes the trie only. -/
theorem Follows.of_command {r : Request} (h : Follows sort goal bound s words (r :: rest))
    (hm : s.shared.main = .command) {words' : List (List Letter)}
    (hprinted : s.shared.output ++ answers words' rest = goal)
    (hstored : ∃ inserts, s'.stores words' inserts ∧ inserts + rest.length ≤ bound)
    (hadm : Program.admissible words' rest) (hcin : s'.cin = Stream.of (rest.flatMap request_line))
    (hshared : s'.shared = s.shared) (hexited : s'.exited = s.exited) :
    Follows sort goal bound s' words' rest := by
  refine ⟨hexited.trans h.alive, ?_, ?_, hstored, hadm, hshared ▸ h.shared, ?_⟩
  · exact fun _ => ⟨[], by simp [blank], hcin⟩
  · intro hend
    rw [hshared, hm] at hend
    cases hend
  · rw [hshared, emitted_command hm]
    exact hprinted

/-- The next request is read. -/
theorem Follows.read_request {r : Request} (h : Follows sort goal bound s words (r :: rest))
    (hbound : bound < 2 ^ 32) (hm : s.shared.main = .command) :
    ∃ s' words', s.read_command = some s' ∧ Follows sort goal bound s' words' rest ∧
      s'.cin.rest.length < s.cin.rest.length := by
  obtain ⟨spaces, hspaces, hcin⟩ := h.input (by rw [hm]; rfl)
  obtain ⟨inserts, hstores, hcount⟩ := h.stored
  rw [List.length_cons] at hcount
  have hinserts : inserts < 2 ^ 32 := by omega
  have hadm := h.admissible
  have hprinted := h.printed
  rw [emitted_command hm] at hprinted
  rw [List.flatMap_cons, ← List.append_assoc] at hcin
  have hshorter : (rest.flatMap request_line).length < s.cin.rest.length := by
    rw [hcin]
    cases r <;> simp [Stream.of, request_line] <;> omega
  cases r with
  | query str =>
    obtain ⟨⟨hlength, hplaces⟩, hadm⟩ := hadm
    have hread := read_command_line hspaces (by decide) hcin
    obtain ⟨W, hreach, hW⟩ := hstores
    have hroot := (dictionary_inv_reachable hreach.of_restrict).root
    refine ⟨{ s with
      cin := Stream.of (rest.flatMap request_line)
      str_buffer := word_text str
      shared := s.shared.begin_query s.root str }, words, ?_, ?_, hshorter⟩
    · rw [hread]
      show ((to_word (word_text str)).bind fun word => _) = _
      rw [to_word_text]
      rfl
    · obtain ⟨hemitted, hending⟩ := emitted_begin_query sort s.shared hroot str
      have hstep : s.shared.perform sort (.query s.root str) =
          some (s.shared.begin_query s.root str) := by
        rw [State.perform, if_pos hm]
      refine ⟨h.alive, ?_, ?_, ⟨inserts, ⟨W, hreach, hW⟩, by omega⟩, hadm,
        h.shared.step (l := Handshake.Label.query s.root str) ⟨rfl, hstep⟩, ?_⟩
      · exact fun _ => ⟨[], by simp [blank], rfl⟩
      · intro hend
        rw [hending] at hend
        cases hend
      · show emitted sort (s.shared.begin_query s.root str) ++ answers words rest = goal
        rw [hemitted, search_eq ⟨W, hreach, hW⟩ hinserts hlength hplaces, List.append_assoc]
        exact hprinted
  | add word =>
    obtain ⟨hne, hadm⟩ := hadm
    have hread := read_command_line hspaces (by decide) hcin
    obtain ⟨root, g, hadd, hstores'⟩ := add_spec (s := { s with
      cin := Stream.of (rest.flatMap request_line)
      str_buffer := word_text word }) hstores hne rfl
    refine ⟨_, word :: words, hread.trans hadd, ?_, hshorter⟩
    exact h.of_command hm hprinted ⟨inserts + 1, hstores', by omega⟩ hadm rfl rfl rfl
  | delete word =>
    obtain ⟨⟨hne, hword⟩, hadm⟩ := hadm
    have hread := read_command_line hspaces (by decide) hcin
    obtain ⟨root, hdelete, hstores'⟩ := delete_spec (s := { s with
      cin := Stream.of (rest.flatMap request_line)
      str_buffer := word_text word }) hstores hinserts hne hword rfl
    refine ⟨_, words.filter (· ≠ word), hread.trans hdelete, ?_, hshorter⟩
    exact h.of_command hm hprinted ⟨inserts, hstores', by omega⟩ hadm rfl rfl rfl

/-- The end of the input is read. -/
theorem Follows.read_end (h : Follows sort goal bound s words []) (hm : s.shared.main = .command) :
    ∃ s', s.read_command = some s' ∧ Follows sort goal bound s' words [] ∧
      s'.shared.main = .stop 0 := by
  obtain ⟨spaces, hspaces, hcin⟩ := h.input (by rw [hm]; rfl)
  rw [List.flatMap_nil, List.append_nil] at hcin
  refine ⟨_, read_command_end hspaces hcin, ?_, rfl⟩
  have hstep : s.shared.perform sort .eof =
      some { s.shared.go (.stop 0) with finished := true } := by
    rw [State.perform, if_pos hm]
  have hprinted := h.printed
  rw [emitted_command hm] at hprinted
  refine ⟨h.alive, ?_, fun _ => rfl, h.stored, trivial,
    h.shared.step (l := Handshake.Label.eof) ⟨rfl, hstep⟩, ?_⟩
  · intro hfalse
    cases hfalse
  · show (s.shared.output ++ []) ++ answers words [] = goal
    rw [List.append_nil]
    exact hprinted

/-- At a command the rest of the input decides. -/
theorem Follows.read_command (h : Follows sort goal bound s words rest) (hbound : bound < 2 ^ 32)
    (hm : s.shared.main = .command) :
    ∃ s' words' rest', s.read_command = some s' ∧ Follows sort goal bound s' words' rest' ∧
      (s'.shared.main = .stop 0 ∨ s'.cin.rest.length < s.cin.rest.length) := by
  cases rest with
  | nil =>
    obtain ⟨s', hread, hfollows, hstop⟩ := h.read_end hm
    exact ⟨s', words, [], hread, hfollows, .inl hstop⟩
  | cons r rest =>
    obtain ⟨s', words', hread, hfollows, hlt⟩ := h.read_request hbound hm
    exact ⟨s', words', rest, hread, hfollows, .inr hlt⟩

/-- The process runs. -/
theorem Follows.perform_eq (h : Follows sort goal bound s words rest) (l : Label) :
    s.perform sort l = s.run sort l := by
  rw [Process.perform, h.alive, if_neg Bool.false_ne_true]

theorem Follows.step (h : Follows sort goal bound s words rest) (hbound : bound < 2 ^ 32)
    {l : Label} (hl : not_spurious s l) (hstep : s.perform sort l = some s') :
    ∃ words' rest', Follows sort goal bound s' words' rest' := by
  rw [h.perform_eq] at hstep
  cases l with
  | main =>
    by_cases hm : s.shared.main = .command
    · obtain ⟨s'', words', rest', hread, hfollows, -⟩ := h.read_command hbound hm
      rw [Process.run, if_pos hm, hread] at hstep
      cases hstep
      exact ⟨words', rest', hfollows⟩
    · rw [Process.run, if_neg hm] at hstep
      obtain ⟨p, hp, rfl⟩ := Option.map_eq_some_iff.mp hstep
      exact ⟨words, rest, h.main_step hp⟩
  | worker tid =>
    obtain ⟨p, hp, rfl⟩ := Option.map_eq_some_iff.mp hstep
    exact ⟨words, rest, h.worker_step hp⟩
  | spurious tid => exact absurd hl id

end Follows

/-- The words have been read. -/
theorem start_follows (sort : StdSort) {words : List (List Letter)} {requests : List Request}
    (hwords : ∀ word ∈ words, word ≠ []) (hadm : admissible words requests)
    (hcount : words.length + requests.length < 2 ^ 31) :
    ∃ s, Process.start (input_text words requests) = some s ∧
      Follows sort (answers words requests) (words.length + requests.length) s words requests := by
  have hread : (Stream.of (input_text words requests)).read_int 0 =
      (Stream.of ('\n' :: (words.flatMap (fun word => word_text word ++ ['\n']) ++
        requests.flatMap request_line)), (words.length : ℤ)) :=
    read_int_line (by omega) _ _
  have hempty : Process.stores
      ⟨Stream.of ('\n' :: (words.flatMap (fun word => word_text word ++ ['\n']) ++
        requests.flatMap request_line)), [], create_trie_node, 1, .start, false⟩ [] 0 :=
    ⟨[], .init rfl, fun v => Iff.rfl⟩
  obtain ⟨s, hrun, hcin, hshared, hexited, W, hreach, hW⟩ :=
    read_words_spec words hwords hempty rfl
  refine ⟨s, ?_, ?_⟩
  · rw [Process.start, hread]
    exact hrun
  · refine ⟨hexited, ?_, ?_, ⟨words.length, ⟨W, ?_, ?_⟩, Nat.le_refl _⟩, hadm, ?_, ?_⟩
    · exact fun _ => ⟨['\n'], blank_line_feed, hcin⟩
    · intro hend
      rw [hshared] at hend
      cases hend
    · rwa [Nat.zero_add] at hreach
    · intro v
      rw [hW]
      simp
    · rw [hshared]
      exact .init rfl
    · rw [hshared]
      rfl

/-- The invariant holds in every run without spurious wake-ups. -/
theorem follows_reachable {sort : StdSort} {words : List (List Letter)} {requests : List Request}
    (hwords : ∀ word ∈ words, word ≠ []) (hadm : admissible words requests)
    (hcount : words.length + requests.length < 2 ^ 31) {s : Process}
    (h : Reachable (regular_executions sort (input_text words requests)) s) :
    ∃ words' rest, Follows sort (answers words requests) (words.length + requests.length) s
      words' rest := by
  induction h with
  | init hinit =>
    obtain ⟨s, hstart, hfollows⟩ := start_follows sort hwords hadm hcount
    have heq := hstart.symm.trans hinit
    cases heq
    exact ⟨words, requests, hfollows⟩
  | step _ hstep ih =>
    obtain ⟨words', rest, hfollows⟩ := ih
    exact hfollows.step (by omega) hstep.1 hstep.2

/-! ## Section 6: Getting closer to the end -/

/-- How much of the input is left. -/
def Process.unread (s : Process) : ℕ :=
  if s.shared.main.ending then 0 else s.cin.rest.length + 1

def Process.rank (s : Process) : ℕ ×ₗ ℕ ×ₗ ℕ :=
  toLex (s.unread, toLex (s.shared.main.rank s.shared.args.length, s.shared.left))

/-- Before the end there is a step that brings the program closer to it. -/
theorem closer_to_end {sort : StdSort} {words : List (List Letter)}
    {requests : List Request} (hwords : ∀ word ∈ words, word ≠ [])
    (hadm : admissible words requests) (hcount : words.length + requests.length < 2 ^ 31)
    (s : Process) (hreach : Reachable (regular_executions sort (input_text words requests)) s)
    (hnot : ¬ s.ended) :
    (regular_executions sort (input_text words requests)).can_reach
      (fun s' => s'.ended ∨ s'.rank < s.rank) s := by
  obtain ⟨words', rest, hfollows⟩ := follows_reachable hwords hadm hcount hreach
  by_cases hm : s.shared.main = .command
  · -- A command is read, or the end of the input.
    obtain ⟨s', words'', rest', hread, -, hshorter⟩ := hfollows.read_command (by omega) hm
    refine ⟨s', .single ⟨.main, trivial, ?_⟩, .inr ?_⟩
    · show s.perform sort .main = some s'
      rw [hfollows.perform_eq, Process.run, if_pos hm, hread]
    · refine Prod.Lex.toLex_lt_toLex.mpr (.inl ?_)
      have hunread : s.unread = s.cin.rest.length + 1 := by
        rw [Process.unread, hm]
        rfl
      rw [hunread, Process.unread]
      rcases hshorter with hstop | hlt
      · rw [hstop]
        exact Nat.succ_pos _
      · split
        · exact Nat.succ_pos _
        · exact Nat.succ_lt_succ hlt
  · have hinv := HandshakeInv.reachable hfollows.shared
    have horder := in_order_reachable hfollows.shared
    rcases closer hinv horder hm hnot with ⟨p, hstep, hlt⟩ | ⟨t, p, hstep, hmain, hargs, hlt⟩
    · refine ⟨{ s with shared := p }, .single ⟨.main, trivial, ?_⟩, .inr ?_⟩
      · show s.perform sort .main = _
        rw [hfollows.perform_eq, Process.run, if_neg hm, hstep, Option.map_some]
      · have hending := (emitted_main_step hinv hstep).2
        refine Prod.Lex.toLex_lt_toLex.mpr (.inr ⟨?_, Prod.Lex.toLex_lt_toLex.mpr (.inl hlt)⟩)
        rw [Process.unread, Process.unread, hending]
    · refine ⟨{ s with shared := p }, .single ⟨.worker t, trivial, ?_⟩, .inr ?_⟩
      · show s.perform sort (.worker t) = _
        rw [hfollows.perform_eq, Process.run, hstep, Option.map_some]
      · refine Prod.Lex.toLex_lt_toLex.mpr (.inr ⟨?_, Prod.Lex.toLex_lt_toLex.mpr (.inr ⟨?_, hlt⟩)⟩)
        · rw [Process.unread, Process.unread, hmain]
        · rw [hmain, hargs]

/-! ## Section 7: The output -/

theorem join_append (l l' : List String) :
    String.join (l ++ l') = String.join l ++ String.join l' := by
  rw [← String.toList_inj]
  simp

/-- **The whole program.**  Whatever the schedule: what has been printed is the
    beginning of the wanted output, and when `main` has joined its threads it is the
    wanted output. -/
theorem program_output {sort : StdSort} {words : List (List Letter)} {requests : List Request}
    (hwords : ∀ word ∈ words, word ≠ []) (hadm : admissible words requests)
    (hcount : words.length + requests.length < 2 ^ 31) {s : Process}
    (h : Reachable (regular_executions sort (input_text words requests)) s) :
    (∃ more, s.stdout ++ more = output_text words requests) ∧
      (s.ended → s.stdout = output_text words requests) := by
  obtain ⟨words', rest, hfollows⟩ := follows_reachable hwords hadm hcount h
  have hprinted := hfollows.printed
  have hstdout : creating s.shared.main = false →
      s.stdout = "R\n" ++ String.join s.shared.output := by
    intro hcreating
    simp [Process.stdout, hcreating, hfollows.alive]
  constructor
  · cases hcreating : creating s.shared.main with
    | true =>
      refine ⟨output_text words requests, ?_⟩
      simp [Process.stdout, hcreating]
    | false =>
      refine ⟨String.join (pending sort s.shared ++ answers words' rest), ?_⟩
      rw [hstdout hcreating, output_text, ← hprinted, emitted, List.append_assoc,
        join_append s.shared.output, String.append_assoc]
  · intro hended
    have hend : s.shared.main = .join THREAD_NUM := hended
    have hrest : rest = [] := hfollows.at_end (by rw [hend]; rfl)
    have hpending : pending sort s.shared = [] := by
      rw [pending, hend]
      rfl
    rw [hstdout (by rw [hend]; rfl), output_text, ← hprinted, hrest, emitted, hpending]
    simp [answers]

/-- The words `ab` and `b` are given, and two queries of `cab`.  In between `b` is
    deleted and `ca` is added. -/
def cab_requests : List Request := [.query [2, 0, 1], .delete [1], .add [2, 0], .query [2, 0, 1]]

theorem cab_admissible : (∀ word ∈ [[0, 1], [1]], word ≠ ([] : List Letter)) ∧
    admissible [[0, 1], [1]] cab_requests := by
  decide +kernel

theorem program_output_cab :
    ∃ s, Reachable (regular_executions merge_std_sort
        (input_text [[0, 1], [1]] cab_requests)) s ∧
      s.ended ∧ s.stdout = "R\nab|b\nca|ab\n" := by
  obtain ⟨hwords, hadm⟩ := cab_admissible
  obtain ⟨s, hstart, -⟩ := start_follows merge_std_sort hwords hadm (by decide)
  have hinit : Reachable (regular_executions merge_std_sort
      (input_text [[0, 1], [1]] cab_requests)) s := .init hstart
  obtain ⟨s', hrun, hended⟩ := hinit.can_reach Process.rank
    (closer_to_end hwords hadm (by decide))
  have hreach := hinit.steps hrun
  have houtput : output_text [[0, 1], [1]] cab_requests = "R\nab|b\nca|ab\n" := by decide +kernel
  rw [← houtput]
  exact ⟨s', hreach, hended, (program_output hwords hadm (by decide) hreach).2 hended⟩

/-! ## Section 8: The end is always within reach -/

/-- **The program does not get stuck**: whatever has happened, it can get to its end. -/
theorem program_can_finish {sort : StdSort} {words : List (List Letter)}
    {requests : List Request} (hwords : ∀ word ∈ words, word ≠ [])
    (hadm : admissible words requests) (hcount : words.length + requests.length < 2 ^ 31)
    {s : Process} (h : Reachable (regular_executions sort (input_text words requests)) s) :
    (regular_executions sort (input_text words requests)).can_reach Process.ended s :=
  Reachable.can_reach Process.rank (closer_to_end hwords hadm hcount) h

theorem program_can_finish_cab :
    ∃ s : Process, Process.start (input_text [[0, 1], [1]] cab_requests) = some s ∧
      (regular_executions merge_std_sort (input_text [[0, 1], [1]] cab_requests)).can_reach
        Process.ended s := by
  obtain ⟨hwords, hadm⟩ := cab_admissible
  obtain ⟨s, hstart, -⟩ := start_follows merge_std_sort hwords hadm (by decide)
  exact ⟨s, hstart, program_can_finish hwords hadm (by decide) (.init hstart)⟩

end Project1.Program
