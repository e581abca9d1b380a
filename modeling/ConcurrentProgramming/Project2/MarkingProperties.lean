import ConcurrentProgramming.Project2.Marking
import ConcurrentProgramming.Project2.Serializability

/-! # The Marking Program Decides Serial Replay

    What `transaction()` prints is a line of seven tokens, and the scanner of the
    marking program finds each of them: when it looks for a token, `c` and
    `token_start_position` are both at its first character.

    All record ids are below the size of `records`, so the loop of the marking
    program is the replay of the lines from records that are all 100, and the
    verdict is that the replay gives the lines.  For the log files of a run of the
    transactions it does (`transactions_marked_correct`).
-/

namespace Project2.Marking

open LTS Decimal

/-! ## Section 1: One line -/

section

variable {line pre tok rest : List Char} {stop : Char}

theorem length_line (h : line ++ [NUL] = pre ++ (tok ++ stop :: rest)) :
    line.length = pre.length + (tok.length + rest.length) := by
  simpa [← Nat.add_assoc] using congrArg List.length h

/-- The loop ends at the end of the token. -/
theorem scan_token {n size : ℕ} (h : line ++ [NUL] = pre ++ (tok ++ stop :: rest))
    (hstop : stop ∉ tok) (hn : tok.length < n) :
    scan line stop n pre.length size = .ok (pre.length + tok.length, size + tok.length) := by
  -- A round moves the first character of the token to what has been read.
  induction tok generalizing pre n size with
  | nil =>
    have hchar : char_at line pre.length = some stop := by
      rw [char_at, h]
      simp
    cases n with
    | zero => cases hn
    | succ n => simp [scan, hchar]
  | cons x tok ih =>
    have hchar : char_at line pre.length = some x := by
      rw [char_at, h]
      simp
    have hne : x ≠ stop := fun heq => hstop (heq ▸ List.mem_cons_self)
    cases n with
    | zero => cases hn
    | succ n =>
      have hnext : scan line stop n (pre ++ [x]).length (size + 1) = _ :=
        ih (by simpa using h) (fun hmem => hstop (List.mem_cons_of_mem _ hmem))
          (by simpa using hn)
      rw [List.length_append, List.length_singleton] at hnext
      simp only [scan, hchar, if_neg hne, hnext, List.length_cons]
      congr 2 <;> omega

/-- The rest of the line after a token and its end. -/
theorem after_token (h : line ++ [NUL] = pre ++ (tok ++ stop :: rest)) :
    line ++ [NUL] = (pre ++ (tok ++ [stop])) ++ rest := by
  simp [h]

theorem substr_token (h : line ++ [NUL] = pre ++ (tok ++ stop :: rest)) :
    substr line pre.length tok.length = .ok tok := by
  have hlength := length_line h
  have htoken : (line.drop pre.length).take tok.length = tok := by
    -- The token ends before the `'\0'`, which `substr` does not see.
    have hfull : ((line ++ [NUL]).drop pre.length).take tok.length = tok := by
      rw [h, List.drop_left, List.take_left]
    rwa [List.drop_append_of_le_length (by omega),
      List.take_append_of_le_length (by rw [List.length_drop]; omega)] at hfull
  rw [substr, if_pos (by omega), htoken]

/-- One token is read, and the scanner is at the next one. -/
theorem next_number_token {x : ℤ} (h : line ++ [NUL] = pre ++ (tok ++ stop :: rest))
    (hstop : stop ∉ tok) (hx : stol tok = .ok x) :
    next_number line stop ⟨pre.length, pre.length⟩ =
      .ok (x, ⟨(pre ++ (tok ++ [stop])).length, (pre ++ (tok ++ [stop])).length⟩) := by
  have hlength := length_line h
  have hscan : scan line stop (line.length + 2) pre.length 0 = _ :=
    scan_token h hstop (by omega)
  rw [Nat.zero_add] at hscan
  simp only [next_number, hscan, ok_bind, substr_token h, hx, Except.mapError]
  simp [Nat.add_assoc]

end

/-- A line whose numbers fit into the types that they are read with. -/
structure InRange (log : LogLine) : Prop where
  commit_id : log.commit_id < 2 ^ 63
  i         : log.i < 2 ^ 60
  j         : log.j < 2 ^ 60
  k         : log.k < 2 ^ 60

theorem stol_print_nat {n : ℕ} (h : n < 2 ^ 63) : stol (print_nat n) = .ok (n : ℤ) := by
  rw [print_nat_eq]
  exact stol_print_int (by omega) (by omega)

theorem stol_print_value (v : BitVec 64) : stol (print_int v.toInt) = .ok v.toInt :=
  stol_print_int (BitVec.le_toInt v) (BitVec.toInt_lt)

theorem to_uint64_eq {n : ℕ} (h : n < 2 ^ 63) : to_uint64 n = n := by
  unfold to_uint64
  omega

/-- The tokenizer recovers the seven numbers of a line. -/
theorem parse_print {log : LogLine} (h : InRange log) :
    parse_line (print_line log) = .ok log := by
  have hi : log.i < 2 ^ 63 := by have := h.i; omega
  have hj : log.j < 2 ^ 63 := by have := h.j; omega
  have hk : log.k < 2 ^ 63 := by have := h.k; omega
  have hspace : ∀ x : ℤ, ' ' ∉ print_int x := not_mem_print_int (by decide) (by decide)
  have hspace' : ∀ n : ℕ, ' ' ∉ print_nat n := not_mem_print_nat (by decide)
  have hline : print_line log ++ [NUL] = [] ++ (print_nat log.commit_id ++ ' ' ::
      (print_nat log.i ++ ' ' :: (print_nat log.j ++ ' ' :: (print_nat log.k ++ ' ' ::
        (print_int log.value_of_i.toInt ++ ' ' :: (print_int log.value_of_j.toInt ++ ' ' ::
          (print_int log.value_of_k.toInt ++ [NUL]))))))) := by
    simp [print_line]
  -- Each token begins where the one before it and its blank end.
  have hcommit_id : next_number (print_line log) ' ' ⟨0, 0⟩ = _ :=
    next_number_token hline (hspace' _) (stol_print_nat h.commit_id)
  have hline := after_token hline
  have hnext_i := next_number_token hline (hspace' _) (stol_print_nat hi)
  have hline := after_token hline
  have hnext_j := next_number_token hline (hspace' _) (stol_print_nat hj)
  have hline := after_token hline
  have hnext_k := next_number_token hline (hspace' _) (stol_print_nat hk)
  have hline := after_token hline
  have hvalue_of_i := next_number_token hline (hspace _) (stol_print_value _)
  have hline := after_token hline
  have hvalue_of_j := next_number_token hline (hspace _) (stol_print_value _)
  have hline := after_token hline
  have hvalue_of_k := next_number_token hline (not_mem_print_int (by decide) (by decide) _)
    (stol_print_value _)
  simp only [parse_line, hcommit_id, hnext_i, hnext_j, hnext_k, hvalue_of_i, hvalue_of_j,
    hvalue_of_k, ok_bind, to_uint64_eq h.commit_id, to_uint64_eq hi, to_uint64_eq hj,
    to_uint64_eq hk, BitVec.ofInt_toInt]

/-! ## Section 2: The files -/

theorem newline_not_mem (log : LogLine) : '\n' ∉ print_line log := by
  have hint : ∀ x : ℤ, '\n' ∉ print_int x := not_mem_print_int (by decide) (by decide)
  have hnat : ∀ n : ℕ, '\n' ∉ print_nat n := not_mem_print_nat (by decide)
  simp [print_line, hint, hnat]

theorem getlines_append {l : List Char} (h : '\n' ∉ l) (line_buffer text : List Char) :
    getlines line_buffer (l ++ '\n' :: text) = (line_buffer ++ l) :: getlines [] text := by
  induction l generalizing line_buffer with
  | nil => simp [getlines]
  | cons c l ih =>
    have hne : c ≠ '\n' := fun heq => h (heq ▸ List.mem_cons_self)
    rw [List.cons_append, getlines, if_neg hne, ih fun hmem => h (List.mem_cons_of_mem _ hmem),
      List.append_assoc, List.singleton_append]

theorem getlines_print_file (logs : List LogLine) :
    getlines [] (print_file logs) = logs.map print_line := by
  induction logs with
  | nil => rfl
  | cons log logs ih =>
    have hfile : print_file (log :: logs) = print_line log ++ '\n' :: print_file logs := by
      simp [print_file]
    rw [hfile, getlines_append (newline_not_mem log), ih, List.nil_append, List.map_cons]

theorem getlines_print_files (files : List (List LogLine)) :
    (files.map print_file).flatMap (getlines []) = files.flatten.map print_line := by
  induction files with
  | nil => rfl
  | cons logs files ih =>
    rw [List.map_cons, List.flatMap_cons, getlines_print_file, ih, List.flatten_cons,
      List.map_append]

/-- The loop ends at the first file that is missing. -/
theorem read_files_eq {texts : List (List Char)} {n file_no : ℕ} {data : List (List Char)}
    (hle : file_no ≤ texts.length) (hn : texts.length < file_no + n) :
    read_files (thread_files texts) n file_no data =
      .ok (texts.length, data ++ (texts.drop file_no).flatMap (getlines [])) := by
  induction n generalizing file_no data with
  | zero => omega
  | succ n ih =>
    rw [read_files, thread_files]
    by_cases hlt : file_no < texts.length
    · rw [List.getElem?_eq_getElem hlt]
      simp only
      rw [ih (by omega) (by omega), List.drop_eq_getElem_cons hlt, List.flatMap_cons,
        List.append_assoc]
    · obtain rfl : file_no = texts.length := by omega
      simp

theorem parse_lines_print {logs : List LogLine} (h : ∀ log ∈ logs, InRange log) :
    parse_lines (logs.map print_line) = .ok logs := by
  induction logs with
  | nil => rfl
  | cons log logs ih =>
    rw [List.map_cons, parse_lines, parse_print (h log List.mem_cons_self),
      ih fun log hlog => h log (List.mem_cons_of_mem _ hlog)]
    rfl

/-- Whatever `std::sort` does, there is only one order of different commit ids. -/
theorem sort_eq (sort : StdSort) {logs order : List LogLine} (hperm : order.Perm logs)
    (hsorted : order.Pairwise fun lhs rhs => lhs.commit_id < rhs.commit_id) :
    sort.run logs = order := by
  have hsorted' : order.Pairwise fun lhs rhs => ¬ rhs.commit_id < lhs.commit_id :=
    hsorted.imp fun h => Nat.not_lt.mpr (Nat.le_of_lt h)
  have hnodup : (order.map (·.commit_id)).Nodup := by
    rw [List.Nodup, List.pairwise_map]
    exact hsorted.imp Nat.ne_of_lt
  have hsame := (sort.perm logs).trans hperm.symm
  refine List.Perm.eq_of_pairwise ?_ (sort.sorted logs) hsorted' hsame
  intro a b ha hb hab hba
  exact List.inj_on_of_nodup_map hnodup (hsame.mem_iff.mp ha) hb (by omega)

/-! ## Section 3: The records -/

/-- The ids of a line are below `size`. -/
structure IdsBelow (size : ℕ) (log : LogLine) : Prop where
  i : log.i < size
  j : log.j < size
  k : log.k < size

section

variable {size : ℕ} {m m' : ℕ → BitVec 64} {log : LogLine}

/-- The largest id so far is below a bound of all ids, and no id is larger. -/
theorem max_loop {logs : List LogLine} {first bound : ℕ} (hfirst : first < bound)
    (h : ∀ log ∈ logs, IdsBelow bound log) :
    let last := logs.foldl (fun m log => max (max (max m log.i) log.j) log.k) first
    first ≤ last ∧ last < bound ∧ ∀ log ∈ logs, IdsBelow (last + 1) log := by
  induction logs generalizing first with
  | nil => exact ⟨Nat.le_refl _, hfirst, by simp⟩
  | cons log logs ih =>
    obtain ⟨hi, hj, hk⟩ := h log List.mem_cons_self
    have hnext : max (max (max first log.i) log.j) log.k < bound := by omega
    obtain ⟨hle, hlt, hrest⟩ := ih hnext fun log hlog => h log (List.mem_cons_of_mem _ hlog)
    rw [List.foldl_cons]
    refine ⟨by omega, hlt, fun log' hlog' => ?_⟩
    rcases List.mem_cons.mp hlog' with rfl | hlog'
    · exact ⟨by omega, by omega, by omega⟩
    · exact hrest log' hlog'

theorem max_record_number_bounds {logs : List LogLine} (h : ∀ log ∈ logs, InRange log) :
    (∀ log ∈ logs, IdsBelow (max_record_number logs) log) ∧ max_record_number logs ≤ 2 ^ 60 := by
  obtain ⟨-, hlt, hids⟩ := max_loop (Nat.two_pow_pos 60) fun log hlog =>
    (⟨(h log hlog).i, (h log hlog).j, (h log hlog).k⟩ : IdsBelow (2 ^ 60) log)
  have hnumber : max_record_number logs =
      logs.foldl (fun m log => max (max (max m log.i) log.j) log.k) 0 + 1 :=
    Nat.mod_eq_of_lt (by omega)
  rw [hnumber]
  exact ⟨hids, hlt⟩

theorem allocated_eq {n : ℕ} (h : n ≤ 2 ^ 60) : allocated n = n := by
  unfold allocated
  omega

theorem fill_eq (memory : ℕ → BitVec 64) {n : ℕ} (h : n ≤ size) :
    ∃ records, fill size memory n = .ok records ∧ ∀ i < n, records i = 100 := by
  induction n with
  | zero => exact ⟨memory, rfl, by simp⟩
  | succ n ih =>
    obtain ⟨records, hfill, hrecords⟩ := ih (by omega)
    refine ⟨Function.update records n 100, ?_, ?_⟩
    · rw [fill, hfill, ok_bind, store, if_pos (by omega)]
    · intro i hi
      by_cases heq : i = n
      · rw [heq, Function.update_self]
      · rw [Function.update_of_ne heq]
        exact hrecords i (by omega)

/-- No access is outside of the records. -/
theorem execute_eq (h : IdsBelow size log) : execute size m log = .ok (redo m log) := by
  simp only [execute, load, store, if_pos h.i, if_pos h.j, if_pos h.k, ok_bind, redo]

theorem update_congr (hsame : ∀ i < size, m i = m' i) (j : ℕ) (v : BitVec 64) :
    ∀ i < size, Function.update m j v i = Function.update m' j v i := by
  intro i hi
  by_cases heq : i = j
  · rw [heq, Function.update_self, Function.update_self]
  · rw [Function.update_of_ne heq, Function.update_of_ne heq, hsame i hi]

/-- The replay of a line depends on the records below `size` only. -/
theorem redo_congr (h : IdsBelow size log) (hsame : ∀ i < size, m i = m' i) :
    (redo m log).2 = (redo m' log).2 ∧ ∀ i < size, (redo m log).1 i = (redo m' log).1 i := by
  have hj := update_congr hsame log.j (m' log.j + (m' log.i + 1))
  have hk := update_congr hj log.k
  simp only [redo, hsame _ h.i, hsame _ h.j, hj _ h.k, Function.update_self]
  exact ⟨trivial, hk _⟩

theorem compare_logs_eq {logs : List LogLine} (hids : ∀ log ∈ logs, IdsBelow size log)
    (hsame : ∀ i < size, m i = m' i) :
    ∃ wrong_found output, compare_logs size m logs = .ok (wrong_found, output) ∧
      (wrong_found = false ↔ replay_lines m' logs = logs) ∧ .congratulations ∉ output := by
  induction logs generalizing m m' with
  | nil => exact ⟨false, [], rfl, by simp [replay_lines], by simp⟩
  | cons log logs ih =>
    have hlog := hids log List.mem_cons_self
    obtain ⟨hline, hsame'⟩ := redo_congr hlog hsame
    obtain ⟨wrong_found, output, hrest, hwrong, hout⟩ :=
      ih (fun log hlog => hids log (List.mem_cons_of_mem _ hlog)) hsame'
    have hstep : compare_logs size m (log :: logs) =
        if (redo m log).2 = log then .ok (wrong_found, output)
        else .ok (true, .different_value (redo m log).2 log :: output) := by
      rw [compare_logs, execute_eq hlog, ok_bind]
      show compare_logs size (redo m log).1 logs >>= _ = _
      rw [hrest, ok_bind]
      rfl
    rw [hstep, replay_lines, ← hline, List.cons.injEq]
    by_cases hequal : (redo m log).2 = log
    · exact ⟨wrong_found, output, if_pos hequal, by rw [hwrong]; simp [hequal], hout⟩
    · exact ⟨true, _, if_neg hequal, by simp [hequal], by simp [hout]⟩

end

/-! ## Section 4: The verdict -/

/-- The lines in the order of their commit ids. -/
def commit_order (logs : List LogLine) : List LogLine :=
  logs.mergeSort fun lhs rhs => lhs.commit_id ≤ rhs.commit_id

theorem commit_order_perm (logs : List LogLine) : (commit_order logs).Perm logs :=
  List.mergeSort_perm _ _

theorem commit_order_le (logs : List LogLine) :
    (commit_order logs).Pairwise fun lhs rhs => ¬ rhs.commit_id < lhs.commit_id := by
  have hle : (commit_order logs).Pairwise fun a b => decide (a.commit_id ≤ b.commit_id) = true := by
    apply List.pairwise_mergeSort
    · simp only [decide_eq_true_eq]
      omega
    · simp only [Bool.or_eq_true, decide_eq_true_eq]
      omega
  exact hle.imp fun hab => Nat.not_lt.mpr (of_decide_eq_true hab)

theorem commit_order_sorted {logs : List LogLine} (h : (logs.map (·.commit_id)).Nodup) :
    (commit_order logs).Pairwise fun lhs rhs => lhs.commit_id < rhs.commit_id := by
  have hne : (commit_order logs).Pairwise fun a b => a.commit_id ≠ b.commit_id := by
    rw [← List.pairwise_map (R := (· ≠ ·))]
    exact (((commit_order_perm logs).map _).nodup_iff).mpr h
  exact ((commit_order_le logs).and hne).imp fun hab =>
    Nat.lt_of_le_of_ne (Nat.not_lt.mp hab.1) hab.2

/-- The whole program: it does not fail, and its verdict is that of the replay. -/
theorem marking_eq {files : List (List LogLine)} (hrange : ∀ log ∈ files.flatten, InRange log)
    (hids : (files.flatten.map (·.commit_id)).Nodup) (sort : StdSort) (memory : ℕ → BitVec 64)
    {n : ℕ} (hn : files.length < n) :
    ∃ messages, marking (thread_files (files.map print_file)) n sort memory = .ok messages ∧
      (.congratulations ∈ messages ↔
        replay_lines initial_records (commit_order files.flatten) =
          commit_order files.flatten) := by
  have hread : read_files (thread_files (files.map print_file)) n 0 [] =
      .ok (files.length, files.flatten.map print_line) := by
    rw [read_files_eq (Nat.zero_le _) (by rw [List.length_map]; omega), List.drop_zero,
      getlines_print_files, List.length_map, List.nil_append]
  have hsort : sort.run files.flatten = commit_order files.flatten :=
    sort_eq sort (commit_order_perm _) (commit_order_sorted hids)
  have horder : ∀ log ∈ commit_order files.flatten, InRange log := fun log hlog =>
    hrange log ((commit_order_perm _).mem_iff.mp hlog)
  obtain ⟨hbelow, hsize⟩ := max_record_number_bounds horder
  -- The records agree with the initial ones only below their number: this is enough.
  obtain ⟨records, hfill, hrecords⟩ :=
    fill_eq memory (Nat.le_refl (max_record_number (commit_order files.flatten)))
  obtain ⟨wrong_found, output, hcompare, hwrong, hout⟩ :=
    compare_logs_eq hbelow (show ∀ i < _, records i = initial_records i from hrecords)
  have hrun : marking (thread_files (files.map print_file)) n sort memory =
      .ok ([.starts, .last_file files.length,
        .number_of_transactions (files.flatten.map print_line).length,
        .max_record_number (max_record_number (commit_order files.flatten))] ++ output ++
          if wrong_found then [] else [.congratulations]) := by
    simp only [marking, hread, ok_bind, parse_lines_print hrange, hsort, allocated_eq hsize, hfill,
      hcompare]
  refine ⟨_, hrun, ?_⟩
  rw [← hwrong]
  cases wrong_found <;> simp [hout]

/-- **The marking program decides serial replay.**  For lines with different commit ids,
    in any number of files and in any order: the tokenizer recovers every line, all
    record ids are below the size of `records`, and the program ends without a
    failure and congratulates exactly if the replay in the order of the commit ids,
    from records that are all 100, gives the lines. -/
theorem marking_decides_replay {files : List (List LogLine)}
    (hrange : ∀ log ∈ files.flatten, InRange log)
    (hids : (files.flatten.map (·.commit_id)).Nodup) (sort : StdSort) (memory : ℕ → BitVec 64)
    {n : ℕ} (hn : files.length < n) :
    (∀ log ∈ files.flatten, parse_line (print_line log) = .ok log) ∧
    (∀ log ∈ files.flatten,
      IdsBelow (allocated (max_record_number (sort.run files.flatten))) log) ∧
    ∃ messages, marking (thread_files (files.map print_file)) n sort memory = .ok messages ∧
      (.congratulations ∈ messages ↔
        replay_lines initial_records (commit_order files.flatten) =
          commit_order files.flatten) := by
  refine ⟨fun log hlog => parse_print (hrange log hlog), ?_,
    marking_eq hrange hids sort memory hn⟩
  have hsorted : ∀ log ∈ sort.run files.flatten, InRange log := fun log hlog =>
    hrange log ((sort.perm _).mem_iff.mp hlog)
  obtain ⟨hbelow, hsize⟩ := max_record_number_bounds hsorted
  rw [allocated_eq hsize]
  exact fun log hlog => hbelow log ((sort.perm _).mem_iff.mpr hlog)

def merge_sort : StdSort := ⟨commit_order, commit_order_perm, commit_order_le⟩

/-- Two threads with one transaction each; the second thread commits first. -/
def two_files : List (List LogLine) :=
  [[⟨2, 1, 2, 0, 201, 202, -101⟩], [⟨1, 0, 1, 2, 100, 201, 0⟩]]

theorem marking_decides_replay_two_files :
    ∃ messages, marking (thread_files (two_files.map print_file)) 3 merge_sort (fun _ => 0) =
      .ok messages ∧ .congratulations ∈ messages := by
  have hrange : ∀ log ∈ two_files.flatten, InRange log := by
    intro log hlog
    have hcases : log = ⟨2, 1, 2, 0, 201, 202, -101⟩ ∨ log = ⟨1, 0, 1, 2, 100, 201, 0⟩ := by
      simpa [two_files] using hlog
    rcases hcases with rfl | rfl <;> exact ⟨by decide, by decide, by decide, by decide⟩
  obtain ⟨-, -, messages, hrun, hverdict⟩ := marking_decides_replay hrange (by decide) merge_sort
    (fun _ => 0) (by decide : two_files.length < 3)
  have horder : commit_order two_files.flatten =
      [⟨1, 0, 1, 2, 100, 201, 0⟩, ⟨2, 1, 2, 0, 201, 202, -101⟩] :=
    sort_eq merge_sort (by decide) (by decide)
  exact ⟨messages, hrun, hverdict.mpr (by rw [horder]; decide)⟩

/-! ## Section 5: The log files of a run -/

/-- The lines of a run have distinct ids of existing records. -/
theorem committed_distinct {args : Arguments} {s : Program}
    (h : Reachable (transactions args.toConfig) s) :
    ∀ log ∈ s.committed, DistinctIds args.R log.i log.j log.k := by
  apply h.invariant
  · intro s hinit
    obtain ⟨-, -, -, -, -, hcommitted, -⟩ := hinit
    simp [hcommitted]
  · intro s l s' hreach ih hstep log hlog
    obtain ⟨tid, i, j, k⟩ := l
    obtain ⟨-, hpos, hlt, hstep⟩ := hstep
    rcases committed_cases hstep with hsame | ⟨hp, -, id, hnew⟩
    · exact ih log (hsame ▸ hlog)
    · rw [hnew, List.mem_append, List.mem_singleton] at hlog
      rcases hlog with hlog | rfl
      · exact ih log hlog
      · exact ((history_inv_reachable hreach).data.link.log tid
          (by simp [Thread.idle, hp])).ids

/-- **The marking program congratulates every run of the transactions.** -/
theorem transactions_marked_correct {args : Arguments} (hR : args.R ≤ 2 ^ 60) {s : Program}
    (h : Reachable (transactions args.toConfig) s) (sort : StdSort) (memory : ℕ → BitVec 64)
    {n : ℕ} (hn : args.thread_num < n) :
    ∃ messages, marking (thread_files
      (((List.range' 1 args.thread_num).map s.log_file).map print_file)) n sort memory =
        .ok messages ∧ .congratulations ∈ messages := by
  have hserial := serial_inv_reachable
    ((serial_simulation args).reachable (fun _ => history_inv_reachable) h)
  have hinv := history_inv_reachable h
  have hids : s.committed.map (·.commit_id) = List.range' 1 s.committed.length := hserial.ids
  have hflatten : ((List.range' 1 args.thread_num).map s.log_file).flatten =
      s.lines args.toConfig := (List.flatMap_def ..).symm
  have hrange : ∀ log ∈ s.lines args.toConfig, InRange log := by
    intro log hlog
    have hmem := hinv.files.mem_iff.mpr hlog
    have hrecords := committed_distinct h log hmem
    have hi := hrecords.i_lt
    have hj := hrecords.j_lt
    have hk := hrecords.k_lt
    have hid : log.commit_id ∈ List.range' 1 s.committed.length :=
      hids ▸ List.mem_map_of_mem hmem
    rw [List.mem_range'_1, hinv.count] at hid
    have hE := args.E_lt
    exact ⟨by omega, by omega, by omega, by omega⟩
  have hnodup : ((s.lines args.toConfig).map (·.commit_id)).Nodup := by
    rw [← (hinv.files.map _).nodup_iff, hids]
    exact List.nodup_range'
  -- The files, put together and sorted, are the commits in their order.
  have horder : commit_order (s.lines args.toConfig) = s.committed :=
    Program.logs_eq_committed h
  rw [← hflatten] at hrange hnodup horder
  obtain ⟨messages, hrun, hverdict⟩ := marking_eq hrange hnodup sort memory
    (show _ < n by rwa [List.length_map, List.length_range'])
  exact ⟨messages, hrun, hverdict.mpr (by rw [horder]; exact hserial.lines)⟩

/-- The log files of two threads after a commit of each. -/
theorem marked_correct_two_commits :
    ∃ s : Program, s.log_file 1 = [⟨1, 0, 1, 2, 100, 201, 0⟩] ∧
      s.log_file 2 = [⟨2, 1, 0, 2, 201, 302, -201⟩] ∧
      ∃ messages, marking (thread_files [print_file (s.log_file 1), print_file (s.log_file 2)]) 3
        merge_sort (fun _ => 0) = .ok messages ∧ .congratulations ∈ messages := by
  obtain ⟨s, h, -, -, hfile₁, hfile₂⟩ := reachable_two_commits
  exact ⟨s, hfile₁, hfile₂,
    transactions_marked_correct (by decide) h merge_sort (fun _ => 0) (by decide)⟩

end Project2.Marking
