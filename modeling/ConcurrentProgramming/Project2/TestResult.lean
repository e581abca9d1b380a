import ConcurrentProgramming.Project2.MarkingProperties
import ConcurrentProgramming.Project2.Overflow

/-! # The Test Script (`marking/test_result-2.py`)

    The second checker of the log files is a Python script.  It sorts the lines by
    their first number and executes the transactions again, over integers without
    bounds.  A line whose values are not those of the script is blamed on an overflow
    if one of its records has left the range of a `long long` before; otherwise it is
    a failure.

    On the log files of a run of the transactions the script blames nothing but
    overflows, and it does so exactly when a record of the line is out of range
    (`test_result_of_run`).  The records of the script and those of the program differ
    by multiples of `2 ^ 64`, so as long as a record is in range, they agree on it.
-/

namespace Project2.TestResult

open LTS Decimal Marking

/-! ## Section 1: Reading a line -/

/-- The exceptions. -/
inductive Failure where
  /-- A file that cannot be opened. -/
  | io_error
  /-- `int` of a word that is not a number, or a line without seven words. -/
  | value_error
  | index_error
  deriving DecidableEq, Repr

/-- The lines of a file, each with its `'\n'`; `buffer` is the line so far. -/
def readlines : List Char → List Char → List (List Char)
  | buffer, [] => if buffer = [] then [] else [buffer]
  | buffer, c :: text =>
      if c = '\n' then (buffer ++ [c]) :: readlines [] text else readlines (buffer ++ [c]) text

/-- `line.split()`; `word` is the word so far. -/
def split : List Char → List Char → List (List Char)
  | word, [] => if word = [] then [] else [word]
  | word, c :: text =>
      if is_space c then if word = [] then split [] text else word :: split [] text
      else split (word ++ [c]) text

/-- `int(word)`. -/
def int_of (word : List Char) : Except Failure ℤ :=
  let unsigned := read_sign word
  if unsigned.2 ≠ [] ∧ unsigned.2.all Char.isDigit then
    .ok (signed unsigned.1 (Nat.ofDigitChars 10 unsigned.2 0))
  else .error .value_error

/-- `map(int, words)`. -/
def ints : List (List Char) → Except Failure (List ℤ)
  | [] => .ok []
  | word :: words => do
      let value ← int_of word
      let values ← ints words
      .ok (value :: values)

/-- The seven numbers of a line. -/
structure Numbers where
  commit_id : ℤ
  i         : ℤ
  j         : ℤ
  k         : ℤ
  i_result  : ℤ
  j_result  : ℤ
  k_result  : ℤ
  deriving DecidableEq, Repr

def unpack (line : List Char) : Except Failure Numbers := do
  match ← ints (split [] line) with
  | [commit_id, i, j, k, i_result, j_result, k_result] =>
      .ok ⟨commit_id, i, j, k, i_result, j_result, k_result⟩
  | _ => .error .value_error

/-- `int(line.split()[0])`. -/
def sort_key (line : List Char) : Except Failure ℤ :=
  match split [] line with
  | [] => .error .index_error
  | word :: _ => int_of word

/-- The keys are computed once, and the sort is stable. -/
def sort_lines (lines : List (List Char)) : Except Failure (List (List Char)) := do
  let keys ← lines.mapM sort_key
  .ok (((keys.zip lines).mergeSort fun lhs rhs => lhs.1 ≤ rhs.1).map Prod.snd)

/-! ## Section 2: The main logic -/

inductive Message where
  | successful (commit_id : ℤ)
  | failed_by_overflow (commit_id : ℤ)
  | failed (commit_id : ℤ)
  | finish
  deriving DecidableEq, Repr

def max_long_long : ℤ := 9223372036854775807

def min_long_long : ℤ := -9223372036854775808

def overflows (value : ℤ) : Bool := value > max_long_long ∨ value < min_long_long

/-- The element that `records[i]` means, in a list of `size` elements. -/
def index (size : ℕ) (i : ℤ) : Except Failure ℕ :=
  if 0 ≤ i ∧ i < size then .ok i.toNat
  else if -size ≤ i ∧ i < 0 then .ok (i + size).toNat
  else .error .index_error

/-- `overflowed_records` after the two tests. -/
def note_overflows (overflowed_records : List ℤ) (line : Numbers) (value_j value_k : ℤ) : List ℤ :=
  let overflowed_records :=
    if line.j ∉ overflowed_records ∧ overflows value_j then overflowed_records ++ [line.j]
    else overflowed_records
  if line.k ∉ overflowed_records ∧ overflows value_k then overflowed_records ++ [line.k]
  else overflowed_records

/-- The body of the loop: what is printed, `records` and `overflowed_records`. -/
def check_line (size : ℕ) (records : ℕ → ℤ) (overflowed_records : List ℤ) (line : Numbers) :
    Except Failure (Message × (ℕ → ℤ) × List ℤ) := do
  let i ← index size line.i
  let read := records i
  let j ← index size line.j
  let records := Function.update records j (records j + (read + 1))
  let k ← index size line.k
  let records := Function.update records k (records k - read)
  if line.i_result = records i ∧ line.j_result = records j ∧ line.k_result = records k then
    .ok (.successful line.commit_id, records, overflowed_records)
  else
    let overflowed_records := note_overflows overflowed_records line (records j) (records k)
    if [line.i, line.j, line.k].any fun record_id => record_id ∈ overflowed_records then
      .ok (.failed_by_overflow line.commit_id, records, overflowed_records)
    else .ok (.failed line.commit_id, records, overflowed_records)

def check_lines (size : ℕ) :
    (ℕ → ℤ) → List ℤ → List (List Char) → Except Failure (List Message)
  | _, _, [] => .ok []
  | records, overflowed_records, line :: lines => do
      let line ← unpack line
      let (printed, records, overflowed_records) ←
        check_line size records overflowed_records line
      let messages ← check_lines size records overflowed_records lines
      .ok (printed :: messages)

/-- The loop over the files `thread1.txt`, `thread2.txt` and so on. -/
def read_threads (files : ℕ → Option (List Char)) : List ℕ → Except Failure (List (List Char))
  | [] => .ok []
  | i :: is =>
      match files i with
      | none => .error .io_error
      | some text => do
          let lines ← read_threads files is
          .ok (readlines [] text ++ lines)

/-- `main`. -/
def test_result (files : ℕ → Option (List Char)) (num_of_thread num_of_record : ℕ) :
    Except Failure (List Message) := do
  let lines ← read_threads files (List.range' 1 num_of_thread)
  let lines ← sort_lines lines
  let messages ← check_lines (num_of_record + 1) (fun _ => 100) [] lines
  .ok (messages ++ [.finish])

/-! ## Section 3: What the transactions print is read back -/

/-- A line of a log file. -/
def text_of (log : LogLine) : List Char := print_line log ++ ['\n']

def numbers_of (log : LogLine) : Numbers :=
  ⟨log.commit_id, log.i, log.j, log.k, log.value_of_i.toInt, log.value_of_j.toInt,
    log.value_of_k.toInt⟩

theorem split_word {w : List Char} (hw : ∀ c ∈ w, is_space c = false) (word text : List Char) :
    split word (w ++ text) = split (word ++ w) text := by
  induction w generalizing word with
  | nil => simp
  | cons c w ih =>
    have hc := hw c List.mem_cons_self
    have hrest : ∀ c ∈ w, is_space c = false := fun c hmem => hw c (List.mem_cons_of_mem _ hmem)
    rw [List.cons_append, split, if_neg (by simp [hc]), ih hrest, List.append_assoc,
      List.singleton_append]

/-- A word and the blank behind it. -/
theorem split_cons {w text : List Char} {c : Char} (hw : ∀ c ∈ w, is_space c = false)
    (hne : w ≠ []) (hc : is_space c = true) : split [] (w ++ c :: text) = w :: split [] text := by
  rw [split_word hw, List.nil_append, split, if_pos hc, if_neg hne]

theorem not_space_print_int (x : ℤ) : ∀ c ∈ print_int x, is_space c = false := by
  intro c hc
  rcases of_mem_print_int hc with rfl | hdigit
  · decide
  · simp only [is_space, decide_eq_false_iff_not]
    omega

theorem print_int_ne_nil (x : ℤ) : print_int x ≠ [] := by
  unfold print_int
  split
  · exact List.cons_ne_nil _ _
  · exact print_nat_ne_nil _

theorem split_print_line (log : LogLine) : split [] (text_of log) =
    [print_int log.commit_id, print_int log.i, print_int log.j, print_int log.k,
      print_int log.value_of_i.toInt, print_int log.value_of_j.toInt,
      print_int log.value_of_k.toInt] := by
  have hword : ∀ (x : ℤ) (c : Char) (text : List Char), is_space c = true →
      split [] (print_int x ++ c :: text) = print_int x :: split [] text :=
    fun x c text hc => split_cons (not_space_print_int x) (print_int_ne_nil x) hc
  have htext : text_of log = print_int log.commit_id ++ ' ' :: (print_int log.i ++ ' ' ::
      (print_int log.j ++ ' ' :: (print_int log.k ++ ' ' ::
        (print_int log.value_of_i.toInt ++ ' ' :: (print_int log.value_of_j.toInt ++ ' ' ::
          (print_int log.value_of_k.toInt ++ '\n' :: [])))))) := by
    simp [text_of, print_line, print_nat_eq]
  rw [htext]
  simp only [hword _ ' ' _ (by decide), hword _ '\n' _ (by decide)]
  rfl

/-- A number that is printed is read back, whatever its size. -/
theorem int_of_print_int (x : ℤ) : int_of (print_int x) = .ok x := by
  have hsign : read_sign (print_int x) = (decide (x < 0), print_nat x.natAbs) := by
    rw [← read_sign_print_int]
    congr 1
    refine (List.dropWhile_eq_self_iff.mpr ?_).symm
    intro hlen
    simp [not_space_print_int x _ (List.getElem_mem hlen)]
  have hdigits : (print_nat x.natAbs).all Char.isDigit = true :=
    List.all_eq_true.mpr fun c hc => Char.isDigit_iff_toNat.mpr (digit_of_mem hc)
  have hvalue : signed (decide (x < 0)) (Nat.ofDigitChars 10 (print_nat x.natAbs) 0) = x := by
    rw [print_nat, Nat.ofDigitChars_toDigits (by decide) (by decide), signed]
    by_cases hneg : x < 0
    · rw [decide_eq_true hneg, if_pos rfl]
      omega
    · rw [decide_eq_false hneg, if_neg (by decide)]
      omega
  simp only [int_of, hsign, hvalue]
  rw [if_pos ⟨print_nat_ne_nil _, hdigits⟩]

theorem unpack_print (log : LogLine) : unpack (text_of log) = .ok (numbers_of log) := by
  simp only [unpack, split_print_line, ints, int_of_print_int, ok_bind]
  rfl

theorem sort_key_print (log : LogLine) : sort_key (text_of log) = .ok (log.commit_id : ℤ) := by
  simp only [sort_key, split_print_line, int_of_print_int]

theorem readlines_append {l : List Char} (h : '\n' ∉ l) (buffer text : List Char) :
    readlines buffer (l ++ '\n' :: text) = (buffer ++ l ++ ['\n']) :: readlines [] text := by
  induction l generalizing buffer with
  | nil => simp [readlines]
  | cons c l ih =>
    have hne : c ≠ '\n' := fun heq => h (heq ▸ List.mem_cons_self)
    rw [List.cons_append, readlines, if_neg hne, ih fun hmem => h (List.mem_cons_of_mem _ hmem)]
    simp

theorem readlines_print_file (logs : List LogLine) :
    readlines [] (print_file logs) = logs.map text_of := by
  induction logs with
  | nil => rfl
  | cons log logs ih =>
    have hfile : print_file (log :: logs) = print_line log ++ '\n' :: print_file logs := by
      simp [print_file]
    rw [hfile, readlines_append (newline_not_mem log), ih]
    rfl

/-- The files of the threads `first, first + 1, ..`. -/
theorem read_threads_print {file : ℕ → List LogLine} {files : ℕ → Option (List Char)}
    {is : List ℕ} (h : ∀ i ∈ is, files i = some (print_file (file i))) :
    read_threads files is = .ok ((is.flatMap file).map text_of) := by
  induction is with
  | nil => rfl
  | cons i is ih =>
    rw [read_threads, h i List.mem_cons_self]
    simp only [ih fun j hj => h j (List.mem_cons_of_mem _ hj), ok_bind, readlines_print_file,
      List.flatMap_cons, List.map_append]

theorem mapM_sort_key (logs : List LogLine) :
    (logs.map text_of).mapM sort_key = .ok (logs.map fun log => (log.commit_id : ℤ)) := by
  induction logs with
  | nil => rfl
  | cons log logs ih =>
    rw [List.map_cons, List.mapM_cons, sort_key_print, ok_bind, ih]
    rfl

/-- Sorting the texts is sorting the lines by their commit ids. -/
theorem sort_lines_print (logs : List LogLine) :
    sort_lines (logs.map text_of) = .ok ((commit_order logs).map text_of) := by
  have hzip : (logs.map fun log => (log.commit_id : ℤ)).zip (logs.map text_of) =
      logs.map fun log => ((log.commit_id : ℤ), text_of log) := by
    rw [List.zip_map']
  have hsort : ((logs.map fun log => ((log.commit_id : ℤ), text_of log)).mergeSort
      fun lhs rhs => decide (lhs.1 ≤ rhs.1)) =
      (commit_order logs).map fun log => ((log.commit_id : ℤ), text_of log) := by
    refine (List.map_mergeSort ?_).symm
    intro a _ b _
    simp
  simp only [sort_lines, mapM_sort_key, ok_bind, hzip, hsort, List.map_map]
  rfl

/-! ## Section 4: The verdicts -/

/-- What is printed for a line, if the records are `records` after its transaction
    over unbounded integers. -/
def verdict (records : ℕ → ℤ) (log : LogLine) : Message :=
  if overflows (records log.i) ∨ overflows (records log.j) ∨ overflows (records log.k) then
    .failed_by_overflow log.commit_id
  else .successful log.commit_id

/-- The verdicts on all lines. -/
def verdicts : (ℕ → ℤ) → List LogLine → List Message
  | _, [] => []
  | records, log :: logs =>
      verdict (exact_redo records log).1 log :: verdicts (exact_redo records log).1 logs

/-- The records of the script are those of the program up to multiples of `2 ^ 64`,
    and every record out of range has been noted. -/
structure Agrees (records : ℕ → ℤ) (S : ℕ → BitVec 64) (overflowed_records : List ℤ) : Prop where
  congruent : ∀ r, BitVec.ofInt 64 (records r) = S r
  noted     : ∀ r : ℕ, overflows (records r) → (r : ℤ) ∈ overflowed_records

/-- Congruent values are equal if and only if the unbounded one is in range. -/
theorem toInt_eq_iff {x : ℤ} {v : BitVec 64} (h : BitVec.ofInt 64 x = v) :
    v.toInt = x ↔ ¬ overflows x := by
  have hmin := BitVec.le_toInt v
  have hmax := BitVec.toInt_lt (x := v)
  simp only [overflows, max_long_long, min_long_long, gt_iff_lt, decide_eq_true_eq]
  constructor
  · omega
  · intro hrange
    rw [← h]
    exact BitVec.toInt_ofInt_eq_self (by decide) (by omega) (by omega)

/-- The records of both after one transaction. -/
theorem congruent_redo {R : ℕ} {records : ℕ → ℤ} {S : ℕ → BitVec 64} {log : LogLine}
    (hids : DistinctIds R log.i log.j log.k) (h : ∀ r, BitVec.ofInt 64 (records r) = S r) (r : ℕ) :
    BitVec.ofInt 64 ((exact_redo records log).1 r) = (redo S log).1 r := by
  rw [redo_records hids]
  by_cases hk : r = log.k
  · subst hk
    simp [exact_redo, hids.k_ne_j, Int.sub_eq_add_neg, BitVec.ofInt_add, BitVec.ofInt_neg, h,
      BitVec.sub_eq_add_neg]
  · by_cases hj : r = log.j
    · subst hj
      simp [exact_redo, hk, BitVec.ofInt_add, h]
    · simp [exact_redo, hk, hj, h]

/-- Records that the transaction does not write. -/
theorem exact_redo_of_ne {records : ℕ → ℤ} {log : LogLine} {r : ℕ} (hj : r ≠ log.j)
    (hk : r ≠ log.k) : (exact_redo records log).1 r = records r := by
  simp [exact_redo, hj, hk]

theorem index_nat {size i : ℕ} (h : i < size) : index size (i : ℤ) = .ok i := by
  rw [index, if_pos ⟨Int.natCast_nonneg i, by exact_mod_cast h⟩, Int.toNat_natCast]

/-- Both tests note what is out of range and forget nothing. -/
theorem mem_note_overflows {overflowed_records : List ℤ} {line : Numbers} {value_j value_k : ℤ}
    {r : ℤ} (h : r ∈ overflowed_records ∨ r = line.j ∧ overflows value_j ∨
      r = line.k ∧ overflows value_k) :
    r ∈ note_overflows overflowed_records line value_j value_k := by
  unfold note_overflows
  grind

/-- **One line.**  A line of the program is correct up to overflows. -/
theorem check_line_eq {R size : ℕ} {records : ℕ → ℤ} {S : ℕ → BitVec 64}
    {overflowed_records : List ℤ} {log : LogLine} (h : Agrees records S overflowed_records)
    (hids : DistinctIds R log.i log.j log.k) (hR : R ≤ size) (hline : (redo S log).2 = log) :
    ∃ noted, check_line size records overflowed_records (numbers_of log) =
        .ok (verdict (exact_redo records log).1 log, (exact_redo records log).1, noted) ∧
      Agrees (exact_redo records log).1 (redo S log).1 noted := by
  have hcongruent := congruent_redo hids h.congruent
  have hi : index size (numbers_of log).i = .ok log.i := index_nat (Nat.lt_of_lt_of_le hids.i_lt hR)
  have hj : index size (numbers_of log).j = .ok log.j := index_nat (Nat.lt_of_lt_of_le hids.j_lt hR)
  have hk : index size (numbers_of log).k = .ok log.k := index_nat (Nat.lt_of_lt_of_le hids.k_lt hR)
  -- The values in the line are those of the records after the transaction.
  have hvalue_i : log.value_of_i = (redo S log).1 log.i := by
    rw [redo_records hids, if_neg hids.k_ne_i.symm, if_neg hids.i_ne_j]
    exact (congrArg LogLine.value_of_i hline).symm
  have hvalue_j : log.value_of_j = (redo S log).1 log.j := by
    rw [redo_records hids, if_neg hids.k_ne_j.symm, if_pos rfl]
    refine (congrArg LogLine.value_of_j hline).symm.trans ?_
    simp [redo]
  have hvalue_k : log.value_of_k = (redo S log).1 log.k :=
    (congrArg LogLine.value_of_k hline).symm
  have hcheck : ((numbers_of log).i_result = (exact_redo records log).1 log.i ∧
      (numbers_of log).j_result = (exact_redo records log).1 log.j ∧
      (numbers_of log).k_result = (exact_redo records log).1 log.k) ↔
      ¬ (overflows ((exact_redo records log).1 log.i) ∨
        overflows ((exact_redo records log).1 log.j) ∨
        overflows ((exact_redo records log).1 log.k)) := by
    show (log.value_of_i.toInt = _ ∧ log.value_of_j.toInt = _ ∧ log.value_of_k.toInt = _) ↔ _
    rw [hvalue_i, hvalue_j, hvalue_k, toInt_eq_iff (hcongruent _), toInt_eq_iff (hcongruent _),
      toInt_eq_iff (hcongruent _)]
    tauto
  have hrun : check_line size records overflowed_records (numbers_of log) =
      if (numbers_of log).i_result = (exact_redo records log).1 log.i ∧
          (numbers_of log).j_result = (exact_redo records log).1 log.j ∧
          (numbers_of log).k_result = (exact_redo records log).1 log.k then
        .ok (.successful log.commit_id, (exact_redo records log).1, overflowed_records)
      else
        let noted := note_overflows overflowed_records (numbers_of log)
          ((exact_redo records log).1 log.j) ((exact_redo records log).1 log.k)
        if [(log.i : ℤ), (log.j : ℤ), (log.k : ℤ)].any fun record_id => record_id ∈ noted then
          .ok (.failed_by_overflow log.commit_id, (exact_redo records log).1, noted)
        else .ok (.failed log.commit_id, (exact_redo records log).1, noted) := by
    simp only [check_line, hi, hj, hk, ok_bind]
    rfl
  by_cases hover : overflows ((exact_redo records log).1 log.i) ∨
      overflows ((exact_redo records log).1 log.j) ∨ overflows ((exact_redo records log).1 log.k)
  · -- What is out of range now was noted before or is noted now.
    let noted := note_overflows overflowed_records (numbers_of log)
      ((exact_redo records log).1 log.j) ((exact_redo records log).1 log.k)
    have hnoted : ∀ r : ℕ, overflows ((exact_redo records log).1 r) → (r : ℤ) ∈ noted := by
      intro r hr
      apply mem_note_overflows
      by_cases hrj : r = log.j
      · subst hrj
        exact .inr (.inl ⟨rfl, hr⟩)
      · by_cases hrk : r = log.k
        · subst hrk
          exact .inr (.inr ⟨rfl, hr⟩)
        · rw [exact_redo_of_ne hrj hrk] at hr
          exact .inl (h.noted r hr)
    have hany : ([(log.i : ℤ), (log.j : ℤ), (log.k : ℤ)].any fun record_id => record_id ∈ noted) =
        true := by
      simp only [List.any_cons, List.any_nil, Bool.or_false, Bool.or_eq_true, decide_eq_true_eq]
      rcases hover with hi | hj | hk
      · exact .inl (hnoted log.i hi)
      · exact .inr (.inl (hnoted log.j hj))
      · exact .inr (.inr (hnoted log.k hk))
    refine ⟨noted, ?_, ⟨hcongruent, hnoted⟩⟩
    rw [hrun, if_neg (fun hequal => hcheck.mp hequal hover), verdict, if_pos hover]
    show (if _ then _ else _) = _
    rw [if_pos hany]
  · refine ⟨overflowed_records, ?_, ⟨hcongruent, ?_⟩⟩
    · rw [hrun, if_pos (hcheck.mpr hover), verdict, if_neg hover]
    · intro r hr
      -- The two records that were written are in range.
      have hrj : r ≠ log.j := by
        rintro rfl
        exact hover (.inr (.inl hr))
      have hrk : r ≠ log.k := by
        rintro rfl
        exact hover (.inr (.inr hr))
      rw [exact_redo_of_ne hrj hrk] at hr
      exact h.noted r hr

/-- **All lines.** -/
theorem check_lines_eq {R size : ℕ} (hR : R ≤ size) (logs : List LogLine) {records : ℕ → ℤ}
    {S : ℕ → BitVec 64} {overflowed_records : List ℤ} (h : Agrees records S overflowed_records)
    (hids : ∀ log ∈ logs, DistinctIds R log.i log.j log.k) (hlines : replay_lines S logs = logs) :
    check_lines size records overflowed_records (logs.map text_of) =
      .ok (verdicts records logs) := by
  induction logs generalizing records S overflowed_records with
  | nil => rfl
  | cons log logs ih =>
    obtain ⟨hline, hrest⟩ := List.cons.inj hlines
    obtain ⟨noted, hcheck, hagrees⟩ := check_line_eq h (hids log List.mem_cons_self) hR hline
    have htail := ih hagrees (fun log hlog => hids log (List.mem_cons_of_mem _ hlog)) hrest
    simp only [List.map_cons, check_lines, unpack_print, ok_bind, hcheck, htail, verdicts]

theorem verdicts_not_failed (records : ℕ → ℤ) (logs : List LogLine) (id : ℤ) :
    Message.failed id ∉ verdicts records logs := by
  induction logs generalizing records with
  | nil => simp [verdicts]
  | cons log logs ih =>
    rw [verdicts, List.mem_cons, not_or]
    refine ⟨?_, ih _⟩
    unfold verdict
    split <;> simp

/-! ## Section 5: The log files of a run -/

/-- **The script finds no fault but overflows.**  For the log files of every run, the
    script runs through; for each line, in the order of the commits, it prints that
    the result is successful if the three records are in the range of a `long long`
    in the execution over unbounded integers, and otherwise that it failed by
    overflow.  It never prints that a result just failed. -/
theorem test_result_of_run {args : Arguments} {s : Program} {num_of_record : ℕ}
    (h : Reachable (transactions args.toConfig) s) (hR : args.R ≤ num_of_record + 1) :
    test_result (thread_files (((List.range' 1 args.thread_num).map s.log_file).map print_file))
        args.thread_num num_of_record =
      .ok (verdicts exact_initial (s.logs args.toConfig) ++ [.finish]) ∧
    ∀ id, Message.failed id ∉ verdicts exact_initial (s.logs args.toConfig) := by
  have hserial := serial_inv_reachable
    ((serial_simulation args).reachable (fun _ => history_inv_reachable) h)
  have hfiles : ∀ i ∈ List.range' 1 args.thread_num,
      thread_files (((List.range' 1 args.thread_num).map s.log_file).map print_file) i =
        some (print_file (s.log_file i)) := by
    intro i hi
    rw [List.mem_range'_1] at hi
    obtain ⟨n, rfl⟩ : ∃ n, i = n + 1 := ⟨i - 1, by omega⟩
    have hn : n < args.thread_num := by omega
    simp [thread_files, hn, Nat.add_comm]
  have horder : commit_order (s.lines args.toConfig) = s.logs args.toConfig := rfl
  have hinit : Agrees exact_initial initial_records [] := by
    refine ⟨fun r => rfl, ?_⟩
    intro r hr
    have hrange : overflows 100 = false := by decide
    exact absurd hr (by simp [exact_initial, hrange])
  have hlogs := Program.logs_eq_committed h
  refine ⟨?_, verdicts_not_failed _ _⟩
  have hlines : replay_lines initial_records (s.logs args.toConfig) = s.logs args.toConfig := by
    rw [hlogs]
    exact hserial.lines
  have hchecked := check_lines_eq hR (s.logs args.toConfig) hinit
    (fun log hlog => committed_distinct h log (hlogs ▸ hlog)) hlines
  rw [test_result, read_threads_print hfiles, ok_bind]
  show (sort_lines ((s.lines args.toConfig).map text_of) >>= _) = _
  rw [sort_lines_print, horder, ok_bind]
  show (check_lines (num_of_record + 1) exact_initial [] _ >>= _) = _
  rw [hchecked]
  rfl

/-- Two threads after a commit of each. -/
theorem test_result_two_commits :
    ∃ s : Program, s.log_file 1 = [⟨1, 0, 1, 2, 100, 201, 0⟩] ∧
      s.log_file 2 = [⟨2, 1, 0, 2, 201, 302, -201⟩] ∧
      test_result (thread_files [print_file (s.log_file 1), print_file (s.log_file 2)]) 2 3 =
        .ok (verdicts exact_initial (s.logs duo_arguments.toConfig) ++ [.finish]) := by
  obtain ⟨s, h, -, -, hfile₁, hfile₂⟩ := reachable_two_commits
  exact ⟨s, hfile₁, hfile₂, (test_result_of_run h (by decide)).1⟩

end Project2.TestResult
