import ConcurrentProgramming.Framework.Decimal
import ConcurrentProgramming.Project2.Transaction
import Mathlib.Data.List.Perm.Basic

/-! # The Marking Program (`marking/main.cc`)

    The program reads the log files of all threads, sorts their lines by `commit_id`,
    executes the transactions one after the other, and compares what they compute
    with the lines.

    A text is a list of characters.  Behind the last character of a `std::string`
    there is a `'\0'`, which the last token of a line ends at; to read further is a
    failure.  So are the exceptions of `substr` and `stol` and an access outside of
    `records`, so a run that does not fail has made none of them.  `malloc` is
    assumed to succeed, and the memory it returns holds any values.
-/

namespace Project2.Marking

open Decimal

/-! ## Section 1: The log files -/

/-- A line, as `transaction()` writes it to `log_file`. -/
def print_line (log : LogLine) : List Char :=
  print_nat log.commit_id ++ ' ' :: (print_nat log.i ++ ' ' :: (print_nat log.j ++ ' ' ::
    (print_nat log.k ++ ' ' :: (print_int log.value_of_i.toInt ++ ' ' ::
      (print_int log.value_of_j.toInt ++ ' ' :: print_int log.value_of_k.toInt)))))

/-- A log file; `std::endl` ends each line. -/
def print_file (logs : List LogLine) : List Char :=
  logs.flatMap fun log => print_line log ++ ['\n']

/-- The files `thread1.txt`, `thread2.txt` and so on. -/
def thread_files (files : List (List Char)) (file_no : ℕ) : Option (List Char) :=
  match file_no with
  | 0 => none
  | n + 1 => files[n]?

/-- What is left of the loop of `std::getline`; `line_buffer` is the line so far. -/
def getlines : List Char → List Char → List (List Char)
  | line_buffer, [] => if line_buffer = [] then [] else [line_buffer]
  | line_buffer, c :: text =>
      if c = '\n' then line_buffer :: getlines [] text else getlines (line_buffer ++ [c]) text

/-! ## Section 2: One line -/

inductive Failure where
  /-- `*c` behind the end of the line. -/
  | read_past_end
  /-- The exception of `substr`. -/
  | substr_out_of_range
  | stol (error : Error)
  /-- An access outside of the memory of `records`. -/
  | outside_records
  /-- The bound for the number of files was too small. -/
  | more_files
  deriving DecidableEq, Repr

abbrev NUL : Char := '\x00'

/-- The character `*c`. -/
def char_at (line : List Char) (c : ℕ) : Option Char := (line ++ [NUL])[c]?

/-- The loop `while (*c != stop)`; `n` is a bound for the rounds.  Returns `c` and
    `token_size`. -/
def scan (line : List Char) (stop : Char) : ℕ → ℕ → ℕ → Except Failure (ℕ × ℕ)
  | 0, _, _ => .error .read_past_end
  | n + 1, c, token_size =>
      match char_at line c with
      | none => .error .read_past_end
      | some x =>
          if x = stop then .ok (c, token_size) else scan line stop n (c + 1) (token_size + 1)

def substr (line : List Char) (pos n : ℕ) : Except Failure (List Char) :=
  if pos ≤ line.length then .ok ((line.drop pos).take n) else .error .substr_out_of_range

structure Scanner where
  token_start_position : ℕ
  c                    : ℕ

/-- One token: the loop up to `stop`, `stol`, and the step to the next token. -/
def next_number (line : List Char) (stop : Char) (s : Scanner) :
    Except Failure (ℤ × Scanner) := do
  -- After `line.length + 2` rounds the loop has read behind the end.
  let (c, token_size) ← scan line stop (line.length + 2) s.c 0
  let token ← substr line s.token_start_position token_size
  let value ← (stol token).mapError Failure.stol
  .ok (value, ⟨s.token_start_position + token_size + 1, c + 1⟩)

/-- Conversion of a `long` to `uint64_t`. -/
def to_uint64 (x : ℤ) : ℕ := (x % 2 ^ 64).toNat

/-- The body of the parsing loop. -/
def parse_line (line : List Char) : Except Failure LogLine := do
  let (commit_id, s) ← next_number line ' ' ⟨0, 0⟩
  let (i, s) ← next_number line ' ' s
  let (j, s) ← next_number line ' ' s
  let (k, s) ← next_number line ' ' s
  let (value_of_i, s) ← next_number line ' ' s
  let (value_of_j, s) ← next_number line ' ' s
  let (value_of_k, _) ← next_number line NUL s
  .ok ⟨to_uint64 commit_id, to_uint64 i, to_uint64 j, to_uint64 k, .ofInt 64 value_of_i,
    .ofInt 64 value_of_j, .ofInt 64 value_of_k⟩

def parse_lines : List (List Char) → Except Failure (List LogLine)
  | [] => .ok []
  | line :: lines => do
      let log_buffer ← parse_line line
      let logs ← parse_lines lines
      .ok (log_buffer :: logs)

/-! ## Section 3: The records -/

/-- `std::sort` by `commit_id`: some ordered permutation of its argument. -/
structure StdSort where
  run    : List LogLine → List LogLine
  perm   : ∀ l, (run l).Perm l
  sorted : ∀ l, (run l).Pairwise (fun lhs rhs => ¬ rhs.commit_id < lhs.commit_id)

/-- The loop that computes `max_record_number`, and `max_record_number++`. -/
def max_record_number (logs : List LogLine) : ℕ :=
  (logs.foldl (fun m log => max (max (max m log.i) log.j) log.k) 0 + 1) % 2 ^ 64

/-- The number of elements in the memory that `malloc` returns. -/
def allocated (max_record_number : ℕ) : ℕ := max_record_number * 8 % 2 ^ 64 / 8

def load (size : ℕ) (records : ℕ → BitVec 64) (i : ℕ) : Except Failure (BitVec 64) :=
  if i < size then .ok (records i) else .error .outside_records

def store (size : ℕ) (records : ℕ → BitVec 64) (i : ℕ) (value : BitVec 64) :
    Except Failure (ℕ → BitVec 64) :=
  if i < size then .ok (Function.update records i value) else .error .outside_records

/-- The first `n` rounds of the loop `records[i] = 100`. -/
def fill (size : ℕ) (records : ℕ → BitVec 64) : ℕ → Except Failure (ℕ → BitVec 64)
  | 0 => .ok records
  | n + 1 => do
      let records ← fill size records n
      store size records n 100

/-- The transaction of a line, executed again: the records and `log_again`. -/
def execute (size : ℕ) (records : ℕ → BitVec 64) (log : LogLine) :
    Except Failure ((ℕ → BitVec 64) × LogLine) := do
  let value_of_i ← load size records log.i
  -- `records[j] += value_of_i + 1`
  let old_j ← load size records log.j
  let records ← store size records log.j (old_j + (value_of_i + 1))
  let value_of_j ← load size records log.j
  -- `records[k] -= value_of_i`
  let old_k ← load size records log.k
  let records ← store size records log.k (old_k - value_of_i)
  let value_of_k ← load size records log.k
  .ok (records, ⟨log.commit_id, log.i, log.j, log.k, value_of_i, value_of_j, value_of_k⟩)

/-! ## Section 4: The program -/

/-- What is written to `std::cout`. -/
inductive Message where
  | starts
  | last_file (file_no : ℕ)
  | number_of_transactions (n : ℕ)
  | max_record_number (n : ℕ)
  | different_value (desired real : LogLine)
  | congratulations
  deriving DecidableEq, Repr

/-- The loop over the files; `n` is a bound for the rounds.  Returns `file_no` and
    `file_data_per_line`. -/
def read_files (files : ℕ → Option (List Char)) :
    ℕ → ℕ → List (List Char) → Except Failure (ℕ × List (List Char))
  | 0, _, _ => .error .more_files
  | n + 1, file_no, file_data_per_line =>
      match files (file_no + 1) with
      | none => .ok (file_no, file_data_per_line)
      | some text => read_files files n (file_no + 1) (file_data_per_line ++ getlines [] text)

/-- The loop that compares: `wrong_found` and the differences. -/
def compare_logs (size : ℕ) : (ℕ → BitVec 64) → List LogLine → Except Failure (Bool × List Message)
  | _, [] => .ok (false, [])
  | records, log :: logs => do
      let (records, log_again) ← execute size records log
      let (wrong_found, output) ← compare_logs size records logs
      -- `memcmp`: a `log_t` is seven words of 64 bits, without padding.
      if log_again = log then .ok (wrong_found, output)
      else .ok (true, .different_value log_again log :: output)

/-- `main`; `n` is a bound for the number of files, and `memory` is what `malloc`
    returns. -/
def marking (files : ℕ → Option (List Char)) (n : ℕ) (sort : StdSort) (memory : ℕ → BitVec 64) :
    Except Failure (List Message) := do
  let (file_no, file_data_per_line) ← read_files files n 0 []
  let parsed ← parse_lines file_data_per_line
  let logs := sort.run parsed
  let number := max_record_number logs
  let records ← fill (allocated number) memory number
  let (wrong_found, differences) ← compare_logs (allocated number) records logs
  .ok ([.starts, .last_file file_no, .number_of_transactions file_data_per_line.length,
    .max_record_number number] ++ differences ++ if wrong_found then [] else [.congratulations])

end Project2.Marking
