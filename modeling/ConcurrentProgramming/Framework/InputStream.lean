import ConcurrentProgramming.Framework.CInt
import ConcurrentProgramming.Framework.Decimal

/-! # Reading from a C++ Stream

    What `std::istream` does for formatted input (`>>` into an `int`, a `char` and a
    `std::string`), for `get` and for `std::getline`, with the flags `eofbit` and
    `failbit`.  When an operation cannot even begin, because a flag is set or because
    there is nothing but white space left, it leaves its variable as it was.

    A text in which words are followed by a line feed is read back as it was written
    (`read_int_line`, `read_string_line`, `read_char_of_text`, `getline_line`).
-/

namespace InputStream

open CInt Decimal

/-- The rest of the input, and the flags. -/
structure Stream where
  rest : List Char
  eof  : Bool
  fail : Bool
  deriving DecidableEq, Repr

/-- A stream on a text, before anything was read. -/
def Stream.of (text : List Char) : Stream := ⟨text, false, false⟩

namespace Stream

def good (s : Stream) : Bool := !s.eof && !s.fail

/-- The beginning of `>>`: white space is skipped. -/
def sentry (s : Stream) : Stream :=
  if s.good then
    match s.rest.dropWhile is_space with
    | [] => ⟨[], true, true⟩
    | c :: rest => ⟨c :: rest, false, false⟩
  else { s with fail := true }

/-- `>>` into a `char`: the character, unless it fails. -/
def read_char (s : Stream) : Stream × Option Char :=
  match s.sentry with
  | ⟨c :: rest, eof, false⟩ => (⟨rest, eof, false⟩, some c)
  | s => (s, none)

/-- `>>` into a `std::string` with the value `old`. -/
def read_string (s : Stream) (old : List Char) : Stream × List Char :=
  let s := s.sentry
  if s.fail then (s, old)
  else
    let rest := s.rest.dropWhile (fun c => !is_space c)
    (⟨rest, rest.isEmpty, false⟩, s.rest.takeWhile (fun c => !is_space c))

/-- `>>` into an `int` with the value `old`: without digits it becomes zero, and a
    number that does not fit becomes the nearest one that does. -/
def read_int (s : Stream) (old : ℤ) : Stream × ℤ :=
  let s := s.sentry
  if s.fail then (s, old)
  else
    let unsigned := read_sign s.rest
    let digits := unsigned.2.takeWhile Char.isDigit
    let rest := unsigned.2.dropWhile Char.isDigit
    let value := signed unsigned.1 (Nat.ofDigitChars 10 digits 0)
    if digits.isEmpty then (⟨rest, rest.isEmpty, true⟩, 0)
    else if value < INT_MIN then (⟨rest, rest.isEmpty, true⟩, INT_MIN)
    else if INT_MAX < value then (⟨rest, rest.isEmpty, true⟩, INT_MAX)
    else (⟨rest, rest.isEmpty, false⟩, value)

/-- `get`, when the character is not used. -/
def get (s : Stream) : Stream :=
  if s.good then
    match s.rest with
    | [] => ⟨[], true, true⟩
    | _ :: rest => ⟨rest, false, false⟩
  else { s with fail := true }

/-- `std::getline` into a string with the value `old`. -/
def getline (s : Stream) (old : List Char) : Stream × List Char :=
  if s.good then
    let line := s.rest.takeWhile (· ≠ '\n')
    match s.rest.dropWhile (· ≠ '\n') with
    | [] => (⟨[], true, line.isEmpty⟩, line)
    | _ :: rest => (⟨rest, false, false⟩, line)
  else ({ s with fail := true }, old)

end Stream

/-! ## What is written is read back -/

/-- A text of white space. -/
def blank (text : List Char) : Prop := ∀ c ∈ text, is_space c = true

theorem dropWhile_blank {text : List Char} (h : blank text) (rest : List Char) :
    (text ++ rest).dropWhile is_space = rest.dropWhile is_space := by
  rw [List.dropWhile_append_of_pos h]

/-- Nothing is left but white space. -/
theorem sentry_blank {text : List Char} (h : blank text) :
    (Stream.of text).sentry = ⟨[], true, true⟩ := by
  have hnil : text.dropWhile is_space = [] := List.dropWhile_eq_nil_iff.mpr h
  simp [Stream.sentry, Stream.of, Stream.good, hnil]

theorem sentry_skips {text : List Char} (h : blank text) {c : Char} (hc : is_space c = false)
    (rest : List Char) : (Stream.of (text ++ c :: rest)).sentry = Stream.of (c :: rest) := by
  have hdrop : (text ++ c :: rest).dropWhile is_space = c :: rest := by
    rw [dropWhile_blank h, List.dropWhile_cons_of_neg (by simp [hc])]
  simp [Stream.sentry, Stream.of, Stream.good, hdrop]

/-- At the end of the input `>>` fails. -/
theorem read_char_end {text : List Char} (h : blank text) :
    (Stream.of text).read_char = (⟨[], true, true⟩, none) := by
  rw [Stream.read_char, sentry_blank h]

theorem read_char_of_text {text : List Char} (h : blank text) {c : Char} (hc : is_space c = false)
    (rest : List Char) :
    (Stream.of (text ++ c :: rest)).read_char = (Stream.of rest, some c) := by
  rw [Stream.read_char, sentry_skips h hc]
  rfl

theorem get_of_text (c : Char) (rest : List Char) :
    (Stream.of (c :: rest)).get = Stream.of rest := rfl

/-- A line is read up to its line feed. -/
theorem getline_line {line : List Char} (h : '\n' ∉ line) (rest old : List Char) :
    (Stream.of (line ++ '\n' :: rest)).getline old = (Stream.of rest, line) := by
  have hall : ∀ c ∈ line, decide (c ≠ '\n') = true := by
    intro c hc
    rw [decide_eq_true_eq]
    exact fun heq => h (heq ▸ hc)
  have htake : (line ++ '\n' :: rest).takeWhile (fun c => decide (c ≠ '\n')) = line := by
    rw [List.takeWhile_append_of_pos hall, List.takeWhile_cons_of_neg (by simp), List.append_nil]
  have hdrop : (line ++ '\n' :: rest).dropWhile (fun c => decide (c ≠ '\n')) = '\n' :: rest := by
    rw [List.dropWhile_append_of_pos hall, List.dropWhile_cons_of_neg (by simp)]
  rw [Stream.getline]
  show (match (line ++ '\n' :: rest).dropWhile (· ≠ '\n') with
    | [] => _
    | _ :: rest => _) = _
  rw [hdrop]
  show (Stream.of rest, (line ++ '\n' :: rest).takeWhile (· ≠ '\n')) = _
  rw [htake]

/-- A word without white space is read up to the line feed after it. -/
theorem read_string_line {text word : List Char} (h : blank text) (hne : word ≠ [])
    (hword : ∀ c ∈ word, is_space c = false) (rest old : List Char) :
    (Stream.of (text ++ word ++ '\n' :: rest)).read_string old =
      (Stream.of ('\n' :: rest), word) := by
  obtain ⟨c, word, rfl⟩ := List.exists_cons_of_ne_nil hne
  have hall : ∀ d ∈ c :: word, (!is_space d) = true := fun d hd => by simp [hword d hd]
  have hstart : (Stream.of (text ++ (c :: word) ++ '\n' :: rest)).sentry =
      Stream.of ((c :: word) ++ '\n' :: rest) := by
    rw [List.append_assoc, List.cons_append]
    exact sentry_skips h (hword c List.mem_cons_self) _
  have htake : ((c :: word) ++ '\n' :: rest).takeWhile (fun d => !is_space d) = c :: word := by
    rw [List.takeWhile_append_of_pos hall, List.takeWhile_cons_of_neg (by decide),
      List.append_nil]
  have hdrop : ((c :: word) ++ '\n' :: rest).dropWhile (fun d => !is_space d) = '\n' :: rest := by
    rw [List.dropWhile_append_of_pos hall, List.dropWhile_cons_of_neg (by decide)]
  rw [Stream.read_string, hstart]
  show (Stream.mk (((c :: word) ++ '\n' :: rest).dropWhile (fun d => !is_space d))
    (((c :: word) ++ '\n' :: rest).dropWhile (fun d => !is_space d)).isEmpty false,
    ((c :: word) ++ '\n' :: rest).takeWhile (fun d => !is_space d)) = _
  rw [htake, hdrop]
  rfl

/-- A number is read up to the line feed after it. -/
theorem read_int_line {n : ℕ} (hn : n < 2 ^ 31) (rest : List Char) (old : ℤ) :
    (Stream.of (print_nat n ++ '\n' :: rest)).read_int old =
      (Stream.of ('\n' :: rest), (n : ℤ)) := by
  have hdigit : ∀ c ∈ print_nat n, Char.isDigit c = true :=
    fun c hc => Char.isDigit_iff_toNat.mpr (digit_of_mem hc)
  obtain ⟨c, digits, hdigits⟩ := List.exists_cons_of_ne_nil (print_nat_ne_nil n)
  have hc := digit_of_mem (hdigits ▸ List.mem_cons_self : c ∈ print_nat n)
  have hspace : is_space c = false := by
    simp only [is_space, decide_eq_false_iff_not]
    omega
  have hstart : (Stream.of (print_nat n ++ '\n' :: rest)).sentry =
      Stream.of (print_nat n ++ '\n' :: rest) := by
    rw [hdigits]
    exact sentry_skips (by simp [blank] : blank []) hspace _
  -- The first character is no sign.
  have hsign : read_sign (print_nat n ++ '\n' :: rest) = (false, print_nat n ++ '\n' :: rest) := by
    rw [hdigits, List.cons_append]
    unfold read_sign
    split
    · next heq =>
      cases heq
      exact absurd hc.1 (by decide)
    · next heq =>
      cases heq
      exact absurd hc.1 (by decide)
    · rfl
  have htake : (print_nat n ++ '\n' :: rest).takeWhile Char.isDigit = print_nat n := by
    rw [List.takeWhile_append_of_pos hdigit, List.takeWhile_cons_of_neg (by decide),
      List.append_nil]
  have hdrop : (print_nat n ++ '\n' :: rest).dropWhile Char.isDigit = '\n' :: rest := by
    rw [List.dropWhile_append_of_pos hdigit, List.dropWhile_cons_of_neg (by decide)]
  have hvalue : signed false (Nat.ofDigitChars 10 (print_nat n) 0) = n := by
    rw [print_nat, Nat.ofDigitChars_toDigits (by decide) (by decide)]
    rfl
  have hmin : ¬ (n : ℤ) < INT_MIN := by
    unfold INT_MIN
    omega
  have hmax : ¬ INT_MAX < (n : ℤ) := by
    unfold INT_MAX
    omega
  have hsome : (print_nat n).isEmpty = false := by rw [hdigits]; rfl
  rw [Stream.read_int, hstart]
  simp only [Stream.of, hsign, htake, hdrop, hvalue, hsome, hmin, hmax]
  rfl

end InputStream
