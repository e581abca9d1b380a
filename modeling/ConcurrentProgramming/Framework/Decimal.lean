import Mathlib.Algebra.Group.Int.Defs
import Mathlib.Algebra.Group.Nat.Defs
import Mathlib.Data.List.TakeWhile

/-! # Decimal Numbers in a Text

    How a C++ stream prints integers, and how `std::stol` reads them, with `long` of 64
    bits.  A text is a list of characters.

    * `print_nat`, `print_int`: the digits, with a minus sign if there is need for one.
    * `stol`: white space, an optional sign, and the longest run of digits; what
      follows is ignored.
    * `stol_print_int`: what is printed is read back.
-/

namespace Decimal

/-! ## Section 1: Printing and reading -/

def print_nat (n : ℕ) : List Char := Nat.toDigits 10 n

def print_int (x : ℤ) : List Char :=
  if x < 0 then '-' :: print_nat x.natAbs else print_nat x.natAbs

/-- The exceptions of `std::stol`. -/
inductive Error where
  | invalid_argument
  | out_of_range
  deriving DecidableEq, Repr

def is_space (c : Char) : Bool := c.toNat = 32 ∨ 9 ≤ c.toNat ∧ c.toNat ≤ 13

/-- Is there a minus sign, and what comes after the sign? -/
def read_sign : List Char → Bool × List Char
  | '-' :: text => (true, text)
  | '+' :: text => (false, text)
  | text => (false, text)

def signed (negative : Bool) (n : ℕ) : ℤ := if negative then -n else n

/-- `std::stol`. -/
def stol (text : List Char) : Except Error ℤ :=
  let unsigned := read_sign (text.dropWhile is_space)
  let digits := unsigned.2.takeWhile Char.isDigit
  if digits = [] then .error .invalid_argument
  else
    let value := signed unsigned.1 (Nat.ofDigitChars 10 digits 0)
    if -2 ^ 63 ≤ value ∧ value < 2 ^ 63 then .ok value else .error .out_of_range

/-! ## Section 2: What is printed is read back -/

theorem print_nat_eq (n : ℕ) : print_nat n = print_int n := by
  rw [print_int, if_neg (Int.not_lt.mpr (Int.natCast_nonneg n)), Int.natAbs_natCast]

theorem print_nat_ne_nil (n : ℕ) : print_nat n ≠ [] := Nat.toDigits_ne_nil

theorem digit_of_mem {n : ℕ} {c : Char} (h : c ∈ print_nat n) : 48 ≤ c.toNat ∧ c.toNat ≤ 57 :=
  Char.isDigit_iff_toNat.mp (Nat.isDigit_of_mem_toDigits (by decide) (by decide) h)

/-- A digit, or a minus sign. -/
theorem of_mem_print_int {x : ℤ} {c : Char} (h : c ∈ print_int x) :
    c = '-' ∨ 48 ≤ c.toNat ∧ c.toNat ≤ 57 := by
  unfold print_int at h
  split at h
  · rcases List.mem_cons.mp h with rfl | h
    · exact .inl rfl
    · exact .inr (digit_of_mem h)
  · exact .inr (digit_of_mem h)

theorem not_mem_print_int {c : Char} (hsign : c ≠ '-') (hlow : c.toNat < 48) (x : ℤ) :
    c ∉ print_int x := by
  intro hmem
  rcases of_mem_print_int hmem with heq | hdigit
  · exact hsign heq
  · omega

theorem not_mem_print_nat {c : Char} (hlow : c.toNat < 48) (n : ℕ) : c ∉ print_nat n := by
  intro hmem
  have hdigit := digit_of_mem hmem
  omega

/-- The first digit is neither white space nor a sign. -/
theorem read_sign_print_nat (n : ℕ) :
    read_sign ((print_nat n).dropWhile is_space) = (false, print_nat n) := by
  cases hdigits : print_nat n with
  | nil => exact absurd hdigits (print_nat_ne_nil n)
  | cons c digits =>
    have hc := digit_of_mem (hdigits ▸ List.mem_cons_self : c ∈ print_nat n)
    have hspace : is_space c = false := by
      simp only [is_space, decide_eq_false_iff_not]
      omega
    rw [List.dropWhile_cons_of_neg (by simp [hspace])]
    unfold read_sign
    split
    · next heq =>
      cases heq
      exact absurd hc.1 (by decide)
    · next heq =>
      cases heq
      exact absurd hc.1 (by decide)
    · rfl

theorem read_sign_print_int (x : ℤ) :
    read_sign ((print_int x).dropWhile is_space) = (decide (x < 0), print_nat x.natAbs) := by
  unfold print_int
  split
  · next hneg =>
    rw [List.dropWhile_cons_of_neg (by decide), read_sign, decide_eq_true hneg]
  · next hnonneg =>
    rw [read_sign_print_nat, decide_eq_false hnonneg]

/-- **Round trip.**  A value of type `long` that is printed is read back. -/
theorem stol_print_int {x : ℤ} (hmin : -2 ^ 63 ≤ x) (hmax : x < 2 ^ 63) :
    stol (print_int x) = .ok x := by
  have hdigits : (print_nat x.natAbs).takeWhile Char.isDigit = print_nat x.natAbs :=
    List.takeWhile_eq_self_iff.mpr fun c hc => Char.isDigit_iff_toNat.mpr (digit_of_mem hc)
  have hvalue : signed (decide (x < 0)) (Nat.ofDigitChars 10 (print_nat x.natAbs) 0) = x := by
    rw [print_nat, Nat.ofDigitChars_toDigits (by decide) (by decide), signed]
    split
    · next hneg =>
      have := of_decide_eq_true hneg
      omega
    · next hnonneg =>
      have := of_decide_eq_false (Bool.eq_false_iff.mpr hnonneg)
      omega
  simp only [stol, read_sign_print_int, hdigits, hvalue]
  rw [if_neg (print_nat_ne_nil _), if_pos ⟨hmin, hmax⟩]

end Decimal
