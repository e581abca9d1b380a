import ConcurrentProgramming.Framework.CInt
import ConcurrentProgramming.Framework.Linearizability
import Mathlib.Data.Finset.Insert
import Mathlib.Data.Finset.Erase
import Mathlib.Algebra.Group.Int.Defs

/-! # The Operations of the Lists

    `list_add`, `list_remove` and `list_contains` are the operations of all three
    lists of `lab11`.  As a sequential object they work on a set of keys.
-/

namespace Lab11

open CInt Linearizability

inductive Operation where
  | add (key : ℤ)
  | remove (key : ℤ)
  | contains (key : ℤ)
  deriving DecidableEq, Repr

namespace Operation

def key : Operation → ℤ
  | .add k => k
  | .remove k => k
  | .contains k => k

/-- The key is an `int` below that of the tail. -/
def in_range (op : Operation) : Prop := INT_MIN ≤ op.key ∧ op.key < INT_MAX

instance (op : Operation) : Decidable op.in_range :=
  inferInstanceAs (Decidable (INT_MIN ≤ op.key ∧ op.key < INT_MAX))

end Operation

/-- What an operation returns, given whether its key is in the set. -/
def Operation.result : Operation → Bool → Bool
  | .add _, present => !present
  | .remove _, present => present
  | .contains _, present => present

/-- The set after an operation. -/
def Operation.update : Operation → Finset ℤ → Finset ℤ
  | .add k, S => insert k S
  | .remove k, S => S.erase k
  | .contains _, S => S

/-- A set of keys. -/
def key_set : Object (Finset ℤ) Operation Bool where
  init := ∅
  step := fun S op r S' => r = op.result (decide (op.key ∈ S)) ∧ S' = op.update S

end Lab11
