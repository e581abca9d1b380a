import ConcurrentProgramming.Framework.Transition
import ConcurrentProgramming.Framework.VersionHistory
import Mathlib.Algebra.Group.Nat.Defs
import Mathlib.Data.List.FinRange

/-! # The Wait-Free Snapshot (`WFSnapshot.cc`)

    `n` registers hold a stamp, a value and a snapshot of all values.  `scan`
    collects the registers until two successive collects agree on all stamps, or
    until it has seen some thread move twice; then it borrows that thread's
    snapshot.  `update` scans and then replaces the thread's own register.

    One step of a caller reads one register in `collect`, or replaces the
    caller's own register in `update`, or compares two collects.  The state
    keeps, for the statements only, all versions of `a_table` and the results of
    all scans with the times at which they started and returned.
-/

namespace Project3

open LTS Versions

/-! ## Section 1: Data -/

/-- `typedef int64_t T`. -/
abbrev T := BitVec 64

/-- `stamped_snap_t`.  The field `began` is no field of the source: it is the
    time at which the update that wrote the register had started. -/
structure stamped_snap_t (n : ℕ) where
  stamp : ℕ
  value : T
  snap  : Fin n → T
  began : ℕ

/-- `stamped_snap_t(value)`: the snapshot is zeroed. -/
def stamped_snap_t.new {n : ℕ} (value : T) : stamped_snap_t n := ⟨0, value, fun _ => 0, 0⟩

/-- The type of `a_table` and of the copies that `collect` makes. -/
abbrev Collection (n : ℕ) := Fin n → stamped_snap_t n

/-- The values of all registers. -/
def values {n : ℕ} (table : Collection n) : Fin n → T := fun j => (table j).value

/-! ## Section 2: `scan` -/

/-- The first `j` with `old_copy[j]->stamp != new_copy[j]->stamp`. -/
def first_moved {n : ℕ} (old_copy new_copy : Collection n) : Option (Fin n) :=
  (List.finRange n).find? (fun j => (old_copy j).stamp ≠ (new_copy j).stamp)

/-- How a round of the loop in `scan` ends. -/
inductive RoundEnd (n : ℕ) where
  | returned (snap : Fin n → T)
  /-- `goto collect`, with the new `moved`. -/
  | again (moved : Fin n → Bool)

/-- The comparison of two collects. -/
def compare_copies {n : ℕ} (old_copy new_copy : Collection n) (moved : Fin n → Bool) :
    RoundEnd n :=
  match first_moved old_copy new_copy with
  | some j =>
      if moved j then .returned (old_copy j).snap
      else .again (Function.update moved j true)
  | none => .returned (values new_copy)

/-- Where a scan is; `i` is the register that `collect` reads next. -/
inductive ScanPoint where
  | old_collect (i : ℕ)
  | new_collect (i : ℕ)

/-- A running `scan`; `start` is the time at which it started. -/
structure Scan (n : ℕ) where
  point    : ScanPoint
  old_copy : Collection n
  new_copy : Collection n
  moved    : Fin n → Bool
  start    : ℕ

/-- A scan that starts now; the copies are not yet filled. -/
def Scan.new {n : ℕ} (now : ℕ) : Scan n :=
  ⟨.old_collect 0, fun _ => .new 0, fun _ => .new 0, fun _ => false, now⟩

inductive ScanStep (n : ℕ) where
  | running (f : Scan n)
  | returned (snap : Fin n → T)

/-- One step of `scan`. -/
def Scan.next {n : ℕ} (f : Scan n) (a_table : Collection n) : ScanStep n :=
  match f.point with
  | .old_collect i =>
      if h : i < n then
        .running { f with
          point := .old_collect (i + 1)
          old_copy := Function.update f.old_copy ⟨i, h⟩ (a_table ⟨i, h⟩) }
      else .running { f with point := .new_collect 0 }
  | .new_collect i =>
      if h : i < n then
        .running { f with
          point := .new_collect (i + 1)
          new_copy := Function.update f.new_copy ⟨i, h⟩ (a_table ⟨i, h⟩) }
      else
        match compare_copies f.old_copy f.new_copy f.moved with
        | .returned snap => .returned snap
        | .again moved =>
            .running { f with
              point := .new_collect 0
              old_copy := f.new_copy
              moved := moved }

/-! ## Section 3: The snapshot object -/

/-- What a caller does. -/
inductive Caller (n : ℕ) where
  | idle
  | scan (f : Scan n)
  /-- In the scan of `update(value, tid)`. -/
  | update (value : T) (tid : Fin n) (f : Scan n)
  /-- The scan of `update(value, tid)`, started at `start`, has returned `snap`. -/
  | write (value : T) (tid : Fin n) (snap : Fin n → T) (start : ℕ)

namespace Caller

variable {n : ℕ}

/-- The scan that the caller runs. -/
def frame : Caller n → Option (Scan n)
  | .scan f => some f
  | .update _ _ f => some f
  | _ => none

/-- The register that the caller is updating. -/
def register : Caller n → Option (Fin n)
  | .update _ tid _ => some tid
  | .write _ tid _ _ => some tid
  | _ => none

end Caller

/-- The result of a scan. -/
structure ScanResult (n : ℕ) where
  start  : ℕ
  finish : ℕ
  snap   : Fin n → T

/-- The object and its callers. -/
structure SnapshotState (n : ℕ) where
  a_table  : Collection n
  caller   : ℕ → Caller n
  history  : History (Fin n) (stamped_snap_t n)
  returned : List (ScanResult n)

namespace SnapshotState

variable {n : ℕ}

def set_caller (s : SnapshotState n) (p : ℕ) (c : Project3.Caller n) : SnapshotState n :=
  { s with caller := Function.update s.caller p c }

/-- A scan that started at `start` returns now. -/
def record (s : SnapshotState n) (start : ℕ) (snap : Fin n → T) : SnapshotState n :=
  { s with returned := s.returned ++ [⟨start, s.history.now, snap⟩] }

/-- The three assignments of `update` to the own register. -/
def write (s : SnapshotState n) (tid : Fin n) (value : T) (snap : Fin n → T) (began : ℕ) :
    SnapshotState n :=
  let table := Function.update s.a_table tid ⟨(s.a_table tid).stamp + 1, value, snap, began⟩
  { s with
    a_table := table
    history := s.history.push table }

/-- One step of a caller; an overflow of the `int64_t` stamp is undefined. -/
def run (s : SnapshotState n) (p : ℕ) : Option (SnapshotState n) :=
  match s.caller p with
  | .idle => none
  | .scan f =>
      match f.next s.a_table with
      | .running f' => some (s.set_caller p (.scan f'))
      | .returned snap => some ((s.set_caller p .idle).record f.start snap)
  | .update value tid f =>
      match f.next s.a_table with
      | .running f' => some (s.set_caller p (.update value tid f'))
      | .returned snap =>
          some ((s.set_caller p (.write value tid snap f.start)).record f.start snap)
  | .write value tid snap start =>
      if (s.a_table tid).stamp + 1 < 2 ^ 63 then
        some ((s.set_caller p .idle).write tid value snap start)
      else none

end SnapshotState

/-- What a caller can do. -/
inductive Call (n : ℕ) where
  | scan
  | update (value : T) (tid : Fin n)
  | run
  deriving DecidableEq

/-- `WFSnapshot_t(n, init)` and any number of callers.  A register is updated by
    one caller at a time. -/
def snapshot_object (n : ℕ) (init : T) : System (SnapshotState n) (ℕ × Call n) where
  init := fun s =>
    s.a_table = (fun _ => .new init) ∧ (∀ p, s.caller p = .idle) ∧
    s.history = History.start s.a_table ∧ s.returned = []
  step := fun s (p, c) s' =>
    match c with
    | .scan => s.caller p = .idle ∧ s' = s.set_caller p (.scan (.new s.history.now))
    | .update value tid =>
        s.caller p = .idle ∧ (∀ q, (s.caller q).register ≠ some tid) ∧
          s' = s.set_caller p (.update value tid (.new s.history.now))
    | .run => s.run p = some s'

/-- The result of a scan is the vector of values at one instant between its
    start and its return. -/
def ScanResult.atomic {n : ℕ} (e : ScanResult n) (H : History (Fin n) (stamped_snap_t n)) :
    Prop :=
  ∃ m, e.start ≤ m ∧ m ≤ e.finish ∧ e.snap = values (H.version m)

end Project3
