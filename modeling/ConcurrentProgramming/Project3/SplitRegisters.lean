import ConcurrentProgramming.Project3.AtomicSnapshot
import Mathlib.Algebra.GroupWithZero.Nat

/-! # Registers of Three Words (`WFSnapshot.cc`)

    `WFSnapshot.lean` reads and replaces a register in one step.  The code does
    not: `update` increments the stamp, then stores the value, then the pointer
    to the snapshot, and `collect` loads them one after the other.  Here every
    load and every store is a step of its own.

    Equal stamps need not mean equal values then.  An update may have incremented
    the stamp and not yet stored the value when the first collect loads the
    stamp, or it may come between the loads of a stamp and a value.  Without
    these two overlaps (`matched`) a clean double collect is a snapshot
    (`clean_scan_atomic`), with them it need not be one (`torn_scan`).

    As in `main.cc`, register `tid` is updated by the thread with this number.
    The state keeps, for the statements only, all versions of the values and the
    results of the scans that found all stamps unchanged.
-/

namespace Project3.Split

open LTS Versions

/-! ## Section 1: `scan` -/

/-- What `collect` loads next of a register. -/
inductive RegisterField where
  | stamp
  | value
  | snap
  deriving DecidableEq, Repr

/-- A running `scan`: `copy` is filled by the running `collect`, whose next load
    is the given field of register `i`; `old_copy` is there after the first
    `collect`.  The scan started at `start`. -/
structure Scan (n : ℕ) where
  old_copy : Option (Collection n)
  copy     : Collection n
  i        : ℕ
  field    : RegisterField
  moved    : Fin n → Bool
  start    : ℕ

inductive ScanStep (n : ℕ) where
  | running (f : Scan n)
  /-- All stamps agree. -/
  | clean (snap : Fin n → T)
  | borrowed (snap : Fin n → T)

namespace Scan

variable {n : ℕ}

def new (now : ℕ) : Scan n := ⟨none, fun _ => .new 0, 0, .stamp, fun _ => false, now⟩

/-- One load of `collect`. -/
def load (f : Scan n) (a_table : Collection n) (i : Fin n) : Scan n :=
  match f.field with
  | .stamp => { f with
      copy := Function.update f.copy i { f.copy i with stamp := (a_table i).stamp }
      field := .value }
  | .value => { f with
      copy := Function.update f.copy i { f.copy i with value := (a_table i).value }
      field := .snap }
  | .snap => { f with
      copy := Function.update f.copy i { f.copy i with snap := (a_table i).snap }
      field := .stamp
      i := f.i + 1 }

/-- The end of `collect`: the first one becomes `old_copy`, a later one is
    compared with `old_copy`. -/
def compare (f : Scan n) : ScanStep n :=
  match f.old_copy with
  | none => .running { f with
      old_copy := some f.copy
      i := 0
      field := .stamp }
  | some old_copy =>
      match first_moved old_copy f.copy with
      | none => .clean (values f.copy)
      | some j =>
          if f.moved j then .borrowed (old_copy j).snap
          else .running { f with
            old_copy := some f.copy
            i := 0
            field := .stamp
            moved := Function.update f.moved j true }

/-- One step of `scan`. -/
def next (f : Scan n) (a_table : Collection n) : ScanStep n :=
  if h : f.i < n then .running (f.load a_table ⟨f.i, h⟩) else f.compare

end Scan

/-! ## Section 2: `update` -/

/-- What a caller does. -/
inductive Caller (n : ℕ) where
  | idle
  | scan (f : Scan n)
  /-- In the scan of `update(value, tid)`. -/
  | update (value : T) (tid : Fin n) (f : Scan n)
  /-- At `a_table[tid]->stamp++`. -/
  | add_stamp (value : T) (tid : Fin n) (snap : Fin n → T)
  /-- At `a_table[tid]->value = value`. -/
  | set_value (value : T) (tid : Fin n) (snap : Fin n → T)
  /-- At `a_table[tid]->snap = snap`. -/
  | set_snap (tid : Fin n) (snap : Fin n → T)

namespace Caller

variable {n : ℕ}

/-- The scan that the caller runs. -/
def frame : Caller n → Option (Scan n)
  | .scan f => some f
  | .update _ _ f => some f
  | _ => none

/-- The register that the caller is updating. -/
def register : Caller n → Option (Fin n)
  | .update _ tid _ => some tid
  | .add_stamp _ tid _ => some tid
  | .set_value _ tid _ => some tid
  | .set_snap tid _ => some tid
  | _ => none

/-- The caller has incremented a stamp and not yet stored the value. -/
def between_stores : Caller n → Bool
  | .set_value _ _ _ => true
  | _ => false

def is_idle : Caller n → Bool
  | .idle => true
  | _ => false

end Caller

/-- The history of a register: the number of stores to its stamp and its value,
    and the value. -/
structure Cell where
  stores : ℕ
  value  : T

/-- The object and its callers. -/
structure SnapshotState (n : ℕ) where
  a_table : Collection n
  caller  : ℕ → Caller n
  history : History (Fin n) Cell
  clean   : List (ScanResult n)

namespace SnapshotState

variable {n : ℕ}

def start (n : ℕ) (init : T) : SnapshotState n :=
  ⟨fun _ => .new init, fun _ => .idle, History.start (fun _ => ⟨0, init⟩), []⟩

def set_caller (s : SnapshotState n) (p : ℕ) (c : Split.Caller n) : SnapshotState n :=
  { s with caller := Function.update s.caller p c }

/-- A store to the stamp or the value of register `tid`. -/
def store (s : SnapshotState n) (tid : Fin n) (c : stamped_snap_t n) : SnapshotState n :=
  { s with
    a_table := Function.update s.a_table tid c
    history := s.history.push
      (Function.update s.history.current tid ⟨(s.history.current tid).stores + 1, c.value⟩) }

/-- The scan of caller `p` takes a step; `c` is the caller while the scan goes
    on, and `c'` the caller after it has returned. -/
def run_scan (s : SnapshotState n) (p : ℕ) (f : Scan n) (c : Scan n → Split.Caller n)
    (c' : (Fin n → T) → Split.Caller n) : SnapshotState n :=
  match f.next s.a_table with
  | .running f' => s.set_caller p (c f')
  | .clean snap =>
      { s.set_caller p (c' snap) with clean := s.clean ++ [⟨f.start, s.history.now, snap⟩] }
  | .borrowed snap => s.set_caller p (c' snap)

/-- One step of a caller; an overflow of the `int64_t` stamp is undefined. -/
def run (s : SnapshotState n) (p : ℕ) : Option (SnapshotState n) :=
  match s.caller p with
  | .idle => none
  | .scan f => some (s.run_scan p f .scan fun _ => .idle)
  | .update value tid f => some (s.run_scan p f (.update value tid) (.add_stamp value tid))
  | .add_stamp value tid snap =>
      if (s.a_table tid).stamp + 1 < 2 ^ 63 then
        some ((s.set_caller p (.set_value value tid snap)).store tid
          { s.a_table tid with stamp := (s.a_table tid).stamp + 1 })
      else none
  | .set_value value tid snap =>
      some ((s.set_caller p (.set_snap tid snap)).store tid { s.a_table tid with value := value })
  | .set_snap tid snap =>
      some { s.set_caller p .idle with
        a_table := Function.update s.a_table tid { s.a_table tid with snap := snap } }

/-- A caller starts a call, or goes on with it. -/
def perform (s : SnapshotState n) : ℕ × Call n → Option (SnapshotState n)
  | (p, .scan) =>
      if (s.caller p).is_idle then some (s.set_caller p (.scan (.new s.history.now))) else none
  | (p, .update value tid) =>
      if (s.caller p).is_idle ∧ tid.val = p then
        some (s.set_caller p (.update value tid (.new s.history.now)))
      else none
  | (p, .run) => s.run p

end SnapshotState

/-- `WFSnapshot_t(n, init)`, the threads `0, .., n - 1` that update their
    registers, and any number of callers of `scan`. -/
def snapshot_object (n : ℕ) (init : T) : System (SnapshotState n) (ℕ × Call n) where
  init := fun s => s = .start n init
  step := fun s l s' => s.perform l = some s'

/-- The result is the vector of values at one instant between the start of the
    scan and its return. -/
def held_at_once {n : ℕ} (e : ScanResult n) (H : History (Fin n) Cell) : Prop :=
  ∃ m, e.start ≤ m ∧ m ≤ e.finish ∧ e.snap = fun j => (H.version m j).value

/-- The update of register `j` is between the store of the stamp and the store of
    the value. -/
def SnapshotState.half {n : ℕ} (s : SnapshotState n) (j : Fin n) : Bool :=
  (s.caller j.val).between_stores

/-- What `collect` loads belongs together: it loads a stamp only when no update
    is between its stores of stamp and value, and it loads a value only when the
    stamp is still the one that it has loaded. -/
def matched {n : ℕ} (s : SnapshotState n) (l : ℕ × Call n) : Bool :=
  match l.2, (s.caller l.1).frame with
  | .run, some f =>
      if h : f.i < n then
        match f.field with
        | .stamp => !s.half ⟨f.i, h⟩
        | .value => decide ((s.a_table ⟨f.i, h⟩).stamp = (f.copy ⟨f.i, h⟩).stamp)
        | .snap => true
      else true
  | _, _ => true

/-! ## Section 3: What a scan has read -/

section reads
variable {n : ℕ} {H : History (Fin n) Cell}

/-- The stamp was read between `lo` and `hi`, outside of the stores of an update. -/
def settled_read (H : History (Fin n) Cell) (lo hi : ℕ) (j : Fin n) (c : stamped_snap_t n) : Prop :=
  ∃ x, H.ReadIn lo hi j x ∧ x.stores = 2 * c.stamp

/-- The value was read between `lo` and `hi`, before the next update had started. -/
def value_read (H : History (Fin n) Cell) (lo hi : ℕ) (j : Fin n) (c : stamped_snap_t n) : Prop :=
  ∃ x, H.ReadIn lo hi j x ∧ x.value = c.value ∧ x.stores ≤ 2 * c.stamp

/-- What the copies of a running scan hold: `old_copy` was read before some time
    `mid`, and what `copy` holds so far after it. -/
structure ScanOk (H : History (Fin n) Cell) (f : Scan n) (mid : ℕ) : Prop where
  start_le : f.start ≤ mid
  mid_le   : mid ≤ H.now
  old      : ∀ old_copy, f.old_copy = some old_copy →
    ∀ j, settled_read H f.start mid j (old_copy j)
  stamps   : ∀ j : Fin n, j.val < f.i ∨ (j.val = f.i ∧ f.field ≠ .stamp) →
    settled_read H mid H.now j (f.copy j)
  values   : ∀ j : Fin n, j.val < f.i ∨ (j.val = f.i ∧ f.field = .snap) →
    value_read H mid H.now j (f.copy j)

/-- The two words of a register, in a state and in its history. -/
structure CellOk (a_table : Collection n) (H : History (Fin n) Cell) (half : Fin n → Bool) :
    Prop where
  value  : ∀ j, (H.current j).value = (a_table j).value
  stores : ∀ j, (H.current j).stores + (if half j then 1 else 0) = 2 * (a_table j).stamp

/-- The load `f` makes next is as `matched` asks. -/
def load_matched (a_table : Collection n) (half : Fin n → Bool) (f : Scan n) (i : Fin n) : Prop :=
  match f.field with
  | .stamp => half i = false
  | .value => (a_table i).stamp = (f.copy i).stamp
  | .snap => True

/-- Loading into the copy of register `i`: what is known of the registers before
    it stays, and `hself` is what is known of register `i` now. -/
theorem read_update {P : Fin n → stamped_snap_t n → Prop} {copy : Collection n} {i : Fin n}
    {c : stamped_snap_t n} {loaded : Prop} (hself : loaded → P i c)
    (hother : ∀ j : Fin n, j.val < i.val → P j (copy j)) (j : Fin n)
    (hj : j.val < i.val ∨ (j.val = i.val ∧ loaded)) : P j (Function.update copy i c j) := by
  rcases hj with hlt | ⟨heq, hloaded⟩
  · rw [Function.update_of_ne (fun hji => Nat.ne_of_lt hlt (congrArg Fin.val hji))]
    exact hother j hlt
  · obtain rfl := Fin.ext heq
    rw [Function.update_self]
    exact hself hloaded

namespace ScanOk

variable {f : Scan n} {mid : ℕ} {a_table : Collection n} {half : Fin n → Bool}

theorem new (H : History (Fin n) Cell) : ScanOk H (.new H.now) H.now where
  start_le := Nat.le_refl _
  mid_le := Nat.le_refl _
  old := by
    intro old_copy hold
    cases hold
  stamps := by
    intro j hj
    simp [Scan.new] at hj
  values := by
    intro j hj
    simp [Scan.new] at hj

/-- A store by somebody keeps what is known about the copies. -/
theorem push (h : ScanOk H f mid) (array : Fin n → Cell) : ScanOk (H.push array) f mid where
  start_le := h.start_le
  mid_le := Nat.le_succ_of_le h.mid_le
  old := by
    intro old_copy hold j
    obtain ⟨x, hx, hstores⟩ := h.old old_copy hold j
    exact ⟨x, hx.push h.mid_le array, hstores⟩
  stamps := by
    intro j hj
    obtain ⟨x, hx, hstores⟩ := h.stamps j hj
    exact ⟨x, (hx.push (Nat.le_refl _) array).mono (Nat.le_refl _) (Nat.le_succ _), hstores⟩
  values := by
    intro j hj
    obtain ⟨x, hx, hvalue⟩ := h.values j hj
    exact ⟨x, (hx.push (Nat.le_refl _) array).mono (Nat.le_refl _) (Nat.le_succ _), hvalue⟩

/-- A load adds one word to what has been read. -/
theorem load (h : ScanOk H f mid) (hcell : CellOk a_table H half) (hi : f.i < n)
    (hload : load_matched a_table half f ⟨f.i, hi⟩) :
    ScanOk H (f.load a_table ⟨f.i, hi⟩) mid := by
  have hread := H.readIn_current h.mid_le ⟨f.i, hi⟩
  have hvalue := hcell.value ⟨f.i, hi⟩
  have hstores := hcell.stores ⟨f.i, hi⟩
  have hstamps : ∀ j : Fin n, j.val < f.i → settled_read H mid H.now j (f.copy j) :=
    fun j hj => h.stamps j (.inl hj)
  have hvalues : ∀ j : Fin n, j.val < f.i → value_read H mid H.now j (f.copy j) :=
    fun j hj => h.values j (.inl hj)
  unfold load_matched at hload
  unfold Scan.load
  cases hfield : f.field with
  | stamp =>
    -- The update of this register has made both stores or none.
    simp only [hfield] at hload
    rw [hload, if_neg Bool.false_ne_true, Nat.add_zero] at hstores
    exact ⟨h.start_le, h.mid_le, h.old,
      read_update (i := ⟨f.i, hi⟩) (fun _ => ⟨_, hread, hstores⟩) hstamps,
      read_update (i := ⟨f.i, hi⟩) (fun hsnap => by cases hsnap) hvalues⟩
  | value =>
    simp only [hfield] at hload
    have hle : (H.current ⟨f.i, hi⟩).stores ≤ 2 * (f.copy ⟨f.i, hi⟩).stamp := by
      rw [← hload, ← hstores]
      exact Nat.le_add_right _ _
    have hstamp := h.stamps ⟨f.i, hi⟩ (.inr ⟨rfl, by simp [hfield]⟩)
    exact ⟨h.start_le, h.mid_le, h.old,
      read_update (i := ⟨f.i, hi⟩) (fun _ => hstamp) hstamps,
      read_update (i := ⟨f.i, hi⟩) (fun _ => ⟨_, hread, hvalue, hle⟩) hvalues⟩
  | snap =>
    have hstamp := h.stamps ⟨f.i, hi⟩ (.inr ⟨rfl, by simp [hfield]⟩)
    have hval := h.values ⟨f.i, hi⟩ (.inr ⟨rfl, hfield⟩)
    have hle : ∀ {j : Fin n} {other : Prop}, j.val < f.i + 1 ∨ (j.val = f.i + 1 ∧ other) →
        ¬ other → j.val < f.i ∨ (j.val = f.i ∧ True) := by
      intro j other hj hother
      rcases hj with hlt | ⟨-, hyes⟩
      · exact (Nat.lt_succ_iff_lt_or_eq.mp hlt).imp id fun heq => ⟨heq, trivial⟩
      · exact absurd hyes hother
    refine ⟨h.start_le, h.mid_le, h.old, ?_, ?_⟩
    · intro j hj
      exact read_update (i := ⟨f.i, hi⟩)
        (c := { f.copy ⟨f.i, hi⟩ with snap := (a_table ⟨f.i, hi⟩).snap })
        (fun _ => hstamp) hstamps j (hle hj (fun hne => hne rfl))
    · intro j hj
      exact read_update (i := ⟨f.i, hi⟩)
        (c := { f.copy ⟨f.i, hi⟩ with snap := (a_table ⟨f.i, hi⟩).snap })
        (fun _ => hval) hvalues j (hle hj (fun heq => by cases heq))

/-- The next collect starts now. -/
theorem next_collect (h : ScanOk H f mid) (hi : ¬ f.i < n) (moved : Fin n → Bool) :
    ScanOk H { f with old_copy := some f.copy, i := 0, field := .stamp, moved := moved } H.now where
  start_le := Nat.le_trans h.start_le h.mid_le
  mid_le := Nat.le_refl _
  old := by
    intro old_copy hold j
    cases hold
    obtain ⟨x, hx, hstores⟩ := h.stamps j (.inl (Nat.lt_of_lt_of_le j.isLt (Nat.le_of_not_lt hi)))
    exact ⟨x, hx.mono h.start_le (Nat.le_refl _), hstores⟩
  stamps := by
    intro j hj
    simp at hj
  values := by
    intro j hj
    simp at hj

/-- **A clean double collect** has read the values that were there between its
    two collects. -/
theorem clean (h : ScanOk H f mid) (hstamped : Stamped (·.stores) H) (hi : ¬ f.i < n)
    {old_copy : Collection n} (hold : f.old_copy = some old_copy)
    (hsame : first_moved old_copy f.copy = none) (j : Fin n) :
    (f.copy j).value = (H.version mid j).value := by
  obtain ⟨x, hx, hxstores⟩ := h.old old_copy hold j
  obtain ⟨y, hy, hyvalue, hystores⟩ :=
    h.values j (.inl (Nat.lt_of_lt_of_le j.isLt (Nat.le_of_not_lt hi)))
  have hstamp := first_moved_none hsame j
  -- No store to the register lies between the two reads.
  have hmono := hstamped.read_mono (Nat.le_refl _) hx hy
  have heq : x.stores = y.stores := by omega
  rw [hstamped.double_collect (Nat.le_refl _) hx hy heq, hyvalue]

/-- What a step of a scan gives. -/
def step_ok (H : History (Fin n) Cell) (start : ℕ) : ScanStep n → Prop
  | .running f => f.start = start ∧ ∃ mid, ScanOk H f mid
  | .clean snap => held_at_once ⟨start, H.now, snap⟩ H
  | .borrowed _ => True

theorem next (h : ScanOk H f mid) (hstamped : Stamped (·.stores) H)
    (hcell : CellOk a_table H half)
    (hload : ∀ hi : f.i < n, load_matched a_table half f ⟨f.i, hi⟩) :
    step_ok H f.start (f.next a_table) := by
  unfold Scan.next
  split
  · next hi =>
    refine ⟨?_, mid, h.load hcell hi (hload hi)⟩
    unfold Scan.load
    split <;> rfl
  · next hi =>
    unfold Scan.compare
    cases hold : f.old_copy with
    | none => exact ⟨rfl, _, h.next_collect hi f.moved⟩
    | some old_copy =>
      dsimp only
      cases hmoved : first_moved old_copy f.copy with
      | none =>
        refine ⟨mid, h.start_le, h.mid_le, ?_⟩
        funext j
        exact h.clean hstamped hi hold hmoved j
      | some j =>
        dsimp only
        split
        · trivial
        · exact ⟨rfl, _, h.next_collect hi _⟩

end ScanOk

end reads

/-! ## Section 4: The invariant -/

structure SplitInv {n : ℕ} (s : SnapshotState n) : Prop where
  stamped : Stamped (·.stores) s.history
  cell    : CellOk s.a_table s.history s.half
  own     : ∀ p tid, (s.caller p).register = some tid → tid.val = p
  scans   : ∀ p f, (s.caller p).frame = some f → ∃ mid, ScanOk s.history f mid
  results : ∀ e ∈ s.clean, e.finish ≤ s.history.now ∧ held_at_once e s.history

section step
variable {n : ℕ} {init : T} {s s' : SnapshotState n} {p : ℕ}

/-- Results stay what they are when registers are written. -/
theorem held_at_once.push {e : ScanResult n} {H : History (Fin n) Cell}
    (h : held_at_once e H) (hfinish : e.finish ≤ H.now) (array : Fin n → Cell) :
    held_at_once e (H.push array) := by
  obtain ⟨m, hlo, hhi, hsnap⟩ := h
  refine ⟨m, hlo, hhi, ?_⟩
  rw [hsnap, History.push_version H array (Nat.le_trans hhi hfinish)]

theorem half_set_caller {c : Caller n} {j : Fin n} :
    (s.set_caller p c).half j = if j.val = p then c.between_stores else s.half j := by
  unfold SnapshotState.half SnapshotState.set_caller
  by_cases hj : j.val = p
  · simp [hj]
  · simp [hj]

namespace SplitInv

theorem of_start : SplitInv (.start n init) where
  stamped := Stamped.start _ _
  cell := ⟨fun _ => rfl, fun _ => rfl⟩
  own := by
    intro p tid h
    cases h
  scans := by
    intro p f h
    cases h
  results := by
    intro e he
    cases he

/-- Caller `p` becomes `c`, which is as much between the stores as before. -/
theorem set_caller (h : SplitInv s) {c : Caller n}
    (hbetween : c.between_stores = (s.caller p).between_stores)
    (hown : ∀ tid, c.register = some tid → tid.val = p)
    (hscan : ∀ f, c.frame = some f → ∃ mid, ScanOk s.history f mid) :
    SplitInv (s.set_caller p c) where
  stamped := h.stamped
  cell := by
    refine ⟨h.cell.value, ?_⟩
    intro j
    have hsame : (s.set_caller p c).half j = s.half j := by
      rw [half_set_caller]
      split
      · next hj => rw [hbetween, ← hj]; rfl
      · rfl
    rw [hsame]
    exact h.cell.stores j
  own := (Function.forall_update_iff s.caller fun q c => ∀ tid, c.register = some tid →
    tid.val = q).mpr ⟨hown, fun q _ => h.own q⟩
  scans := (Function.forall_update_iff s.caller fun _ c => ∀ f, c.frame = some f →
    ∃ mid, ScanOk s.history f mid).mpr ⟨hscan, fun q _ => h.scans q⟩
  results := h.results

/-- A scan returns through the branch where all stamps agree. -/
theorem record (h : SplitInv s) {e : ScanResult n} (hfinish : e.finish ≤ s.history.now)
    (he : held_at_once e s.history) : SplitInv { s with clean := s.clean ++ [e] } where
  stamped := h.stamped
  cell := h.cell
  own := h.own
  scans := h.scans
  results := by
    intro e' he'
    rcases List.mem_append.mp he' with hold | hnew
    · exact h.results e' hold
    · rw [List.mem_singleton.mp hnew]
      exact ⟨hfinish, he⟩

/-- A step of a scan, with the callers it can lead to. -/
theorem run_scan (h : SplitInv s) {f : Scan n} {c : Scan n → Caller n}
    {c' : (Fin n → T) → Caller n} (hf : (s.caller p).frame = some f)
    (hmatched : matched s (p, .run) = true)
    (hbetween : (s.caller p).between_stores = false)
    (hc : ∀ f', (c f').frame = some f' ∧ (c f').between_stores = false ∧
      (c f').register = (s.caller p).register)
    (hc' : ∀ snap, (c' snap).frame = none ∧ (c' snap).between_stores = false ∧
      ∀ tid, (c' snap).register = some tid → (s.caller p).register = some tid) :
    SplitInv (s.run_scan p f c c') := by
  obtain ⟨mid, hok⟩ := h.scans p f hf
  have hload : ∀ hi : f.i < n, load_matched s.a_table s.half f ⟨f.i, hi⟩ := by
    intro hi
    simp only [matched, hf, hi, dite_true] at hmatched
    unfold load_matched
    cases hfield : f.field with
    | stamp => simpa [hfield] using hmatched
    | value => simpa [hfield] using hmatched
    | snap => trivial
  have hnext := hok.next h.stamped h.cell hload
  -- A scan that has returned leaves no frame behind.
  have hreturn : ∀ snap, SplitInv (s.set_caller p (c' snap)) := by
    intro snap
    obtain ⟨hframe, hstores, hreg⟩ := hc' snap
    refine h.set_caller (by rw [hstores, hbetween]) (fun tid ht => h.own p tid (hreg tid ht)) ?_
    intro f' hf'
    rw [hframe] at hf'
    cases hf'
  unfold SnapshotState.run_scan
  cases hstep : f.next s.a_table with
  | running f' =>
    rw [hstep] at hnext
    obtain ⟨hframe, hstores, hreg⟩ := hc f'
    refine h.set_caller (by rw [hstores, hbetween]) (fun tid ht => h.own p tid (hreg ▸ ht)) ?_
    intro f'' hf''
    rw [hframe] at hf''
    cases hf''
    exact hnext.2
  | clean snap =>
    rw [hstep] at hnext
    exact (hreturn snap).record (Nat.le_refl _) hnext
  | borrowed snap => exact hreturn snap

/-- A store to the stamp or the value of the own register. -/
theorem store (h : SplitInv s) {c : Caller n} {tid : Fin n} {r : stamped_snap_t n}
    (hp : tid.val = p) (hreg : c.register = some tid) (hframe : c.frame = none)
    (hstores : (s.history.current tid).stores + 1 + (if c.between_stores then 1 else 0) =
      2 * r.stamp) :
    SplitInv ((s.set_caller p c).store tid r) where
  stamped := by
    apply h.stamped.push
    exact Nat.lt_succ_self _
  cell := by
    constructor
    · intro j
      show ((s.history.push _).current j).value = (Function.update s.a_table tid r j).value
      rw [History.push_current]
      by_cases hj : j = tid
      · subst hj
        simp
      · simpa [hj, SnapshotState.set_caller] using h.cell.value j
    · intro j
      show ((s.history.push _).current j).stores + (if (s.set_caller p c).half j then 1 else 0) =
        2 * (Function.update s.a_table tid r j).stamp
      rw [History.push_current, half_set_caller]
      by_cases hj : j = tid
      · subst hj
        simpa [hp, SnapshotState.set_caller] using hstores
      · have hjp : j.val ≠ p := fun heq => hj (Fin.ext (heq.trans hp.symm))
        simpa [hj, hjp, SnapshotState.set_caller] using h.cell.stores j
  own := by
    intro q tid' hq
    by_cases hqp : q = p
    · subst hqp
      have : c.register = some tid' := by
        simpa [SnapshotState.set_caller, SnapshotState.store] using hq
      rw [hreg] at this
      cases this
      exact hp
    · exact h.own q tid' (by simpa [SnapshotState.set_caller, SnapshotState.store, hqp] using hq)
  scans := by
    intro q f hq
    by_cases hqp : q = p
    · subst hqp
      simp [SnapshotState.set_caller, SnapshotState.store, hframe] at hq
    · obtain ⟨mid, hok⟩ := h.scans q f
        (by simpa [SnapshotState.set_caller, SnapshotState.store, hqp] using hq)
      exact ⟨mid, hok.push _⟩
  results := by
    intro e he
    obtain ⟨hfinish, hat⟩ := h.results e he
    exact ⟨Nat.le_succ_of_le hfinish, hat.push hfinish _⟩

theorem run (h : SplitInv s) (hmatched : matched s (p, .run) = true)
    (hrun : s.run p = some s') : SplitInv s' := by
  unfold SnapshotState.run at hrun
  cases hc : s.caller p with
  | idle => simp [hc] at hrun
  | scan f =>
    rw [hc] at hrun
    cases hrun
    apply h.run_scan (by rw [hc]; rfl) hmatched (by rw [hc]; rfl)
    · intro f'
      exact ⟨rfl, rfl, by rw [hc]; rfl⟩
    · intro snap
      exact ⟨rfl, rfl, fun tid ht => by cases ht⟩
  | update value tid f =>
    rw [hc] at hrun
    cases hrun
    apply h.run_scan (by rw [hc]; rfl) hmatched (by rw [hc]; rfl)
    · intro f'
      exact ⟨rfl, rfl, by rw [hc]; rfl⟩
    · intro snap
      exact ⟨rfl, rfl, fun tid ht => by rw [hc]; exact ht⟩
  | add_stamp value tid snap =>
    rw [hc] at hrun
    have hp := h.own p tid (by rw [hc]; rfl)
    have hhalf : s.half tid = false := by
      unfold SnapshotState.half
      rw [hp, hc]
      rfl
    have hstores := h.cell.stores tid
    rw [hhalf] at hstores
    simp only at hrun
    split at hrun
    · cases hrun
      apply h.store hp rfl rfl
      simp only [Caller.between_stores, if_true] at hstores ⊢
      simp at hstores
      omega
    · cases hrun
  | set_value value tid snap =>
    rw [hc] at hrun
    cases hrun
    have hp := h.own p tid (by rw [hc]; rfl)
    have hhalf : s.half tid = true := by
      unfold SnapshotState.half
      rw [hp, hc]
      rfl
    have hstores := h.cell.stores tid
    rw [hhalf] at hstores
    exact h.store hp rfl rfl hstores
  | set_snap tid snap =>
    rw [hc] at hrun
    cases hrun
    have hset := h.set_caller (p := p) (c := .idle) (by rw [hc]; rfl)
      (fun tid ht => by cases ht) (fun f hf => by cases hf)
    -- Stamps and values stay as they are.
    have hwords : ∀ j, (Function.update s.a_table tid { s.a_table tid with snap := snap } j).value =
          (s.a_table j).value ∧
        (Function.update s.a_table tid { s.a_table tid with snap := snap } j).stamp =
          (s.a_table j).stamp := by
      intro j
      by_cases hj : j = tid
      · subst hj
        simp
      · simp [hj]
    refine ⟨hset.stamped, ⟨?_, ?_⟩, hset.own, hset.scans, hset.results⟩
    · intro j
      exact (hset.cell.value j).trans (hwords j).1.symm
    · intro j
      exact (hset.cell.stores j).trans (congrArg (2 * ·) (hwords j).2.symm)

theorem step (h : SplitInv s) {l : ℕ × Call n} (hmatched : matched s l = true)
    (hstep : (snapshot_object n init).step s l s') : SplitInv s' := by
  obtain ⟨p, c⟩ := l
  change s.perform (p, c) = some s' at hstep
  -- A new scan has read nothing yet.
  have hnew : ∀ {f f' : Scan n}, f = .new s.history.now → some f = some f' →
      ∃ mid, ScanOk s.history f' mid := by
    intro f f' hf hf'
    cases hf'
    subst hf
    exact ⟨_, ScanOk.new s.history⟩
  cases c with
  | scan =>
    simp only [SnapshotState.perform] at hstep
    split at hstep
    · next hidle =>
      cases hstep
      refine h.set_caller ?_ (fun tid ht => by cases ht) (fun f => hnew rfl)
      cases hc : s.caller p <;> simp [hc, Caller.is_idle] at hidle
      rfl
    · cases hstep
  | update value tid =>
    simp only [SnapshotState.perform] at hstep
    split at hstep
    · next hidle =>
      cases hstep
      refine h.set_caller ?_ (fun tid' ht => by cases ht; exact hidle.2) (fun f => hnew rfl)
      cases hc : s.caller p <;> simp [hc, Caller.is_idle] at hidle
      rfl
    · cases hstep
  | run => exact h.run hmatched hstep

theorem reachable
    (h : Reachable ((snapshot_object n init).restrict fun s l => matched s l = true) s) :
    SplitInv s := by
  apply h.invariant
  · intro s hinit
    change s = .start n init at hinit
    rw [hinit]
    exact of_start
  · intro s l s' _ hinv hstep
    exact hinv.step hstep.1 hstep.2

end SplitInv

end step

/-! ## Section 5: Clean and torn scans -/

/-- **A clean double collect is a snapshot** in every run in which what the
    collects load belongs together: the result of every scan that found all
    stamps unchanged is the vector of values at one instant between the start of
    the scan and its return. -/
theorem clean_scan_atomic {n : ℕ} {init : T} {s : SnapshotState n}
    (h : Reachable ((snapshot_object n init).restrict fun s l => matched s l = true) s) :
    ∀ e ∈ s.clean, held_at_once e s.history :=
  fun e he => ((SplitInv.reachable h).results e he).2

/-- A property that is computed at the end of a run. -/
theorem exec_start {n : ℕ} (init : T) (ok : SnapshotState n → ℕ × Call n → Bool)
    (ls : List (ℕ × Call n)) (P : SnapshotState n → Bool)
    (h : (exec (guarded ok SnapshotState.perform) (.start n init) ls).any P = true) :
    ∃ s, Reachable ((snapshot_object n init).restrict fun s l => ok s l = true) s ∧ P s = true :=
  Reachable.exec_guarded (fun _ _ _ hl => hl) rfl ok ls P h

/-- The runs below have two registers. -/
local instance two_registers : NeZero (2 : ℕ) := ⟨by decide⟩

/-- Two registers.  Thread 0 sets its register to 5 while caller 2 is between the
    two registers in its second collect. -/
def clean_calls : List (ℕ × Call 2) :=
  List.flatten [
    [(0, .update 5 0)], List.replicate 14 (0, .run),
    [(2, .scan)], List.replicate 10 (2, .run),
    List.replicate 3 (0, .run), List.replicate 4 (2, .run)]

theorem clean_scan_beside_update :
    ∃ s : SnapshotState 2, (∃ e ∈ s.clean, e.start = 0 ∧ e.finish = 2) ∧
      ∀ e ∈ s.clean, held_at_once e s.history := by
  obtain ⟨s, hreach, hscan⟩ := exec_start 0 matched clean_calls
    (fun s => decide (∃ e ∈ s.clean, e.start = 0 ∧ e.finish = 2)) (by decide +kernel)
  exact ⟨s, of_decide_eq_true hscan, clean_scan_atomic hreach⟩

/-- Two registers.  Threads 0 and 1 have incremented their stamps and have not yet
    stored the values 5 and 7.  Caller 2 scans; in its second collect it loads the
    value of register 0, then both values are stored, and it goes on. -/
def torn_calls : List (ℕ × Call 2) :=
  List.flatten [
    [(0, .update 5 0)], List.replicate 15 (0, .run),
    [(1, .update 7 1)], List.replicate 15 (1, .run),
    [(2, .scan)], List.replicate 9 (2, .run),
    [(0, .run), (1, .run)], List.replicate 5 (2, .run)]

/-- **A torn scan.**  All stamps agree, but the result `(0, 7)` was never there:
    register 0 was set to 5 before register 1 was set to 7. -/
theorem torn_scan :
    ∃ s : SnapshotState 2, Reachable (snapshot_object 2 0) s ∧
      ∃ e ∈ s.clean, ¬ held_at_once e s.history := by
  obtain ⟨s, hreach, hend⟩ := exec_start 0 (fun _ _ => true) torn_calls
    (fun s =>
      decide (∃ e ∈ s.clean, e.start = 2 ∧ e.finish = 4 ∧ e.snap 0 = 0 ∧ e.snap 1 = 7) &&
      decide (∀ m ∈ ([2, 3, 4] : List ℕ),
        ¬ ((s.history.version m 0).value = 0 ∧ (s.history.version m 1).value = 7)))
    (by decide +kernel)
  simp only [Bool.and_eq_true, decide_eq_true_eq] at hend
  obtain ⟨hscan, htorn⟩ := hend
  obtain ⟨e, he, hstart, hfinish, hzero, hseven⟩ := hscan
  refine ⟨s, hreach.of_restrict, e, he, ?_⟩
  intro h
  obtain ⟨m, hlo, hhi, hsnap⟩ := h
  rw [hsnap] at hzero hseven
  have hm : m ∈ [2, 3, 4] := by
    simp only [List.mem_cons, List.not_mem_nil, or_false]
    omega
  exact htorn m hm ⟨hzero, hseven⟩

end Project3.Split
