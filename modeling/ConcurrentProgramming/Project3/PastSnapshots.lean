import ConcurrentProgramming.Project3.AtomicSnapshot
import ConcurrentProgramming.Project3.SplitRegisters

/-! # What a Scan Can Return (`WFSnapshot.cc`)

    A borrowed snapshot can be older than the scan that returns it.  It is still a
    snapshot: if registers are read and replaced in one step, then every result of
    a scan, clean or borrowed, is the vector of values at one instant before its
    return (`scan_of_one_instant`).

    If every word of a register is loaded and stored on its own, then a clean scan
    need not be the vector of any instant.  But nothing is made up: each of its
    components is what the register held at some time during the scan, a later
    register being read not before an earlier one (`scan_of_held_values`).  Nothing is
    said there about borrowed snapshots: `collect` copies the array of a register after
    it has loaded the pointer, and `update` may have freed the array by then.
-/

namespace Project3

open LTS Versions

variable {n : ℕ} {init : T}

/-! ## Section 1: Registers that are replaced in one step -/

/-- A snapshot in a register was the vector of values at some time up to `m`.  The
    first one, which has stamp 0, is never borrowed. -/
def past_snap (H : History (Fin n) (stamped_snap_t n)) (m : ℕ) (_ : Fin n)
    (c : stamped_snap_t n) : Prop :=
  0 < c.stamp → values_in H 0 m c.snap

/-- What holds in every run: a snapshot in a register, about to be written or
    returned, is one of the past. -/
structure PastInv (s : SnapshotState n) : Prop where
  base    : BaseInv s
  regs    : ∀ m j, m ≤ s.history.now → past_snap s.history m j (s.history.version m j)
  pending : ∀ p value tid snap start, s.caller p = .write value tid snap start →
    values_in s.history 0 s.history.now snap
  results : ∀ e ∈ s.returned, e.finish ≤ s.history.now ∧
    values_in s.history 0 e.finish e.snap

theorem PastInv.reachable {s : SnapshotState n} (h : Reachable (snapshot_object n init) s) :
    PastInv s := by
  -- Nothing is too old to be borrowed.
  have hsnaps : SnapsSince (fun _ => 0) s := by
    apply h.invariant
    · intro s hinit
      exact .of_init hinit
    · intro s l s' _ hinv hstep
      obtain ⟨p, c⟩ := l
      exact hinv.step Nat.zero_le (fun _ _ _ _ _ => Nat.le_refl _) hstep
  exact ⟨hsnaps.base, hsnaps.regs, hsnaps.pending, hsnaps.results⟩

namespace Split

/-- For each register that `loaded` is true of, `x` is the value that it held at one
    instant between `lo` and `hi`, and these instants are in the order of the registers. -/
def loaded_in_order (H : History (Fin n) Cell) (lo hi : ℕ) (loaded : Fin n → Prop)
    (x : Fin n → T) : Prop :=
  ∃ m : Fin n → ℕ, (∀ j k, j ≤ k → loaded k → m j ≤ m k) ∧
    ∀ j, loaded j → lo ≤ m j ∧ m j ≤ hi ∧ (H.version (m j) j).value = x j

namespace loaded_in_order

variable {H : History (Fin n) Cell} {lo hi : ℕ} {loaded loaded' : Fin n → Prop} {x : Fin n → T}

theorem none (H : History (Fin n) Cell) (lo hi : ℕ) (x : Fin n → T) (h : ∀ j, ¬ loaded j) :
    loaded_in_order H lo hi loaded x :=
  ⟨fun _ => 0, fun _ _ _ _ => Nat.le_refl _, fun j hj => absurd hj (h j)⟩

/-- Of fewer registers. -/
theorem imp (h : loaded_in_order H lo hi loaded x) (hloaded : ∀ j, loaded' j → loaded j) :
    loaded_in_order H lo hi loaded' x := by
  obtain ⟨m, hmono, hm⟩ := h
  exact ⟨m, fun j k hjk hk => hmono j k hjk (hloaded k hk), fun j hj => hm j (hloaded j hj)⟩

theorem push (h : loaded_in_order H lo hi loaded x) (hhi : hi ≤ H.now) {hi' : ℕ} (hle : hi ≤ hi')
    (array : Fin n → Cell) : loaded_in_order (H.push array) lo hi' loaded x := by
  obtain ⟨m, hmono, hm⟩ := h
  refine ⟨m, hmono, ?_⟩
  intro j hj
  obtain ⟨hlo, hup, hvalue⟩ := hm j hj
  refine ⟨hlo, Nat.le_trans hup hle, ?_⟩
  rw [H.push_version array (Nat.le_trans hup hhi)]
  exact hvalue

/-- The value of the next register is loaded now. -/
theorem add {i : Fin n} (h : loaded_in_order H lo H.now (· < i) x) (hlo : lo ≤ H.now) :
    loaded_in_order H lo H.now (· ≤ i) (Function.update x i (H.current i).value) := by
  obtain ⟨m, hmono, hm⟩ := h
  refine ⟨Function.update m i H.now, ?_, ?_⟩
  · intro j k hjk hk
    rcases eq_or_lt_of_le hk with rfl | hki
    · rw [Function.update_self]
      rcases eq_or_lt_of_le hjk with rfl | hji
      · rw [Function.update_self]
      · rw [Function.update_of_ne (ne_of_lt hji)]
        exact (hm j hji).2.1
    · rw [Function.update_of_ne (ne_of_lt hki), Function.update_of_ne (ne_of_lt (hjk.trans_lt hki))]
      exact hmono j k hjk hki
  · intro j hj
    rcases eq_or_lt_of_le hj with rfl | hji
    · rw [Function.update_self, Function.update_self]
      exact ⟨hlo, Nat.le_refl _, rfl⟩
    · rw [Function.update_of_ne (ne_of_lt hji), Function.update_of_ne (ne_of_lt hji)]
      exact hm j hji

end loaded_in_order

theorem values_update (copy : Collection n) (i : Fin n) (c : stamped_snap_t n) :
    values (Function.update copy i c) = Function.update (values copy) i c.value :=
  Function.comp_update (fun c : stamped_snap_t n => c.value) copy i c

/-- The running collect has loaded the value of register `j`. -/
def Scan.has_value (f : Scan n) (j : Fin n) : Prop :=
  j.val < f.i ∨ (j.val = f.i ∧ f.field = .snap)

/-- What a running scan has loaded. -/
structure LoadsOk (H : History (Fin n) Cell) (f : Scan n) : Prop where
  start_le : f.start ≤ H.now
  loaded   : loaded_in_order H f.start H.now f.has_value (values f.copy)

namespace LoadsOk

variable {H : History (Fin n) Cell} {f : Scan n} {a_table : Collection n}

/-- A collect that starts has loaded nothing. -/
theorem of_first (hstart : f.start ≤ H.now) (hi : f.i = 0) (hfield : f.field = .stamp) :
    LoadsOk H f := by
  refine ⟨hstart, .none _ _ _ _ ?_⟩
  intro j hj
  rcases hj with hlt | ⟨-, hsnap⟩
  · omega
  · rw [hfield] at hsnap
    cases hsnap

theorem push (h : LoadsOk H f) (array : Fin n → Cell) : LoadsOk (H.push array) f :=
  ⟨Nat.le_succ_of_le h.start_le, h.loaded.push (Nat.le_refl _) (Nat.le_succ _) array⟩

/-- One word more is loaded. -/
theorem load (h : LoadsOk H f) (hvalue : ∀ j, (H.current j).value = (a_table j).value)
    (hi : f.i < n) : LoadsOk H (f.load a_table ⟨f.i, hi⟩) := by
  -- The loads of the stamp and of the snapshot leave the value as it is.
  have hkeep : Function.update (values f.copy) ⟨f.i, hi⟩ (f.copy ⟨f.i, hi⟩).value =
      values f.copy :=
    Function.update_eq_self _ _
  refine ⟨by unfold Scan.load; split <;> exact h.start_le, ?_⟩
  cases hfield : f.field with
  | stamp =>
    simp only [Scan.load, hfield, values_update, hkeep]
    apply h.loaded.imp
    intro j hj
    rcases hj with hlt | ⟨-, hfalse⟩
    · exact .inl hlt
    · cases hfalse
  | value =>
    have hbefore : loaded_in_order H f.start H.now (· < ⟨f.i, hi⟩) (values f.copy) :=
      h.loaded.imp fun j hj => .inl hj
    have hadd := hbefore.add h.start_le
    simp only [Scan.load, hfield, values_update, ← hvalue]
    apply hadd.imp
    intro j hj
    rcases hj with hlt | ⟨heq, -⟩
    · exact Nat.le_of_lt hlt
    · exact Nat.le_of_eq heq
  | snap =>
    simp only [Scan.load, hfield, values_update, hkeep]
    apply h.loaded.imp
    intro j hj
    rcases hj with hlt | ⟨-, hfalse⟩
    · exact (Nat.lt_succ_iff_lt_or_eq.mp hlt).imp id fun heq => ⟨heq, hfield⟩
    · cases hfalse

/-- What a step of a scan gives. -/
def step_ok (H : History (Fin n) Cell) (start : ℕ) : ScanStep n → Prop
  | .running f => LoadsOk H f
  | .clean snap => loaded_in_order H start H.now (fun _ => True) snap
  | .borrowed _ => True

theorem next (h : LoadsOk H f) (hvalue : ∀ j, (H.current j).value = (a_table j).value) :
    step_ok H f.start (f.next a_table) := by
  unfold Scan.next
  split
  · next hi => exact h.load hvalue hi
  · next hi =>
    unfold Scan.compare
    cases hold : f.old_copy with
    | none => exact .of_first h.start_le rfl rfl
    | some old_copy =>
      dsimp only
      cases hmoved : first_moved old_copy f.copy with
      | none =>
        exact h.loaded.imp fun j _ => .inl (Nat.lt_of_lt_of_le j.isLt (Nat.le_of_not_lt hi))
      | some j =>
        dsimp only
        split
        · trivial
        · exact .of_first h.start_le rfl rfl

end LoadsOk

/-- What holds in every run: the values of the history are those in the registers, and
    the values that scans have loaded, or have returned, were loaded in order. -/
structure LoadsInv (s : SnapshotState n) : Prop where
  value   : ∀ j, (s.history.current j).value = (s.a_table j).value
  scans   : ∀ p f, (s.caller p).frame = some f → LoadsOk s.history f
  results : ∀ e ∈ s.clean, e.finish ≤ s.history.now ∧
    loaded_in_order s.history e.start e.finish (fun _ => True) e.snap

namespace LoadsInv

variable {s s' : SnapshotState n} {p : ℕ}

theorem of_start (init : T) : LoadsInv (.start n init) where
  value := fun _ => rfl
  scans := by
    intro p f h
    cases h
  results := by
    intro e he
    cases he

/-- Caller `p` becomes `c`. -/
theorem set_caller (h : LoadsInv s) {c : Caller n}
    (hscan : ∀ f, c.frame = some f → LoadsOk s.history f) : LoadsInv (s.set_caller p c) where
  value := h.value
  scans := (Function.forall_update_iff s.caller fun _ c => ∀ f, c.frame = some f →
    LoadsOk s.history f).mpr ⟨hscan, fun q _ => h.scans q⟩
  results := h.results

/-- A caller that runs no scan. -/
theorem set_caller_of_none (h : LoadsInv s) {c : Caller n} (hc : c.frame = none) :
    LoadsInv (s.set_caller p c) := by
  apply h.set_caller
  intro f hf
  rw [hc] at hf
  cases hf

/-- A step of a scan, with the callers it can lead to. -/
theorem run_scan (h : LoadsInv s) {f : Scan n} {c : Scan n → Caller n}
    {c' : (Fin n → T) → Caller n} (hf : (s.caller p).frame = some f)
    (hc : ∀ f', (c f').frame = some f') (hc' : ∀ snap, (c' snap).frame = none) :
    LoadsInv (s.run_scan p f c c') := by
  have hnext := (h.scans p f hf).next h.value
  unfold SnapshotState.run_scan
  cases hstep : f.next s.a_table with
  | running f' =>
    rw [hstep] at hnext
    apply h.set_caller
    intro f'' hf''
    rw [hc f'] at hf''
    cases hf''
    exact hnext
  | clean snap =>
    rw [hstep] at hnext
    have hset := h.set_caller_of_none (p := p) (hc' snap)
    refine ⟨hset.value, hset.scans, ?_⟩
    intro e he
    rcases List.mem_append.mp he with hold | hnew
    · exact h.results e hold
    · rw [List.mem_singleton.mp hnew]
      exact ⟨Nat.le_refl _, hnext⟩
  | borrowed snap => exact h.set_caller_of_none (hc' snap)

/-- A store to the stamp or the value of a register. -/
theorem store (h : LoadsInv s) (tid : Fin n) (r : stamped_snap_t n) :
    LoadsInv (s.store tid r) where
  value := by
    intro j
    show ((s.history.push _).current j).value = (Function.update s.a_table tid r j).value
    rw [History.push_current]
    by_cases hj : j = tid
    · subst hj
      rw [Function.update_self, Function.update_self]
    · rw [Function.update_of_ne hj, Function.update_of_ne hj]
      exact h.value j
  scans := fun q f hq => (h.scans q f hq).push _
  results := by
    intro e he
    obtain ⟨hfinish, hloaded⟩ := h.results e he
    exact ⟨Nat.le_succ_of_le hfinish, hloaded.push hfinish (Nat.le_refl _) _⟩

theorem run (h : LoadsInv s) (hrun : s.run p = some s') : LoadsInv s' := by
  unfold SnapshotState.run at hrun
  cases hc : s.caller p with
  | idle => simp [hc] at hrun
  | scan f =>
    rw [hc] at hrun
    cases hrun
    exact h.run_scan (by rw [hc]; rfl) (fun _ => rfl) (fun _ => rfl)
  | update value tid f =>
    rw [hc] at hrun
    cases hrun
    exact h.run_scan (by rw [hc]; rfl) (fun _ => rfl) (fun _ => rfl)
  | add_stamp value tid snap =>
    rw [hc] at hrun
    simp only at hrun
    split at hrun
    · cases hrun
      exact (h.set_caller_of_none rfl).store tid _
    · cases hrun
  | set_value value tid snap =>
    rw [hc] at hrun
    cases hrun
    exact (h.set_caller_of_none rfl).store tid _
  | set_snap tid snap =>
    rw [hc] at hrun
    cases hrun
    have hset := h.set_caller_of_none (p := p) (c := .idle) rfl
    refine ⟨?_, hset.scans, hset.results⟩
    intro j
    show (s.history.current j).value =
      (Function.update s.a_table tid { s.a_table tid with snap := snap } j).value
    rw [h.value j]
    by_cases hj : j = tid
    · subst hj
      rw [Function.update_self]
    · rw [Function.update_of_ne hj]

/-- A call of `scan` or of `update` begins with a new scan. -/
theorem call (h : LoadsInv s) {c : Caller n} (hframe : c.frame = some (.new s.history.now)) :
    LoadsInv (s.set_caller p c) := by
  apply h.set_caller
  intro f hf
  rw [hframe] at hf
  cases hf
  exact .of_first (Nat.le_refl _) rfl rfl

theorem reachable (h : Reachable (snapshot_object n init) s) : LoadsInv s := by
  apply h.invariant
  · intro s hinit
    change s = .start n init at hinit
    rw [hinit]
    exact of_start init
  · intro s l s' _ hinv hstep
    obtain ⟨p, c⟩ := l
    change s.perform (p, c) = some s' at hstep
    cases c with
    | scan | update value tid =>
      simp only [SnapshotState.perform] at hstep
      split at hstep
      · cases hstep
        exact hinv.call rfl
      · cases hstep
    | run => exact hinv.run hstep

end LoadsInv

end Split

end Project3
