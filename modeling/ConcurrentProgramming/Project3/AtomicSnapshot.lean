import ConcurrentProgramming.Project3.WFSnapshot

/-! # Is a Scan Atomic?

    A scan that returns after two equal collects has the values between them.
    A scan that has seen thread `j` move twice returns the snapshot in
    `old_copy[j]`.  That snapshot was taken by the update that made the *first*
    move, which may have started before the scan: then the result can be older
    than the scan (`stale_snapshot`).  The update that made the second move, the
    one in `new_copy[j]`, always started after the scan (`new_copy_fresh`).

    So a scan is atomic in every run in which each borrowed snapshot belongs to an
    update that started no earlier than the scan.
-/

namespace Project3

open LTS Versions

variable {n : ℕ} {init : T}

/-! ## Section 1: One step of a scan -/

/-- The thread that the scan has seen to move twice, if it is about to return the
    snapshot of one. -/
def Scan.borrows (f : Scan n) : Option (Fin n) :=
  match f.point with
  | .old_collect _ => none
  | .new_collect i =>
      if n ≤ i then (first_moved f.old_copy f.new_copy).filter f.moved else none

theorem Scan.borrows_eq_some {f : Scan n} {j : Fin n} :
    f.borrows = some j ↔ ∃ i, f.point = .new_collect i ∧ n ≤ i ∧
      first_moved f.old_copy f.new_copy = some j ∧ f.moved j = true := by
  unfold Scan.borrows
  cases hp : f.point with
  | old_collect i => simp
  | new_collect i =>
    by_cases hi : n ≤ i
    · simp [hi, Option.filter_eq_some_iff]
    · simp [hi]

theorem first_moved_some {old_copy new_copy : Collection n} {j : Fin n}
    (h : first_moved old_copy new_copy = some j) : (old_copy j).stamp ≠ (new_copy j).stamp := by
  have := List.find?_some h
  simpa using this

theorem first_moved_none {old_copy new_copy : Collection n}
    (h : first_moved old_copy new_copy = none) (j : Fin n) :
    (old_copy j).stamp = (new_copy j).stamp := by
  have := List.find?_eq_none.mp h j (List.mem_finRange j)
  simpa using this

/-- What the copies of a running scan hold: `old_copy` was read before some time
    `mid`, `new_copy` after it, and a thread that is marked as moved has written
    since the scan started. -/
def Scan.ok (f : Scan n) (H : History (Fin n) (stamped_snap_t n)) : Prop :=
  f.start ≤ H.now ∧
  match f.point with
  | .old_collect i =>
      (∀ j : Fin n, j.val < i → H.ReadIn f.start H.now j (f.old_copy j)) ∧
      ∀ j, f.moved j = false
  | .new_collect i =>
      ∃ mid, f.start ≤ mid ∧ mid ≤ H.now ∧
        (∀ j, H.ReadIn f.start mid j (f.old_copy j)) ∧
        (∀ j : Fin n, j.val < i → H.ReadIn mid H.now j (f.new_copy j)) ∧
        ∀ j, f.moved j = true → (H.version f.start j).stamp < (f.old_copy j).stamp

/-- Reading register `i` adds it to what has been read. -/
theorem read_update {H : History (Fin n) (stamped_snap_t n)} {copy : Collection n} {lo i : ℕ}
    (hlo : lo ≤ H.now) (hi : i < n)
    (hread : ∀ j : Fin n, j.val < i → H.ReadIn lo H.now j (copy j)) (j : Fin n)
    (hj : j.val < i + 1) :
    H.ReadIn lo H.now j (Function.update copy ⟨i, hi⟩ (H.current ⟨i, hi⟩) j) := by
  by_cases hji : j = ⟨i, hi⟩
  · subst hji
    rw [Function.update_self]
    exact H.readIn_current hlo _
  · rw [Function.update_of_ne hji]
    have hne : j.val ≠ i := fun h => hji (Fin.ext h)
    exact hread j (by omega)

namespace Scan.ok

variable {H : History (Fin n) (stamped_snap_t n)} {f f' : Scan n}

theorem new (H : History (Fin n) (stamped_snap_t n)) : (Scan.new H.now : Scan n).ok H :=
  ⟨Nat.le_refl _, fun _ hj => absurd hj (Nat.not_lt_zero _), fun _ => rfl⟩

/-- A step of the scan keeps what is known about the copies. -/
theorem next (h : f.ok H) (hstamp : Stamped (·.stamp) H)
    (hnext : f.next H.current = .running f') : f'.ok H ∧ f'.start = f.start := by
  obtain ⟨hstart, hread⟩ := h
  unfold Scan.next at hnext
  cases hp : f.point with
  | old_collect i =>
    simp only [hp] at hread hnext
    obtain ⟨hold, hmoved⟩ := hread
    split at hnext
    · next hi =>
      cases hnext
      exact ⟨⟨hstart, read_update hstart hi hold, hmoved⟩, rfl⟩
    · next hi =>
      -- The first collect is complete: the two collects meet now.
      cases hnext
      refine ⟨⟨hstart, H.now, hstart, Nat.le_refl _, ?_, ?_, ?_⟩, rfl⟩
      · intro j
        exact hold j (by omega)
      · intro j hj
        exact absurd hj (Nat.not_lt_zero _)
      · intro j hj
        simp [hmoved j] at hj
  | new_collect i =>
    simp only [hp] at hread hnext
    obtain ⟨mid, hlo, hhi, hold, hnew, hmoved⟩ := hread
    split at hnext
    · next hi =>
      cases hnext
      exact ⟨⟨hstart, mid, hlo, hhi, hold, read_update hhi hi hnew, hmoved⟩, rfl⟩
    · next hi =>
      have hall : ∀ j, H.ReadIn mid H.now j (f.new_copy j) := fun j => hnew j (by omega)
      unfold compare_copies at hnext
      cases hfirst : first_moved f.old_copy f.new_copy with
      | none => simp [hfirst] at hnext
      | some k =>
        simp only [hfirst] at hnext
        cases hk : f.moved k with
        | true => simp [hk] at hnext
        | false =>
          simp only [hk, Bool.false_eq_true, if_false] at hnext
          cases hnext
          refine ⟨⟨hstart, H.now, hstart, Nat.le_refl _, ?_, ?_, ?_⟩, rfl⟩
          · intro j
            exact (hall j).mono hlo (Nat.le_refl _)
          · intro j hj
            exact absurd hj (Nat.not_lt_zero _)
          · -- The stamp at the start is at most the one in the old copy.
            intro j hj
            have hle := hstamp.read_mono (Nat.le_refl _) (hold j) (hall j)
            obtain ⟨m, hm, hmhi, hver⟩ := hold j
            have hmono := hstamp.mono j f.start m hm (by omega)
            rw [hver] at hmono
            show (H.version f.start j).stamp < (f.new_copy j).stamp
            by_cases hjk : j = k
            · subst hjk
              have hne := first_moved_some hfirst
              omega
            · change Function.update f.moved k true j = true at hj
              rw [Function.update_of_ne hjk] at hj
              have hlt := hmoved j hj
              omega

/-- A scan returns the values between its two collects, or it borrows. -/
theorem returned (h : f.ok H) (hstamp : Stamped (·.stamp) H) {snap : Fin n → T}
    (hnext : f.next H.current = .returned snap) :
    (∃ m, f.start ≤ m ∧ m ≤ H.now ∧ snap = values (H.version m)) ∨
      ∃ j, f.borrows = some j ∧ snap = (f.old_copy j).snap := by
  obtain ⟨hstart, hread⟩ := h
  unfold Scan.next at hnext
  cases hp : f.point with
  | old_collect i =>
    simp only [hp] at hnext
    split at hnext <;> cases hnext
  | new_collect i =>
    simp only [hp] at hread hnext
    obtain ⟨mid, hlo, hhi, hold, hnew, hmoved⟩ := hread
    split at hnext
    · cases hnext
    · next hi =>
      unfold compare_copies at hnext
      cases hfirst : first_moved f.old_copy f.new_copy with
      | none =>
        simp only [hfirst] at hnext
        cases hnext
        refine .inl ⟨mid, hlo, hhi, ?_⟩
        funext j
        unfold values
        rw [hstamp.double_collect (Nat.le_refl _) (hold j) (hnew j (by omega))
          (first_moved_none hfirst j)]
      | some k =>
        simp only [hfirst] at hnext
        cases hk : f.moved k with
        | false => simp [hk] at hnext
        | true =>
          simp only [hk, if_true] at hnext
          cases hnext
          exact .inr ⟨k, Scan.borrows_eq_some.mpr ⟨i, hp, by omega, hfirst, hk⟩, rfl⟩

/-- A borrowed snapshot has been written since the scan started. -/
theorem borrowed (h : f.ok H) {j : Fin n} (hj : f.borrows = some j) :
    H.ReadIn f.start H.now j (f.old_copy j) ∧
      (H.version f.start j).stamp < (f.old_copy j).stamp := by
  obtain ⟨i, hp, -, -, hmoved⟩ := Scan.borrows_eq_some.mp hj
  obtain ⟨-, hread⟩ := h
  simp only [hp] at hread
  obtain ⟨mid, -, hhi, hold, -, hlt⟩ := hread
  exact ⟨(hold j).mono (Nat.le_refl _) hhi, hlt j hmoved⟩

/-- A write by somebody keeps what is known about the copies. -/
theorem push (h : f.ok H) (table : Collection n) : f.ok (H.push table) := by
  obtain ⟨hstart, hread⟩ := h
  constructor
  · rw [History.push_now]
    omega
  cases hp : f.point with
  | old_collect i =>
    simp only [hp] at hread ⊢
    refine ⟨?_, hread.2⟩
    intro j hj
    exact ((hread.1 j hj).push (Nat.le_refl _) table).mono (Nat.le_refl _) (Nat.le_succ _)
  | new_collect i =>
    simp only [hp] at hread ⊢
    obtain ⟨mid, hlo, hhi, hold, hnew, hmoved⟩ := hread
    refine ⟨mid, hlo, by rw [History.push_now]; omega, ?_, ?_, ?_⟩
    · intro j
      exact (hold j).push hhi table
    · intro j hj
      exact ((hnew j hj).push (Nat.le_refl _) table).mono (Nat.le_refl _) (Nat.le_succ _)
    · intro j hj
      rw [H.push_version table hstart]
      exact hmoved j hj

end Scan.ok

/-! ## Section 2: Registers and updates -/

/-- The ways in which a caller takes a step. -/
inductive RunCase (s : SnapshotState n) (p : ℕ) : SnapshotState n → Prop where
  | scan_on (f f' : Scan n) :
      s.caller p = .scan f → f.next s.a_table = .running f' →
      RunCase s p (s.set_caller p (.scan f'))
  | scan_return (f : Scan n) (snap : Fin n → T) :
      s.caller p = .scan f → f.next s.a_table = .returned snap →
      RunCase s p ((s.set_caller p .idle).record f.start snap)
  | update_on (value : T) (tid : Fin n) (f f' : Scan n) :
      s.caller p = .update value tid f → f.next s.a_table = .running f' →
      RunCase s p (s.set_caller p (.update value tid f'))
  | update_return (value : T) (tid : Fin n) (f : Scan n) (snap : Fin n → T) :
      s.caller p = .update value tid f → f.next s.a_table = .returned snap →
      RunCase s p ((s.set_caller p (.write value tid snap f.start)).record f.start snap)
  | write (value : T) (tid : Fin n) (snap : Fin n → T) (start : ℕ) :
      s.caller p = .write value tid snap start →
      RunCase s p ((s.set_caller p .idle).write tid value snap start)

theorem run_case_of_run {s s' : SnapshotState n} {p : ℕ} (h : s.run p = some s') :
    RunCase s p s' := by
  unfold SnapshotState.run at h
  cases hc : s.caller p with
  | idle => simp [hc] at h
  | scan f =>
    cases hnext : f.next s.a_table with
    | running f' =>
      simp only [hc, hnext, Option.some.injEq] at h
      subst h
      exact .scan_on f f' hc hnext
    | returned snap =>
      simp only [hc, hnext, Option.some.injEq] at h
      subst h
      exact .scan_return f snap hc hnext
  | update value tid f =>
    cases hnext : f.next s.a_table with
    | running f' =>
      simp only [hc, hnext, Option.some.injEq] at h
      subst h
      exact .update_on value tid f f' hc hnext
    | returned snap =>
      simp only [hc, hnext, Option.some.injEq] at h
      subst h
      exact .update_return value tid f snap hc hnext
  | write value tid snap start =>
    simp only [hc] at h
    split at h
    · cases h
      exact .write value tid snap start hc
    · cases h

/-- The caller is in an update of register `tid` that has started at `start`. -/
def Caller.updates (c : Caller n) (tid : Fin n) (start : ℕ) : Prop :=
  match c with
  | .update _ t f => t = tid ∧ f.start = start
  | .write _ t _ b => t = tid ∧ b = start
  | _ => False

theorem Caller.updates_register {c : Caller n} {tid : Fin n} {start : ℕ}
    (h : c.updates tid start) : c.register = some tid := by
  cases c with
  | idle | scan f => exact absurd h id
  | update value t f => exact congrArg some h.1
  | write value t snap b => exact congrArg some h.1

/-- The update that wrote the content `c` of register `j` has started when the
    stamp of the register was one less. -/
def began_ok (H : History (Fin n) (stamped_snap_t n)) (m : ℕ) (j : Fin n)
    (c : stamped_snap_t n) : Prop :=
  0 < c.stamp → c.began ≤ m ∧ (H.version c.began j).stamp + 1 = c.stamp

theorem began_ok.push {H : History (Fin n) (stamped_snap_t n)} {m : ℕ} {j : Fin n}
    {c : stamped_snap_t n} (h : began_ok H m j c) (hm : m ≤ H.now) (table : Collection n) :
    began_ok (H.push table) m j c := by
  intro hpos
  obtain ⟨hle, hstamp⟩ := h hpos
  refine ⟨hle, ?_⟩
  rw [H.push_version table (by omega)]
  exact hstamp

/-- What holds in every run.  A register is updated by one caller at a time, so
    nobody writes to it between the start of an update and its write. -/
structure BaseInv (s : SnapshotState n) : Prop where
  current : s.history.current = s.a_table
  stamped : Stamped (·.stamp) s.history
  frame   : ∀ p f, (s.caller p).frame = some f → f.ok s.history
  owner   : ∀ p tid b, (s.caller p).updates tid b →
    b ≤ s.history.now ∧ (s.history.version b tid).stamp = (s.a_table tid).stamp
  unique  : ∀ p q tid b b', (s.caller p).updates tid b → (s.caller q).updates tid b' → p = q
  began   : ∀ m j, m ≤ s.history.now → began_ok s.history m j (s.history.version m j)

/-- The history after the write of an update. -/
theorem write_history {s : SnapshotState n} (hcurrent : s.history.current = s.a_table)
    (p : ℕ) (tid : Fin n) (value : T) (snap : Fin n → T) (b : ℕ) :
    ((s.set_caller p .idle).write tid value snap b).history =
      s.history.push (Function.update s.history.current tid
        ⟨(s.history.current tid).stamp + 1, value, snap, b⟩) := by
  rw [hcurrent]
  rfl

namespace BaseInv

variable {s s' : SnapshotState n} {p : ℕ}

/-- A caller goes on without writing. -/
theorem set_caller (h : BaseInv s) {c : Caller n}
    (hframe : ∀ f, c.frame = some f → f.ok s.history)
    (howner : ∀ tid b, c.updates tid b → (s.caller p).updates tid b ∨
      b = s.history.now ∧ ∀ q b', ¬ (s.caller q).updates tid b') :
    BaseInv (s.set_caller p c) := by
  -- The caller of every other register is the one it was.
  have hcase : ∀ q tid b, ((s.set_caller p c).caller q).updates tid b →
      (s.caller q).updates tid b ∨
        q = p ∧ b = s.history.now ∧ ∀ r b', ¬ (s.caller r).updates tid b' := by
    intro q tid b hq
    change (Function.update s.caller p c q).updates tid b at hq
    by_cases hqp : q = p
    · subst hqp
      rw [Function.update_self] at hq
      rcases howner tid b hq with hold | hnew
      · exact .inl hold
      · exact .inr ⟨rfl, hnew⟩
    · rw [Function.update_of_ne hqp] at hq
      exact .inl hq
  refine ⟨h.current, h.stamped, ?_, ?_, ?_, h.began⟩
  · exact (Function.forall_update_iff s.caller fun _ c => ∀ f, c.frame = some f →
      f.ok s.history).mpr ⟨hframe, fun q _ => h.frame q⟩
  · intro q tid b hq
    rcases hcase q tid b hq with hold | ⟨-, rfl, -⟩
    · exact h.owner q tid b hold
    · refine ⟨Nat.le_refl _, ?_⟩
      show (s.history.current tid).stamp = (s.a_table tid).stamp
      rw [h.current]
  · intro q q' tid b b' hq hq'
    rcases hcase q tid b hq with hold | ⟨rfl, -, hnone⟩
    · rcases hcase q' tid b' hq' with hold' | ⟨rfl, -, hnone'⟩
      · exact h.unique q q' tid b b' hold hold'
      · exact absurd hold (hnone' q b)
    · rcases hcase q' tid b' hq' with hold' | ⟨rfl, -, -⟩
      · exact absurd hold' (hnone q' b')
      · rfl

/-- The recorded results do not matter. -/
theorem record_iff {start : ℕ} {snap : Fin n → T} :
    BaseInv (s.record start snap) ↔ BaseInv s :=
  ⟨fun h => ⟨h.current, h.stamped, h.frame, h.owner, h.unique, h.began⟩,
    fun h => ⟨h.current, h.stamped, h.frame, h.owner, h.unique, h.began⟩⟩

/-- The write of an update. -/
theorem write (h : BaseInv s) {value : T} {tid : Fin n} {snap : Fin n → T} {b : ℕ}
    (hp : s.caller p = .write value tid snap b) :
    BaseInv ((s.set_caller p .idle).write tid value snap b) := by
  have hupd : (s.caller p).updates tid b := by
    rw [hp]
    exact ⟨rfl, rfl⟩
  obtain ⟨hb, hstampb⟩ := h.owner p tid b hupd
  have hidle : ∀ q t b', (Function.update s.caller p .idle q).updates t b' →
      (s.caller q).updates t b' ∧ t ≠ tid := by
    intro q t b' hq
    by_cases hqp : q = p
    · subst hqp
      rw [Function.update_self] at hq
      exact absurd hq id
    · rw [Function.update_of_ne hqp] at hq
      refine ⟨hq, ?_⟩
      intro heq
      subst heq
      exact hqp (h.unique q p t b' b hq hupd)
  refine ⟨?_, ?_, ?_, ?_, ?_, ?_⟩
  · exact History.push_current _ _
  · rw [write_history h.current]
    exact h.stamped.push (Nat.lt_succ_self _)
  · intro q f hf
    change (Function.update s.caller p .idle q).frame = some f at hf
    by_cases hqp : q = p
    · subst hqp
      rw [Function.update_self] at hf
      cases hf
    · rw [Function.update_of_ne hqp] at hf
      exact (h.frame q f hf).push _
  · intro q t b' hq
    obtain ⟨hold, hne⟩ := hidle q t b' hq
    obtain ⟨hb', hstamp⟩ := h.owner q t b' hold
    refine ⟨Nat.le_succ_of_le hb', ?_⟩
    show ((s.history.push _).version b' t).stamp = (Function.update s.a_table tid _ t).stamp
    rw [s.history.push_version _ hb', Function.update_of_ne hne]
    exact hstamp
  · intro q q' t b₁ b₂ hq hq'
    exact h.unique q q' t b₁ b₂ (hidle q t b₁ hq).1 (hidle q' t b₂ hq').1
  · rw [write_history h.current]
    apply History.forall_push_update (P := began_ok _)
    · intro m j hm
      exact (h.began m j hm).push hm _
    · intro j _ hpos
      obtain ⟨hle, hstamp⟩ := (h.began s.history.now j (Nat.le_refl _)).push (Nat.le_refl _) _ hpos
      exact ⟨Nat.le_succ_of_le hle, hstamp⟩
    · -- Nobody else has written to the register since the update started.
      intro _
      refine ⟨Nat.le_succ_of_le hb, ?_⟩
      show ((s.history.push _).version b tid).stamp + 1 = (s.history.current tid).stamp + 1
      rw [s.history.push_version _ hb, hstampb, h.current]

theorem of_init (h : (snapshot_object n init).init s) : BaseInv s := by
  obtain ⟨htable, hidle, hhistory, -⟩ := h
  have hversion : ∀ m, s.history.version m = s.a_table := by
    intro m
    rw [hhistory]
    rfl
  refine ⟨hversion _, by rw [hhistory]; exact Stamped.start _ _, ?_, ?_, ?_, ?_⟩
  · intro p f hf
    rw [hidle p] at hf
    cases hf
  · intro p tid b hp
    rw [hidle p] at hp
    exact absurd hp id
  · intro p q tid b b' hp
    rw [hidle p] at hp
    exact absurd hp id
  · intro m j _ hpos
    rw [hversion, htable] at hpos
    exact absurd hpos (Nat.lt_irrefl _)

/-- A step of a caller, by what the caller does. -/
theorem run (h : BaseInv s) (hrun : RunCase s p s') : BaseInv s' := by
  cases hrun with
  | scan_on f f' hc hnext =>
    rw [← h.current] at hnext
    apply h.set_caller
    · intro g hg
      cases hg
      exact ((h.frame p f (by rw [hc]; rfl)).next h.stamped hnext).1
    · intro tid b hu
      exact absurd hu id
  | scan_return f snap hc hnext =>
    rw [record_iff]
    apply h.set_caller
    · intro g hg
      cases hg
    · intro tid b hu
      exact absurd hu id
  | update_on value tid f f' hc hnext =>
    rw [← h.current] at hnext
    obtain ⟨hok, hstart⟩ := (h.frame p f (by rw [hc]; rfl)).next h.stamped hnext
    apply h.set_caller
    · intro g hg
      cases hg
      exact hok
    · intro t b hu
      obtain ⟨rfl, rfl⟩ := hu
      rw [hc]
      exact .inl ⟨rfl, hstart.symm⟩
  | update_return value tid f snap hc hnext =>
    rw [record_iff]
    apply h.set_caller
    · intro g hg
      cases hg
    · intro t b hu
      obtain ⟨rfl, rfl⟩ := hu
      rw [hc]
      exact .inl ⟨rfl, rfl⟩
  | write value tid snap start hc => exact h.write hc

theorem step (h : BaseInv s) {l : ℕ × Call n} (hstep : (snapshot_object n init).step s l s') :
    BaseInv s' := by
  obtain ⟨p, c⟩ := l
  cases c with
  | scan =>
    obtain ⟨hidle, rfl⟩ := hstep
    refine h.set_caller ?_ (fun _ _ hu => absurd hu id)
    intro f hf
    cases hf
    exact Scan.ok.new _
  | update value tid =>
    obtain ⟨hidle, hfree, rfl⟩ := hstep
    apply h.set_caller
    · intro f hf
      cases hf
      exact Scan.ok.new _
    · intro t b hu
      obtain ⟨rfl, rfl⟩ := hu
      exact .inr ⟨rfl, fun q b' hq => hfree q (Caller.updates_register hq)⟩
  | run => exact h.run (run_case_of_run hstep)

theorem reachable (h : Reachable (snapshot_object n init) s) : BaseInv s :=
  h.invariant (fun _ hinit => BaseInv.of_init hinit) (fun _ _ _ _ hinv hstep => hinv.step hstep)

end BaseInv

/-- **The second move is fresh.**  When a scan has seen thread `j` move twice, the
    update in `new_copy[j]` started after the scan. -/
theorem new_copy_fresh {s : SnapshotState n} (h : Reachable (snapshot_object n init) s) {p : ℕ}
    {f : Scan n} (hf : (s.caller p).frame = some f) {j : Fin n} (hj : f.borrows = some j) :
    f.start < (f.new_copy j).began := by
  have hinv := BaseInv.reachable h
  have hok := hinv.frame p f hf
  obtain ⟨-, hmoved⟩ := hok.borrowed hj
  obtain ⟨i, hp, hi, hfirst, -⟩ := Scan.borrows_eq_some.mp hj
  obtain ⟨hstart, hread⟩ := hok
  simp only [hp] at hread
  obtain ⟨mid, -, hhi, hold, hnew, -⟩ := hread
  have hle := hinv.stamped.read_mono (Nat.le_refl _) (hold j) (hnew j (by omega))
  have hne := first_moved_some hfirst
  obtain ⟨m, -, hm, hver⟩ := hnew j (by omega)
  have hbegan := hinv.began m j hm (by rw [hver]; omega)
  rw [hver] at hbegan
  obtain ⟨hbm, hstamp⟩ := hbegan
  -- An update that started no later than the scan would find a smaller stamp.
  by_contra hnot
  have hmono := hinv.stamped.mono j (f.new_copy j).began f.start (by omega) hstart
  omega

/-! ## Section 3: Scans that borrow fresh snapshots -/

/-- The step does not borrow a snapshot whose update started before the scan. -/
def fresh_borrow (s : SnapshotState n) (l : ℕ × Call n) : Prop :=
  l.2 = .run → ∀ f ∈ (s.caller l.1).frame, ∀ j ∈ f.borrows, f.start ≤ (f.old_copy j).began

/-- `snap` is the vector of values at some time between `lo` and `hi`. -/
def values_in (H : History (Fin n) (stamped_snap_t n)) (lo hi : ℕ) (snap : Fin n → T) : Prop :=
  ∃ m, lo ≤ m ∧ m ≤ hi ∧ snap = values (H.version m)

theorem values_in.push {H : History (Fin n) (stamped_snap_t n)} {lo hi hi' : ℕ}
    {snap : Fin n → T} (h : values_in H lo hi snap) (hnow : hi ≤ H.now) (hhi : hi ≤ hi')
    (table : Collection n) : values_in (H.push table) lo hi' snap := by
  obtain ⟨m, hlo, hm, hsnap⟩ := h
  refine ⟨m, hlo, by omega, ?_⟩
  rw [H.push_version table (by omega)]
  exact hsnap

/-- The snapshot in a register was taken up to time `m`, and not before `since b` if the
    update that wrote it started at `b`.  The first one, which has stamp 0, is never
    borrowed. -/
def snap_since (since : ℕ → ℕ) (H : History (Fin n) (stamped_snap_t n)) (m : ℕ) (_ : Fin n)
    (c : stamped_snap_t n) : Prop :=
  0 < c.stamp → values_in H (since c.began) m c.snap

/-- Every snapshot, in a register, about to be written or returned, was taken not before
    `since b` if its scan started at `b`.  For the identity it is one of its scan's time,
    for the constant 0 it is just one of the past. -/
structure SnapsSince (since : ℕ → ℕ) (s : SnapshotState n) : Prop where
  base    : BaseInv s
  regs    : ∀ m j, m ≤ s.history.now → snap_since since s.history m j (s.history.version m j)
  pending : ∀ p value tid snap start, s.caller p = .write value tid snap start →
    values_in s.history (since start) s.history.now snap
  results : ∀ e ∈ s.returned, e.finish ≤ s.history.now ∧
    values_in s.history (since e.start) e.finish e.snap

namespace SnapsSince

variable {since : ℕ → ℕ} {s s' : SnapshotState n} {p : ℕ}

/-- What a scan returns, if it does not borrow a snapshot that is too old. -/
theorem returned (h : SnapsSince since s) (hsince : ∀ m, since m ≤ m) {f : Scan n}
    (hf : (s.caller p).frame = some f)
    (hfresh : ∀ j ∈ f.borrows, since f.start ≤ since (f.old_copy j).began) {snap : Fin n → T}
    (hnext : f.next s.history.current = .returned snap) :
    values_in s.history (since f.start) s.history.now snap := by
  have hok := h.base.frame p f hf
  rcases hok.returned h.base.stamped hnext with ⟨m, hlo, hm, hsnap⟩ | ⟨j, hj, rfl⟩
  · exact ⟨m, Nat.le_trans (hsince _) hlo, hm, hsnap⟩
  · -- The register has moved since the scan started, so it was written to.
    obtain ⟨⟨m, -, hm, hver⟩, hlt⟩ := hok.borrowed hj
    have hreg := h.regs m j hm (by rw [hver]; omega)
    rw [hver] at hreg
    obtain ⟨m', hlo, hhi, hsnap⟩ := hreg
    exact ⟨m', Nat.le_trans (hfresh j hj) hlo, Nat.le_trans hhi hm, hsnap⟩

/-- A caller goes on without writing. -/
theorem set_caller (h : SnapsSince since s) {c : Caller n} (hbase : BaseInv (s.set_caller p c))
    (hpending : ∀ value tid snap start, c = .write value tid snap start →
      values_in s.history (since start) s.history.now snap) :
    SnapsSince since (s.set_caller p c) := by
  refine ⟨hbase, h.regs, ?_, h.results⟩
  exact (Function.forall_update_iff s.caller fun _ c => ∀ value tid snap start,
    c = .write value tid snap start → values_in s.history (since start) s.history.now snap).mpr
    ⟨hpending, fun q _ => h.pending q⟩

/-- The result of a scan is recorded. -/
theorem record (h : SnapsSince since s) {start : ℕ} {snap : Fin n → T}
    (hsnap : values_in s.history (since start) s.history.now snap) :
    SnapsSince since (s.record start snap) := by
  refine ⟨BaseInv.record_iff.mpr h.base, h.regs, h.pending, ?_⟩
  intro e he
  rcases List.mem_append.mp he with hold | hnew
  · exact h.results e hold
  · rw [List.mem_singleton.mp hnew]
    exact ⟨Nat.le_refl _, hsnap⟩

/-- The write of an update: the past gains one version. -/
theorem write (h : SnapsSince since s) {value : T} {tid : Fin n} {snap : Fin n → T} {b : ℕ}
    (hp : s.caller p = .write value tid snap b)
    (hbase : BaseInv ((s.set_caller p .idle).write tid value snap b)) :
    SnapsSince since ((s.set_caller p .idle).write tid value snap b) := by
  have hsnap := h.pending p value tid snap b hp
  refine ⟨hbase, ?_, ?_, ?_⟩
  · rw [write_history h.base.current]
    apply History.forall_push_update (P := snap_since since _)
    · intro m j hm hpos
      exact (h.regs m j hm hpos).push hm (Nat.le_refl _) _
    · intro j _ hpos
      exact (h.regs s.history.now j (Nat.le_refl _) hpos).push (Nat.le_refl _) (Nat.le_succ _) _
    · intro _
      exact hsnap.push (Nat.le_refl _) (Nat.le_succ _) _
  · intro q value' tid' snap' start hq
    change Function.update s.caller p .idle q = _ at hq
    by_cases hqp : q = p
    · subst hqp
      rw [Function.update_self] at hq
      cases hq
    · rw [Function.update_of_ne hqp] at hq
      exact (h.pending q value' tid' snap' start hq).push (Nat.le_refl _) (Nat.le_succ _) _
  · intro e he
    obtain ⟨hfin, hsnap⟩ := h.results e he
    exact ⟨Nat.le_succ_of_le hfin, hsnap.push hfin (Nat.le_refl _) _⟩

theorem run (h : SnapsSince since s) (hsince : ∀ m, since m ≤ m)
    (hfresh : ∀ f ∈ (s.caller p).frame, ∀ j ∈ f.borrows,
      since f.start ≤ since (f.old_copy j).began)
    (hrun : RunCase s p s') : SnapsSince since s' := by
  have hbase := h.base.run hrun
  cases hrun with
  | scan_on f f' hc hnext =>
    exact h.set_caller hbase (fun _ _ _ _ hw => by cases hw)
  | scan_return f snap hc hnext =>
    have hf : (s.caller p).frame = some f := by
      rw [hc]
      rfl
    rw [← h.base.current] at hnext
    have hsnap := h.returned hsince hf (hfresh f hf) hnext
    have hidle := h.set_caller (BaseInv.record_iff.mp hbase) (fun _ _ _ _ hw => by cases hw)
    exact hidle.record hsnap
  | update_on value tid f f' hc hnext =>
    exact h.set_caller hbase (fun _ _ _ _ hw => by cases hw)
  | update_return value tid f snap hc hnext =>
    have hf : (s.caller p).frame = some f := by
      rw [hc]
      rfl
    rw [← h.base.current] at hnext
    have hsnap := h.returned hsince hf (hfresh f hf) hnext
    have hwrite : SnapsSince since (s.set_caller p (.write value tid snap f.start)) := by
      apply h.set_caller (BaseInv.record_iff.mp hbase)
      intro _ _ _ _ hw
      cases hw
      exact hsnap
    exact hwrite.record hsnap
  | write value tid snap start hc => exact h.write hc hbase

theorem of_init (hinit : (snapshot_object n init).init s) : SnapsSince since s := by
  have hbase := BaseInv.of_init hinit
  obtain ⟨htable, hidle, hhistory, hreturned⟩ := hinit
  refine ⟨hbase, ?_, ?_, ?_⟩
  · intro m j _ hpos
    rw [hhistory] at hpos
    change 0 < (s.a_table j).stamp at hpos
    rw [htable] at hpos
    exact absurd hpos (Nat.lt_irrefl _)
  · intro p value tid snap start hp
    rw [hidle p] at hp
    cases hp
  · intro e he
    rw [hreturned] at he
    cases he

theorem step (h : SnapsSince since s) (hsince : ∀ m, since m ≤ m) {c : Call n}
    (hfresh : c = .run → ∀ f ∈ (s.caller p).frame, ∀ j ∈ f.borrows,
      since f.start ≤ since (f.old_copy j).began)
    (hstep : (snapshot_object n init).step s (p, c) s') : SnapsSince since s' := by
  have hbase := h.base.step hstep
  cases c with
  | scan =>
    obtain ⟨-, rfl⟩ := hstep
    exact h.set_caller hbase (fun _ _ _ _ hw => by cases hw)
  | update value tid =>
    obtain ⟨-, -, rfl⟩ := hstep
    exact h.set_caller hbase (fun _ _ _ _ hw => by cases hw)
  | run => exact h.run hsince (hfresh rfl) (run_case_of_run hstep)

end SnapsSince

/-- The snapshot in a register was taken between the start of the update that
    wrote it and time `m`. -/
def snap_ok (H : History (Fin n) (stamped_snap_t n)) (m : ℕ) (_ : Fin n)
    (c : stamped_snap_t n) : Prop :=
  0 < c.stamp → values_in H c.began m c.snap

/-- What holds in runs in which borrowed snapshots are fresh: every snapshot, in
    a register, about to be written or returned, is one of its scan's time. -/
structure SnapInv (s : SnapshotState n) : Prop where
  base    : BaseInv s
  regs    : ∀ m j, m ≤ s.history.now → snap_ok s.history m j (s.history.version m j)
  pending : ∀ p value tid snap start, s.caller p = .write value tid snap start →
    values_in s.history start s.history.now snap
  results : ∀ e ∈ s.returned, e.finish ≤ s.history.now ∧ e.atomic s.history

theorem SnapInv.reachable {s : SnapshotState n}
    (h : Reachable ((snapshot_object n init).restrict fresh_borrow) s) : SnapInv s := by
  have hsnaps : SnapsSince id s := by
    apply h.invariant
    · intro s hinit
      exact .of_init hinit
    · intro s l s' _ hinv hstep
      obtain ⟨p, c⟩ := l
      obtain ⟨hfresh, hstep⟩ := hstep
      exact hinv.step Nat.le_refl hfresh hstep
  exact ⟨hsnaps.base, hsnaps.regs, hsnaps.pending, hsnaps.results⟩

/-! ## Section 4: Runs on given calls -/

instance (s : SnapshotState n) (l : ℕ × Call n) : Decidable (fresh_borrow s l) :=
  inferInstanceAs (Decidable (l.2 = .run → ∀ f ∈ (s.caller l.1).frame, ∀ j ∈ f.borrows,
    f.start ≤ (f.old_copy j).began))

def Caller.is_idle : Caller n → Bool
  | .idle => true
  | _ => false

/-- One step, where the callers `0, .., K - 1` are all there are. -/
def SnapshotState.perform (s : SnapshotState n) (K : ℕ) :
    ℕ × Call n → Option (SnapshotState n)
  | (p, .scan) =>
      if (s.caller p).is_idle then some (s.set_caller p (.scan (.new s.history.now))) else none
  | (p, .update value tid) =>
      if (s.caller p).is_idle ∧ ∀ q < K, (s.caller q).register ≠ some tid then
        some (s.set_caller p (.update value tid (.new s.history.now)))
      else none
  | (p, .run) => s.run p

/-- The run that a list of steps describes, as long as each step is `ok`. -/
def SnapshotState.exec (ok : SnapshotState n → ℕ × Call n → Bool) (K : ℕ) :
    SnapshotState n → List (ℕ × Call n) → Option (SnapshotState n)
  | s, [] => some s
  | s, l :: ls =>
      if l.1 < K ∧ ok s l = true then (s.perform K l).bind (fun s' => exec ok K s' ls) else none

theorem Caller.eq_idle {c : Caller n} (h : c.is_idle = true) : c = .idle := by
  cases c <;> first | rfl | cases h

/-- A step of a caller leaves the other callers alone. -/
theorem run_caller_ne {s s' : SnapshotState n} {p q : ℕ} (h : RunCase s p s') (hq : q ≠ p) :
    s'.caller q = s.caller q := by
  cases h <;> exact Function.update_of_ne hq _ _

theorem perform_step (init : T) {s s' : SnapshotState n} {K : ℕ} {l : ℕ × Call n} (hl : l.1 < K)
    (hquiet : ∀ q, K ≤ q → s.caller q = .idle) (h : s.perform K l = some s') :
    (snapshot_object n init).step s l s' ∧ ∀ q, K ≤ q → s'.caller q = .idle := by
  obtain ⟨p, c⟩ := l
  have hset : ∀ c q, K ≤ q → (s.set_caller p c).caller q = .idle := by
    intro c q hq
    show Function.update s.caller p c q = .idle
    rw [Function.update_of_ne (by simp only at hl; omega), hquiet q hq]
  cases c with
  | scan =>
    simp only [SnapshotState.perform] at h
    split at h
    · next hidle =>
      cases h
      exact ⟨⟨Caller.eq_idle hidle, rfl⟩, hset _⟩
    · cases h
  | update value tid =>
    simp only [SnapshotState.perform] at h
    split at h
    · next hfree =>
      cases h
      refine ⟨⟨Caller.eq_idle hfree.1, ?_, rfl⟩, hset _⟩
      intro q
      by_cases hq : q < K
      · exact hfree.2 q hq
      · rw [hquiet q (by omega)]
        simp [Caller.register]
    · cases h
  | run =>
    refine ⟨h, ?_⟩
    intro q hq
    have hne : q ≠ p := by
      simp only at hl
      omega
    rw [run_caller_ne (run_case_of_run h) hne]
    exact hquiet q hq

theorem exec_reachable {ok : SnapshotState n → ℕ × Call n → Bool} {K : ℕ}
    {ls : List (ℕ × Call n)} {s s' : SnapshotState n}
    (hreach : Reachable ((snapshot_object n init).restrict (fun s l => ok s l = true)) s)
    (hquiet : ∀ q, K ≤ q → s.caller q = .idle) (h : s.exec ok K ls = some s') :
    Reachable ((snapshot_object n init).restrict (fun s l => ok s l = true)) s' := by
  induction ls generalizing s with
  | nil =>
    cases h
    exact hreach
  | cons l ls ih =>
    unfold SnapshotState.exec at h
    split at h
    · next hl =>
      obtain ⟨s₁, hs₁, hrest⟩ := Option.bind_eq_some_iff.mp h
      obtain ⟨hstep, hquiet₁⟩ := perform_step init hl.1 hquiet hs₁
      exact ih (hreach.step ⟨hl.2, hstep⟩) hquiet₁ hrest
    · cases h

/-- The object before the first call. -/
def SnapshotState.start (n : ℕ) (init : T) : SnapshotState n :=
  ⟨fun _ => .new init, fun _ => .idle, History.start (fun _ => .new init), []⟩

theorem exec_start {ok : SnapshotState n → ℕ × Call n → Bool} {K : ℕ}
    {ls : List (ℕ × Call n)} {s : SnapshotState n}
    (h : (SnapshotState.start n init).exec ok K ls = some s) :
    Reachable ((snapshot_object n init).restrict (fun s l => ok s l = true)) s :=
  exec_reachable (Reachable.init ⟨rfl, fun _ => rfl, rfl, rfl⟩) (fun _ _ => rfl) h

/-! ## Section 5: Stale and fresh snapshots -/

/-- Two registers.  Caller 1 scans for its first update of register 1, then caller
    0 sets register 0 to 5, and then caller 2 scans.  It sees register 1 move
    twice and returns what caller 1 has scanned at the beginning. -/
def stale_calls : List (ℕ × Call 2) :=
  [(1, .update 1 1)] ++ List.replicate 6 (1, .run) ++
  [(0, .update 5 0)] ++ List.replicate 7 (0, .run) ++
  -- The first collect of the scan, and the first move of register 1.
  [(2, .scan)] ++ List.replicate 3 (2, .run) ++ [(1, .run)] ++ List.replicate 3 (2, .run) ++
  -- The second move, and the collect that sees it.
  [(1, .update 2 1)] ++ List.replicate 7 (1, .run) ++ List.replicate 3 (2, .run)

def stale_state : SnapshotState 2 :=
  ((SnapshotState.start 2 0).exec (fun _ _ => true) 3 stale_calls).getD (.start 2 0)

/-- **A stale snapshot.**  The scan returns 0 for register 0, which holds 5 from
    before its start until after its return. -/
theorem stale_snapshot :
    ∃ s, Reachable (snapshot_object 2 0) s ∧ ∃ e ∈ s.returned, ¬ e.atomic s.history := by
  have hrun : (SnapshotState.start 2 0).exec (fun _ _ => true) 3 stale_calls = some stale_state :=
    rfl
  have hscan : ∃ e ∈ stale_state.returned, e.start = 1 ∧ e.finish = 3 ∧ e.snap 0 = 0 :=
    ⟨_, List.mem_of_getElem? (i := 3) rfl, rfl, rfl, rfl⟩
  obtain ⟨e, he, hstart, hfinish, hzero⟩ := hscan
  refine ⟨stale_state, (exec_start hrun).of_restrict, e, he, ?_⟩
  intro h
  obtain ⟨m, hlo, hhi, hsnap⟩ := h
  -- Register 0 holds 5 during the whole scan.
  have hm : m = 1 ∨ m = 2 ∨ m = 3 := by omega
  have hfive : values (stale_state.history.version m) 0 = 5 := by
    rcases hm with rfl | rfl | rfl <;> rfl
  rw [← hsnap, hzero] at hfive
  exact absurd hfive (by decide)

/-- **Scans are atomic when they borrow fresh snapshots.**  In every run in which
    each scan that borrows `old_copy[j]` has started no later than the update that
    wrote it, every result of a scan is the vector of values at one instant between
    the scan's start and its return. -/
theorem scan_atomic_of_fresh {s : SnapshotState n}
    (h : Reachable ((snapshot_object n init).restrict fresh_borrow) s) :
    ∀ e ∈ s.returned, e.atomic s.history :=
  fun e he => ((SnapInv.reachable h).results e he).2

/-- One register: caller 0 scans while caller 1 updates the register twice. -/
def fresh_calls : List (ℕ × Call 1) :=
  [(0, .scan)] ++ List.replicate 2 (0, .run) ++
  [(1, .update 7 0)] ++ List.replicate 5 (1, .run) ++ List.replicate 2 (0, .run) ++
  [(1, .update 8 0)] ++ List.replicate 5 (1, .run) ++ List.replicate 2 (0, .run)

def fresh_state : SnapshotState 1 :=
  ((SnapshotState.start 1 3).exec (fun s l => decide (fresh_borrow s l)) 2 fresh_calls).getD
    (.start 1 3)

/-- The scan of caller 0 borrows the first update's snapshot, which is fresh. -/
theorem scan_atomic_fresh_calls :
    ∃ e ∈ fresh_state.returned, e.start = 0 ∧ e.finish = 2 ∧ e.snap 0 = 3 ∧
      e.atomic fresh_state.history := by
  have hrun : (SnapshotState.start 1 3).exec (fun s l => decide (fresh_borrow s l)) 2
      fresh_calls = some fresh_state := rfl
  have hreach := (exec_start hrun).restrict_mono (fun s l hl => of_decide_eq_true hl)
  have hscan : ∃ e ∈ fresh_state.returned, e.start = 0 ∧ e.finish = 2 ∧ e.snap 0 = 3 :=
    ⟨_, List.mem_of_getElem? (i := 2) rfl, rfl, rfl, rfl⟩
  obtain ⟨e, he, hstart, hfinish, hvalue⟩ := hscan
  exact ⟨e, he, hstart, hfinish, hvalue, scan_atomic_of_fresh hreach e he⟩

end Project3
