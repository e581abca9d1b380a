import ConcurrentProgramming.Lab11.FineProperties
import ConcurrentProgramming.Lab11.KeyList

/-! # The Fine-Grained List with One Thread

    One thread executes operations one after another.  Every call terminates
    (`call_finishes`), and results and keys are those of `keep_one`
    (`fine_implements`).
-/

namespace Lab11.Fine

open LTS Linearizability SortedLinks Threads Sequential Relation ListState

/-! ## Section 1: A call that is alone -/

/-- How the threads execute their calls. -/
def list_calls : Calls ListState Call where
  thread := ListState.thread
  ended := fun c => ∃ r, c.point = .finished r
  run := ListState.run

/-- How many steps a call still has to go, at most: the key of `prev` grows in
    every round of the loop. -/
def steps_left (h : Heap) (c : Call) : ℕ :=
  match c.point with
  | .malloc => 4 * (c.op.key - h.rank head).toNat + 15
  | .lock_head => 4 * (c.op.key - h.rank head).toNat + 14
  | .load_first => 4 * (c.op.key - h.rank head).toNat + 13
  | .lock_curr prev _ => 4 * (c.op.key - h.rank prev).toNat + 12
  | .test prev _ => 4 * (c.op.key - h.rank prev).toNat + 11
  | .unlock_prev prev _ => 4 * (c.op.key - h.rank prev).toNat + 10
  | .advance curr => 4 * (c.op.key - h.rank curr).toNat + 13
  | .check _ _ => 7
  | .link _ _ => 6
  | .load_next _ _ => 6
  | .set_next _ _ => 5
  | .unlink _ _ _ => 5
  | .unlock_both _ _ _ => 4
  | .unlock_curr _ _ => 3
  | .free _ _ => 2
  | .finished _ => 1

/-- A step inside a call leaves the other threads and the history alone. -/
theorem run_frame {s s' : ListState} {p fresh : ℕ} {c : Call} (hended : ¬ list_calls.ended c)
    (hrun : s.run p c fresh = some s') :
    ∃ h n pt, s' =
      ⟨h, Function.update s.thread p (some ⟨c.id, c.op, n, pt⟩), s.calls, s.history⟩ := by
  cases hc : c.point <;> simp only [ListState.run, hc, Option.map_eq_some_iff] at hrun
  case finished r => exact absurd ⟨r, hc⟩ hended
  all_goals
    obtain ⟨_, -, rfl⟩ := hrun
    exact ⟨_, _, _, rfl⟩

theorem list_calls_frames : list_calls.Frames := by
  intro s p c fresh s' hended hrun
  obtain ⟨_, _, _, rfl⟩ := run_frame hended hrun
  exact ⟨_, rfl⟩

namespace FineInv

variable {live : Finset ℕ} {L : List (Entry Operation Bool)} {s s' : ListState}
  {p fresh : ℕ} {c c' : Call} {op : Operation}

/-- Every step brings a call closer to its end. -/
theorem closer (h : FineInv live L s) (hp : s.thread p = some c)
    (hrun : s.run p c fresh = some s') (hp' : s'.thread p = some c') :
    steps_left s'.heap c' < steps_left s.heap c := by
  have hok := h.thread p c hp
  have hgo : ∀ {cp : Call}, Function.update s.thread p (some cp) p = some c' → c' = cp := by
    intro cp heq
    rw [Function.update_self, Option.some.injEq] at heq
    exact heq.symm
  have hrank : ∀ {h' : Heap}, s.heap.KeepsNodes h' → ∀ a, h'.rank a = s.heap.rank a :=
    fun hkeep a => Heap.rank_congr (hkeep.key a)
  cases hc : c.point with
  | malloc =>
    simp only [ListState.run, hc, Option.map_eq_some_iff] at hrun
    obtain ⟨h', -, rfl⟩ := hrun
    rw [hgo hp']
    simp only [steps_left, hc, Heap.rank_head]
    exact Nat.lt_succ_self _
  | lock_head =>
    simp only [ListState.run, hc, Option.map_eq_some_iff] at hrun
    obtain ⟨h', -, rfl⟩ := hrun
    rw [hgo hp']
    simp only [steps_left, hc, Heap.rank_head]
    exact Nat.lt_succ_self _
  | load_first =>
    simp only [ListState.run, hc, Option.map_eq_some_iff] at hrun
    obtain ⟨curr, -, rfl⟩ := hrun
    rw [hgo hp']
    simp only [steps_left, hc]
    exact Nat.lt_succ_self _
  | lock_curr prev curr =>
    simp only [ListState.run, hc, Option.map_eq_some_iff] at hrun
    obtain ⟨h', hlock, rfl⟩ := hrun
    obtain ⟨-, -, hkeep, -⟩ := Heap.lock_spec hlock
    rw [hgo hp']
    simp only [steps_left, hc]
    change 4 * (c.op.key - h'.rank prev).toNat + 11 < _
    rw [hrank hkeep]
    exact Nat.lt_succ_self _
  | test prev curr =>
    simp only [ListState.run, hc, Option.map_eq_some_iff] at hrun
    obtain ⟨n, -, rfl⟩ := hrun
    rw [hgo hp']
    split <;> simp only [steps_left, hc]
    · exact Nat.lt_succ_self _
    · omega
  | unlock_prev prev curr =>
    simp only [ListState.run, hc, Option.map_eq_some_iff] at hrun
    obtain ⟨h', hunlock, rfl⟩ := hrun
    obtain ⟨-, hkeep, -⟩ := Heap.unlock_spec hunlock
    obtain ⟨hadj, hbelow⟩ := hok.window prev curr (by rw [hc]; rfl)
    have hpoint : s.heap.key curr < c.op.key := by
      have hpoint := hok.point
      rwa [point_ok, hc] at hpoint
    rw [hgo hp']
    simp only [steps_left, hc]
    change 4 * (c.op.key - h'.rank curr).toNat + 13 < _
    rw [hrank hkeep]
    have hlt := hadj.lt
    rw [Heap.rank_of_ne (h.sorted.ne_head hadj)] at hlt ⊢
    omega
  | advance curr =>
    simp only [ListState.run, hc, Option.map_eq_some_iff] at hrun
    obtain ⟨next, -, rfl⟩ := hrun
    rw [hgo hp']
    simp only [steps_left, hc]
    exact Nat.lt_succ_self _
  | check prev curr =>
    simp only [ListState.run, hc, Option.map_eq_some_iff] at hrun
    obtain ⟨n, -, rfl⟩ := hrun
    rw [hgo hp']
    cases hop : c.op <;> simp only [after_check] <;> (try split) <;> simp [steps_left, hc]
  | link prev curr =>
    simp only [ListState.run, hc, Option.map_eq_some_iff] at hrun
    obtain ⟨h', -, rfl⟩ := hrun
    rw [hgo hp']
    simp [steps_left, hc]
  | set_next prev curr =>
    simp only [ListState.run, hc, Option.map_eq_some_iff] at hrun
    obtain ⟨h', -, rfl⟩ := hrun
    rw [hgo hp']
    simp [steps_left, hc]
  | load_next prev curr =>
    simp only [ListState.run, hc, Option.map_eq_some_iff] at hrun
    obtain ⟨n, -, rfl⟩ := hrun
    rw [hgo hp']
    simp [steps_left, hc]
  | unlink prev curr next =>
    simp only [ListState.run, hc, Option.map_eq_some_iff] at hrun
    obtain ⟨h', -, rfl⟩ := hrun
    rw [hgo hp']
    simp [steps_left, hc]
  | unlock_both prev curr r =>
    simp only [ListState.run, hc, Option.map_eq_some_iff] at hrun
    obtain ⟨h', -, rfl⟩ := hrun
    rw [hgo hp']
    simp [steps_left, hc]
  | unlock_curr curr r =>
    simp only [ListState.run, hc, Option.map_eq_some_iff] at hrun
    obtain ⟨h', -, rfl⟩ := hrun
    rw [hgo hp']
    cases hop : c.op <;> cases r <;> simp [after_unlock, steps_left, hc, hop]
  | free a r =>
    simp only [ListState.run, hc, Option.map_eq_some_iff] at hrun
    obtain ⟨h', -, rfl⟩ := hrun
    rw [hgo hp']
    simp [steps_left, hc]
  | finished r =>
    simp only [ListState.run, hc, Option.some.injEq] at hrun
    subst hrun
    change Function.update s.thread p none p = some c' at hp'
    rw [Function.update_self] at hp'
    cases hp'

/-- A call that is alone does not wait. -/
theorem enabled_alone (h : FineInv live L s) (halone : list_calls.Alone p s)
    (hp : s.thread p = some c) : s.enabled p c := by
  have hown : ∀ a, s.heap.mutex a ≠ none → a ∈ c.point.holds := by
    intro a ha
    obtain ⟨q, hq⟩ := Option.ne_none_iff_exists'.mp ha
    obtain ⟨cq, hq, haq⟩ := h.holder hq
    by_cases hqp : q = p
    · rw [hqp, hp, Option.some.injEq] at hq
      exact hq ▸ haq
    · have hnone : s.thread q = none := halone q hqp
      rw [hnone] at hq
      cases hq
  rcases h.enabled_or_waits hp with hen | ⟨hc, hhead⟩ | ⟨prev, curr, hc, hcurr⟩
  · exact hen
  · have hmem := hown head hhead
    rw [hc] at hmem
    cases hmem
  · have hmem := hown curr hcurr
    rw [hc, Point.holds, List.mem_singleton] at hmem
    have hadj := ((h.thread p c hp).window prev curr (by rw [hc]; rfl)).1
    exact absurd hmem.symm hadj.ne

/-- **A call that is alone finishes.** -/
theorem call_finishes (h : FineInv live L s) (halone : list_calls.Alone p s)
    (hp : s.thread p = some c) :
    ∃ s', ReflTransGen (list_calls.step p) s s' ∧
      ∃ c', s'.thread p = some c' ∧ ∃ r, c'.point = .finished r := by
  refine Calls.finishes list_calls_frames
    (fun n s c => ∃ live L, FineInv live L s ∧ steps_left s.heap c = n) ?_
    ⟨live, L, h, rfl⟩ halone hp
  intro n s c hs halone hp hended
  obtain ⟨live, L, h, rfl⟩ := hs
  obtain ⟨fresh, s', hrun⟩ := h.enabled_alone halone hp
  obtain ⟨live', L', hinv, -⟩ := h.run hp (not_exists.mp hended) hrun
  exact ⟨fresh, s', hrun, fun c' hp' => ⟨_, h.closer hp hrun hp', live', L', hinv, rfl⟩⟩

end FineInv

/-! ## Section 2: What the list shows -/

/-- The list, used by thread 0 alone. -/
def machine : Machine ListState Operation Bool (List ℤ) where
  init := initial
  start := fun s op => s.start 0 op
  step := list_calls.step 0
  ret := fun s r s' => ∃ c, s.thread 0 = some c ∧ c.point = .finished r ∧ s' = s.return_call 0 c r
  view := fun s keys => key_sequence s.heap keys

/-- Between two operations `keys` are the keys of the list. -/
def idle (s : ListState) (keys : List ℤ) : Prop :=
  (∀ q, s.thread q = none) ∧ ∃ live L, FineInv live L s ∧ keys.Pairwise (· < ·) ∧
    keys.toFinset = live_keys live s.heap

namespace FineInv

variable {live : Finset ℕ} {L : List (Entry Operation Bool)} {s s' : ListState}
  {p : ℕ} {c : Call} {op : Operation}

/-- Without calls the pointers lead through all nodes. -/
theorem key_sequence (h : FineInv live L s) (hidle : ∀ q, s.thread q = none) :
    ∃ keys, Lab11.key_sequence s.heap keys ∧ keys.Pairwise (· < ·) ∧
      keys.toFinset = live_keys live s.heap := by
  have hchain : ∀ a ∈ live, a ≠ tail → ∃ l, Between s.heap.next tail a l ∧
      (l.map s.heap.key).Pairwise (· < ·) ∧
      ∀ x, x ∈ l ↔ x ∈ live ∧ x ≠ tail ∧ s.heap.rank a < s.heap.rank x := by
    refine h.sorted.from_tail (fun hne => absurd rfl hne) fun a b hadj ih hne => ?_
    have hnext : s.heap.next a = some b := by
      rcases h.links a hadj.left hne with ⟨b', hb', hadj'⟩ | ⟨q, cq, curr, hq, -⟩
      · rw [hb', hadj'.right_unique h.sorted.ranked hadj]
      · rw [hidle q] at hq
        cases hq
    by_cases hb : b = tail
    · refine ⟨[], .last (hb ▸ hnext), .nil, fun x => ?_⟩
      refine iff_of_false (by simp) fun hx => ?_
      obtain ⟨hx, htail, hlt⟩ := hx
      have hle := hadj.least x hx hlt
      rw [hb] at hle
      exact htail (h.sorted.ranked x hx tail h.sorted.tail_mem
        (le_antisymm (h.sorted.rank_le_tail hx) hle))
    · obtain ⟨l, hl, hsorted, hmem⟩ := ih hb
      refine ⟨b :: l, .step hnext hb hl, ?_, fun x => ?_⟩
      · refine List.pairwise_cons.mpr ⟨fun k hk => ?_, hsorted⟩
        obtain ⟨x, hx, rfl⟩ := List.mem_map.mp hk
        obtain ⟨hlive, -, hlt⟩ := (hmem x).mp hx
        have hhead := h.sorted.ne_head_of_lt hadj.right hlt
        rw [Heap.rank_of_ne (h.sorted.ne_head hadj), Heap.rank_of_ne hhead] at hlt
        exact hlt
      · rw [List.mem_cons, hmem]
        constructor
        · intro hx
          rcases hx with rfl | ⟨hx, htail, hlt⟩
          · exact ⟨hadj.right, hb, hadj.lt⟩
          · exact ⟨hx, htail, hadj.lt.trans hlt⟩
        · intro hx
          obtain ⟨hx, htail, hlt⟩ := hx
          rcases (hadj.least x hx hlt).lt_or_eq with hlt' | heq
          · exact .inr ⟨hx, htail, hlt'⟩
          · exact .inl (h.sorted.ranked b hadj.right x hx heq).symm
  obtain ⟨l, hl, hsorted, hmem⟩ := hchain head h.sorted.head_mem (by decide)
  refine ⟨l.map s.heap.key, ⟨l, hl, rfl⟩, hsorted, ?_⟩
  ext k
  rw [List.mem_toFinset, List.mem_map, mem_live_keys]
  constructor
  · intro hk
    obtain ⟨x, hx, rfl⟩ := hk
    obtain ⟨hlive, htail, hlt⟩ := (hmem x).mp hx
    exact ⟨x, hlive, h.sorted.ne_head_of_lt h.sorted.head_mem hlt, htail, rfl⟩
  · intro hk
    obtain ⟨x, hlive, hhead, htail, rfl⟩ := hk
    exact ⟨x, (hmem x).mpr ⟨hlive, htail, h.sorted.rank_head_lt hlive hhead⟩, rfl⟩

/-- During a call of thread 0 nothing else takes effect. -/
theorem during_call (h : FineInv live L s) (hp : s.thread p = some c)
    (hsteps : ReflTransGen (list_calls.step p) s s') :
    ∃ live' L' c', FineInv live' L' s' ∧ s'.thread p = some c' ∧ c'.id = c.id ∧ c'.op = c.op ∧
      (L' = L ∨ ∃ r, L' = L ++ [⟨c.id, c.op, r⟩]) := by
  induction hsteps with
  | refl => exact ⟨live, L, c, h, hp, rfl, rfl, .inl rfl⟩
  | tail _ hstep ih =>
    obtain ⟨live₁, L₁, c₁, hinv, hp₁, hid, hop, hL⟩ := ih
    obtain ⟨c', fresh, hp', hended, hrun⟩ := hstep
    obtain rfl : c₁ = c' := Option.some.inj (hp₁.symm.trans hp')
    obtain ⟨live₂, L₂, hinv', hL'⟩ := hinv.run hp₁ (not_exists.mp hended) hrun
    obtain ⟨h', n, pt, rfl⟩ := run_frame hended hrun
    refine ⟨live₂, L₂, _, hinv', Function.update_self _ _ _, hid, hop, ?_⟩
    rw [hid, hop] at hL'
    rcases hL' with rfl | ⟨r', rfl⟩
    · exact hL
    · rcases hL with rfl | ⟨r, rfl⟩
      · exact .inr ⟨r', rfl⟩
      · -- An operation does not take effect twice.
        have hnodup := hinv'.tracked.nodup
        simp [List.nodup_append] at hnodup

end FineInv

/-! ## Section 3: The list implements `keep_one` -/

theorem key_set_deterministic (S : Finset ℤ) (op : Operation) (r : Bool) (S₁ S₂ : Finset ℤ)
    (h₁ : key_set.step S op r S₁) (h₂ : key_set.step S op r S₂) : S₁ = S₂ :=
  h₁.2.trans h₂.2.symm

/-- What a call of thread 0 does to the keys. -/
theorem FineInv.after_call {live : Finset ℕ} {L : List (Entry Operation Bool)} {s s' : ListState}
    {op : Operation} {c : Call} {r : Bool} (h : FineInv live L s) (hp : s.thread 0 = none)
    (hrange : op.in_range) (hsteps : ReflTransGen (list_calls.step 0) (s.start 0 op) s')
    (hp' : s'.thread 0 = some c) (hc : c.point = .finished r) :
    ∃ live' L', FineInv live' L' (s'.return_call 0 c r) ∧
      key_set.step (live_keys live s.heap) op r (live_keys live' s'.heap) := by
  have hstart := h.start hp hrange
  have hp₀ : (s.start 0 op).thread 0 = some ⟨s.calls, op, head, first_point op⟩ := rfl
  obtain ⟨live', L', c', hinv, hp'', hid, hop, hL⟩ := hstart.during_call hp₀ hsteps
  rw [hp', Option.some.injEq] at hp''
  subst hp''
  have hmem : ⟨c.id, c.op, r⟩ ∈ L' := (hinv.thread 0 c hp').effect r (by rw [hc]; rfl)
  have hnew : c.id ∉ L.map Entry.id := by
    rw [hid]
    refine (hstart.thread 0 _ hp₀).pending ?_
    cases op <;> rfl
  refine ⟨live', L', hinv.return_call hp' hc, ?_⟩
  rcases hL with rfl | ⟨r', rfl⟩
  · exact absurd (List.mem_map_of_mem hmem) hnew
  · have hr : r' = r := by
      rcases List.mem_append.mp hmem with hold | hlast
      · exact absurd (List.mem_map_of_mem hold) hnew
      · exact (congrArg Entry.res (List.mem_singleton.mp hlast)).symm
    subst hr
    obtain ⟨S, hruns, hstep⟩ := Object.runs_concat_inv hinv.tracked.runs
    rw [Object.runs_unique key_set_deterministic hruns h.tracked.runs] at hstep
    exact hstep

theorem idle.key_sequence {s : ListState} {keys : List ℤ} (h : idle s keys) :
    Lab11.key_sequence s.heap keys := by
  obtain ⟨hnone, live, L, hinv, hsorted, hkeys⟩ := h
  obtain ⟨keys', hview, hsorted', hkeys'⟩ := hinv.key_sequence hnone
  rwa [eq_of_toFinset hsorted hsorted' (hkeys.trans hkeys'.symm)]

/-- An operation does what `keep_one` says. -/
theorem idle.return_call {s s₁ : ListState} {keys : List ℤ} {op : Operation} {c : Call} {r : Bool}
    (h : idle s keys) (hrange : op.in_range)
    (hsteps : ReflTransGen (list_calls.step 0) (s.start 0 op) s₁) (hp : s₁.thread 0 = some c)
    (hc : c.point = .finished r) :
    r = (keep_one keys op).1 ∧ idle (s₁.return_call 0 c r) (keep_one keys op).2 := by
  obtain ⟨hnone, live, L, hinv, hsorted, hkeys⟩ := h
  obtain ⟨live', L', hinv', hr, hset⟩ := hinv.after_call (hnone 0) hrange hsteps hp hc
  obtain ⟨hres, hone, hupdate⟩ := keep_one_spec hsorted op
  have hnone' : ∀ q, list_calls.thread (s₁.return_call 0 c r) q = none :=
    Calls.idle_after_call list_calls_frames hnone rfl hsteps rfl
  refine ⟨?_, hnone', live', L', hinv', hone, ?_⟩
  · rw [hr, ← hkeys, ← hres]
  · rw [hupdate, hkeys]
    exact hset.symm

/-- **The fine-grained list, used by one thread, implements `keep_one`.** -/
theorem fine_implements : Implements machine keep_one idle [] Operation.in_range where
  init := ⟨fun _ => rfl, {head, tail}, [], FineInv.initially, List.Pairwise.nil, by decide⟩
  sound := by
    intro s keys op hidle hrange s₁ r s₂ w hsteps hret hview
    obtain ⟨c, hp, hc, rfl⟩ := hret
    obtain ⟨hr, hidle'⟩ := hidle.return_call hrange hsteps hp hc
    exact ⟨Prod.ext hr (key_sequence_unique hview hidle'.key_sequence), hidle'⟩
  total := by
    intro s keys op hidle hrange
    obtain ⟨hnone, live, L, hinv, -⟩ := id hidle
    have hstart := hinv.start (hnone 0) hrange
    obtain ⟨s₁, hsteps, c, hp, r, hc⟩ := hstart.call_finishes (Calls.alone_of_idle hnone rfl) rfl
    have hidle' := (hidle.return_call hrange hsteps hp hc).2
    exact ⟨s₁, r, _, _, hsteps, ⟨c, hp, hc, rfl⟩, hidle'.key_sequence⟩

end Lab11.Fine
