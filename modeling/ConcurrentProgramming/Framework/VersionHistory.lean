import Mathlib.Data.Nat.Notation
import Mathlib.Logic.Function.Basic

/-! # Histories of an Array of Stamped Registers

    Registers are replaced one at a time, and every replacement makes a new
    version of the whole array.  A `History` keeps all versions up to now.

    Each register carries a stamp that its writers increase (`Stamped`), so that
    two reads with the same stamp have read the same content, and nothing has
    happened to the register in between.  This is why two collects that agree
    on all stamps have seen the version between them (`Stamped.double_collect`).
-/

namespace Versions

variable {ι ρ : Type}

/-- All versions of an array of registers up to `now`. -/
structure History (ι ρ : Type) where
  now     : ℕ
  version : ℕ → ι → ρ

namespace History

/-- The history of an array that has not been written to. -/
def start (array : ι → ρ) : History ι ρ := ⟨0, fun _ => array⟩

def current (H : History ι ρ) : ι → ρ := H.version H.now

/-- A new version. -/
def push (H : History ι ρ) (array : ι → ρ) : History ι ρ :=
  ⟨H.now + 1, Function.update H.version (H.now + 1) array⟩

/-- `c` is what a read of register `i` between `lo` and `hi` has returned. -/
def ReadIn (H : History ι ρ) (lo hi : ℕ) (i : ι) (c : ρ) : Prop :=
  ∃ m, lo ≤ m ∧ m ≤ hi ∧ H.version m i = c

@[simp] theorem push_now (H : History ι ρ) (array : ι → ρ) : (H.push array).now = H.now + 1 := rfl

@[simp] theorem push_current (H : History ι ρ) (array : ι → ρ) :
    (H.push array).current = array := by
  unfold current push
  simp

/-- Old versions stay as they are. -/
theorem push_version (H : History ι ρ) (array : ι → ρ) {m : ℕ} (hm : m ≤ H.now) :
    (H.push array).version m = H.version m := by
  unfold push
  have hne : m ≠ H.now + 1 := by omega
  exact Function.update_of_ne hne _ _

theorem push_version_now (H : History ι ρ) (array : ι → ρ) :
    (H.push array).version (H.now + 1) = array :=
  Function.update_self _ _ _

/-- **Replacing a register.**  A fact about the content of every register at every
    time still holds after one register was replaced, if it holds of the new
    content, and now of the registers that were kept. -/
theorem forall_push_update [DecidableEq ι] {H : History ι ρ} {i : ι} {c : ρ}
    {P : ℕ → ι → ρ → Prop} (hold : ∀ m j, m ≤ H.now → P m j (H.version m j))
    (hkept : ∀ j, j ≠ i → P (H.now + 1) j (H.current j)) (hnew : P (H.now + 1) i c) :
    ∀ m j, m ≤ H.now + 1 → P m j ((H.push (Function.update H.current i c)).version m j) := by
  intro m j hm
  by_cases hlast : m = H.now + 1
  · subst hlast
    rw [push_version_now]
    by_cases hj : j = i
    · subst hj
      rwa [Function.update_self]
    · rw [Function.update_of_ne hj]
      exact hkept j hj
  · rw [push_version H _ (by omega)]
    exact hold m j (by omega)

/-- A read of the current version. -/
theorem readIn_current (H : History ι ρ) {lo : ℕ} (hlo : lo ≤ H.now) (i : ι) :
    H.ReadIn lo H.now i (H.current i) :=
  ⟨H.now, hlo, Nat.le_refl _, rfl⟩

theorem ReadIn.mono {H : History ι ρ} {lo lo' hi hi' : ℕ} {i : ι} {c : ρ}
    (h : H.ReadIn lo hi i c) (hlo : lo' ≤ lo) (hhi : hi ≤ hi') : H.ReadIn lo' hi' i c := by
  obtain ⟨m, h₁, h₂, h₃⟩ := h
  exact ⟨m, by omega, by omega, h₃⟩

/-- Reads of the past stay what they were. -/
theorem ReadIn.push {H : History ι ρ} {lo hi : ℕ} {i : ι} {c : ρ} (h : H.ReadIn lo hi i c)
    (hhi : hi ≤ H.now) (array : ι → ρ) : (H.push array).ReadIn lo hi i c := by
  obtain ⟨m, h₁, h₂, h₃⟩ := h
  refine ⟨m, h₁, h₂, ?_⟩
  rw [push_version H array (by omega)]
  exact h₃

end History

/-- Stamps never decrease, and a register with an unchanged stamp is unchanged. -/
structure Stamped (stamp : ρ → ℕ) (H : History ι ρ) : Prop where
  mono : ∀ i m m', m ≤ m' → m' ≤ H.now → stamp (H.version m i) ≤ stamp (H.version m' i)
  same : ∀ i m m', m ≤ m' → m' ≤ H.now → stamp (H.version m i) = stamp (H.version m' i) →
    H.version m i = H.version m' i

namespace Stamped

variable {stamp : ρ → ℕ} {H : History ι ρ}

theorem start (stamp : ρ → ℕ) (array : ι → ρ) : Stamped stamp (History.start array) :=
  ⟨fun _ _ _ _ _ => Nat.le_refl _, fun _ _ _ _ _ _ => rfl⟩

/-- Replacing one register by one with a larger stamp. -/
theorem push (h : Stamped stamp H) [DecidableEq ι] {i : ι} {c : ρ}
    (hlt : stamp (H.current i) < stamp c) :
    Stamped stamp (H.push (Function.update H.current i c)) := by
  -- The new version against an older one, register by register.
  have hnew : ∀ x m, m ≤ H.now →
      stamp (H.version m x) ≤ stamp (Function.update H.current i c x) ∧
      (stamp (H.version m x) = stamp (Function.update H.current i c x) →
        H.version m x = Function.update H.current i c x) := by
    intro x m hm
    have hle := h.mono x m H.now hm (Nat.le_refl _)
    by_cases hx : x = i
    · subst hx
      rw [Function.update_self]
      unfold History.current at hlt
      omega
    · rw [Function.update_of_ne hx]
      exact ⟨hle, h.same x m H.now hm (Nat.le_refl _)⟩
  constructor
  · intro x m m' hmm hm'
    rw [History.push_now] at hm'
    by_cases hlast : m' = H.now + 1
    · subst hlast
      rw [History.push_version_now]
      by_cases hm : m = H.now + 1
      · subst hm
        exact Nat.le_of_eq (by rw [History.push_version_now])
      · rw [History.push_version H _ (by omega)]
        exact (hnew x m (by omega)).1
    · rw [History.push_version H _ (by omega), History.push_version H _ (by omega)]
      exact h.mono x m m' hmm (by omega)
  · intro x m m' hmm hm'
    rw [History.push_now] at hm'
    by_cases hlast : m' = H.now + 1
    · subst hlast
      rw [History.push_version_now]
      by_cases hm : m = H.now + 1
      · subst hm
        rw [History.push_version_now]
        exact fun _ => rfl
      · rw [History.push_version H _ (by omega)]
        exact (hnew x m (by omega)).2
    · rw [History.push_version H _ (by omega), History.push_version H _ (by omega)]
      exact h.same x m m' hmm (by omega)

/-- Two reads of a register, one after the other. -/
theorem read_mono (h : Stamped stamp H) {lo mid hi : ℕ} {i : ι} {c c' : ρ} (hhi : hi ≤ H.now)
    (hc : H.ReadIn lo mid i c) (hc' : H.ReadIn mid hi i c') : stamp c ≤ stamp c' := by
  obtain ⟨m, -, hm, rfl⟩ := hc
  obtain ⟨m', hm', hmhi, rfl⟩ := hc'
  exact h.mono i m m' (by omega) (by omega)

/-- **Double collect.**  If a register is read before and after `mid` with the
    same stamp, both reads have returned what it holds at `mid`. -/
theorem double_collect (h : Stamped stamp H) {lo mid hi : ℕ} {i : ι} {c c' : ρ}
    (hhi : hi ≤ H.now) (hc : H.ReadIn lo mid i c) (hc' : H.ReadIn mid hi i c')
    (hstamp : stamp c = stamp c') : H.version mid i = c' := by
  obtain ⟨m, -, hm, rfl⟩ := hc
  obtain ⟨m', hm', hmhi, rfl⟩ := hc'
  have h₁ := h.mono i m mid hm (by omega)
  have h₂ := h.mono i mid m' hm' (by omega)
  exact h.same i mid m' hm' (by omega) (by omega)

end Stamped

end Versions
