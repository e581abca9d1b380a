import Mathlib.Data.List.Basic

/-! # First-Seen Filters

    `firsts key seen l` keeps the elements of `l` whose key was not seen before.
    A loop that prints every key once, and remembers what it has printed, prints
    exactly these elements.

    The kept keys are distinct (`firsts_nodup`), they are all keys of the list
    (`mem_map_firsts`), and each kept element is the first one with its key
    (`firsts_first`).  Two keys that identify the same elements give the same
    filter (`firsts_congr`).
-/

namespace FirstSeen

variable {α β γ : Type} [DecidableEq β] [DecidableEq γ]

/-- The elements of a list whose key is new. -/
def firsts (key : α → β) : List β → List α → List α
  | _, [] => []
  | seen, a :: l =>
      if key a ∈ seen then firsts key seen l else a :: firsts key (key a :: seen) l

variable {key : α → β}

theorem firsts_sublist (key : α → β) (seen : List β) (l : List α) :
    (firsts key seen l).Sublist l := by
  induction l generalizing seen with
  | nil => exact List.Sublist.refl _
  | cons a l ih =>
    unfold firsts
    split
    · exact (ih seen).cons a
    · exact (ih (key a :: seen)).cons_cons a

/-- Every new key of the list is kept. -/
theorem mem_map_firsts {seen : List β} {l : List α} {b : β} :
    b ∈ (firsts key seen l).map key ↔ b ∈ l.map key ∧ b ∉ seen := by
  induction l generalizing seen with
  | nil => simp [firsts]
  | cons a l ih =>
    unfold firsts
    split
    · next hseen =>
      rw [ih]
      constructor
      · intro h
        obtain ⟨hb, hnew⟩ := h
        exact ⟨List.mem_cons_of_mem _ hb, hnew⟩
      · intro h
        obtain ⟨hb, hnew⟩ := h
        refine ⟨?_, hnew⟩
        rcases List.mem_cons.mp hb with rfl | hb
        · exact absurd hseen hnew
        · exact hb
    · next hseen =>
      rw [List.map_cons, List.mem_cons, ih, List.map_cons, List.mem_cons, List.mem_cons]
      constructor
      · intro hcase
        rcases hcase with rfl | ⟨hb, hnew⟩
        · exact ⟨.inl rfl, hseen⟩
        · exact ⟨.inr hb, fun h => hnew (.inr h)⟩
      · intro h
        obtain ⟨hb, hnew⟩ := h
        by_cases hba : b = key a
        · exact .inl hba
        · refine .inr ⟨hb.resolve_left hba, ?_⟩
          intro hcase
          rcases hcase with h | h
          · exact hba h
          · exact hnew h

/-- No key is kept twice. -/
theorem firsts_nodup (seen : List β) (l : List α) : ((firsts key seen l).map key).Nodup := by
  induction l generalizing seen with
  | nil => exact List.nodup_nil
  | cons a l ih =>
    unfold firsts
    split
    · exact ih seen
    · rw [List.map_cons, List.nodup_cons]
      refine ⟨?_, ih _⟩
      intro hmem
      exact (mem_map_firsts.mp hmem).2 List.mem_cons_self

/-- In an ordered list, a kept element comes before every other one with its key. -/
theorem firsts_first {r : α → α → Prop} {seen : List β} {l : List α} (hl : l.Pairwise r) {a b : α}
    (ha : a ∈ firsts key seen l) (hb : b ∈ l) (hkey : key b = key a) : b = a ∨ r a b := by
  induction l generalizing seen with
  | nil => cases hb
  | cons x l ih =>
    obtain ⟨hx, hl⟩ := List.pairwise_cons.mp hl
    unfold firsts at ha
    split at ha
    · next hseen =>
      -- The key of `x` was seen, so it is not the key of a kept element.
      rcases List.mem_cons.mp hb with rfl | hb
      · have hnew := (mem_map_firsts.mp (List.mem_map_of_mem (f := key) ha)).2
        rw [hkey] at hseen
        exact absurd hseen hnew
      · exact ih hl ha hb
    · rcases List.mem_cons.mp ha with rfl | ha
      · rcases List.mem_cons.mp hb with rfl | hb
        · exact .inl rfl
        · exact .inr (hx b hb)
      · rcases List.mem_cons.mp hb with rfl | hb
        · have hnew := (mem_map_firsts.mp (List.mem_map_of_mem (f := key) ha)).2
          rw [hkey] at hnew
          exact absurd List.mem_cons_self hnew
        · exact ih hl ha hb

/-- Keys that identify the same elements keep the same elements. -/
theorem firsts_congr {key' : α → γ} (seen : List α) {l : List α}
    (h : ∀ a ∈ l, ∀ b ∈ seen ++ l, key a = key b ↔ key' a = key' b) :
    firsts key (seen.map key) l = firsts key' (seen.map key') l := by
  induction l generalizing seen with
  | nil => rfl
  | cons a l ih =>
    have hmem : key a ∈ seen.map key ↔ key' a ∈ seen.map key' := by
      rw [List.mem_map, List.mem_map]
      constructor
      · intro h
        obtain ⟨b, hb, hkey⟩ := h
        exact ⟨b, hb, ((h a List.mem_cons_self b (List.mem_append_left _ hb)).mp hkey.symm).symm⟩
      · intro h
        obtain ⟨b, hb, hkey⟩ := h
        exact ⟨b, hb, ((h a List.mem_cons_self b (List.mem_append_left _ hb)).mpr hkey.symm).symm⟩
    unfold firsts
    by_cases hseen : key a ∈ seen.map key
    · rw [if_pos hseen, if_pos (hmem.mp hseen)]
      apply ih
      intro x hx b hb
      apply h x (List.mem_cons_of_mem _ hx) b
      simp only [List.mem_append, List.mem_cons] at hb ⊢
      tauto
    · rw [if_neg hseen, if_neg (fun hs => hseen (hmem.mpr hs))]
      rw [← List.map_cons, ← List.map_cons, ih]
      intro x hx b hb
      apply h x (List.mem_cons_of_mem _ hx) b
      simp only [List.mem_append, List.mem_cons] at hb ⊢
      tauto

/-- Keeping commutes with a map of the elements. -/
theorem firsts_map {δ : Type} (f : δ → α) (seen : List β) (l : List δ) :
    firsts key seen (l.map f) = (firsts (fun d => key (f d)) seen l).map f := by
  induction l generalizing seen with
  | nil => rfl
  | cons a l ih =>
    simp only [List.map_cons, firsts]
    split
    · exact ih seen
    · rw [List.map_cons, ih]

end FirstSeen
