import ConcurrentProgramming.Framework.Transition
import Mathlib.Data.List.Basic

/-! # A Mutex with a Queue

    What a queue lock is for: one after another, in the order of their arrival.
    A client arrives at the end of the queue, the first of the queue enters, and
    it leaves the queue when it is done.

    The state keeps the logs of all arrivals and of all entries.  A lock that
    simulates `mutex` grants in the order of arrival (`enters_in_order`).
-/

namespace FifoMutex

open LTS

universe u

variable {Client : Type u}

structure State (Client : Type u) where
  /-- Who has arrived and not left. -/
  queue   : List Client
  /-- The first of the queue has entered. -/
  inside  : Bool
  arrived : List Client
  entered : List Client

inductive Label (Client : Type u) where
  | arrive (c : Client)
  | enter (c : Client)
  | leave (c : Client)

def mutex : System (State Client) (Label Client) where
  init := fun s => s = ⟨[], false, [], []⟩
  step := fun s l s' =>
    match l with
    | .arrive c => c ∉ s.queue ∧
        s' = { s with queue := s.queue ++ [c], arrived := s.arrived ++ [c] }
    | .enter c => s.inside = false ∧ s.queue.head? = some c ∧
        s' = { s with inside := true, entered := s.entered ++ [c] }
    | .leave c => s.inside = true ∧ s.queue.head? = some c ∧
        s' = { s with queue := s.queue.tail, inside := false }

/-- Who has entered: those who have left again, and then the first of the queue. -/
structure Logged (s : State Client) (gone : List Client) : Prop where
  arrived : s.arrived = gone ++ s.queue
  entered : s.entered = gone ++ if s.inside then s.queue.take 1 else []
  busy    : s.inside = true → s.queue ≠ []

theorem logged_step {s s' : State Client} {l : Label Client} {gone : List Client}
    (h : Logged s gone) (hstep : mutex.step s l s') : ∃ gone', Logged s' gone' := by
  cases l with
  | arrive c =>
    obtain ⟨-, rfl⟩ := hstep
    refine ⟨gone, ?_, ?_, ?_⟩
    · rw [h.arrived, List.append_assoc]
    · show s.entered = gone ++ if s.inside then (s.queue ++ [c]).take 1 else []
      rw [h.entered]
      cases hin : s.inside with
      | false => rfl
      | true =>
        -- The queue was not empty, so its first client is the same.
        obtain ⟨d, rest, hqueue⟩ := List.exists_cons_of_ne_nil (h.busy hin)
        rw [hqueue]
        rfl
    · intro _
      exact List.append_ne_nil_of_right_ne_nil _ (List.cons_ne_nil c [])
  | enter c =>
    obtain ⟨hin, hhead, rfl⟩ := hstep
    obtain ⟨rest, hqueue⟩ := List.head?_eq_some_iff.mp hhead
    refine ⟨gone, h.arrived, ?_, ?_⟩
    · show s.entered ++ [c] = gone ++ s.queue.take 1
      rw [h.entered, hin, hqueue]
      simp
    · intro _
      rw [hqueue]
      exact List.cons_ne_nil c rest
  | leave c =>
    obtain ⟨hin, hhead, rfl⟩ := hstep
    obtain ⟨rest, hqueue⟩ := List.head?_eq_some_iff.mp hhead
    refine ⟨gone ++ [c], ?_, ?_, ?_⟩
    · rw [h.arrived, hqueue]
      simp
    · rw [h.entered, hin, hqueue]
      simp
    · intro hfalse
      cases hfalse

theorem logged_reachable {s : State Client} (h : Reachable mutex s) : ∃ gone, Logged s gone := by
  apply h.invariant
  · intro s heq
    subst heq
    refine ⟨[], rfl, rfl, ?_⟩
    intro hfalse
    cases hfalse
  · intro s l s' _ hlogged hstep
    obtain ⟨gone, hlogged⟩ := hlogged
    exact logged_step hlogged hstep

theorem busy_reachable {s : State Client} (h : Reachable mutex s) (hin : s.inside = true) :
    s.queue ≠ [] := by
  obtain ⟨_, hlogged⟩ := logged_reachable h
  exact hlogged.busy hin

/-- **Clients enter in the order of their arrival.** -/
theorem enters_in_order {s : State Client} (h : Reachable mutex s) : s.entered <+: s.arrived := by
  obtain ⟨gone, hlogged⟩ := logged_reachable h
  rw [hlogged.arrived, hlogged.entered, List.prefix_append_right_inj]
  split
  · exact List.take_prefix 1 s.queue
  · exact List.nil_prefix

/-- Nobody is in the queue twice. -/
theorem queue_nodup {s : State Client} (h : Reachable mutex s) : s.queue.Nodup := by
  apply h.invariant
  · intro s heq
    subst heq
    exact List.nodup_nil
  · intro s l s' _ hnodup hstep
    cases l with
    | arrive c =>
      obtain ⟨hnew, rfl⟩ := hstep
      refine List.nodup_append.mpr ⟨hnodup, List.pairwise_singleton _ c, ?_⟩
      intro d hd e he heq
      rw [List.mem_singleton.mp he] at heq
      exact hnew (heq ▸ hd)
    | enter c =>
      obtain ⟨-, -, rfl⟩ := hstep
      exact hnodup
    | leave c =>
      obtain ⟨-, -, rfl⟩ := hstep
      exact hnodup.tail

end FifoMutex
