import ConcurrentProgramming.Framework.Transition
import Mathlib.Data.Finset.Card
import Mathlib.Data.Finset.Range
import Mathlib.Data.Finset.SDiff
import Mathlib.Logic.Relation

/-! # The Wait-For Graph (`directed_graph.cc`)

    The adjacency-list digraph that the lock table keeps over thread ids, and
    its search for a cycle through a given node.

    * `directed_graph`, `add_edge`, `remove_edge`: the data structure.  Each
      `assert` of the source is a point where a call may fail.
    * `get_cycle_recur`, `get_cycle`: the recursive depth-first search with one
      `visited` set shared by all start edges.  The recursion carries a depth
      bound; `get_cycle_isSome` shows that it is never hit.
    * `get_cycle_eq_nil_iff`: the result is empty exactly when no cycle passes
      through the start node.
    * `get_cycle_path`: a non-empty result spells such a cycle backwards.
    * `graph_edits`: the graphs that calls of `add_edge` and `remove_edge` build;
      they are well formed.
-/

namespace Project2

/-! ## Section 1: Failing calls -/

/-- The functions of the source that contain an `assert` or an unchecked access. -/
inductive SourceFunction where
  | add_edge | remove_edge | get_cycle
  | rdlock | wrlock | unlock | rd_unlock | wr_unlock
  | rdlock_clear_abort | wrlock_clear_abort
  | find_ahead_writer | find_ahead_reader_or_writer
  | rollback
  deriving DecidableEq, Repr

/-- How a call can fail to return. -/
inductive Failure where
  /-- `assert(expr)` fails in `function`; the program is aborted. -/
  | assertion (function : SourceFunction) (expr : String)
  /-- A vector is accessed outside its range. -/
  | out_of_range (function : SourceFunction) (expr : String)
  /-- The recursion exceeds the depth bound of the model. -/
  | no_return (function : SourceFunction)
  deriving DecidableEq, Repr

/-- `assert(expr)`. -/
def assert (c : Prop) [Decidable c] (function : SourceFunction) (expr : String) :
    Except Failure Unit :=
  if c then .ok () else .error (.assertion function expr)

theorem assert_pos {c : Prop} [Decidable c] (h : c) (f : SourceFunction) (expr : String) :
    assert c f expr = .ok () := by
  simp [assert, h]

@[simp] theorem ok_bind {ε α β : Type} (a : α) (f : α → Except ε β) :
    (Except.ok a >>= f) = f a := rfl

@[simp] theorem except_pure {ε α : Type} (a : α) : (pure a : Except ε α) = .ok a := rfl

theorem bind_eq_ok {α β : Type} {x : Except Failure α} {f : α → Except Failure β} {b : β}
    (h : (x >>= f) = .ok b) : ∃ a, x = .ok a ∧ f a = .ok b := by
  cases x with
  | error e => cases h
  | ok a => exact ⟨a, rfl, h⟩

/-! ## Section 2: The data structure -/

/-- `dest_and_count_t`: a destination and how often the edge is stored.
    Its `operator==` compares destinations only. -/
structure dest_and_count_t where
  dest  : ℕ
  count : ℤ
  deriving DecidableEq, Repr

/-- `directed_graph`: `nodes[x]` lists the edges that start at `x`. -/
structure directed_graph where
  number_of_nodes : ℕ
  nodes : ℕ → List dest_and_count_t

namespace directed_graph

/-- The constructor: no edges. -/
def empty (number_of_nodes : ℕ) : directed_graph where
  number_of_nodes := number_of_nodes
  nodes := fun _ => []

/-- `is_node_exist`. -/
def is_node_exist (g : directed_graph) (node_number : ℕ) : Bool :=
  decide (node_number < g.number_of_nodes)

/-- `add_edge(from, to)`.  An edge that is stored already runs into `assert(false)`. -/
def add_edge (g : directed_graph) (src dst : ℕ) : Except Failure (Bool × directed_graph) := do
  assert (src ≠ dst) .add_edge "from != to"
  if !(g.is_node_exist src && g.is_node_exist dst) then
    return (false, g)
  match (g.nodes src).find? (fun b => b.dest = dst) with
  | some _ => throw (.assertion .add_edge "false")
  | none =>
    return (true, { g with nodes := Function.update g.nodes src (g.nodes src ++ [⟨dst, 1⟩]) })

/-- The edge list after one unit of the first edge to `dst` has been taken away. -/
def take_edge (dst : ℕ) : List dest_and_count_t → List dest_and_count_t
  | [] => []
  | b :: rest =>
    if b.dest = dst then
      if b.count = 1 then rest else { b with count := b.count - 1 } :: rest
    else b :: take_edge dst rest

/-- `remove_edge(from, to)`.  A missing edge runs into `assert(false)`. -/
def remove_edge (g : directed_graph) (src dst : ℕ) : Except Failure (Bool × directed_graph) := do
  assert (src ≠ dst) .remove_edge "from != to"
  if !(g.is_node_exist src && g.is_node_exist dst) then
    return (false, g)
  match (g.nodes src).find? (fun b => b.dest = dst) with
  | some b =>
    assert (b.count ≠ 0) .remove_edge "iter->count != 0"
    return (true, { g with nodes := Function.update g.nodes src (take_edge dst (g.nodes src)) })
  | none => throw (.assertion .remove_edge "false")

/-! ## Section 3: The cycle search -/

/-- The loop of `get_cycle_recur` over the edges of a node; `recur` is the
    recursive call.  The result is whether the start node was found, the path
    collected so far and the visited set. -/
def visit_edges (recur : ℕ → List ℕ → Finset ℕ → Option (Bool × List ℕ × Finset ℕ)) :
    List dest_and_count_t → List ℕ → Finset ℕ → Option (Bool × List ℕ × Finset ℕ)
  | [], cycle, visited => some (false, cycle, visited)
  | to_buf :: rest, cycle, visited =>
    -- do not visit node again
    if to_buf.dest ∈ visited then visit_edges recur rest cycle visited
    else
      match recur to_buf.dest cycle visited with
      | none => none
      | some (true, cycle, visited) => some (true, cycle ++ [to_buf.dest], visited)
      | some (false, cycle, visited) => visit_edges recur rest cycle visited

/-- `get_cycle_recur(from, current_node, cycle_member_nodes, visited)`, at most
    `depth` calls deep.  The test for an empty edge list comes before the test
    for the start node, as in the source. -/
def get_cycle_recur (g : directed_graph) (start : ℕ) :
    (depth : ℕ) → ℕ → List ℕ → Finset ℕ → Option (Bool × List ℕ × Finset ℕ)
  | 0, _, _, _ => none
  | depth + 1, current_node, cycle, visited =>
    let visited := insert current_node visited
    if (g.nodes current_node).isEmpty then some (false, cycle, visited)
    else if current_node = start then some (true, cycle, visited)
    else visit_edges (get_cycle_recur g start depth) (g.nodes current_node) cycle visited

/-- The loop of `get_cycle` over the edges of the start node.  It does not
    consult `visited` itself. -/
def start_edges (g : directed_graph) (start depth : ℕ) :
    List dest_and_count_t → List ℕ → Finset ℕ → Option (List ℕ)
  | [], cycle, _ => some cycle
  | to_buf :: rest, cycle, visited =>
    match get_cycle_recur g start depth to_buf.dest cycle visited with
    | none => none
    | some (true, cycle, _) => some (cycle ++ [to_buf.dest])
    | some (false, cycle, visited) => start_edges g start depth rest cycle visited

/-- `get_cycle(from)`. -/
def get_cycle (g : directed_graph) (start : ℕ) : Option (List ℕ) :=
  start_edges g start (g.number_of_nodes + 1) (g.nodes start) [] ∅

/-! ## Section 4: Edges, walks, well-formed graphs -/

/-- There is a stored edge from `x` to `y`. -/
def edge (g : directed_graph) (x y : ℕ) : Prop := y ∈ (g.nodes x).map (·.dest)

/-- Stored edges stay within the nodes and are no self-loops. -/
structure WellFormed (g : directed_graph) : Prop where
  src_lt  : ∀ x y, g.edge x y → x < g.number_of_nodes
  dest_lt : ∀ x y, g.edge x y → y < g.number_of_nodes
  no_loop : ∀ x, ¬ g.edge x x

/-- `walk x zs y`: from `x` along the nodes `zs`, the last of which is `y`. -/
def walk (g : directed_graph) : ℕ → List ℕ → ℕ → Prop
  | x, [], y => x = y
  | x, z :: zs, y => g.edge x z ∧ g.walk z zs y

theorem walk_reflTransGen {g : directed_graph} {x y : ℕ} {zs : List ℕ} (h : g.walk x zs y) :
    Relation.ReflTransGen g.edge x y := by
  induction zs generalizing x with
  | nil => exact h ▸ .refl
  | cons z zs ih => exact .head h.1 (ih h.2)

/-! ## Section 5: The search loop and the recursion

    `visit_edges` is analysed for any recursive call that satisfies the
    statement to be proved, so that the recursion is one induction on the depth. -/

/-- What a call that does not find the start node guarantees: the path is left
    as it was, and every node it newly visited (or was called on) is explored,
    with all its successors visited. -/
def explored (g : directed_graph) (start : ℕ) (old new : Finset ℕ) : Prop :=
  ∀ x ∈ new, x ∉ old → x ≠ start ∧ ∀ y, g.edge x y → y ∈ new

/-- The visited set only grows. -/
theorem visit_edges_mono {recur : ℕ → List ℕ → Finset ℕ → Option (Bool × List ℕ × Finset ℕ)}
    (hrec : ∀ x c v b c' v', recur x c v = some (b, c', v') → v ⊆ v')
    {es : List dest_and_count_t} {c c' : List ℕ} {v v' : Finset ℕ} {b : Bool}
    (h : visit_edges recur es c v = some (b, c', v')) : v ⊆ v' := by
  induction es generalizing c v with
  | nil =>
    simp only [visit_edges, Option.some.injEq, Prod.mk.injEq] at h
    rw [h.2.2]
  | cons e es ih =>
    simp only [visit_edges] at h
    split at h
    · exact ih h
    · split at h
      · exact absurd h (by simp)
      · next c₁ v₁ hr =>
        simp only [Option.some.injEq, Prod.mk.injEq] at h
        rw [← h.2.2]
        exact hrec _ _ _ _ _ _ hr
      · next c₁ v₁ hr => exact (hrec _ _ _ _ _ _ hr).trans (ih h)

theorem get_cycle_recur_mono {g : directed_graph} {start depth cur : ℕ} {c c' : List ℕ}
    {v v' : Finset ℕ} {b : Bool}
    (h : get_cycle_recur g start depth cur c v = some (b, c', v')) : insert cur v ⊆ v' := by
  induction depth generalizing cur c v b c' v' with
  | zero => simp [get_cycle_recur] at h
  | succ depth ih =>
    simp only [get_cycle_recur] at h
    split at h
    · simp only [Option.some.injEq, Prod.mk.injEq] at h
      rw [h.2.2]
    · split at h
      · simp only [Option.some.injEq, Prod.mk.injEq] at h
        rw [h.2.2]
      · refine visit_edges_mono (fun x c v b c' v' hx => ?_) h
        exact (Finset.subset_insert _ _).trans (ih hx)

theorem visit_edges_false (g : directed_graph) (start : ℕ)
    {recur : ℕ → List ℕ → Finset ℕ → Option (Bool × List ℕ × Finset ℕ)}
    (hmono : ∀ x c v b c' v', recur x c v = some (b, c', v') → insert x v ⊆ v')
    (hrec : ∀ x c v c' v', x ∉ v → recur x c v = some (false, c', v') →
      c' = c ∧ explored g start v v')
    {es : List dest_and_count_t} {c c' : List ℕ} {v v' : Finset ℕ}
    (h : visit_edges recur es c v = some (false, c', v')) :
    c' = c ∧ explored g start v v' ∧ ∀ e ∈ es, e.dest ∈ v' := by
  induction es generalizing c v with
  | nil =>
    simp only [visit_edges, Option.some.injEq, Prod.mk.injEq] at h
    obtain ⟨-, rfl, rfl⟩ := h
    exact ⟨rfl, fun x hx hxv => absurd hx hxv, by simp⟩
  | cons e es ih =>
    have hsub : ∀ c v, visit_edges recur es c v = some (false, c', v') → v ⊆ v' := by
      intro c v
      refine visit_edges_mono fun x c v b c' v' hx => ?_
      exact (Finset.subset_insert _ _).trans (hmono _ _ _ _ _ _ hx)
    simp only [visit_edges] at h
    split at h
    · next hmem =>
      obtain ⟨hc, hexp, hes⟩ := ih h
      refine ⟨hc, hexp, fun b hb => ?_⟩
      rcases List.mem_cons.mp hb with rfl | hb
      · exact hsub _ _ h hmem
      · exact hes b hb
    · next hmem =>
      split at h
      · exact absurd h (by simp)
      · exact absurd h (by simp)
      · next c₁ v₁ hr =>
        obtain ⟨rfl, hexp₁⟩ := hrec _ _ _ _ _ hmem hr
        obtain ⟨rfl, hexp₂, hes⟩ := ih h
        have hv₁ : v₁ ⊆ v' := hsub _ _ h
        refine ⟨rfl, ?_, fun b hb => ?_⟩
        · -- A new node was visited either by this call or by the rest of the loop.
          intro x hx hxv
          by_cases hx₁ : x ∈ v₁
          · obtain ⟨hne, hsucc⟩ := hexp₁ x hx₁ hxv
            exact ⟨hne, fun y hy => hv₁ (hsucc y hy)⟩
          · exact hexp₂ x hx hx₁
        · rcases List.mem_cons.mp hb with rfl | hb
          · exact hv₁ (hmono _ _ _ _ _ _ hr (Finset.mem_insert_self _ _))
          · exact hes b hb

/-- **Exploration.** A call that returns `false` has explored what it visited,
    and the node it was called on. -/
theorem get_cycle_recur_false {g : directed_graph} {start depth cur : ℕ} {c c' : List ℕ}
    {v v' : Finset ℕ} (hstart : g.nodes start ≠ [])
    (h : get_cycle_recur g start depth cur c v = some (false, c', v')) :
    c' = c ∧ explored g start v v' ∧ (cur ≠ start ∧ ∀ y, g.edge cur y → y ∈ v') := by
  induction depth generalizing cur c v c' v' with
  | zero => simp [get_cycle_recur] at h
  | succ depth ih =>
    simp only [get_cycle_recur] at h
    split at h
    · next hempty =>
      -- A node without edges is explored at once; it is not the start node.
      simp only [Option.some.injEq, Prod.mk.injEq] at h
      obtain ⟨-, rfl, rfl⟩ := h
      rw [List.isEmpty_iff] at hempty
      have hcur : cur ≠ start ∧ ∀ y, g.edge cur y → y ∈ insert cur v := by
        refine ⟨?_, fun y hy => ?_⟩
        · intro heq
          subst heq
          exact hstart hempty
        · simp [edge, hempty] at hy
      refine ⟨rfl, fun x hx hxv => ?_, hcur⟩
      rcases Finset.mem_insert.mp hx with rfl | hx
      · exact hcur
      · exact absurd hx hxv
    · split at h
      · exact absurd h (by simp)
      · next hne =>
        have hspec := visit_edges_false g start
          (fun x c v b c' v' hx => get_cycle_recur_mono hx)
          (fun x c v c' v' _ hx => ⟨(ih hx).1, (ih hx).2.1⟩) h
        obtain ⟨hc, hexp, hes⟩ := hspec
        have hcur : cur ≠ start ∧ ∀ y, g.edge cur y → y ∈ v' := by
          refine ⟨hne, fun y hy => ?_⟩
          obtain ⟨e, he, rfl⟩ := List.mem_map.mp hy
          exact hes e he
        refine ⟨hc, fun x hx hxv => ?_, hcur⟩
        by_cases hxc : x = cur
        · exact hxc ▸ hcur
        · exact hexp x hx (by simp [hxc, hxv])

theorem visit_edges_true {g : directed_graph} {start cur : ℕ}
    {recur : ℕ → List ℕ → Finset ℕ → Option (Bool × List ℕ × Finset ℕ)}
    (hmono : ∀ x c v b c' v', recur x c v = some (b, c', v') → insert x v ⊆ v')
    (hfalse : ∀ x c v c' v', recur x c v = some (false, c', v') → c' = c)
    (hrec : ∀ x c v c' v', recur x c v = some (true, c', v') →
      ∃ zs, c' = c ++ zs.reverse ∧ g.walk x zs start ∧ zs.Nodup ∧ ∀ z ∈ zs, z ∉ insert x v)
    {es : List dest_and_count_t} {c c' : List ℕ} {v v' : Finset ℕ}
    (hes : ∀ e ∈ es, g.edge cur e.dest)
    (h : visit_edges recur es c v = some (true, c', v')) :
    ∃ zs, c' = c ++ zs.reverse ∧ g.walk cur zs start ∧ zs.Nodup ∧ ∀ z ∈ zs, z ∉ v := by
  induction es generalizing c v with
  | nil => simp [visit_edges] at h
  | cons e es ih =>
    have hes' : ∀ b ∈ es, g.edge cur b.dest := fun b hb => hes b (List.mem_cons_of_mem _ hb)
    simp only [visit_edges] at h
    split at h
    · exact ih hes' h
    · next hmem =>
      split at h
      · exact absurd h (by simp)
      · next c₁ v₁ hr =>
        simp only [Option.some.injEq, Prod.mk.injEq, true_and] at h
        obtain ⟨zs, rfl, hwalk, hnd, hnew⟩ := hrec _ _ _ _ _ hr
        refine ⟨e.dest :: zs, ?_, ⟨hes e (by simp), hwalk⟩, ?_, ?_⟩
        · rw [← h.1]
          simp
        · rw [List.nodup_cons]
          exact ⟨fun hz => hnew _ hz (Finset.mem_insert_self _ _), hnd⟩
        · intro z hz
          rcases List.mem_cons.mp hz with rfl | hz
          · exact hmem
          · exact fun hv => hnew z hz (Finset.mem_insert_of_mem hv)
      · next c₁ v₁ hr =>
        obtain rfl := hfalse _ _ _ _ _ hr
        obtain ⟨zs, hc, hwalk, hnd, hnew⟩ := ih hes' h
        refine ⟨zs, hc, hwalk, hnd, fun z hz hzv => hnew z hz ?_⟩
        exact hmono _ _ _ _ _ _ hr (Finset.mem_insert_of_mem hzv)

/-- **Path.** A call that returns `true` has appended, backwards, a walk to the
    start node over nodes that were not visited before. -/
theorem get_cycle_recur_true {g : directed_graph} {start depth cur : ℕ} {c c' : List ℕ}
    {v v' : Finset ℕ} (hstart : g.nodes start ≠ [])
    (h : get_cycle_recur g start depth cur c v = some (true, c', v')) :
    ∃ zs, c' = c ++ zs.reverse ∧ g.walk cur zs start ∧ zs.Nodup ∧
      ∀ z ∈ zs, z ∉ insert cur v := by
  induction depth generalizing cur c v c' v' with
  | zero => simp [get_cycle_recur] at h
  | succ depth ih =>
    simp only [get_cycle_recur] at h
    split at h
    · exact absurd h (by simp)
    · split at h
      · next heq =>
        simp only [Option.some.injEq, Prod.mk.injEq, true_and] at h
        exact ⟨[], by simp [h.1], heq, by simp, by simp⟩
      · exact visit_edges_true (g := g)
          (fun x c v b c' v' hx => get_cycle_recur_mono hx)
          (fun x c v c' v' hx => (get_cycle_recur_false hstart hx).1)
          (fun x c v c' v' hx => ih hx)
          (fun e he => List.mem_map_of_mem he) h

/-! ## Section 6: The depth bound is never hit -/

/-- Nodes not visited yet. -/
def unvisited (g : directed_graph) (v : Finset ℕ) : ℕ := (Finset.range g.number_of_nodes \ v).card

theorem unvisited_anti {g : directed_graph} {v v' : Finset ℕ} (h : v ⊆ v') :
    g.unvisited v' ≤ g.unvisited v :=
  Finset.card_le_card (Finset.sdiff_subset_sdiff (Finset.Subset.refl _) h)

theorem unvisited_insert {g : directed_graph} {v : Finset ℕ} {x : ℕ}
    (hx : x < g.number_of_nodes) (hv : x ∉ v) : g.unvisited (insert x v) < g.unvisited v := by
  refine Finset.card_lt_card (Finset.ssubset_iff_subset_ne.mpr ⟨?_, fun heq => ?_⟩)
  · exact Finset.sdiff_subset_sdiff (Finset.Subset.refl _) (Finset.subset_insert _ _)
  · have hmem : x ∈ Finset.range g.number_of_nodes \ v := by simp [hx, hv]
    rw [← heq] at hmem
    simp at hmem

theorem visit_edges_ne_none (g : directed_graph) (bound : ℕ)
    {recur : ℕ → List ℕ → Finset ℕ → Option (Bool × List ℕ × Finset ℕ)}
    (hmono : ∀ x c v b c' v', recur x c v = some (b, c', v') → insert x v ⊆ v')
    (hrec : ∀ x c v, x < g.number_of_nodes → g.unvisited (insert x v) < bound →
      recur x c v ≠ none)
    {es : List dest_and_count_t} {c : List ℕ} {v : Finset ℕ}
    (hes : ∀ e ∈ es, e.dest < g.number_of_nodes) (hv : g.unvisited v ≤ bound) :
    visit_edges recur es c v ≠ none := by
  induction es generalizing c v with
  | nil => simp [visit_edges]
  | cons e es ih =>
    have hes' : ∀ b ∈ es, b.dest < g.number_of_nodes :=
      fun b hb => hes b (List.mem_cons_of_mem _ hb)
    simp only [visit_edges]
    split
    · exact ih hes' hv
    · next hmem =>
      have hlt := hes e (by simp)
      have hnone := hrec e.dest c v hlt (Nat.lt_of_lt_of_le (unvisited_insert hlt hmem) hv)
      split
      · next h => exact absurd h hnone
      · simp
      · next c₁ v₁ hr =>
        refine ih hes' (le_trans (unvisited_anti ?_) hv)
        exact (Finset.subset_insert _ _).trans (hmono _ _ _ _ _ _ hr)

theorem get_cycle_recur_ne_none {g : directed_graph} (hg : g.WellFormed) (start : ℕ)
    {depth cur : ℕ} (c : List ℕ) {v : Finset ℕ} (h : g.unvisited (insert cur v) < depth) :
    get_cycle_recur g start depth cur c v ≠ none := by
  induction depth generalizing cur c v with
  | zero => omega
  | succ depth ih =>
    simp only [get_cycle_recur]
    split
    · simp
    · split
      · simp
      · refine visit_edges_ne_none g depth
          (fun x c v b c' v' hx => get_cycle_recur_mono hx)
          (fun x c v _ hx => ih c hx) (fun e he => ?_) (by omega)
        exact hg.dest_lt cur e.dest (List.mem_map_of_mem he)

theorem start_edges_ne_none {g : directed_graph} (hg : g.WellFormed) {start : ℕ}
    {es : List dest_and_count_t} {c : List ℕ} {v : Finset ℕ} :
    start_edges g start (g.number_of_nodes + 1) es c v ≠ none := by
  induction es generalizing c v with
  | nil => simp [start_edges]
  | cons e es ih =>
    have hbound : g.unvisited (insert e.dest v) < g.number_of_nodes + 1 := by
      have := Finset.card_le_card
        (Finset.sdiff_subset (s := Finset.range g.number_of_nodes) (t := insert e.dest v))
      rw [Finset.card_range] at this
      exact Nat.lt_succ_of_le this
    have hnone := get_cycle_recur_ne_none hg start c hbound
    simp only [start_edges]
    split
    · next h => exact absurd h hnone
    · simp
    · exact ih

/-- **Termination.** The search returns: the depth bound is never hit. -/
theorem get_cycle_isSome {g : directed_graph} (hg : g.WellFormed) (start : ℕ) :
    ∃ cycle, g.get_cycle start = some cycle :=
  Option.ne_none_iff_exists'.mp (start_edges_ne_none hg)

/-! ## Section 7: What the search finds -/

/-- The loop over the start edges: either it returns the collected cycle, or
    all successors of the start node lie in an explored set. -/
theorem start_edges_spec {g : directed_graph} {start depth : ℕ} (hstart : g.nodes start ≠ [])
    {es : List dest_and_count_t} {v : Finset ℕ} {cycle : List ℕ}
    (hv : explored g start ∅ v) (hes : ∀ e ∈ es, g.edge start e.dest)
    (h : start_edges g start depth es [] v = some cycle) :
    (∃ d zs, cycle = (d :: zs).reverse ∧ g.walk start (d :: zs) start ∧ (d :: zs).Nodup) ∨
    (cycle = [] ∧ ∃ v', v ⊆ v' ∧ explored g start ∅ v' ∧ ∀ e ∈ es, e.dest ∈ v') := by
  induction es generalizing v with
  | nil =>
    simp only [start_edges, Option.some.injEq] at h
    exact Or.inr ⟨h.symm, v, Finset.Subset.refl _, hv, by simp⟩
  | cons e es ih =>
    simp only [start_edges] at h
    split at h
    · exact absurd h (by simp)
    · next c₁ v₁ hr =>
      obtain ⟨zs, rfl, hwalk, hnd, hnew⟩ := get_cycle_recur_true hstart hr
      simp only [Option.some.injEq] at h
      refine Or.inl ⟨e.dest, zs, ?_, ⟨hes e (by simp), hwalk⟩, ?_⟩
      · rw [← h]
        simp
      · rw [List.nodup_cons]
        exact ⟨fun hz => hnew _ hz (Finset.mem_insert_self _ _), hnd⟩
    · next c₁ v₁ hr =>
      obtain ⟨rfl, hexp, hcur⟩ := get_cycle_recur_false hstart hr
      have hins := get_cycle_recur_mono hr
      have hsub : v ⊆ v₁ := (Finset.subset_insert _ _).trans hins
      -- What was explored before stays explored in the larger set.
      have hv₁ : explored g start ∅ v₁ := by
        intro x hx _
        by_cases hxv : x ∈ v
        · obtain ⟨hne, hsucc⟩ := hv x hxv (by simp)
          exact ⟨hne, fun y hy => hsub (hsucc y hy)⟩
        · exact hexp x hx hxv
      rcases ih hv₁ (fun b hb => hes b (List.mem_cons_of_mem _ hb)) h with hfound | hnot
      · exact Or.inl hfound
      · obtain ⟨rfl, v', hv', hexp', hes'⟩ := hnot
        refine Or.inr ⟨rfl, v', hsub.trans hv', hexp', fun b hb => ?_⟩
        rcases List.mem_cons.mp hb with rfl | hb
        · exact hv' (hins (Finset.mem_insert_self _ _))
        · exact hes' b hb

/-- **Cycle.** A non-empty result is, backwards, a cycle through the start node
    over pairwise distinct nodes. -/
theorem get_cycle_path {g : directed_graph} {start : ℕ} {cycle : List ℕ}
    (h : g.get_cycle start = some cycle) (hne : cycle ≠ []) :
    ∃ d zs, cycle = (d :: zs).reverse ∧ g.walk start (d :: zs) start ∧ (d :: zs).Nodup := by
  by_cases hstart : g.nodes start = []
  · simp only [get_cycle, hstart, start_edges, Option.some.injEq] at h
    exact absurd h.symm hne
  · have hspec := start_edges_spec hstart (fun x hx => by simp at hx)
      (fun e he => List.mem_map_of_mem he) h
    rcases hspec with hfound | hnot
    · exact hfound
    · exact absurd hnot.1 hne

/-- **Completeness and soundness.** The result is empty exactly when no cycle
    passes through the start node. -/
theorem get_cycle_eq_nil_iff {g : directed_graph} {start : ℕ} {cycle : List ℕ}
    (h : g.get_cycle start = some cycle) :
    cycle = [] ↔ ¬ Relation.TransGen g.edge start start := by
  constructor
  · intro heq hcycle
    subst heq
    have hstart : g.nodes start ≠ [] := by
      intro hnil
      obtain ⟨y, hy, _⟩ := Relation.TransGen.head'_iff.mp hcycle
      simp [edge, hnil] at hy
    have hspec := start_edges_spec hstart (fun x hx => by simp at hx)
      (fun e he => List.mem_map_of_mem he) h
    rcases hspec with ⟨d, zs, hnil, _⟩ | ⟨-, v', -, hexp, hes⟩
    · simp at hnil
    · -- The explored set is closed under edges and does not contain `start`.
      have hclosed : ∀ y, Relation.TransGen g.edge start y → y ∈ v' := by
        intro y hy
        induction hy with
        | single hy =>
          obtain ⟨e, he, rfl⟩ := List.mem_map.mp hy
          exact hes e he
        | tail _ hyz ih => exact (hexp _ ih (by simp)).2 _ hyz
      exact (hexp start (hclosed start hcycle) (by simp)).1 rfl
  · intro hno
    by_contra hne
    obtain ⟨d, zs, -, hwalk, -⟩ := get_cycle_path h hne
    exact hno (.head' hwalk.1 (walk_reflTransGen hwalk.2))

/-- The last edge of a walk. -/
theorem walk_last_edge {g : directed_graph} {x y w z : ℕ} {zs : List ℕ}
    (h : g.walk x (zs ++ [w, z]) y) : g.edge w z ∧ z = y := by
  induction zs generalizing x with
  | nil => exact ⟨h.2.1, h.2.2⟩
  | cons a zs ih => exact ih h.2

/-- The first two members of a non-empty result: the start node, and a node
    with an edge to it. -/
theorem get_cycle_head {g : directed_graph} (hg : g.WellFormed) {start : ℕ} {cycle : List ℕ}
    (h : g.get_cycle start = some cycle) (hne : cycle ≠ []) :
    ∃ w rest, cycle = start :: w :: rest ∧ g.edge w start := by
  obtain ⟨d, zs, hcycle, hwalk, -⟩ := get_cycle_path h hne
  have hrev : d :: zs = cycle.reverse := by simp [hcycle]
  rw [hrev] at hwalk
  match cycle, hne with
  | [a], _ =>
    -- A cycle of one node would be a self-loop.
    obtain ⟨hedge, rfl⟩ := hwalk
    exact absurd hedge (hg.no_loop a)
  | z :: w :: rest, _ =>
    have hsplit : (z :: w :: rest).reverse = rest.reverse ++ [w, z] := by simp
    rw [hsplit] at hwalk
    obtain ⟨hedge, rfl⟩ := walk_last_edge hwalk
    exact ⟨w, rest, rfl, hedge⟩

/-! ## Section 8: Graphs built by edits -/

/-- A call that changes the graph. -/
inductive Edit where
  | add_edge (src dst : ℕ)
  | remove_edge (src dst : ℕ)

/-- The graphs over `n` nodes that `add_edge` and `remove_edge` build.  A call
    whose `assert` fails does not return. -/
def graph_edits (n : ℕ) : LTS.System directed_graph Edit where
  init := fun g => g = empty n
  step := fun g c g' =>
    match c with
    | .add_edge src dst => ∃ added, g.add_edge src dst = .ok (added, g')
    | .remove_edge src dst => ∃ removed, g.remove_edge src dst = .ok (removed, g')

theorem edits_add_edge {n : ℕ} {g g' : directed_graph} (h : LTS.Reachable (graph_edits n) g)
    (src dst : ℕ) {added : Bool} (hadd : g.add_edge src dst = .ok (added, g')) :
    LTS.Reachable (graph_edits n) g' :=
  h.step (l := Edit.add_edge src dst) ⟨added, hadd⟩

theorem well_formed_empty (n : ℕ) : (empty n).WellFormed := by
  refine ⟨?_, ?_, ?_⟩ <;> simp [edge, empty]

/-- The graph with the edges of `src` replaced is well formed if the new edges
    lead from a node to other nodes. -/
theorem WellFormed.update {g : directed_graph} (hg : g.WellFormed) {src : ℕ}
    {es : List dest_and_count_t}
    (hes : ∀ y ∈ es.map (·.dest), g.edge src y ∨
      src < g.number_of_nodes ∧ y < g.number_of_nodes ∧ src ≠ y) :
    WellFormed { g with nodes := Function.update g.nodes src es } := by
  -- Every edge is an old one, or it starts at `src`.
  have hedge : ∀ x y, edge { g with nodes := Function.update g.nodes src es } x y →
      g.edge x y ∨ x < g.number_of_nodes ∧ y < g.number_of_nodes ∧ x ≠ y := by
    intro x y hxy
    by_cases hx : x = src
    · subst hx
      apply hes
      simpa [edge] using hxy
    · left
      simpa [edge, hx] using hxy
  refine ⟨?_, ?_, ?_⟩
  · intro x y hxy
    rcases hedge x y hxy with hold | hnew
    · exact hg.src_lt x y hold
    · exact hnew.1
  · intro x y hxy
    rcases hedge x y hxy with hold | hnew
    · exact hg.dest_lt x y hold
    · exact hnew.2.1
  · intro x hxx
    rcases hedge x x hxx with hold | hnew
    · exact hg.no_loop x hold
    · exact hnew.2.2 rfl

theorem add_edge_cases {g g' : directed_graph} {src dst : ℕ} {added : Bool}
    (h : g.add_edge src dst = .ok (added, g')) :
    g' = g ∨ src ≠ dst ∧ src < g.number_of_nodes ∧ dst < g.number_of_nodes ∧
      g' = { g with nodes := Function.update g.nodes src (g.nodes src ++ [⟨dst, 1⟩]) } := by
  by_cases hne : src = dst
  · simp [add_edge, assert, hne] at h
    cases h
  · simp only [add_edge, assert_pos hne, ok_bind] at h
    split at h
    · cases h
      exact Or.inl rfl
    · next hexist =>
      simp only [is_node_exist, Bool.not_eq_true, Bool.not_eq_false', Bool.and_eq_true,
        decide_eq_true_eq] at hexist
      split at h
      · cases h
      · cases h
        exact Or.inr ⟨hne, hexist.1, hexist.2, rfl⟩

theorem remove_edge_cases {g g' : directed_graph} {src dst : ℕ} {removed : Bool}
    (h : g.remove_edge src dst = .ok (removed, g')) :
    g' = g ∨
      g' = { g with nodes := Function.update g.nodes src (take_edge dst (g.nodes src)) } := by
  by_cases hne : src = dst
  · simp [remove_edge, assert, hne] at h
    cases h
  · simp only [remove_edge, assert_pos hne, ok_bind] at h
    split at h
    · cases h
      exact Or.inl rfl
    · split at h
      · next b _ =>
        by_cases hcount : b.count = 0
        · simp [assert, hcount] at h
          cases h
        · simp only [assert_pos hcount, ok_bind] at h
          cases h
          exact Or.inr rfl
      · cases h

/-- `take_edge` leaves no edge that was not there. -/
theorem mem_take_edge {dst y : ℕ} {es : List dest_and_count_t}
    (h : y ∈ (take_edge dst es).map (·.dest)) : y ∈ es.map (·.dest) := by
  induction es with
  | nil => exact h
  | cons b rest ih =>
    unfold take_edge at h
    split at h
    · split at h
      · exact List.mem_cons_of_mem _ h
      · exact h
    · rcases List.mem_cons.mp h with rfl | hrest
      · exact List.mem_cons_self
      · exact List.mem_cons_of_mem _ (ih hrest)

theorem well_formed_of_edits {n : ℕ} {g : directed_graph} (h : LTS.Reachable (graph_edits n) g) :
    g.WellFormed := by
  apply h.invariant
  · intro g hinit
    subst hinit
    exact well_formed_empty n
  · intro g c g' _ hg hstep
    cases c with
    | add_edge src dst =>
      obtain ⟨added, hadd⟩ := hstep
      rcases add_edge_cases hadd with rfl | ⟨hne, hsrc, hdst, rfl⟩
      · exact hg
      · apply hg.update
        intro y hy
        rw [List.map_append, List.mem_append] at hy
        rcases hy with hold | hnew
        · exact Or.inl hold
        · obtain rfl := List.mem_singleton.mp hnew
          exact Or.inr ⟨hsrc, hdst, hne⟩
    | remove_edge src dst =>
      obtain ⟨removed, hremove⟩ := hstep
      rcases remove_edge_cases hremove with rfl | rfl
      · exact hg
      · apply hg.update
        intro y hy
        exact Or.inl (mem_take_edge hy)

/-- **`get_cycle` is sound and complete** on every graph that edits build: it
    returns, its result is not empty iff a cycle passes through the start node,
    and the result then spells such a cycle backwards. -/
theorem get_cycle_sound_and_complete {n : ℕ} {g : directed_graph}
    (h : LTS.Reachable (graph_edits n) g) {start : ℕ} (_hstart : start < n) :
    ∃ v, g.get_cycle start = some v ∧
      (v ≠ [] ↔ Relation.TransGen g.edge start start) ∧
      (v ≠ [] → v.head? = some start ∧ v.Nodup ∧ 2 ≤ v.length ∧
        g.walk start v.reverse start) := by
  have hg := well_formed_of_edits h
  obtain ⟨v, hv⟩ := get_cycle_isSome hg start
  refine ⟨v, hv, ?_, ?_⟩
  · rw [ne_eq, get_cycle_eq_nil_iff hv, not_not]
  · intro hne
    obtain ⟨d, zs, hpath, hwalk, hnodup⟩ := get_cycle_path hv hne
    obtain ⟨w, rest, hhead, -⟩ := get_cycle_head hg hv hne
    refine ⟨?_, ?_, ?_, ?_⟩
    · rw [hhead]
      rfl
    · rw [hpath, List.nodup_reverse]
      exact hnodup
    · rw [hhead]
      simp
    · rw [hpath, List.reverse_reverse]
      exact hwalk

/-- Three nodes in a ring. -/
theorem get_cycle_ring :
    ∃ g, LTS.Reachable (graph_edits 3) g ∧ g.get_cycle 0 = some [0, 2, 1] ∧
      ∃ v, g.get_cycle 0 = some v ∧ (v ≠ [] ↔ Relation.TransGen g.edge 0 0) ∧
        (v ≠ [] → v.head? = some 0 ∧ v.Nodup ∧ 2 ≤ v.length ∧ g.walk 0 v.reverse 0) := by
  have h₁ := edits_add_edge (.init (s := empty 3) rfl) 0 1 rfl
  have h₂ := edits_add_edge h₁ 1 2 rfl
  have h₃ := edits_add_edge h₂ 2 0 rfl
  exact ⟨_, h₃, rfl, get_cycle_sound_and_complete h₃ (by decide)⟩

end directed_graph

end Project2
