import GraphClient.Proofs.Projection.Check
import Mathlib.Data.Fintype.Card
import Mathlib.Logic.Relation

/-!
# Projections that refer to each other

In a catalog a projection refers to earlier ones alone. In a `ProjectionGraph` any of them may refer
to any, in circles too. A check goes through what waits from the front, and what a projection refers
to waits before the rest; it ends because each projection is visited once. It reports what is wrong
with the projections that are reached (`mem_check`), and on the graph of a catalog it reports what
the catalog does (`check_graph`).
-/

namespace GraphClient

variable {n m : Nat}

/-- The same field, which refers to other positions. -/
def ProjectionField.renumber (f : Fin n → Fin m) : ProjectionField n → ProjectionField m
  | .plain type => .plain type
  | .nested target wrap => .nested (f target) wrap

namespace Projection

/-- The same projection, which refers to other positions. -/
def renumber (f : Fin n → Fin m) (p : Projection n) : Projection m :=
  ⟨p.name, p.fullType, p.fields.map fun _ => ProjectionField.renumber f⟩

theorem targets_renumber (f : Fin n → Fin m) (p : Projection n) :
    (p.renumber f).targets = p.targets.map f := by
  simp only [targets, renumber, Record.values, Record.map, List.map_map, List.filterMap_map,
    List.map_filterMap]
  refine List.filterMap_congr fun e _ => ?_
  cases h : e.2 <;> simp [h, ProjectionField.renumber]

theorem diagnostics_renumber (f : Fin n → Fin m) (p : Projection n) :
    (p.renumber f).diagnostics = p.diagnostics := by
  have ho : (p.renumber f).obligations = p.obligations := by
    have he : ∀ e : String × ProjectionField n,
        fieldObligations e.1 (e.2.renumber f) = fieldObligations e.1 e.2 := by
      rintro ⟨key, field⟩
      cases field <;> rfl
    simp only [obligations, renumber, Record.map, List.flatMap_map, he]
  rw [diagnostics, diagnostics, ho]
  rfl

end Projection

/-- Projections any of which may refer to any. -/
abbrev ProjectionGraph (n : Nat) := Fin n → Projection n

namespace ProjectionGraph

variable (g : ProjectionGraph n)

def Refers (i j : Fin n) : Prop := j ∈ (g i).targets

/-- The number of the projections that are not visited. -/
def unvisited (n : Nat) (visited : List Nat) : Nat :=
  (Finset.univ.filter fun i : Fin n => i.val ∉ visited).card

theorem unvisited_lt {visited : List Nat} {i : Fin n} (h : ¬ visited.contains i.val = true) :
    unvisited n (i.val :: visited) < unvisited n visited := by
  rw [List.contains_iff_mem] at h
  have hsub : (Finset.univ.filter fun j : Fin n => j.val ∉ i.val :: visited) ⊆
      Finset.univ.filter fun j => j.val ∉ visited :=
    Finset.monotone_filter_right _ fun j _ hj hm => hj (List.mem_cons_of_mem _ hm)
  exact Finset.card_lt_card
    ((Finset.ssubset_iff_of_subset hsub).mpr ⟨i, by simpa using h, by simp⟩)

/-- The diagnostics of what waits and of all that it reaches, less what is visited. -/
def report (visited : List Nat) : List (Fin n) → List Diagnostic
  | [] => []
  | i :: waiting =>
    if visited.contains i.val then report visited waiting
    else (g i).diagnostics ++ report (i.val :: visited) ((g i).targets ++ waiting)
termination_by waiting => (unvisited n visited, waiting.length)
decreasing_by
  · exact Prod.Lex.right _ (Nat.lt_succ_self _)
  -- what waits may grow here, but one more projection is visited
  · exact Prod.Lex.left _ _ (unvisited_lt ‹_›)

/-- The unmet obligations of a projection and of those it reaches. -/
def check (i : Fin n) : List Diagnostic := g.report [] [i]

variable {g}

/-- What a walk finds: what waits and is not visited, and what this refers to. -/
inductive Found (g : ProjectionGraph n) (visited : List Nat) (waiting : List (Fin n)) :
    Fin n → Prop where
  | waits {i : Fin n} : i ∈ waiting → i.val ∉ visited → Found g visited waiting i
  | referred {i j : Fin n} : Found g visited waiting i → g.Refers i j → j.val ∉ visited →
      Found g visited waiting j

section Found

variable {visited : List Nat} {waiting : List (Fin n)} {i j : Fin n}

theorem found_visited (hi : i.val ∈ visited) :
    g.Found visited (i :: waiting) j ↔ g.Found visited waiting j := by
  constructor
  · intro h
    induction h with
    | waits hk hv =>
      rcases List.mem_cons.mp hk with rfl | hk
      · exact absurd hi hv
      · exact .waits hk hv
    | referred _ hr hv ih => exact .referred ih hr hv
  · intro h
    induction h with
    | waits hk hv => exact .waits (List.mem_cons_of_mem i hk) hv
    | referred _ hr hv ih => exact .referred ih hr hv

/-- What is found behind a projection in front waits behind it, or is referred to by it. -/
theorem Found.behind (h : g.Found visited (i :: waiting) j) :
    j = i ∨ g.Found (i.val :: visited) ((g i).targets ++ waiting) j := by
  have hne : ∀ {k : Fin n}, k ≠ i → k.val ∉ visited → k.val ∉ i.val :: visited := by
    intro k hk hv hm
    rcases List.mem_cons.mp hm with hm | hm
    · exact hk (Fin.ext hm)
    · exact hv hm
  induction h with
  | @waits k hk hv =>
    rcases List.mem_cons.mp hk with rfl | hk
    · exact .inl rfl
    · by_cases hki : k = i
      · exact .inl hki
      · exact .inr (.waits (List.mem_append_right _ hk) (hne hki hv))
  | @referred _ k _ hr hv ih =>
    by_cases hki : k = i
    · exact .inl hki
    · rcases ih with rfl | ih
      · exact .inr (.waits (List.mem_append_left _ hr) (hne hki hv))
      · exact .inr (.referred ih hr (hne hki hv))

theorem Found.of_behind (hi : i.val ∉ visited)
    (h : g.Found (i.val :: visited) ((g i).targets ++ waiting) j) :
    g.Found visited (i :: waiting) j := by
  have hv : ∀ {k : Fin n}, k.val ∉ i.val :: visited → k.val ∉ visited :=
    fun hk hm => hk (List.mem_cons_of_mem _ hm)
  induction h with
  | waits hk hk' =>
    rcases List.mem_append.mp hk with hk | hk
    · exact .referred (.waits List.mem_cons_self hi) hk (hv hk')
    · exact .waits (List.mem_cons_of_mem i hk) (hv hk')
  | referred _ hr hk ih => exact .referred ih hr (hv hk)

theorem found_unvisited (hi : i.val ∉ visited) :
    g.Found visited (i :: waiting) j ↔
      j = i ∨ g.Found (i.val :: visited) ((g i).targets ++ waiting) j := by
  refine ⟨Found.behind, ?_⟩
  rintro (rfl | h)
  · exact .waits List.mem_cons_self hi
  · exact h.of_behind hi

/-- From one projection all that is reached is found. -/
theorem found_iff : g.Found [] [i] j ↔ Relation.ReflTransGen g.Refers i j := by
  constructor
  · intro h
    induction h with
    | waits hk _ => exact List.mem_singleton.mp hk ▸ .refl
    | referred _ hr _ ih => exact .tail ih hr
  · intro h
    induction h with
    | refl => exact .waits List.mem_cons_self List.not_mem_nil
    | tail _ hr ih => exact .referred ih hr List.not_mem_nil

variable {d : Diagnostic}

theorem mem_report :
    d ∈ g.report visited waiting ↔ ∃ j, g.Found visited waiting j ∧ d ∈ (g j).diagnostics := by
  fun_induction report g visited waiting with
  | case1 =>
    refine iff_of_false List.not_mem_nil ?_
    rintro ⟨j, hj, -⟩
    induction hj with
    | waits hk => cases hk
    | referred _ _ _ ih => exact ih
  | case2 visited i waiting hi ih =>
    simp only [ih, found_visited (List.contains_iff_mem.mp hi)]
  | case3 visited i waiting hi ih =>
    have hi' : i.val ∉ visited := fun hm => hi (List.contains_iff_mem.mpr hm)
    simp only [List.mem_append, ih, found_unvisited hi', or_and_right, exists_or, exists_eq_left]

/-- What is reported is what is wrong with the projections that are reached. -/
theorem mem_check :
    d ∈ g.check i ↔ ∃ j, Relation.ReflTransGen g.Refers i j ∧ d ∈ (g j).diagnostics := by
  simp only [check, mem_report, found_iff]

end Found

end ProjectionGraph

namespace Catalog

/-- The projections of a catalog at their positions. -/
def graph : {n : Nat} → Catalog n → ProjectionGraph n
  | n + 1, declare earlier p, i =>
    if h : i.val < n then (graph earlier ⟨i.val, h⟩).renumber Fin.castSucc
    else p.renumber Fin.castSucc

section Graph

variable (c : Catalog n) (p : Projection n)

theorem graph_last : (c.declare p).graph (Fin.last n) = p.renumber Fin.castSucc := by
  simp [graph]

theorem graph_castSucc (i : Fin n) :
    (c.declare p).graph i.castSucc = (c.graph i).renumber Fin.castSucc := by
  simp [graph]

theorem targets_graph {n : Nat} (c : Catalog n) (i : Fin n) :
    (c.graph i).targets = c.targets i := by
  induction c with
  | empty => exact i.elim0
  | @declare n earlier p ih =>
    cases i using Fin.lastCases with
    | last => rw [graph_last, Projection.targets_renumber, targets_last]
    | cast i => rw [graph_castSucc, Projection.targets_renumber, targets_castSucc, ih]

theorem diagnostics_graph {n : Nat} (c : Catalog n) (i : Fin n) :
    (c.graph i).diagnostics = c.diagnostics i := by
  induction c with
  | empty => exact i.elim0
  | @declare n earlier p ih =>
    cases i using Fin.lastCases with
    | last => rw [graph_last, Projection.diagnostics_renumber, diagnostics_last]
    | cast i => rw [graph_castSucc, Projection.diagnostics_renumber, diagnostics_castSucc, ih]

/-- A walk visits a projection and then what it refers to, all within the same catalog. -/
theorem walk_eq {n : Nat} (c : Catalog n) (i : Fin n) (seen : List Nat) :
    c.walk i seen =
      if seen.contains i.val then ([], seen)
      else
        let (later, visited) := Walk.sequence ((c.targets i).map c.walk) (i.val :: seen)
        (c.diagnostics i ++ later, visited) := by
  induction c with
  | empty => exact i.elim0
  | @declare n earlier p ih =>
    have hw : (earlier.declare p).walk ∘ Fin.castSucc = earlier.walk :=
      funext fun j => walk_castSucc earlier p j
    cases i using Fin.lastCases with
    | last => rw [walk_last, targets_last, List.map_map, hw, diagnostics_last, Fin.val_last]
    | cast i =>
      rw [walk_castSucc, targets_castSucc, List.map_map, hw, diagnostics_castSucc, ih]
      rfl

end Graph

/-- Walks one after the other, and then what waits behind them. -/
theorem report_sequence {c : Catalog n} (is : List (Fin n))
    (hw : ∀ i ∈ is, ∀ seen waiting, c.graph.report seen (i :: waiting) =
      (c.walk i seen).1 ++ c.graph.report (c.walk i seen).2 waiting)
    (seen : List Nat) (waiting : List (Fin n)) :
    c.graph.report seen (is ++ waiting) =
      (Walk.sequence (is.map c.walk) seen).1 ++
        c.graph.report (Walk.sequence (is.map c.walk) seen).2 waiting := by
  induction is generalizing seen with
  | nil => rfl
  | cons i is ih =>
    rw [List.cons_append, hw i List.mem_cons_self, ih fun j hj => hw j (List.mem_cons_of_mem i hj)]
    exact (List.append_assoc _ _ _).symm

/-- A projection in front is walked through before the rest. -/
theorem report_walk (c : Catalog n) (i : Fin n) (seen : List Nat) (waiting : List (Fin n)) :
    c.graph.report seen (i :: waiting) =
      (c.walk i seen).1 ++ c.graph.report (c.walk i seen).2 waiting := by
  -- what a projection refers to stands before it, so the induction is on the position
  induction hn : i.val using Nat.strongRecOn generalizing i seen waiting with
  | _ k ih =>
    have hs := report_sequence (c := c) (c.targets i)
      fun j hj seen waiting => ih j.val (hn ▸ targets_lt hj) j seen waiting rfl
    rw [ProjectionGraph.report, walk_eq]
    split
    · rfl
    · rw [targets_graph, hs, diagnostics_graph, List.append_assoc]

/-- On the graph of a catalog, what is reported is what the catalog reports. -/
theorem check_graph (c : Catalog n) (i : Fin n) : c.graph.check i = c.check i := by
  rw [ProjectionGraph.check, report_walk, ProjectionGraph.report, List.append_nil, check]

end Catalog

end GraphClient
