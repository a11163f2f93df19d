import GraphClient.Projection

/-!
# The order of visits

`Catalog.preorder` is a projection and then, field after field, the preorders of those it refers
to: a projection that is reached in several ways stands in it several times. `Catalog.visits`
keeps its first place alone. A walk makes these visits, less those that were made before it
(`walk_visits`). What was visited before must hold, with a projection that the walk can reach,
all that can be reached from there (`Closed`); this is how a walk leaves it.
-/

namespace GraphClient

section Duplicates

variable {α β : Type} [BEq α] [LawfulBEq α] [BEq β] [LawfulBEq β]

theorem nodup_eraseDups : (as : List α) → as.eraseDups.Nodup
  | [] => List.nodup_nil
  | a :: as => by
    rw [List.eraseDups_cons, List.nodup_cons]
    refine ⟨by simp [List.mem_eraseDups], nodup_eraseDups (as.filter fun b => !b == a)⟩
termination_by as => as.length
decreasing_by exact Nat.lt_succ_of_le (List.length_filter_le _ _)

theorem eraseDups_map {f : α → β} (hf : ∀ a b, f a = f b → a = b) :
    (as : List α) → (as.map f).eraseDups = as.eraseDups.map f
  | [] => rfl
  | a :: as => by
    have hp : ((fun b => !b == f a) ∘ f) = fun b => !b == a := by
      funext b
      rw [Function.comp_apply, Bool.eq_iff_iff]
      simpa using not_congr ⟨hf b a, congrArg f⟩
    rw [List.map_cons, List.eraseDups_cons, List.filter_map, hp,
      eraseDups_map hf (as.filter fun b => !b == a), List.eraseDups_cons, List.map_cons]
termination_by as => as.length
decreasing_by exact Nat.lt_succ_of_le (List.length_filter_le _ _)

end Duplicates

namespace Catalog

/-- The projections that a projection refers to, in the order of its fields. -/
def targets : {n : Nat} → Catalog n → Fin n → List (Fin n)
  | n + 1, declare earlier p, i =>
    if h : i.val < n then (targets earlier ⟨i.val, h⟩).map Fin.castSucc
    else p.targets.map Fin.castSucc

/-- A projection and, for each one that it refers to, what can be reached from there. -/
def preorder : {n : Nat} → Catalog n → Fin n → List (Fin n)
  | n + 1, declare earlier p, i =>
    if h : i.val < n then (preorder earlier ⟨i.val, h⟩).map Fin.castSucc
    else Fin.last n :: (p.targets.flatMap fun j => preorder earlier j).map Fin.castSucc

/-- The projections in the order of their first visits. -/
def visits {n : Nat} (c : Catalog n) (i : Fin n) : List (Fin n) := (c.preorder i).eraseDups

/-- A projection is reached from itself, and from whatever refers to one from which it is. -/
inductive Reaches {n : Nat} (c : Catalog n) : Fin n → Fin n → Prop where
  | refl (i : Fin n) : Reaches c i i
  | step {i j k : Fin n} : j ∈ c.targets i → Reaches c j k → Reaches c i k

section Order

variable {n : Nat} (c : Catalog n) (p : Projection n)

@[simp] theorem targets_last : (c.declare p).targets (Fin.last n) = p.targets.map Fin.castSucc := by
  simp [targets]

@[simp] theorem targets_castSucc (i : Fin n) :
    (c.declare p).targets i.castSucc = (c.targets i).map Fin.castSucc := by
  simp [targets]

@[simp] theorem preorder_last : (c.declare p).preorder (Fin.last n) =
    Fin.last n :: (p.targets.flatMap c.preorder).map Fin.castSucc := by
  simp [preorder]

@[simp] theorem preorder_castSucc (i : Fin n) :
    (c.declare p).preorder i.castSucc = (c.preorder i).map Fin.castSucc := by
  simp [preorder]

theorem preorder_eq {n : Nat} (c : Catalog n) (i : Fin n) :
    c.preorder i = i :: (c.targets i).flatMap c.preorder := by
  induction c with
  | empty => exact i.elim0
  | @declare n earlier p ih =>
    have hf : ∀ js : List (Fin n), (js.map Fin.castSucc).flatMap (earlier.declare p).preorder =
        (js.flatMap earlier.preorder).map Fin.castSucc := by
      intro js
      simp only [List.flatMap_map, preorder_castSucc, List.map_flatMap]
    cases i using Fin.lastCases with
    | last => rw [preorder_last, targets_last, hf]
    | cast i => rw [preorder_castSucc, targets_castSucc, hf, ih i, List.map_cons]

/-- A projection refers to earlier ones. -/
theorem targets_lt {n : Nat} {c : Catalog n} {i j : Fin n} (h : j ∈ c.targets i) : j < i := by
  induction c with
  | empty => exact i.elim0
  | @declare n earlier p ih =>
    cases i using Fin.lastCases with
    | last =>
      rw [targets_last, List.mem_map] at h
      obtain ⟨k, -, rfl⟩ := h
      exact Fin.castSucc_lt_last k
    | cast i =>
      rw [targets_castSucc, List.mem_map] at h
      obtain ⟨k, hk, rfl⟩ := h
      exact ih hk

variable {c} {i j k : Fin n}

theorem Reaches.trans (h : c.Reaches i j) (h' : c.Reaches j k) : c.Reaches i k := by
  induction h with
  | refl => exact h'
  | step ht _ ih => exact .step ht (ih h')

theorem mem_preorder : j ∈ c.preorder i ↔ c.Reaches i j := by
  constructor
  · intro h
    induction hn : i.val using Nat.strongRecOn generalizing i with
    | _ m ih =>
      rw [preorder_eq, List.mem_cons, List.mem_flatMap] at h
      rcases h with rfl | ⟨t, ht, hj⟩
      · exact .refl j
      · exact .step ht (ih t.val (hn ▸ targets_lt ht) hj rfl)
  · intro h
    induction h with
    | refl i => rw [preorder_eq]; exact List.mem_cons_self
    | step ht _ ih =>
      rw [preorder_eq]
      exact List.mem_cons_of_mem _ (List.mem_flatMap.mpr ⟨_, ht, ih⟩)

theorem mem_visits : j ∈ c.visits i ↔ c.Reaches i j := by
  rw [visits, List.mem_eraseDups, mem_preorder]

theorem visits_nodup (c : Catalog n) (i : Fin n) : (c.visits i).Nodup := nodup_eraseDups _

end Order

/-! ## Walks -/

section Walks

variable {n : Nat}

/-- The first places of the projections that were not seen before. -/
def fresh (seen : List Nat) (is : List (Fin n)) : List (Fin n) :=
  (is.filter fun i => !seen.contains i.val).eraseDups

/-- Where a projection of `is` was seen, all that it reaches was. -/
def Closed (c : Catalog n) (seen : List Nat) (is : List (Fin n)) : Prop :=
  ∀ j ∈ is, j.val ∈ seen → ∀ k, c.Reaches j k → k.val ∈ seen

theorem fresh_nil (is : List (Fin n)) : fresh [] is = is.eraseDups := by
  have hf : (is.filter fun i => !([] : List Nat).contains i.val) = is :=
    List.filter_eq_self.mpr fun _ _ => rfl
  rw [fresh, hf]

theorem fresh_map_castSucc (seen : List Nat) (is : List (Fin n)) :
    fresh seen (is.map Fin.castSucc) = (fresh seen is).map Fin.castSucc := by
  have hp : ((fun i : Fin (n + 1) => !seen.contains i.val) ∘ Fin.castSucc) =
      fun i : Fin n => !seen.contains i.val := rfl
  rw [fresh, List.filter_map, hp, eraseDups_map fun _ _ h => Fin.castSucc_inj.mp h, fresh]

theorem fresh_of_seen {seen : List Nat} {is : List (Fin n)} (h : ∀ i ∈ is, i.val ∈ seen) :
    fresh seen is = [] := by
  have hf : (is.filter fun i => !seen.contains i.val) = [] :=
    List.filter_eq_nil_iff.mpr fun i hi => by simpa using h i hi
  rw [fresh, hf]
  rfl

theorem fresh_cons {seen : List Nat} {i : Fin n} {is : List (Fin n)} (h : i.val ∉ seen) :
    fresh seen (i :: is) = i :: fresh (i.val :: seen) is := by
  have hf : (is.filter fun j => !seen.contains j.val).filter (fun j => !j == i) =
      is.filter fun j => !(i.val :: seen).contains j.val := by
    rw [List.filter_filter]
    refine List.filter_congr fun j _ => ?_
    rw [Bool.eq_iff_iff]
    simp [Fin.ext_iff]
  rw [fresh, List.filter_cons_of_pos (by simpa using h), List.eraseDups_cons, hf, fresh]

/-- What is new in a second part is new behind the first. -/
theorem fresh_append {seen seen' : List Nat} {is js : List (Fin n)}
    (h : ∀ k, k ∈ seen' ↔ k ∈ seen ∨ ∃ i ∈ is, i.val = k) :
    fresh seen (is ++ js) = fresh seen is ++ fresh seen' js := by
  have hr : (js.filter fun j => !seen.contains j.val).removeAll
      (is.filter fun i => !seen.contains i.val) = js.filter fun j => !seen'.contains j.val := by
    rw [List.removeAll, List.filter_filter]
    refine List.filter_congr fun j _ => ?_
    rw [Bool.eq_iff_iff]
    simp only [Bool.and_eq_true, Bool.not_eq_true', List.contains_eq_mem, decide_eq_false_iff_not,
      List.mem_filter, h, not_or, not_exists, not_and, Fin.val_inj]
    grind
  rw [fresh, List.filter_append, List.eraseDups_append, hr, fresh, fresh]

/-- The diagnostics of one projection. -/
def diagnostics (c : Catalog n) (i : Fin n) : List Diagnostic :=
  c.fold (fun _ p _ => p.diagnostics) i

/-- What a walk along `is` reports, and what is visited after it. -/
structure Walk.Visits (c : Catalog n) (is : List (Fin n)) (seen : List Nat)
    (result : List Diagnostic × List Nat) : Prop where
  reports : result.1 = (fresh seen is).flatMap c.diagnostics
  visited : ∀ k, k ∈ result.2 ↔ k ∈ seen ∨ ∃ i ∈ is, i.val = k

/-- A walk behind a walk: what the first one visited is closed for the second. -/
theorem sequence_visits {c : Catalog n}
    (hw : ∀ i seen, c.Closed seen (c.preorder i) →
      Walk.Visits c (c.preorder i) seen (c.walk i seen))
    (is : List (Fin n)) {seen : List Nat} (h : c.Closed seen (is.flatMap c.preorder)) :
    Walk.Visits c (is.flatMap c.preorder) seen (Walk.sequence (is.map c.walk) seen) := by
  induction is generalizing seen with
  | nil => exact ⟨rfl, by simp [Walk.sequence]⟩
  | cons i is ih =>
    rw [List.flatMap_cons] at h ⊢
    obtain ⟨hreports, hvisited⟩ := hw i seen fun j hj => h j (List.mem_append_left _ hj)
    have hclosed : c.Closed (c.walk i seen).2 (is.flatMap c.preorder) := by
      intro j hj hs k hk
      rw [hvisited] at hs ⊢
      rcases hs with hs | ⟨l, hl, e⟩
      · exact .inl (h j (List.mem_append_right _ hj) hs k hk)
      · rw [← Fin.ext e] at hk
        exact .inr ⟨k, mem_preorder.mpr ((mem_preorder.mp hl).trans hk), rfl⟩
    obtain ⟨hreports', hvisited'⟩ := ih hclosed
    refine ⟨?_, fun k => ?_⟩
    · rw [List.map_cons, Walk.sequence, fresh_append hvisited, List.flatMap_append, ← hreports,
        ← hreports']
    · rw [List.map_cons, Walk.sequence, hvisited', hvisited, or_assoc]
      simp only [List.mem_append, or_and_right, exists_or]

theorem diagnostics_last (c : Catalog n) (p : Projection n) :
    (c.declare p).diagnostics (Fin.last n) = p.diagnostics := fold_last _ c p

theorem diagnostics_castSucc (c : Catalog n) (p : Projection n) (i : Fin n) :
    (c.declare p).diagnostics i.castSucc = c.diagnostics i := fold_castSucc _ c p i

theorem walk_last (c : Catalog n) (p : Projection n) (seen : List Nat) :
    (c.declare p).walk (Fin.last n) seen =
      if seen.contains n then ([], seen)
      else
        let (later, visited) := Walk.sequence (p.targets.map c.walk) (n :: seen)
        (p.diagnostics ++ later, visited) :=
  congrFun (fold_last _ c p) seen

theorem walk_castSucc (c : Catalog n) (p : Projection n) (i : Fin n) :
    (c.declare p).walk i.castSucc = c.walk i := fold_castSucc _ c p i

theorem reaches_castSucc {c : Catalog n} {p : Projection n} {i j : Fin n} (h : c.Reaches i j) :
    (c.declare p).Reaches i.castSucc j.castSucc := by
  rw [← mem_preorder, preorder_castSucc]
  exact List.mem_map_of_mem (mem_preorder.mpr h)

theorem Closed.of_castSucc {c : Catalog n} {p : Projection n} {seen : List Nat}
    {is : List (Fin n)} (h : (c.declare p).Closed seen (is.map Fin.castSucc)) :
    c.Closed seen is := fun j hj hs k hk =>
  h j.castSucc (List.mem_map_of_mem hj) hs k.castSucc (reaches_castSucc hk)

/-- What is said of a walk among the earlier projections is said of it among all. -/
theorem Walk.Visits.castSucc {c : Catalog n} {p : Projection n} {seen : List Nat}
    {is : List (Fin n)} {result : List Diagnostic × List Nat}
    (h : Walk.Visits c is seen result) :
    Walk.Visits (c.declare p) (is.map Fin.castSucc) seen result where
  reports := by
    rw [h.reports, fresh_map_castSucc, List.flatMap_map]
    simp only [diagnostics_castSucc]
  visited k := by
    rw [h.visited]
    refine or_congr_right ⟨fun ⟨i, hi, hk⟩ => ⟨i.castSucc, List.mem_map_of_mem hi, hk⟩, ?_⟩
    rintro ⟨_, hj, hk⟩
    obtain ⟨i, hi, rfl⟩ := List.mem_map.mp hj
    exact ⟨i, hi, hk⟩

/-- A walk visits what its projection reaches and was not seen, in preorder and once. -/
theorem walk_visits (c : Catalog n) (i : Fin n) (seen : List Nat)
    (h : c.Closed seen (c.preorder i)) : Walk.Visits c (c.preorder i) seen (c.walk i seen) := by
  induction c generalizing seen with
  | empty => exact i.elim0
  | @declare n earlier p ih =>
    cases i using Fin.lastCases with
    | cast i =>
      rw [preorder_castSucc] at h ⊢
      rw [walk_castSucc]
      exact (ih i seen h.of_castSucc).castSucc
    | last =>
      rw [walk_last]
      by_cases hs : n ∈ seen
      · have hall : ∀ k ∈ (earlier.declare p).preorder (Fin.last n), k.val ∈ seen := fun k hk =>
          h (Fin.last n) (by rw [preorder_last]; exact List.mem_cons_self) hs k
            (mem_preorder.mp hk)
        rw [if_pos (by simpa using hs)]
        refine ⟨by rw [fresh_of_seen hall]; rfl, fun k => ⟨.inl, ?_⟩⟩
        rintro (hk | ⟨j, hj, rfl⟩)
        · exact hk
        · exact hall j hj
      · rw [preorder_last] at h ⊢
        have hclosed : earlier.Closed (n :: seen) (p.targets.flatMap earlier.preorder) := by
          refine Closed.of_castSucc (p := p) fun j hj hj' k hk => ?_
          rcases List.mem_cons.mp hj' with hn | hj'
          · obtain ⟨l, -, rfl⟩ := List.mem_map.mp hj
            exact absurd hn (Nat.ne_of_lt l.isLt)
          · exact List.mem_cons_of_mem n (h j (List.mem_cons_of_mem _ hj) hj' k hk)
        obtain ⟨hreports, hvisited⟩ := (sequence_visits ih p.targets hclosed).castSucc (p := p)
        rw [if_neg (by simpa using hs)]
        refine ⟨?_, fun k => ?_⟩
        · rw [fresh_cons (by exact hs), List.flatMap_cons, diagnostics_last]
          exact congrArg _ hreports
        · show k ∈ (Walk.sequence (p.targets.map earlier.walk) (n :: seen)).2 ↔ _
          simp only [hvisited, List.mem_cons, or_and_right, exists_or, exists_eq_left, Fin.val_last]
          grind

/-- What is checked is what is visited first, each projection once. -/
theorem check_visits (c : Catalog n) (i : Fin n) :
    c.check i = (c.visits i).flatMap c.diagnostics := by
  have hw := (walk_visits c i [] fun _ _ hs => absurd hs List.not_mem_nil).reports
  rwa [fresh_nil] at hw

end Walks

end Catalog

end GraphClient
