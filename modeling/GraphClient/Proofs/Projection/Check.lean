import GraphClient.Proofs.Projection.Visits
import Mathlib.Data.List.Basic

/-!
# What a check reports

Each field of a projection has one or two obligations, but at most one diagnostic
(`fieldDiagnostic?`): where the full type lacks the field, the second obligation stays silent. So
the diagnostics of a projection go through its fields in their order (`diagnostics_eq`), and there
are none just if its full type meets every obligation (`diagnostics_eq_nil`). A check reports this
for every projection that can be reached (`check_reports`).
-/

namespace GraphClient

/-- A full type meets an obligation. -/
def Obligation.Met (full : FullType) : Obligation → Prop
  | .exist field => ∃ expected, full.fields.get? field = some expected
  | .compatible field projected =>
    ∃ expected, full.fields.get? field = some expected ∧ expected.narrows projected = true

namespace Projection

variable {n : Nat}

/-- The diagnostic of a field: it is absent, or it is plain and its type is no narrowing. -/
def fieldDiagnostic? (name : String) (full : FullType) (key : String) (field : ProjectionField n) :
    Option Diagnostic :=
  match full.fields.get? (Naming.wireName key) with
  | none => some ⟨name, Naming.wireName key, full.typeName, .absent⟩
  | some expected =>
    match field with
    | .plain type =>
      if expected.narrows type then none
      else some ⟨name, Naming.wireName key, full.typeName, .incompatible expected type⟩
    | .nested _ _ => none

/-- The diagnostics of the fields in their order; none without a full type. -/
def fieldDiagnostics (p : Projection n) : List Diagnostic :=
  match p.fullType with
  | none => []
  | some full => p.fields.entries.filterMap fun e => fieldDiagnostic? p.name full e.1 e.2

/-- The full type meets every obligation. -/
def Satisfied (p : Projection n) : Prop :=
  ∀ full, p.fullType = some full → ∀ o ∈ p.obligations, o.Met full

section Discharge

variable {name key : String} {full : FullType}

theorem discharge_eq_none {o : Obligation} (h : o.Met full) : discharge name full o = none := by
  cases o with
  | exist field =>
    obtain ⟨expected, he⟩ := h
    simp [discharge, he]
  | compatible field projected =>
    obtain ⟨expected, he, hn⟩ := h
    simp [discharge, he, hn]

/-- The obligations of a field come to one diagnostic. -/
theorem discharge_field (name : String) (full : FullType) (key : String)
    (field : ProjectionField n) :
    (fieldObligations key field).filterMap (discharge name full) =
      (fieldDiagnostic? name full key field).toList := by
  cases he : full.fields.get? (Naming.wireName key) with
  | none => cases field <;> simp [fieldObligations, discharge, fieldDiagnostic?, he]
  | some expected =>
    cases field with
    | nested target wrap => simp [fieldObligations, discharge, fieldDiagnostic?, he]
    | plain type =>
      cases hn : expected.narrows type <;>
        simp [fieldObligations, discharge, fieldDiagnostic?, he, hn]

theorem fieldDiagnostic?_eq_none {field : ProjectionField n} :
    fieldDiagnostic? name full key field = none ↔
      ∀ o ∈ fieldObligations key field, o.Met full := by
  constructor
  · intro h o ho
    cases he : full.fields.get? (Naming.wireName key) with
    | none => simp [fieldDiagnostic?, he] at h
    | some expected =>
      cases field with
      | nested target wrap =>
        rw [List.mem_singleton.mp ho]
        exact ⟨expected, he⟩
      | plain type =>
        have hn : expected.narrows type = true := by simpa [fieldDiagnostic?, he] using h
        rcases List.mem_cons.mp ho with rfl | ho
        · exact ⟨expected, he⟩
        · rw [List.mem_singleton.mp ho]
          exact ⟨expected, he, hn⟩
  · intro h
    have hd := discharge_field name full key field
    rw [List.filterMap_eq_nil_iff.mpr fun o ho => discharge_eq_none (h o ho)] at hd
    exact Option.toList_eq_nil_iff.mp hd.symm

end Discharge

theorem diagnostics_eq (p : Projection n) : p.diagnostics = p.fieldDiagnostics := by
  rw [diagnostics, fieldDiagnostics]
  cases hf : p.fullType with
  | none => rfl
  | some full =>
    have ho : p.obligations = p.fields.entries.flatMap fun e => fieldObligations e.1 e.2 := by
      rw [obligations, if_pos (by rw [hf]; rfl)]
    simp only [ho, List.filterMap_flatMap, discharge_field]
    exact (List.filterMap_eq_flatMap_toList _ _).symm

theorem diagnostics_eq_nil (p : Projection n) : p.diagnostics = [] ↔ p.Satisfied := by
  rw [diagnostics_eq, fieldDiagnostics, Satisfied]
  cases hf : p.fullType with
  | none => exact ⟨fun _ _ => nofun, fun _ => rfl⟩
  | some full =>
    simp only [List.filterMap_eq_nil_iff, fieldDiagnostic?_eq_none, obligations, hf,
      Option.isSome_some, if_true, List.mem_flatMap]
    constructor
    · rintro h _ ⟨⟩ o ⟨e, he, ho⟩
      exact h e he o ho
    · exact fun h e he o ho => h full rfl o ⟨e, he, ho⟩

end Projection

namespace Catalog

variable {n : Nat}

/-- The diagnostics of the fields of a projection. -/
def fieldDiagnostics (c : Catalog n) (i : Fin n) : List Diagnostic :=
  c.fold (fun _ p _ => p.fieldDiagnostics) i

/-- The full type of a projection, if it has one, meets every obligation. -/
def Satisfied (c : Catalog n) (i : Fin n) : Prop := c.fold (fun _ p _ => p.Satisfied) i

theorem diagnostics_eq (c : Catalog n) : c.diagnostics = c.fieldDiagnostics := by
  funext i
  rw [diagnostics, fieldDiagnostics]
  simp only [Projection.diagnostics_eq]

theorem diagnostics_eq_nil (c : Catalog n) (i : Fin n) : c.diagnostics i = [] ↔ c.Satisfied i := by
  induction c with
  | empty => exact i.elim0
  | @declare n earlier p ih =>
    rw [Satisfied]
    cases i using Fin.lastCases with
    | last => rw [diagnostics_last, fold_last, Projection.diagnostics_eq_nil]
    | cast i => rw [diagnostics_castSucc, fold_castSucc, ih i]; rfl

theorem check_eq_nil (c : Catalog n) (i : Fin n) :
    c.check i = [] ↔ ∀ j, c.Reaches i j → c.Satisfied j := by
  simp only [check_visits, List.flatMap_eq_nil_iff, mem_visits, diagnostics_eq_nil]

/-- A check reports, for each projection that is reached and once, in preorder of the first visits,
what is wrong with its fields. It reports nothing just if each of these meets its obligations, and
its first report is what a projection is refused for. -/
theorem check_reports (c : Catalog n) (i : Fin n) :
    (c.visits i).Nodup ∧ (∀ j, j ∈ c.visits i ↔ c.Reaches i j) ∧
      c.check i = (c.visits i).flatMap c.fieldDiagnostics ∧
      (c.check i = [] ↔ ∀ j, c.Reaches i j → c.Satisfied j) ∧
      (c.validate i = .ok () ↔ c.check i = []) ∧
      ∀ d, c.validate i = .error d ↔ (c.check i).head? = some d := by
  refine ⟨visits_nodup c i, fun j => mem_visits, ?_, check_eq_nil c i, ?_, fun d => ?_⟩
  · rw [check_visits, diagnostics_eq]
  all_goals
    rw [validate]
    cases c.check i with
    | nil => simp
    | cons d ds => simp

end Catalog

end GraphClient
