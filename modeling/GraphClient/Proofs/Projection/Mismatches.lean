import GraphClient.Proofs.Descriptor.Describe
import GraphClient.Proofs.Projection.Graph
import GraphClient.Proofs.Record

/-!
# Texts of mismatches

Where a field is declared with a type that is no narrowing, the diagnostic holds two texts: that of
the descriptor in the full type and that of the declared one. A descriptor narrows to itself, so
these two descriptors differ, and so do their texts unless a bracket opens in the name of a leaf
(`texts_ne`). A check of projections that refer to each other in any way thus reports no mismatch
between two texts that are the same (`mismatches_told_apart`).
-/

namespace GraphClient

variable {n : Nat}

/-- The descriptor of a plain field. -/
def ProjectionField.descriptor? : ProjectionField n → Option Descriptor
  | .plain type => some type
  | .nested _ _ => none

namespace Projection

/-- The descriptors that a check compares: those of the full type and those of the plain fields. -/
def descriptors (p : Projection n) : List Descriptor :=
  match p.fullType with
  | none => []
  | some full => full.fields.values ++ p.fields.values.filterMap ProjectionField.descriptor?

variable {name key : String} {full : FullType} {d : Diagnostic} {expected actual : Descriptor}

/-- A mismatch is between what the full type has for a field and what the field declares. -/
theorem compared_of_fieldDiagnostic? {field : ProjectionField n}
    (h : fieldDiagnostic? name full key field = some d)
    (hm : d.mismatch = .incompatible expected actual) :
    full.fields.get? (Naming.wireName key) = some expected ∧ field = .plain actual ∧
      expected.narrows actual = false := by
  unfold fieldDiagnostic? at h
  split at h
  · cases h
    cases hm
  · rename_i he
    split at h
    · split at h
      · cases h
      · cases h
        cases hm
        exact ⟨he, rfl, Bool.eq_false_iff.mpr ‹_›⟩
    · cases h

theorem compared_of_mem_diagnostics {p : Projection n} (hd : d ∈ p.diagnostics)
    (hm : d.mismatch = .incompatible expected actual) :
    expected ∈ p.descriptors ∧ actual ∈ p.descriptors ∧ expected.narrows actual = false := by
  rw [diagnostics_eq, fieldDiagnostics] at hd
  rw [descriptors]
  cases hf : p.fullType with
  | none =>
    rw [hf] at hd
    cases hd
  | some full =>
    rw [hf] at hd
    obtain ⟨⟨key, field⟩, he, hd⟩ := List.mem_filterMap.mp hd
    obtain ⟨hget, rfl, hn⟩ := compared_of_fieldDiagnostic? hd hm
    have hactual : actual ∈ p.fields.values.filterMap ProjectionField.descriptor? :=
      List.mem_filterMap.mpr ⟨.plain actual, List.mem_map_of_mem he, rfl⟩
    exact ⟨List.mem_append_left _ (Record.mem_values_of_get? hget),
      List.mem_append_right _ hactual, hn⟩

/-- The two texts of a mismatch differ. -/
theorem texts_ne {p : Projection n} (h : ∀ t ∈ p.descriptors, t.Unbracketed)
    (hd : d ∈ p.diagnostics) {wanted found : String} (ht : d.texts? = some (wanted, found)) :
    wanted ≠ found := by
  unfold Diagnostic.texts? at ht
  split at ht
  · cases ht
  · rename_i expected actual hm
    cases ht
    obtain ⟨hexpected, hactual, hn⟩ := compared_of_mem_diagnostics hd hm
    intro he
    have hsame : expected = actual :=
      Descriptor.eq_of_describe (h expected hexpected) (h actual hactual) he
    rw [hsame, Descriptor.narrows_self] at hn
    cases hn

end Projection

/-- Descriptors have the same text just if they are the same, as long as no bracket opens in the
names of their leaves. So, where this holds of the descriptors that are compared, a check reports no
mismatch between two texts that are the same. The projections may refer to each other in any way;
those of a catalog are checked just as the catalog checks them. -/
theorem mismatches_told_apart :
    (∀ a b : Descriptor, a.Unbracketed → b.Unbracketed → (a.describe = b.describe ↔ a = b)) ∧
      (∀ {n : Nat} (g : ProjectionGraph n) (i : Fin n),
        (∀ j, Relation.ReflTransGen g.Refers i j → ∀ t ∈ (g j).descriptors, t.Unbracketed) →
          ∀ d ∈ g.check i, ∀ expected actual,
            d.texts? = some (expected, actual) → expected ≠ actual) ∧
      ∀ {n : Nat} (c : Catalog n) (i : Fin n), c.graph.check i = c.check i := by
  refine ⟨fun a b ha hb => ⟨Descriptor.eq_of_describe ha hb, congrArg _⟩, ?_, Catalog.check_graph⟩
  intro n g i h d hd expected actual ht
  obtain ⟨j, hj, hd⟩ := ProjectionGraph.mem_check.mp hd
  exact Projection.texts_ne (h j hj) hd ht

/-! ## An issue and its parent -/

/-- An issue that refers to its parent. The names of leaves are pieces of other texts. -/
def issueRef : Projection 1 where
  name := "IssueRef"
  fullType := some ⟨"Issue", .ofPairs
    [("title", .optional (.named "List")), ("parent", .optional (.boxed (.named "Issue")))]⟩
  fields := .ofPairs
    [("title", .plain (.list (.named "Optional>"))), ("parent", .nested (Fin.last 0) .optional)]

/-- What is wrong with the title. -/
def titleMismatch : Diagnostic where
  projection := "IssueRef"
  field := "title"
  typeName := "Issue"
  mismatch := .incompatible (.optional (.named "List")) (.list (.named "Optional>"))

theorem entries_issueRef : issueRef.fields.entries =
    [("title", .plain (.list (.named "Optional>"))), ("parent", .nested (Fin.last 0) .optional)] :=
  Record.entries_ofPairs (by decide) (by decide)

theorem descriptors_issueRef : issueRef.descriptors =
    [.optional (.named "List"), .optional (.boxed (.named "Issue")),
      .list (.named "Optional>")] := by
  have hfull : (Record.ofPairs [("title", Descriptor.optional (.named "List")),
      ("parent", .optional (.boxed (.named "Issue")))]).entries = _ :=
    Record.entries_ofPairs (by decide) (by decide)
  show (Record.ofPairs _).values ++ _ = _
  rw [Record.values, Record.values, hfull, entries_issueRef]
  rfl

theorem titleMismatch_mem : titleMismatch ∈ issueRef.diagnostics := by
  have hwire : Naming.wireName "title" = "title" := by decide +kernel
  have hget : (Record.ofPairs [("title", Descriptor.optional (.named "List")),
      ("parent", .optional (.boxed (.named "Issue")))]).get? "title" =
        some (.optional (.named "List")) :=
    Record.get?_ofPairs (by decide) (by decide) List.mem_cons_self
  rw [Projection.diagnostics_eq]
  refine List.mem_filterMap.mpr ⟨("title", .plain (.list (.named "Optional>"))), ?_, ?_⟩
  · rw [entries_issueRef]
    exact List.mem_cons_self
  · rw [Projection.fieldDiagnostic?, hwire, hget]
    decide

/-- The check of an issue whose parents are issues again ends, and tells the types of its title
apart. -/
theorem mismatches_told_apart_issue :
    let g : ProjectionGraph 1 := fun _ => issueRef
    g.Refers 0 0 ∧ titleMismatch ∈ g.check 0 ∧
      (∀ j, Relation.ReflTransGen g.Refers 0 j → ∀ t ∈ (g j).descriptors, t.Unbracketed) ∧
      titleMismatch.texts? = some ("Optional<List>", "List<Optional>>") ∧
      "Optional<List>" ≠ "List<Optional>>" ∧
      (Descriptor.list (.named "Optional>")).describe ≠
        (Descriptor.list (.optional (.named "List"))).describe := by
  intro g
  have hrefers : g.Refers 0 0 := by
    show (0 : Fin 1) ∈ issueRef.targets
    rw [Projection.targets, Record.values, entries_issueRef]
    decide
  have hd : titleMismatch ∈ g.check 0 :=
    ProjectionGraph.mem_check.mpr ⟨0, .refl, titleMismatch_mem⟩
  have hnames : ∀ t ∈ issueRef.descriptors, t.Unbracketed := by
    rw [descriptors_issueRef]
    decide
  have ht : titleMismatch.texts? = some ("Optional<List>", "List<Optional>>") := rfl
  obtain ⟨hdescribe, hdiffer, -⟩ := mismatches_told_apart
  refine ⟨hrefers, hd, fun _ _ => hnames, ht, ?_, ?_⟩
  · exact hdiffer g 0 (fun _ _ => hnames) titleMismatch hd _ _ ht
  · exact (hdescribe _ _ (by decide) (by decide)).not.mpr (by decide)

end GraphClient
