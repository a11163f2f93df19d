import GraphClient.Emission
import GraphClient.Proofs.Naming

/-!
# The names that keys select

A key of a projection selects the field of its wire name. The wire names are the names that are
their own wire name, and these are told by their letters: behind its leading underscores such a
name holds no underscore and begins with a small unit (`StartsSmall`). So a field that is left out
of a projection with a warning is one that no key selects, and every such field is left out
(`wireName_canonical`).
-/

namespace GraphClient

namespace Naming

/-- A text is empty or begins with a unit that is its own small letter. Half a character of two
units is one. -/
def StartsSmall : List Char → Prop
  | [] => True
  | c :: _ => Text.unitCount c = 2 ∨ Text.lower c = [c]

theorem settled_iff {cs : List Char} : Settled cs ↔ '_' ∉ cs ∧ StartsSmall cs := by
  constructor
  · intro h
    refine ⟨h.joined, ?_⟩
    cases cs with
    | nil => trivial
    | cons c cs => exact .inr (h.small c rfl)
  · rintro ⟨hj, hs⟩
    refine ⟨hj, fun c hc => ?_⟩
    obtain ⟨cs, rfl⟩ := List.head?_eq_some_iff.mp hc
    exact hs.elim Text.lower_of_unitCount id

theorem wireName_eq_self_iff {name : String} : wireName name = name ↔
    '_' ∉ name.toList.dropWhile (· == '_') ∧ StartsSmall (name.toList.dropWhile (· == '_')) := by
  rw [← settled_iff, ← wireChars_eq_self_iff, wireName, ← String.toList_inj, String.toList_ofList]

end Naming

namespace Schema

/-- The warnings of a module are about the leaf fields that are not their own wire name. -/
theorem mem_leftOut_emit {s : Schema} {options : EmitOptions} {w : LeftOut} :
    w ∈ (s.emit options).leftOut ↔ ∃ o ∈ s.objects, ∃ f ∈ o.fields, s.isLeafField f = true ∧
      Naming.wireName f.name ≠ f.name ∧ w = ⟨o.name, f.name⟩ := by
  simp only [emit, List.mem_flatMap, leftOut, List.mem_map, List.mem_filter, isWireName,
    Bool.and_eq_true, Bool.not_eq_true', beq_eq_false_iff_ne, and_assoc, eq_comm (a := w)]

end Schema

namespace Naming

/-- Wire names are the names that are their own wire name. Such a name is known by its letters,
the wire name of a GraphQL name is a GraphQL name, and the warnings of a generated module are about
exactly those leaf fields that no key selects. -/
theorem wireName_canonical :
    (∀ key, wireName (wireName key) = wireName key) ∧
      (∀ name, (∃ key, wireName key = name) ↔ wireName name = name) ∧
      (∀ name, wireName name = name ↔ '_' ∉ name.toList.dropWhile (· == '_') ∧
        StartsSmall (name.toList.dropWhile (· == '_'))) ∧
      (∀ key, IsName key → IsName (wireName key)) ∧
      ∀ (s : Schema) (options : EmitOptions) (w : LeftOut), w ∈ (s.emit options).leftOut ↔
        ∃ o ∈ s.objects, ∃ f ∈ o.fields, s.isLeafField f = true ∧
          (¬ ∃ key, wireName key = f.name) ∧ w = ⟨o.name, f.name⟩ := by
  refine ⟨wireName_wireName, fun _ => exists_wireName_iff, fun _ => wireName_eq_self_iff,
    fun _ => isName_wireName, fun s options w => ?_⟩
  simp only [exists_wireName_iff]
  exact Schema.mem_leftOut_emit

/-- A name with an escape in it and underscores around it. -/
theorem wireName_canonical_class :
    IsName "_default_" ∧ wireName "_default_" = "_default" ∧ IsName (wireName "_default_") := by
  have hn : IsName "_default_" := ⟨'_', _, rfl, rfl, List.all_eq_true.mp (by decide)⟩
  exact ⟨hn, by decide +kernel, wireName_canonical.2.2.2.1 _ hn⟩

end Naming

end GraphClient
