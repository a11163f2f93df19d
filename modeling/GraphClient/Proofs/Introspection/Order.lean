import GraphClient.Introspection
import GraphClient.Proofs.Json

/-!
# The order of types

Names are compared by their units, and different names have different units
(`units_injective`). Types are sorted by kind and then by name, so the types of one kind are in
ascending order of their names (`ofKind_ascending`).
-/

namespace GraphClient

namespace Text

theorem unitsOf_cancel {c d : Char} {xs ys : List Nat} (h : unitsOf c ++ xs = unitsOf d ++ ys) :
    c = d ∧ xs = ys := by
  have hc : c.toNat < 0xD800 ∨ 0xDFFF < c.toNat := c.valid.imp id And.left
  have hd : d.toNat < 0xD800 ∨ 0xDFFF < d.toNat := d.valid.imp id And.left
  have hlt : ∀ e : Char, e.val < 0x10000 ↔ e.toNat < 0x10000 := fun e => UInt32.lt_iff_toNat_lt
  have hmax : ∀ e : Char, e.toNat < 0x110000 := fun e => by
    rcases e.valid with hv | hv
    · exact Nat.lt_trans hv (by decide)
    · exact hv.2
  have := hmax c
  have := hmax d
  have heq : c.toNat = d.toNat → c = d := fun e => Char.ext (UInt32.toNat_inj.mp e)
  simp only [unitsOf, hlt] at h
  split at h <;> split at h <;> simp only [List.cons_append, List.nil_append, List.cons.injEq] at h
  · exact ⟨heq h.1, h.2⟩
  · omega
  · omega
  · exact ⟨heq (by omega), h.2.2⟩

theorem unitsOf_ne_nil (c : Char) : unitsOf c ≠ [] := by
  unfold unitsOf
  split <;> simp

theorem units_injective {a b : String} (h : units a = units b) : a = b := by
  have chars : ∀ cs ds : List Char, cs.flatMap unitsOf = ds.flatMap unitsOf → cs = ds := by
    intro cs
    induction cs with
    | nil =>
      intro ds e
      cases ds with
      | nil => rfl
      | cons d ds => exact absurd (List.append_eq_nil_iff.mp e.symm).1 (unitsOf_ne_nil d)
    | cons c cs ih =>
      intro ds e
      cases ds with
      | nil => exact absurd (List.append_eq_nil_iff.mp e).1 (unitsOf_ne_nil c)
      | cons d ds =>
        obtain ⟨rfl, ht⟩ := unitsOf_cancel e
        rw [ih ds ht]
  exact String.toList_inj.mp (chars _ _ h)

theorem unitLe_trans {a b c : String} (hab : unitLe a b = true) (hbc : unitLe b c = true) :
    unitLe a c = true := Std.TransOrd.isLE_trans hab hbc

theorem unitLe_total (a b : String) : unitLe a b = true ∨ unitLe b a = true := by
  have hs : compare (units b) (units a) = (compare (units a) (units b)).swap :=
    Std.OrientedCmp.eq_swap
  simp only [unitLe, unitCompare, hs]
  cases compare (units a) (units b) <;> simp

/-- A name that is not after a different one is before it. -/
theorem unitCompare_lt {a b : String} (h : unitLe a b = true) (hne : a ≠ b) :
    unitCompare a b = .lt := by
  rw [unitLe, Ordering.isLE_iff_eq_lt_or_eq_eq] at h
  rcases h with h | h
  · exact h
  · exact absurd (units_injective (Std.LawfulEqCmp.compare_eq_iff_eq.mp h)) hne

end Text

namespace Introspection

theorem typeLe_iff (a b : Json) : typeLe a b = true ↔
    rank (textOf "kind" a) < rank (textOf "kind" b) ∨
      rank (textOf "kind" a) = rank (textOf "kind" b) ∧
        Text.unitLe (textOf "name" a) (textOf "name" b) = true := by
  simp [typeLe]

theorem typeLe_trans (a b c : Json) (hab : typeLe a b = true) (hbc : typeLe b c = true) :
    typeLe a c = true := by
  rw [typeLe_iff] at *
  rcases hab with hab | ⟨hab, hn⟩ <;> rcases hbc with hbc | ⟨hbc, hm⟩
  · exact .inl (by omega)
  · exact .inl (by omega)
  · exact .inl (by omega)
  · exact .inr ⟨hab.trans hbc, Text.unitLe_trans hn hm⟩

theorem typeLe_total (a b : Json) : (typeLe a b || typeLe b a) = true := by
  rw [Bool.or_eq_true, typeLe_iff, typeLe_iff]
  rcases Nat.lt_trichotomy (rank (textOf "kind" a)) (rank (textOf "kind" b)) with h | h | h
  · exact .inl (.inl h)
  · rcases Text.unitLe_total (textOf "name" a) (textOf "name" b) with hn | hn
    · exact .inl (.inr ⟨h, hn⟩)
    · exact .inr (.inr ⟨h.symm, hn⟩)
  · exact .inr (.inl h)

theorem sorted_perm {schema : Json}
    (h : ∀ j ∈ schema.objectsMember "types", isReserved j = false) :
    (sorted schema).Perm (schema.objectsMember "types") := by
  have hf : (schema.objectsMember "types").filter (!isReserved ·) =
      schema.objectsMember "types" :=
    List.filter_eq_self.mpr fun j hj => by rw [h j hj]; rfl
  have hp := List.mergeSort_perm ((schema.objectsMember "types").filter (!isReserved ·)) typeLe
  rw [hf] at hp
  rwa [sorted, hf]

/-- Types that are changed, but not in name and kind, are in the same order. -/
theorem sorted_map {f : Json → Json} {schema : Json} (ho : ∀ j, (f j).isObject = j.isObject)
    (hn : ∀ j, textOf "name" (f j) = textOf "name" j)
    (hk : ∀ j, textOf "kind" (f j) = textOf "kind" j) :
    sorted (schema.mapMember "types" (.mapItems f)) = (sorted schema).map f := by
  have hr : ((!isReserved ·) ∘ f) = (!isReserved ·) :=
    funext fun j => by simp only [Function.comp, isReserved, hn]
  have hle : ∀ a b, typeLe a b = typeLe (f a) (f b) :=
    fun a b => by simp only [typeLe, hn, hk]
  rw [sorted, sorted, Json.objectsMember_map ho, List.filter_map, hr,
    List.map_mergeSort fun a _ b _ => hle a b]

/-- The types of one kind. -/
def ofKind (kind : String) (js : List Json) : List Json := js.filter (textOf "kind" · = kind)

theorem sorted_ordered (schema : Json) : (sorted schema).Pairwise fun a b => typeLe a b = true :=
  List.pairwise_mergeSort typeLe_trans typeLe_total _

/-- Sorted types of one kind with different names are in ascending order of their names. -/
theorem ofKind_ascending {js : List Json} (kind : String)
    (hle : js.Pairwise fun a b => typeLe a b = true) (hn : (js.map (textOf "name")).Nodup) :
    (ofKind kind js).Pairwise fun a b =>
      Text.unitCompare (textOf "name" a) (textOf "name" b) = .lt := by
  have hne : js.Pairwise fun a b => textOf "name" a ≠ textOf "name" b := List.pairwise_map.mp hn
  have hboth := ((hle.and hne).filter (p := fun j => decide (textOf "kind" j = kind)))
  refine hboth.imp_of_mem fun {a b} ha hb ⟨h, hd⟩ => ?_
  have hka : textOf "kind" a = kind := by simpa using (List.mem_filter.mp ha).2
  have hkb : textOf "kind" b = kind := by simpa using (List.mem_filter.mp hb).2
  rcases (typeLe_iff a b).mp h with h | ⟨-, h⟩
  · rw [hka, hkb] at h
    exact absurd h (Nat.lt_irrefl _)
  · exact Text.unitCompare_lt h hd

end Introspection

end GraphClient
