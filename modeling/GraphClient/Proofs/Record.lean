import GraphClient.Naming
import GraphClient.Proofs.Token.Lexemes
import GraphClient.Record

/-!
# Records of names

A name begins with no digit, so it is no array index (`index?_of_isName`) and stands before no
other. Pairs with distinct names make a record that holds them in their order (`entries_ofPairs`).
What is found at a key is a value of the record (`mem_values_of_get?`).
-/

namespace GraphClient

theorem index?_of_isName {name : String} (h : IsName name) : index? name = none := by
  obtain ⟨c, cs, hn, hc, -⟩ := h
  rw [index?]
  split
  · rename_i n _
    refine if_neg fun ⟨he, _⟩ => ?_
    have hs : (toString n).toList = Nat.toDigits 10 n := String.toList_ofList
    have hd : c.isDigit = true := by
      refine Nat.isDigit_of_mem_toDigits (b := 10) (n := n) (by decide) (by decide) ?_
      rw [← hs, he, hn]
      exact List.mem_cons_self
    rw [isNameStart, Bool.or_eq_true, beq_iff_eq] at hc
    rcases hc with hc | rfl
    · rw [isDigit_of_isAlpha hc] at hd
      cases hd
    · cases hd
  · rfl

theorem not_precedes_of_isName {a b : String} (h : IsName a) : ¬ Precedes a b := by
  rintro ⟨m, hm, -⟩
  rw [index?_of_isName h] at hm
  cases hm

namespace Record

variable {α : Type} {key : String} {value : α} {pairs : List (String × α)}

theorem put_of_not_mem (hk : IsName key) (h : key ∉ pairs.map Prod.fst) :
    put key value pairs = pairs ++ [(key, value)] := by
  induction pairs with
  | nil => rfl
  | cons e rest ih =>
    obtain ⟨k, v⟩ := e
    rw [List.map_cons, List.mem_cons, not_or] at h
    rw [put, if_neg (Ne.symm h.1), if_neg (not_precedes_of_isName hk), ih h.2, List.cons_append]

theorem entries_foldl_insert (r : Record α) (hp : ∀ p ∈ pairs, IsName p.1)
    (h : ((r.entries ++ pairs).map Prod.fst).Nodup) :
    (pairs.foldl (fun r p => r.insert p.1 p.2) r).entries = r.entries ++ pairs := by
  induction pairs generalizing r with
  | nil => rw [List.foldl_nil, List.append_nil]
  | cons p pairs ih =>
    have hk : p.1 ∉ r.entries.map Prod.fst := by
      rw [List.map_append, List.map_cons, List.nodup_append] at h
      exact fun hm => h.2.2 p.1 hm p.1 List.mem_cons_self rfl
    have he : (r.insert p.1 p.2).entries = r.entries ++ [p] :=
      put_of_not_mem (hp p List.mem_cons_self) hk
    rw [List.foldl_cons, ih _ (fun q hq => hp q (List.mem_cons_of_mem p hq))] <;>
      rw [he, List.append_assoc, List.singleton_append]
    exact h

theorem entries_ofPairs (hp : ∀ p ∈ pairs, IsName p.1) (h : (pairs.map Prod.fst).Nodup) :
    (ofPairs pairs).entries = pairs := entries_foldl_insert empty hp h

theorem get?_ofPairs (hp : ∀ p ∈ pairs, IsName p.1) (h : (pairs.map Prod.fst).Nodup)
    (hm : (key, value) ∈ pairs) : (ofPairs pairs).get? key = some value := by
  obtain ⟨before, after, rfl⟩ := List.append_of_mem hm
  rw [get?, entries_ofPairs hp h, List.lookup_eq_some_iff]
  refine ⟨before, after, rfl, fun p hb => bne_iff_ne.mpr fun e => ?_⟩
  rw [List.map_append, List.map_cons, List.nodup_append] at h
  exact h.2.2 p.1 (List.mem_map_of_mem hb) key List.mem_cons_self e.symm

theorem mem_values_of_get? {r : Record α} (h : r.get? key = some value) : value ∈ r.values := by
  obtain ⟨before, after, he, -⟩ := List.lookup_eq_some_iff.mp h
  refine List.mem_map.mpr ⟨(key, value), ?_, rfl⟩
  rw [he]
  exact List.mem_append_right before List.mem_cons_self

end Record

end GraphClient
