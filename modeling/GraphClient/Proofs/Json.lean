import GraphClient.Json

/-!
# Changed JSON values

A member of an object may be changed (`Json.mapMember`), or left out (`Json.without`), and all
items of an array may be changed (`Json.mapItems`). The other members stay as they are
(`Json.SameBut`).
-/

namespace GraphClient

namespace Json

/-- An object with a member changed. -/
def mapMember (key : String) (f : Json → Json) : Json → Json
  | object members => object (members.map fun m => if m.1 = key then (m.1, f m.2) else m)
  | j => j

/-- An array with its items changed. -/
def mapItems (f : Json → Json) : Json → Json
  | array items => array (items.map f)
  | j => j

/-- An object without the members of some names. -/
def without (keys : List String) : Json → Json
  | object members => object (members.filter fun m => !keys.contains m.1)
  | j => j

/-- Two values with the same members, but for those of some names. -/
def SameBut (keys : List String) (i j : Json) : Prop :=
  ∀ key, key ∉ keys → i.member? key = j.member? key

section Members

variable {key : String} {keys : List String} {f : Json → Json} {i j : Json}

theorem member?_mapMember_self :
    (j.mapMember key f).member? key = (j.member? key).map f := by
  cases j with
  | object members =>
    simp only [mapMember, member?]
    induction members with
    | nil => rfl
    | cons m members ih =>
      obtain ⟨k, v⟩ := m
      by_cases hk : k = key
      · simp [hk]
      · have hb : (key == k) = false := by simpa using Ne.symm hk
        simpa [hk, List.lookup_cons, hb] using ih
  | _ => rfl

theorem member?_mapMember {other : String} (h : other ≠ key) :
    (j.mapMember key f).member? other = j.member? other := by
  cases j with
  | object members =>
    simp only [mapMember, member?]
    induction members with
    | nil => rfl
    | cons m members ih =>
      obtain ⟨k, v⟩ := m
      by_cases hk : k = key
      · have hb : (other == key) = false := by simpa using h
        simpa [hk, List.lookup_cons, hb] using ih
      · by_cases ho : other = k
        · simp [hk, ho]
        · have hb : (other == k) = false := by simpa using ho
          simpa [hk, List.lookup_cons, hb] using ih
  | _ => rfl

theorem member?_without (h : key ∉ keys) : (j.without keys).member? key = j.member? key := by
  cases j with
  | object members =>
    simp only [without, member?]
    induction members with
    | nil => rfl
    | cons m members ih =>
      obtain ⟨k, v⟩ := m
      by_cases hk : key = k
      · simp [← hk, h]
      · have hb : (key == k) = false := by simpa using hk
        by_cases hm : k ∈ keys
        · simpa [hm, List.lookup_cons, hb] using ih
        · simpa [hm, List.lookup_cons, hb] using ih
  | _ => rfl

theorem member?_without_self (h : key ∈ keys) : (j.without keys).member? key = none := by
  cases j with
  | object members =>
    simp only [without, member?, List.lookup_eq_none_iff]
    rintro ⟨k, v⟩ hm
    have hk : k ∉ keys := by simpa using (List.mem_filter.mp hm).2
    simpa using fun e : key = k => hk (e ▸ h)
  | _ => rfl

theorem items_mapItems : (j.mapItems f).items = j.items.map f := by
  cases j <;> rfl

theorem objectsMember_map (hf : ∀ i, (f i).isObject = i.isObject) :
    (j.mapMember key (mapItems f)).objectsMember key = (j.objectsMember key).map f := by
  have hi : (isObject ∘ f) = isObject := funext hf
  unfold objectsMember
  rw [member?_mapMember_self]
  cases j.member? key with
  | none => rfl
  | some v =>
    simp only [Option.map_some, Option.getD_some, items_mapItems, List.filter_map, hi]

theorem sameBut_without : SameBut keys (j.without keys) j := fun _ => member?_without

namespace SameBut

theorem mapMember (h : SameBut keys i j) : SameBut (key :: keys) (i.mapMember key f) j := by
  intro other ho
  rw [List.mem_cons, not_or] at ho
  rw [member?_mapMember ho.1, h other ho.2]

theorem objectsMember (h : SameBut keys i j) (hk : key ∉ keys) :
    i.objectsMember key = j.objectsMember key := by
  unfold Json.objectsMember
  rw [h key hk]

end SameBut

end Members

end Json

end GraphClient
