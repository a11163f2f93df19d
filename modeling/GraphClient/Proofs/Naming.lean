import GraphClient.Naming
import GraphClient.Proofs.Text.LetterCase
import Mathlib.Data.List.Nodup

/-!
# Wire names

A wire name is its own wire name (`wireName_wireName`): behind its leading underscores it holds no
other one, so it has no escape to drop and no words to join, and it begins with a small letter
(`Settled`). So the names that some key sends are those that they send themselves. The wire name
of a GraphQL name is one too (`isName_wireName`): the letters of a name have one capital and one
small letter each. Escapes keep names apart, but for a reserved word and its own escape
(`escape_eq_escape_iff`).
-/

namespace GraphClient.Naming

/-- A text without underscores whose first letter is a small one. -/
structure Settled (cs : List Char) : Prop where
  joined : '_' ∉ cs
  small : ∀ c ∈ cs.head?, Text.lower c = [c]

section Words

variable {cs body lead : List Char}

theorem not_mem_uncapitalize (h : '_' ∉ cs) : '_' ∉ uncapitalize cs := by
  cases cs with
  | nil => exact h
  | cons c cs =>
    rw [List.mem_cons, not_or] at h
    rw [uncapitalize, List.mem_append, not_or]
    exact ⟨Text.not_mem_lower (Ne.symm h.1), h.2⟩

theorem not_mem_capitalize (h : '_' ∉ cs) : '_' ∉ capitalize cs := by
  cases cs with
  | nil => exact h
  | cons c cs =>
    rw [List.mem_cons, not_or] at h
    rw [capitalize, List.mem_append, not_or]
    exact ⟨Text.not_mem_upper (Ne.symm h.1), h.2⟩

theorem not_mem_camelCase (cs : List Char) : '_' ∉ camelCase cs := by
  obtain ⟨hfirst, hlater⟩ := Text.not_mem_split '_' cs
  rw [camelCase, List.mem_append, List.mem_flatMap]
  rintro (h | ⟨word, hw, h⟩)
  · exact not_mem_uncapitalize hfirst h
  · exact not_mem_capitalize (hlater word hw) h

theorem split_of_not_mem (h : '_' ∉ cs) : Text.split '_' cs = (cs, []) := by
  induction cs with
  | nil => rfl
  | cons c cs ih =>
    rw [List.mem_cons, not_or] at h
    rw [Text.split, ih h.2]
    exact if_neg (Ne.symm h.1)

theorem settled_camelCase (h : cs.head? ≠ some '_') : Settled (camelCase cs) where
  joined := not_mem_camelCase cs
  small := by
    cases cs with
    | nil => exact nofun
    | cons c cs =>
      have hc : c ≠ '_' := fun e => h (congrArg some e)
      intro d hd
      simp only [camelCase, Text.split, if_neg hc, uncapitalize] at hd
      cases hl : Text.lower c with
      | nil =>
        rw [Text.lower] at hl
        split at hl <;> cases hl
      | cons e es =>
        simp only [hl, List.cons_append, List.head?_cons, Option.mem_def, Option.some.injEq] at hd
        rw [← hd]
        exact Text.lower_lower hl

theorem Settled.camelCase (h : Settled cs) : camelCase cs = cs := by
  rw [Naming.camelCase, split_of_not_mem h.joined]
  cases cs with
  | nil => rfl
  | cons c cs =>
    show Text.lower c ++ cs ++ [] = c :: cs
    rw [h.small c rfl, List.append_nil, List.singleton_append]

/-- What does not end in an underscore has no escape. -/
theorem escaped?_of_not_mem (h : '_' ∉ cs) : escaped? cs = none :=
  if_neg fun ⟨hl, _⟩ => h (List.mem_of_getLast? hl)

/-- Without its escape a name begins as before, if anything is left of it. -/
theorem head?_escaped? (h : cs.head? ≠ some '_') : ((escaped? cs).getD cs).head? ≠ some '_' := by
  rw [escaped?]
  split
  · rw [Option.getD_some]
    rcases cs with _ | ⟨c, _ | ⟨d, cs⟩⟩
    · exact nofun
    · exact nofun
    · exact h
  · exact h

/-- The underscores in front of a text without underscores. -/
theorem leading_append (hl : ∀ c ∈ lead, c = '_') (hb : '_' ∉ body) :
    (lead ++ body).takeWhile (· == '_') = lead ∧ (lead ++ body).dropWhile (· == '_') = body := by
  have hlead : ∀ c ∈ lead, (c == '_') = true := fun c hc => beq_iff_eq.mpr (hl c hc)
  rw [List.takeWhile_append_of_pos hlead, List.dropWhile_append_of_pos hlead]
  cases body with
  | nil => exact ⟨List.append_nil lead, rfl⟩
  | cons c cs =>
    rw [List.mem_cons, not_or] at hb
    have hc : (c == '_') = false := beq_eq_false_iff_ne.mpr (Ne.symm hb.1)
    simp [hc]

theorem wireChars_of_settled (hl : ∀ c ∈ lead, c = '_') (hb : Settled body) :
    wireChars (lead ++ body) = lead ++ body := by
  obtain ⟨ht, hd⟩ := leading_append hl hb.joined
  rw [wireChars, ht, hd, escaped?_of_not_mem hb.joined, Option.getD_none, hb.camelCase]

/-- A wire name is underscores and a settled text. -/
theorem wireChars_settled (cs : List Char) :
    ∃ lead body, wireChars cs = lead ++ body ∧ (∀ c ∈ lead, c = '_') ∧ Settled body := by
  refine ⟨_, _, rfl, fun c hc => ?_, settled_camelCase (head?_escaped? fun e => ?_)⟩
  · exact beq_iff_eq.mp (List.all_eq_true.mp List.all_takeWhile c hc)
  · have hd := List.head?_dropWhile_not (· == '_') cs
    rw [e] at hd
    cases hd

/-- A text is its own wire name if it is settled behind its leading underscores. -/
theorem wireChars_eq_self_iff : wireChars cs = cs ↔ Settled (cs.dropWhile (· == '_')) := by
  constructor
  · intro h
    obtain ⟨lead, body, hw, hl, hb⟩ := wireChars_settled cs
    rw [← h, hw, (leading_append hl hb.joined).2]
    exact hb
  · intro h
    have hl : ∀ c ∈ cs.takeWhile (· == '_'), c = '_' := fun c hc =>
      beq_iff_eq.mp (List.all_eq_true.mp List.all_takeWhile c hc)
    have hw := wireChars_of_settled hl h
    rwa [List.takeWhile_append_dropWhile] at hw

end Words

theorem wireName_wireName (key : String) : wireName (wireName key) = wireName key := by
  obtain ⟨lead, body, hw, hl, hb⟩ := wireChars_settled key.toList
  rw [wireName, wireName, hw, String.toList_ofList, wireChars_of_settled hl hb]

/-- A name that some key sends is its own wire name. -/
theorem exists_wireName_iff {name : String} : (∃ key, wireName key = name) ↔ wireName name = name :=
  ⟨fun ⟨key, h⟩ => by rw [← h, wireName_wireName], fun h => ⟨name, h⟩⟩

/-! ## Wire names of names -/

section Names

variable {c : Char} {cs : List Char}

theorem toNat_lt_of_isNameContinue (h : isNameContinue c = true) : c.toNat < 128 := by
  have hc : (decide (65 ≤ c.val ∧ c.val ≤ 90) || (97 ≤ c.val && c.val ≤ 122) ||
      (48 ≤ c.val && c.val ≤ 57) || c == '_') = true := h
  rw [Bool.or_eq_true, beq_iff_eq] at hc
  rcases hc with hc | rfl
  · simp [UInt32.le_iff_toNat_le] at hc
    omega
  · decide

/-- The case maps of the characters of names. -/
theorem maps_of_names : ∀ n < 128, isNameContinue (Char.ofNat n) = true →
    (Text.upper (Char.ofNat n)).all isNameContinue = true ∧
      (Text.lower (Char.ofNat n)).all isNameContinue = true ∧
      (isNameStart (Char.ofNat n) = true →
        (Text.lower (Char.ofNat n)).head?.any isNameStart = true) := by
  decide +kernel

theorem maps_of_isNameContinue (h : isNameContinue c = true) :
    (∀ d ∈ Text.upper c, isNameContinue d = true) ∧ (∀ d ∈ Text.lower c, isNameContinue d = true) ∧
      (isNameStart c = true → ∃ d ds, Text.lower c = d :: ds ∧ isNameStart d = true) := by
  have hn := maps_of_names c.toNat (toNat_lt_of_isNameContinue h)
  rw [Char.ofNat_toNat] at hn
  obtain ⟨hu, hl, hs⟩ := hn h
  refine ⟨List.all_eq_true.mp hu, List.all_eq_true.mp hl, fun hc => ?_⟩
  have hd := hs hc
  cases hl : Text.lower c with
  | nil => rw [hl] at hd; cases hd
  | cons d ds =>
    rw [hl] at hd
    exact ⟨d, ds, rfl, hd⟩

theorem continues_capitalize (h : ∀ c ∈ cs, isNameContinue c = true) :
    ∀ c ∈ capitalize cs, isNameContinue c = true := by
  cases cs with
  | nil => exact h
  | cons c cs =>
    obtain ⟨hc, hcs⟩ := List.forall_mem_cons.mp h
    exact List.forall_mem_append.mpr ⟨(maps_of_isNameContinue hc).1, hcs⟩

theorem continues_uncapitalize (h : ∀ c ∈ cs, isNameContinue c = true) :
    ∀ c ∈ uncapitalize cs, isNameContinue c = true := by
  cases cs with
  | nil => exact h
  | cons c cs =>
    obtain ⟨hc, hcs⟩ := List.forall_mem_cons.mp h
    exact List.forall_mem_append.mpr ⟨(maps_of_isNameContinue hc).2.1, hcs⟩

theorem continues_camelCase (h : ∀ c ∈ cs, isNameContinue c = true) :
    ∀ c ∈ camelCase cs, isNameContinue c = true := by
  rw [← Text.joined_split '_' cs, Text.joined] at h
  obtain ⟨hfirst, hlater⟩ := List.forall_mem_append.mp h
  refine List.forall_mem_append.mpr ⟨continues_uncapitalize hfirst, fun c hc => ?_⟩
  obtain ⟨word, hw, hc⟩ := List.mem_flatMap.mp hc
  refine continues_capitalize (fun d hd => hlater d ?_) c hc
  exact List.mem_flatMap.mpr ⟨word, hw, List.mem_cons_of_mem _ hd⟩

/-- What begins like a name begins so in camel case. -/
theorem camelCase_cons (hc : isNameStart c = true) (hn : c ≠ '_') :
    ∃ d ds, camelCase (c :: cs) = d :: ds ∧ isNameStart d = true := by
  obtain ⟨d, ds, hd, hs⟩ := (maps_of_isNameContinue (isNameContinue_of_isNameStart hc)).2.2 hc
  have hcamel : camelCase (c :: cs) = d :: (ds ++ (Text.split '_' cs).1 ++
      (Text.split '_' cs).2.flatMap capitalize) := by
    simp [camelCase, Text.split, if_neg hn, uncapitalize, hd]
  exact ⟨d, _, hcamel, hs⟩

theorem escaped?_getD (cs : List Char) : (escaped? cs).getD cs = cs ∨
    cs.getLast? = some '_' ∧ (escaped? cs).getD cs = cs.dropLast := by
  rw [escaped?]
  split
  · rename_i h
    exact .inr ⟨h.1, rfl⟩
  · exact .inl rfl

theorem mem_of_mem_escaped? (h : c ∈ (escaped? cs).getD cs) : c ∈ cs := by
  rcases escaped?_getD cs with he | ⟨-, he⟩
  · rwa [he] at h
  · rw [he] at h
    exact List.dropLast_subset _ h

/-- Dropping an escape leaves the first character of what begins with another one. -/
theorem escaped?_cons (hn : c ≠ '_') : ∃ ds, (escaped? (c :: cs)).getD (c :: cs) = c :: ds := by
  rcases escaped?_getD (c :: cs) with he | ⟨hl, he⟩
  · exact ⟨cs, he⟩
  · cases cs with
    | nil => exact absurd (Option.some.inj hl) hn
    | cons d ds => exact ⟨(d :: ds).dropLast, he⟩

theorem continues_wireChars (h : ∀ c ∈ cs, isNameContinue c = true) :
    ∀ c ∈ wireChars cs, isNameContinue c = true := by
  refine List.forall_mem_append.mpr ⟨fun c hc => h c ((List.takeWhile_sublist _).mem hc), ?_⟩
  exact continues_camelCase fun c hc =>
    h c ((List.dropWhile_sublist _).mem (mem_of_mem_escaped? hc))

theorem wireChars_cons (hc : isNameStart c = true) :
    ∃ d ds, wireChars (c :: cs) = d :: ds ∧ isNameStart d = true := by
  by_cases hn : c = '_'
  · subst hn
    exact ⟨'_', _, rfl, rfl⟩
  · have hu : (c == '_') = false := beq_eq_false_iff_ne.mpr hn
    have hw : wireChars (c :: cs) = camelCase ((escaped? (c :: cs)).getD (c :: cs)) := by
      simp [wireChars, hu]
    obtain ⟨ds, hd⟩ := @escaped?_cons c cs hn
    rw [hw, hd]
    exact camelCase_cons hc hn

/-- The wire name of a name is a name. -/
theorem isName_wireName {key : String} (h : IsName key) : IsName (wireName key) := by
  have hall := continues_wireChars h.continues
  obtain ⟨c, cs, hkey, hc, -⟩ := h
  obtain ⟨d, ds, hw, hd⟩ := @wireChars_cons c cs hc
  rw [hkey, hw] at hall
  refine ⟨d, ds, ?_, hd, (List.forall_mem_cons.mp hall).2⟩
  rw [wireName, String.toList_ofList, hkey, hw]

end Names

/-! ## Escapes -/

section Escapes

variable {a b suffix : String}

theorem isReserved_iff : isReserved a = true ↔ a ∈ reservedWords := List.contains_iff_mem

/-- What ends as no reserved word does is none. -/
theorem isReserved_append (h : ∀ w ∈ reservedWords, ¬ suffix.toList <:+ w.toList) (a : String) :
    isReserved (a ++ suffix) = false := by
  refine Bool.eq_false_iff.mpr fun hr => h _ (isReserved_iff.mp hr) ?_
  rw [String.toList_append]
  exact List.suffix_append _ _

theorem isReserved_underscore (a : String) : isReserved (a ++ "_") = false :=
  isReserved_append (by decide) a

theorem escape_of_reserved (h : isReserved a = true) : escape a = a ++ "_" := if_pos h

theorem escape_of_not_reserved (h : isReserved a = false) : escape a = a := if_neg (by simp [h])

/-- A name that is no escape is bound for itself alone. -/
theorem escape_eq_iff (hr : isReserved b = false) (hl : b.toList.getLast? ≠ some '_') :
    escape a = b ↔ a = b := by
  cases ha : isReserved a with
  | true =>
    rw [escape_of_reserved ha]
    constructor
    · rintro rfl
      exact absurd (by simp) hl
    · rintro rfl
      rw [ha] at hr
      cases hr
  | false => rw [escape_of_not_reserved ha]

/-- Two names are bound alike if one is a reserved word and the other one its escape. -/
theorem escape_eq_escape_iff : escape a = escape b ↔
    a = b ∨ (isReserved a = true ∧ b = a ++ "_") ∨ (isReserved b = true ∧ a = b ++ "_") := by
  cases ha : isReserved a <;> cases hb : isReserved b
  · simp [escape_of_not_reserved, ha, hb]
  · rw [escape_of_not_reserved ha, escape_of_reserved hb]
    have hne : a ≠ b := by
      rintro rfl
      rw [ha] at hb
      cases hb
    simp [hne]
  · rw [escape_of_reserved ha, escape_of_not_reserved hb]
    have hne : a ≠ b := by
      rintro rfl
      rw [ha] at hb
      cases hb
    simp [hne, eq_comm]
  · have hne : ∀ {c d : String}, isReserved c = true → c ≠ d ++ "_" := by
      rintro _ d hc rfl
      rw [isReserved_underscore] at hc
      cases hc
    rw [escape_of_reserved ha, escape_of_reserved hb]
    simp [hne ha, hne hb]

theorem nodup_map_escape_iff {names : List String} (h : names.Nodup) :
    (names.map escape).Nodup ↔ ∀ a ∈ names, ∀ b ∈ names, isReserved a = true → b ≠ a ++ "_" := by
  rw [List.nodup_map_iff_inj_on h]
  constructor
  · intro hi a ha b hb hr he
    have hab := hi a ha b hb (escape_eq_escape_iff.mpr (.inr (.inl ⟨hr, he⟩)))
    rw [hab, he, isReserved_underscore] at hr
    cases hr
  · intro hne a ha b hb he
    rcases escape_eq_escape_iff.mp he with hab | ⟨hr, hab⟩ | ⟨hr, hab⟩
    · exact hab
    · exact absurd hab (hne a ha b hb hr)
    · exact absurd hab (hne b hb a ha hr)

end Escapes

end GraphClient.Naming
