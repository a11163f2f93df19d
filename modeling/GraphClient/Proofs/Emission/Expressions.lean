import GraphClient.Naming
import GraphClient.Proofs.Text.Quoted
import GraphClient.Descriptor

/-!
# Expressions of descriptors

`Descriptor.read?` reads an expression of the helpers `t` back: a word behind `t.` is a leaf, or
what it wraps follows in parentheses. It recovers every descriptor from its expression, whatever
characters the names of leaves hold (`read?_render`), so no two descriptors have the same
expression (`render_injective`).
-/

namespace GraphClient

/-- No letter, digit or underscore comes next. -/
def EndsWord (rest : List Char) : Prop := ∀ c ∈ rest.head?, isNameContinue c = false

theorem endsWord_cons {c : Char} {rest : List Char} (h : isNameContinue c = false) :
    EndsWord (c :: rest) :=
  fun _ e => Option.some.inj e ▸ h

section Words

variable {word rest : List Char} (hw : ∀ c ∈ word, isNameContinue c = true) (hr : EndsWord rest)

include hw hr

theorem takeWhile_word : (word ++ rest).takeWhile isNameContinue = word := by
  rw [List.takeWhile_append_of_pos hw]
  cases rest with
  | nil => simp
  | cons c rest => rw [List.takeWhile_cons_of_neg (by simp [hr c rfl]), List.append_nil]

theorem dropWhile_word : (word ++ rest).dropWhile isNameContinue = rest := by
  rw [List.dropWhile_append_of_pos hw]
  cases rest with
  | nil => rfl
  | cons c rest => rw [List.dropWhile_cons_of_neg (by simp [hr c rfl])]

end Words

namespace Descriptor

/-- The helpers that are descriptors. -/
def leaves : List (String × Descriptor) :=
  [("string", string), ("int", int), ("float", float), ("boolean", boolean),
    ("timestamp", timestamp)]

/-- The helpers that wrap a descriptor. -/
def wrappers : List (String × (Descriptor → Descriptor)) :=
  [("optional", optional), ("boxed", boxed), ("list", list)]

/-- What was read, if a closing parenthesis follows it. -/
def closed? {α : Type} (wrap : α → Descriptor) :
    Option (α × List Char) → Option (Descriptor × List Char)
  | some (a, ')' :: rest) => some (wrap a, rest)
  | _ => none

/-- Reads the expression of a descriptor. -/
def read? : List Char → Option (Descriptor × List Char)
  | 't' :: '.' :: cs =>
    let word := String.ofList (cs.takeWhile isNameContinue)
    match leaves.lookup word with
    | some d => some (d, cs.dropWhile isNameContinue)
    | none =>
      match _h : cs.dropWhile isNameContinue with
      | '(' :: inside =>
        if word = "named" then closed? named (Text.quoted? inside)
        else
          match wrappers.lookup word with
          | some wrap => closed? wrap (read? inside)
          | none => none
      | _ => none
  | _ => none
termination_by cs => cs.length
decreasing_by
  have := (List.dropWhile_sublist isNameContinue (l := cs)).length_le
  rw [_h] at this
  simp only [List.length_cons] at this ⊢
  omega

theorem length_closed?_lt {α : Type} {wrap : α → Descriptor} {inside : Option (α × List Char)}
    {d : Descriptor} {rest : List Char} {n : Nat} (h : closed? wrap inside = some (d, rest))
    (hi : ∀ p, inside = some p → p.2.length ≤ n) : rest.length < n := by
  unfold closed? at h
  split at h
  · cases h
    exact hi _ rfl
  · cases h

theorem length_read?_lt {cs rest : List Char} {d : Descriptor} (h : read? cs = some (d, rest)) :
    rest.length < cs.length := by
  have hword : ∀ cs : List Char, (cs.dropWhile isNameContinue).length ≤ cs.length := fun _ =>
    (List.dropWhile_sublist isNameContinue).length_le
  fun_induction read? cs generalizing d rest with
  | case1 cs =>
    cases h
    exact Nat.lt_succ_of_le (Nat.le_succ_of_le (hword cs))
  | case2 cs word hl inside hi =>
    have hr := length_closed?_lt h fun p hp => Text.length_quoted?_le hp
    have hc := hword cs
    simp only [hi, List.length_cons] at hc ⊢
    omega
  | case3 cs word hl inside hi =>
    rename_i ih
    have hr := length_closed?_lt h fun p hp => Nat.le_of_lt (ih hp)
    have hc := hword cs
    simp only [hi, List.length_cons] at hc ⊢
    omega
  | case4 => cases h
  | case5 => cases h
  | case6 => cases h

theorem head?_of_read? {cs : List Char} {p : Descriptor × List Char} (h : read? cs = some p) :
    cs.head? = some 't' := by
  revert h
  fun_cases read? cs
  case case6 => exact fun h => by cases h
  all_goals exact fun _ => rfl

section Reads

variable {rest : List Char}

theorem read?_leaf {word : String} {d : Descriptor}
    (hw : ∀ c ∈ word.toList, isNameContinue c = true) (hl : leaves.lookup word = some d)
    (hr : EndsWord rest) : read? ('t' :: '.' :: (word.toList ++ rest)) = some (d, rest) := by
  rw [read?, takeWhile_word hw hr, dropWhile_word hw hr, String.ofList_toList, hl]

theorem read?_named {inside : List Char} :
    read? ("t.named(".toList ++ inside) = closed? named (Text.quoted? inside) := by
  have hw : ∀ c ∈ "named".toList, isNameContinue c = true := List.all_eq_true.mp rfl
  show read? ('t' :: '.' :: ("named".toList ++ '(' :: inside)) = _
  rw [read?, takeWhile_word hw (endsWord_cons (by decide)),
    dropWhile_word hw (endsWord_cons (by decide))]
  rfl

theorem of_mem_wrappers {word : String} {wrap : Descriptor → Descriptor}
    (h : (word, wrap) ∈ wrappers) : word.toList.all isNameContinue = true ∧
      leaves.lookup word = none ∧ word ≠ "named" ∧ wrappers.lookup word = some wrap := by
  simp only [wrappers, List.mem_cons, Prod.mk.injEq, List.not_mem_nil, or_false] at h
  rcases h with ⟨rfl, rfl⟩ | ⟨rfl, rfl⟩ | ⟨rfl, rfl⟩ <;> exact ⟨rfl, rfl, by decide, rfl⟩

/-- What a helper wraps is read first. -/
theorem read?_wrapper {word : String} {wrap : Descriptor → Descriptor} {d : Descriptor}
    {inner : List Char} (h : (word, wrap) ∈ wrappers)
    (hd : read? (inner ++ ')' :: rest) = some (d, ')' :: rest)) :
    read? ('t' :: '.' :: (word.toList ++ '(' :: (inner ++ ')' :: rest))) = some (wrap d, rest) := by
  obtain ⟨hw, hl, hn, hwrap⟩ := of_mem_wrappers h
  rw [List.all_eq_true] at hw
  rw [read?, takeWhile_word hw (endsWord_cons (by decide)),
    dropWhile_word hw (endsWord_cons (by decide)), String.ofList_toList, hl]
  simp only [if_neg hn, hwrap, hd]
  rfl

theorem read?_renderName {name : String} (hr : EndsWord rest) :
    read? ((renderName name).toList ++ rest) = some (named name, rest) := by
  have leaf : ∀ {word : String} {d : Descriptor}, leaves.lookup word = some d →
      (∀ c ∈ word.toList, isNameContinue c = true) →
      read? ('t' :: '.' :: (word.toList ++ rest)) = some (d, rest) :=
    fun hl hw => read?_leaf hw hl hr
  unfold renderName
  split
  · subst_vars; exact @leaf "string" _ rfl (List.all_eq_true.mp rfl)
  split
  · subst_vars; exact @leaf "int" _ rfl (List.all_eq_true.mp rfl)
  split
  · subst_vars; exact @leaf "float" _ rfl (List.all_eq_true.mp rfl)
  split
  · subst_vars; exact @leaf "boolean" _ rfl (List.all_eq_true.mp rfl)
  split
  · subst_vars; exact @leaf "timestamp" _ rfl (List.all_eq_true.mp rfl)
  · rw [String.toList_append, String.toList_append, List.append_assoc, List.append_assoc,
      read?_named, Text.quoted?_quote]
    rfl

/-- The expression of a descriptor is read back, in front of what is no part of a word. -/
theorem read?_render (d : Descriptor) (hr : EndsWord rest) :
    read? (d.render.toList ++ rest) = some (d, rest) := by
  induction d generalizing rest with
  | named name => exact read?_renderName hr
  | optional inner ih =>
    have hd := @ih (')' :: rest) (endsWord_cons (by decide))
    simpa [render] using @read?_wrapper rest "optional" optional inner _ (by simp [wrappers]) hd
  | boxed inner ih =>
    have hd := @ih (')' :: rest) (endsWord_cons (by decide))
    simpa [render] using @read?_wrapper rest "boxed" boxed inner _ (by simp [wrappers]) hd
  | list inner ih =>
    have hd := @ih (')' :: rest) (endsWord_cons (by decide))
    simpa [render] using @read?_wrapper rest "list" list inner _ (by simp [wrappers]) hd

theorem read?_render_self (d : Descriptor) : read? d.render.toList = some (d, []) := by
  simpa using @read?_render [] d (by simp [EndsWord])

theorem render_injective : Function.Injective render := by
  intro d e h
  have hd := read?_render_self d
  rw [h, read?_render_self e] at hd
  exact (Prod.mk.inj (Option.some.inj hd)).1.symm

end Reads

end Descriptor

end GraphClient
