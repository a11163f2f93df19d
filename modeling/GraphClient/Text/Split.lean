/-!
# Splitting

`split` cuts a text at each separator: what stands before the first one, and what stands
behind each of them. Put together again the parts are the text (`joined_split`), and no part
holds a separator.
-/

namespace GraphClient.Text

/-- The part before the first separator and the parts behind each separator. -/
def split (separator : Char) : List Char → List Char × List (List Char)
  | [] => ([], [])
  | c :: cs =>
    let (first, later) := split separator cs
    if c = separator then ([], first :: later) else (c :: first, later)

/-- All parts of a text. -/
def parts (separator : Char) (cs : List Char) : List (List Char) :=
  (split separator cs).1 :: (split separator cs).2

/-- A first part and later ones with a separator before each of these. -/
def joined (separator : Char) (first : List Char) (later : List (List Char)) : List Char :=
  first ++ later.flatMap (separator :: ·)

theorem joined_split (separator : Char) (cs : List Char) :
    joined separator (split separator cs).1 (split separator cs).2 = cs := by
  induction cs with
  | nil => rfl
  | cons c cs ih =>
    simp only [joined] at ih
    simp only [joined, split]
    by_cases h : c = separator
    · subst h; simpa using ih
    · simpa [if_neg h] using ih

theorem not_mem_split (separator : Char) (cs : List Char) :
    separator ∉ (split separator cs).1 ∧ ∀ part ∈ (split separator cs).2, separator ∉ part := by
  induction cs with
  | nil => simp [split]
  | cons c cs ih =>
    simp only [split]
    by_cases h : c = separator
    · simp only [if_pos h]
      exact ⟨by simp, fun part hp => by
        rcases List.mem_cons.mp hp with rfl | hp
        · exact ih.1
        · exact ih.2 part hp⟩
    · simp only [if_neg h, List.mem_cons, not_or]
      exact ⟨⟨Ne.symm h, ih.1⟩, ih.2⟩

end GraphClient.Text
