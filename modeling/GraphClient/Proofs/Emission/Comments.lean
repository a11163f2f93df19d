import GraphClient.Emission
import Mathlib.Data.List.Chain

/-!
# Comments of a generated module

A comment ends at the first star with a slash behind it (`Comment.behind`), and no description
brings one in: what `docComment` writes is a comment with a body that no such mark ends
(`written_docComment`). So a reader that skips blanks and comments (`skip`) passes over each of
them as a whole.
-/

namespace GraphClient

/-- Lines with a line break behind each. -/
def written (lines : List String) : List Char := lines.flatMap fun line => line.toList ++ ['\n']

@[simp] theorem written_nil : written [] = [] := rfl

@[simp] theorem written_cons (line : String) (lines : List String) :
    written (line :: lines) = line.toList ++ '\n' :: written lines := by
  simp [written]

@[simp] theorem written_append (ls ms : List String) :
    written (ls ++ ms) = written ls ++ written ms := by
  simp [written]

/-- Only spaces. -/
def Blank (cs : List Char) : Prop := ∀ c ∈ cs, c = ' '

namespace Comment

/-- The text behind the end of the comment in which it begins. -/
def behind : List Char → List Char
  | '*' :: '/' :: cs => cs
  | _ :: cs => behind cs
  | [] => []

theorem length_behind_le (cs : List Char) : (behind cs).length ≤ cs.length := by
  fun_induction behind cs with
  | case1 cs => simp only [List.length_cons]; omega
  | case2 c cs _ ih => exact Nat.le_succ_of_le ih
  | case3 => exact Nat.le_refl _

/-- No star has a slash behind it. -/
def Unended (cs : List Char) : Prop := cs.IsChain fun a b => ¬ (a = '*' ∧ b = '/')

namespace Unended

variable {a b cs : List Char} {c : Char}

theorem append (ha : Unended a) (hb : Unended b) (hc : c ≠ '*' ∧ c ≠ '/') :
    Unended (a ++ c :: b) := by
  refine List.isChain_append.mpr ⟨ha, ?_, ?_⟩
  · exact List.isChain_cons.mpr ⟨fun _ _ h => hc.1 h.1, hb⟩
  · rintro x - y hy ⟨-, rfl⟩
    exact hc.2 (Option.some.inj hy)

theorem of_blank (h : Blank cs) : Unended cs := by
  induction cs with
  | nil => exact .nil
  | cons c cs ih =>
    refine List.isChain_cons.mpr ⟨fun _ _ e => ?_, ih fun d hd => h d (List.mem_cons_of_mem c hd)⟩
    cases (h c List.mem_cons_self).symm.trans e.1

/-- The first character is kept, so a star that ends no comment gets no slash behind it. -/
theorem head?_sealed (cs : List Char) : (sealed cs).head? = cs.head? := by
  fun_cases sealed cs <;> rfl

theorem sealed (cs : List Char) : Unended (sealed cs) := by
  fun_induction Comment.sealed cs with
  | case1 cs ih =>
    exact append (a := ['*']) (.singleton _) (List.isChain_cons.mpr
      ⟨fun _ _ e => absurd e.1 (by decide), ih⟩) (by decide)
  | case2 c cs hs ih =>
    refine List.isChain_cons.mpr ⟨fun d hd e => ?_, ih⟩
    rw [head?_sealed] at hd
    obtain ⟨tail, rfl⟩ := List.head?_eq_some_iff.mp hd
    exact hs tail e.1 (by rw [e.2])
  | case3 => exact .nil

/-- A part of a text without an end has none. -/
theorem parts {line : List Char} (h : Unended cs) (hl : line ∈ Text.parts c cs) :
    Unended line := by
  rw [← Text.joined_split c cs] at h
  rcases List.mem_cons.mp hl with rfl | hl
  · exact h.infix ⟨[], _, rfl⟩
  · have hi : c :: line <:+: (Text.split c cs).2.flatMap (c :: ·) :=
      List.infix_of_mem_flatten (List.mem_map_of_mem hl)
    exact h.infix ((List.infix_cons (List.infix_refl line)).trans
      (hi.trans (List.suffix_append _ _).isInfix))

end Unended

/-- The text behind a comment. -/
theorem behind_unended {body rest : List Char} (h : Unended (body ++ ['*'])) :
    behind (body ++ '*' :: '/' :: rest) = rest := by
  induction body with
  | nil => rfl
  | cons c body ih =>
    obtain ⟨hc, h⟩ := List.isChain_cons.mp h
    rw [List.cons_append, behind.eq_2 _ _ fun tail hs he => ?_]
    · exact ih h
    · cases body with
      | nil => cases he
      | cons d body =>
        cases he
        exact hc _ rfl ⟨hs, rfl⟩

/-! ## Descriptions -/

section Descriptions

variable {indent : String} {line : List Char} (hi : Blank indent.toList)

theorem unended_star : Unended ['*'] := .singleton _

include hi in
theorem unended_inner (h : Unended line) : Unended (inner indent line).toList := by
  unfold inner
  split
  · rw [String.toList_append]
    exact (Unended.of_blank hi).append unended_star (by decide)
  · have he : (indent ++ " * " ++ String.ofList line).toList =
        indent.toList ++ ' ' :: (['*'] ++ ' ' :: line) := by simp
    rw [he]
    exact (Unended.of_blank hi).append (unended_star.append h (by decide)) (by decide)

theorem unended_written {lines : List String} {rest : List Char}
    (h : ∀ line ∈ lines, Unended line.toList) (hr : Unended rest) :
    Unended (written lines ++ rest) := by
  induction lines with
  | nil => exact hr
  | cons line lines ih =>
    rw [written_cons, List.append_assoc, List.cons_append]
    exact (h line List.mem_cons_self).append
      (ih fun l hl => h l (List.mem_cons_of_mem line hl)) (by decide)

include hi in
/-- A description is written as a comment that ends where it is closed. -/
theorem written_docComment {text : String} (ht : text ≠ "") :
    ∃ body, Unended ('*' :: body ++ ['*']) ∧ written (docComment indent (some text)) =
      indent.toList ++ '/' :: '*' :: '*' :: body ++ ['*', '/', '\n'] := by
  have hline : ∀ line ∈ Text.parts '\n' (Comment.sealed text.toList), Unended line :=
    fun _ => (Unended.sealed _).parts
  rw [docComment, if_neg ht]
  split
  · rename_i line hp
    rw [hp] at hline
    refine ⟨' ' :: (line ++ [' ']), ?_, by simp⟩
    have h := unended_star.append (c := ' ')
      ((hline line List.mem_cons_self).append (c := ' ') unended_star (by decide)) (by decide)
    simpa using h
  · generalize Text.parts '\n' (Comment.sealed text.toList) = lines at hline
    refine ⟨'\n' :: (written (lines.map (inner indent)) ++ indent.toList ++ [' ']), ?_, by simp⟩
    have hlast : Unended (indent.toList ++ ' ' :: ['*']) :=
      (Unended.of_blank hi).append unended_star (by decide)
    have hinner : ∀ l ∈ lines.map (inner indent), Unended l.toList := by
      intro l hl
      obtain ⟨line, hm, rfl⟩ := List.mem_map.mp hl
      exact unended_inner hi (hline line hm)
    have h := unended_star.append (c := '\n') (unended_written hinner hlast) (by decide)
    simpa using h

end Descriptions

/-! ## Reading past comments -/

/-- The text behind blanks and comments. -/
def skip : List Char → List Char
  | ' ' :: cs => skip cs
  | '\n' :: cs => skip cs
  | '/' :: '*' :: cs => skip (behind cs)
  | cs => cs
termination_by cs => cs.length
decreasing_by
  · simp
  · simp
  · have := length_behind_le cs
    simp only [List.length_cons]
    omega

section Skip

variable {cs rest : List Char}

theorem length_skip_le (cs : List Char) : (skip cs).length ≤ cs.length := by
  fun_induction skip cs with
  | case1 cs ih => exact Nat.le_succ_of_le ih
  | case2 cs ih => exact Nat.le_succ_of_le ih
  | case3 cs ih =>
    have := length_behind_le cs
    simp only [List.length_cons]
    omega
  | case4 => exact Nat.le_refl _

theorem skip_blank (h : Blank cs) : skip (cs ++ rest) = skip rest := by
  induction cs with
  | nil => rfl
  | cons c cs ih =>
    cases h c List.mem_cons_self
    rw [List.cons_append, skip, ih fun d hd => h d (List.mem_cons_of_mem _ hd)]

/-- A reader passes over what is written for a description. -/
theorem skip_docComment {indent : String} (hi : Blank indent.toList) (d : Option String) :
    skip (written (docComment indent d) ++ rest) = skip rest := by
  match d with
  | none => rfl
  | some text =>
    by_cases ht : text = ""
    · rw [docComment, if_pos ht]
      rfl
    · obtain ⟨body, hb, hw⟩ := written_docComment hi ht
      rw [hw, List.append_assoc, List.append_assoc, skip_blank hi]
      show skip ('/' :: '*' :: (('*' :: body) ++ '*' :: '/' :: '\n' :: rest)) = _
      rw [skip, behind_unended hb, skip]

theorem skip_eq_self (h : ∀ c ∈ cs.head?, c ≠ ' ' ∧ c ≠ '\n' ∧ c ≠ '/') : skip cs = cs := by
  rw [skip.eq_4]
  all_goals
    rintro tail rfl
    have := h _ rfl
    simp at this

end Skip

end Comment

end GraphClient
