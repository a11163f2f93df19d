import GraphClient.Proofs.Token.Offset

/-!
# Faults and tokens are fewer than units

A token or a fault never starts at a space (`read_ne_space`), and blanking the unit of a fault
leaves one unit less that is no space (`Source.solid_blank`). So the faults of a text and the
tokens that are left after blanking can be charged to units of the text, one each
(`charged_tokenize`).
-/

namespace GraphClient

namespace Source

/-- How many units of a text are no spaces. -/
def solid : Source → Nat
  | [] => 0
  | c :: cs => (if c = .whole ' ' then 0 else c.width) + solid cs

theorem solid_append (a b : Source) : solid (a ++ b) = solid a + solid b := by
  induction a with
  | nil => simp [solid]
  | cons c a ih => rw [List.cons_append, solid, solid, ih, Nat.add_assoc]

theorem solid_le_width (cells : Source) : solid cells ≤ width cells := by
  induction cells with
  | nil => exact Nat.le_refl _
  | cons c cells ih =>
    rw [solid, width]
    split <;> omega

/-- What is passed and what is left of a text. -/
theorem solid_front (c : Cell) (rest : Source) (n : Nat) :
    solid (c :: rest) = solid (c :: rest.take n) + solid (rest.drop n) := by
  rw [← solid_append, List.cons_append, List.take_append_drop]

theorem solid_cons_pos {c : Cell} (h : c ≠ .whole ' ') (cells : Source) :
    0 < solid (c :: cells) := by
  have hw := width_pos c
  rw [solid, if_neg h]
  omega

theorem solid_blanked {c : Cell} (h : c.isVisible = true) : solid c.blanked + 1 = c.width := by
  cases c with
  | half c => rfl
  | whole c =>
    by_cases hc : c.val < 0x10000
    · simp only [Cell.blanked, Cell.width, Text.unitCount, if_pos hc]
      rfl
    · simp only [Cell.blanked, Cell.width, Text.unitCount, if_neg hc]
      rfl

/-- Blanking a visible cell leaves one unit less that is no space. -/
theorem solid_blank {cells : Source} {position : Nat} {c : Cell}
    (h : cellAt? cells position = some c) (hc : c.isVisible = true) :
    solid (blank cells position) + 1 = solid cells := by
  fun_induction blank cells position with
  | case1 => simp [cellAt?] at h
  | case2 d cs =>
    cases h
    have hs : c ≠ .whole ' ' := by
      rintro rfl
      exact absurd hc (by decide)
    rw [solid_append, Nat.add_right_comm, solid_blanked hc, solid, if_neg hs]
  | case3 d cs n ih =>
    have := ih h
    rw [solid, solid]
    omega

theorem width_ofString (s : String) : width (ofString s) = (Text.units s).length := by
  rw [ofString, Text.units]
  induction s.toList with
  | nil => rfl
  | cons c cs ih =>
    rw [List.map_cons, width, ih, List.flatMap_cons, List.length_append, Text.length_unitsOf]
    rfl

end Source

open Source

section Tokens

/-- What starts at a space is ignored. -/
theorem read_ne_space {c : Cell} {rest : Source} (h : ∀ n, read c rest ≠ .ignored n) :
    c ≠ .whole ' ' := by
  rintro rfl
  exact h 0 rfl

/-- Each token, and a fault behind them, is charged to a unit that is no space. -/
theorem charged_lexFrom (gap : Source) (position : Nat) (place : Place) (cells : Source) :
    (lexFrom gap position place cells).tokens.length +
      (lexFrom gap position place cells).fault.toList.length ≤ solid cells := by
  fun_induction lexFrom gap position place cells with
  | case1 => exact Nat.zero_le _
  | case2 gap position place c rest cause passed hr before =>
    exact solid_cons_pos (read_ne_space fun n h => by rw [hr] at h; cases h) rest
  | case3 gap position place c rest n hr text ih =>
    rw [solid_front c rest n]
    exact Nat.le_add_left_of_le ih
  | case4 gap position place c rest kind n hr lexeme later ih =>
    have hc := solid_cons_pos (read_ne_space fun n h => by rw [hr] at h; cases h) (rest.take n)
    have hl : later.tokens.length + later.fault.toList.length ≤ solid (rest.drop n) := ih
    rw [solid_front c rest n]
    simp only [List.length_cons]
    omega

theorem charged_lex {cells : Source} {fault : Fault} (h : (lex cells).fault = some fault) :
    1 + (lex cells).tokens.length ≤ solid cells := by
  have hl : (lex cells).tokens.length + (lex cells).fault.toList.length ≤ solid cells :=
    charged_lexFrom [] 0 Place.start cells
  rw [h] at hl
  rw [Nat.add_comm]
  exact hl

/-- Each fault of a text, and each token that is left, is charged to a unit of its own. -/
theorem charged_tokenize (cells : Source) :
    (tokenize cells).faults.length + (tokenize cells).tokens.length ≤ solid cells := by
  fun_induction tokenize cells with
  | case1 cells h =>
    have hl : (lex cells).tokens.length + (lex cells).fault.toList.length ≤ solid cells :=
      charged_lexFrom [] 0 Place.start cells
    rw [h] at hl
    rw [Nat.add_comm]
    exact hl
  | case2 cells fault h => exact charged_lex h
  | case3 cells fault h c hcell hvisible later ih =>
    have hb := solid_blank hcell hvisible
    have hl : later.faults.length + later.tokens.length ≤ solid (cells.blank fault.position) := ih
    simp only [List.length_cons]
    omega
  | case4 cells fault h => exact charged_lex h

end Tokens

end GraphClient
