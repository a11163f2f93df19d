import GraphClient.Text.Units

/-!
# Source texts

A `Source` is a list of cells. Tokenising blanks one 16-bit unit at a time, so a character
of two units may lose its first unit and leave a `half`; every other cell is a `whole`
character. A `Place` counts lines, which end at a line feed, a carriage return or both in
this order, and columns in units.
-/

namespace GraphClient

/-- A character, or the second unit of one whose first unit is blanked. -/
inductive Cell where
  | whole (c : Char)
  | half (c : Char)
  deriving DecidableEq, Repr

namespace Cell

/-- How many units a cell takes. -/
def width : Cell → Nat
  | whole c => Text.unitCount c
  | half _ => 1

/-- Whether a cell shows something that can be blanked. -/
def isVisible : Cell → Bool
  | whole c => !Text.isSpace c
  | half _ => true

/-- A cell with its first unit replaced by a space. -/
def blanked : Cell → List Cell
  | whole c => if c.val < 0x10000 then [whole ' '] else [whole ' ', half c]
  | half _ => [whole ' ']

/-- Whether a cell is a character of a class. -/
def satisfies (p : Char → Bool) : Cell → Bool
  | whole c => p c
  | half _ => false

/-- The character of a cell; a lone half has the replacement character. -/
def toChar : Cell → Char
  | whole c => c
  | half _ => '\ufffd'

end Cell

/-- A text whose characters may be blanked unit by unit. -/
abbrev Source := List Cell

namespace Source

def ofString (s : String) : Source := s.toList.map .whole

def toString (cells : Source) : String := String.ofList (cells.map Cell.toChar)

/-- How many units a text takes. -/
def width : Source → Nat
  | [] => 0
  | c :: cs => c.width + width cs

/-- The characters of the first `n` units; one that the cut halves is replaced. -/
def firstUnits : Nat → Source → List Char
  | _, [] => []
  | 0, _ => []
  | n + 1, c :: cs =>
    if c.width ≤ n + 1 then c.toChar :: firstUnits (n + 1 - c.width) cs else ['\ufffd']

/-- How many units of a text are visible. -/
def visible : Source → Nat
  | [] => 0
  | c :: cs => (if c.isVisible then c.width else 0) + visible cs

/-- The cell that starts at a position, in units. -/
def cellAt? : Source → Nat → Option Cell
  | [], _ => none
  | c :: _, 0 => some c
  | c :: cs, n + 1 => cellAt? cs (n + 1 - c.width)

/-- The text with the unit at a position blanked, where a cell starts. -/
def blank : Source → Nat → Source
  | [], _ => []
  | c :: cs, 0 => c.blanked ++ cs
  | c :: cs, n + 1 => c :: blank cs (n + 1 - c.width)

theorem toString_ofString (s : String) : toString (ofString s) = s := by
  simp only [toString, ofString, List.map_map]
  have h : Cell.toChar ∘ Cell.whole = id := rfl
  rw [h, List.map_id, String.ofList_toList]

theorem width_append (a b : Source) : width (a ++ b) = width a + width b := by
  induction a with
  | nil => simp [width]
  | cons c a ih => rw [List.cons_append, width, width, ih, Nat.add_assoc]

theorem visible_append (a b : Source) : visible (a ++ b) = visible a + visible b := by
  induction a with
  | nil => simp [visible]
  | cons c a ih => rw [List.cons_append, visible, visible, ih, Nat.add_assoc]

theorem width_blanked (c : Cell) : width c.blanked = c.width := by
  cases c with
  | whole c =>
    by_cases h : c.val < 0x10000
    · simp only [Cell.blanked, Cell.width, Text.unitCount, if_pos h]; decide
    · simp [Cell.blanked, width, Cell.width, Text.unitCount, if_neg h]
  | half c => rfl

theorem visible_blanked {c : Cell} (h : c.isVisible = true) :
    visible c.blanked + 1 = c.width := by
  cases c with
  | whole c =>
    by_cases hc : c.val < 0x10000
    · simp only [Cell.blanked, Cell.width, Text.unitCount, if_pos hc]; decide
    · simp only [Cell.blanked, Cell.width, Text.unitCount, if_neg hc]
      simp [visible, Cell.isVisible, Cell.width, Text.isSpace]
  | half c => rfl

/-- Blanking keeps the width of a text. -/
theorem width_blank (cells : Source) (position : Nat) :
    width (blank cells position) = width cells := by
  fun_induction blank cells position with
  | case1 => rfl
  | case2 c cs => rw [width_append, width_blanked]; simp [width]
  | case3 c cs n ih => rw [width, width, ih]

/-- Blanking a visible cell leaves one visible unit less. -/
theorem visible_blank {cells : Source} {position : Nat} {c : Cell}
    (h : cellAt? cells position = some c) (hc : c.isVisible = true) :
    visible (blank cells position) + 1 = visible cells := by
  fun_induction blank cells position with
  | case1 => simp [cellAt?] at h
  | case2 d cs =>
    cases h
    rw [visible_append, Nat.add_right_comm, visible_blanked hc]
    simp [visible, hc]
  | case3 d cs n ih =>
    have := ih h
    rw [visible, visible]
    omega

end Source

/-- A line and a column, both counted from one. -/
structure Place where
  line : Nat
  column : Nat
  deriving DecidableEq, Repr

namespace Place

def start : Place := ⟨1, 1⟩

def nextLine (p : Place) : Place := ⟨p.line + 1, 1⟩

/-- The place behind a text that begins at a place. -/
def after (p : Place) : Source → Place
  | [] => p
  | .whole '\r' :: .whole '\n' :: rest => p.nextLine.after rest
  | c :: rest =>
    if c = .whole '\n' ∨ c = .whole '\r' then p.nextLine.after rest
    else Place.after ⟨p.line, p.column + c.width⟩ rest

/-- A text may be passed in two parts unless a line break is cut in two. -/
theorem after_append (p : Place) (a b : Source)
    (h : a.getLast? = some (.whole '\r') → b.head? ≠ some (.whole '\n')) :
    p.after (a ++ b) = (p.after a).after b := by
  fun_induction Place.after p a with
  | case1 p => rfl
  | case2 p rest ih =>
    rw [List.cons_append, List.cons_append, Place.after]
    refine ih fun e => h ?_
    cases rest with
    | nil => simp at e
    | cons c rest => simpa using e
  | case3 p c rest hcr hc ih =>
    rw [List.cons_append, Place.after, if_pos hc]
    · refine ih fun e => h ?_
      cases rest with
      | nil => simp at e
      | cons d rest => simpa using e
    · rintro r rfl e
      cases rest with
      | nil => exact h rfl (by rw [List.nil_append] at e; simp [e])
      | cons d rest => cases e; exact hcr _ rfl rfl
  | case4 p c rest hcr hc ih =>
    rw [List.cons_append, Place.after, if_neg hc]
    · refine ih fun e => h ?_
      cases rest with
      | nil => simp at e
      | cons d rest => simpa using e
    · rintro r rfl
      simp at hc

end Place

end GraphClient
