/-!
# Sixteen-bit units

A character outside the basic plane takes two units (`unitCount`), every other
takes one. Positions and columns count units, and names are sorted by them
(`unitCompare`), so a character above the basic plane sorts before `U+E000`.
`isSpace` is the class that `trim` strips at the ends of a text.
-/

namespace GraphClient.Text

/-- How many units a character takes. -/
def unitCount (c : Char) : Nat := if c.val < 0x10000 then 1 else 2

theorem unitCount_pos (c : Char) : 0 < unitCount c := by
  unfold unitCount; split <;> decide

/-- The units of a character: itself, or a leading and a trailing surrogate. -/
def unitsOf (c : Char) : List Nat :=
  if c.val < 0x10000 then [c.toNat]
  else [0xD800 + (c.toNat - 0x10000) / 0x400, 0xDC00 + (c.toNat - 0x10000) % 0x400]

theorem length_unitsOf (c : Char) : (unitsOf c).length = unitCount c := by
  unfold unitsOf unitCount; split <;> rfl

/-- The units of a text. -/
def units (s : String) : List Nat := s.toList.flatMap unitsOf

/-- The order of two texts by their units. -/
def unitCompare (a b : String) : Ordering := compare (units a) (units b)

/-- Not after, in the order by units. -/
def unitLe (a b : String) : Bool := (unitCompare a b).isLE

/-- White space: the controls from tab to carriage return, the space separators, the two line
separators and the byte order mark. -/
def isSpace (c : Char) : Bool :=
  let n := c.toNat
  (0x9 ≤ n && n ≤ 0xD) || n == 0x20 || n == 0xA0 || n == 0x1680 || (0x2000 ≤ n && n ≤ 0x200A) ||
    n == 0x2028 || n == 0x2029 || n == 0x202F || n == 0x205F || n == 0x3000 || n == 0xFEFF

/-- A list of characters without white space at its end. -/
def dropSpaceEnd (cs : List Char) : List Char := (cs.reverse.dropWhile isSpace).reverse

/-- A text without white space at its end. -/
def trimEnd (s : String) : String := String.ofList (dropSpaceEnd s.toList)

/-- A text without white space at its ends. -/
def trim (s : String) : String := String.ofList (dropSpaceEnd (s.toList.dropWhile isSpace))

end GraphClient.Text
