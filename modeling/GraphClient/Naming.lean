import GraphClient.Text.LetterCase
import GraphClient.Text.Split

/-!
# Names

`IsName` is the form of a GraphQL name. A key of a projection is an identifier; the field
it selects is its wire name (`wireName`): leading underscores are kept, the underscore that
escapes a reserved word is dropped, and the words between underscores are joined in camel
case. `escape` and `unescape` add and drop the underscore after a reserved word.
-/

namespace GraphClient

/-- A letter or an underscore. -/
def isNameStart (c : Char) : Bool := c.isAlpha || c == '_'

/-- A letter, a digit or an underscore. -/
def isNameContinue (c : Char) : Bool := c.isAlphanum || c == '_'

/-- A GraphQL name: a name start and then only letters, digits and underscores. -/
def IsName (s : String) : Prop :=
  ∃ c cs, s.toList = c :: cs ∧ isNameStart c = true ∧ ∀ d ∈ cs, isNameContinue d = true

theorem isNameContinue_of_isNameStart {c : Char} (h : isNameStart c = true) :
    isNameContinue c = true := by
  rw [isNameStart, Bool.or_eq_true] at h
  rw [isNameContinue, Bool.or_eq_true]
  exact h.imp_left fun ha => by simp [Char.isAlphanum, ha]

theorem IsName.continues {s : String} (h : IsName s) : ∀ c ∈ s.toList, isNameContinue c = true := by
  obtain ⟨c, cs, hs, hc, hcs⟩ := h
  rw [hs]
  exact List.forall_mem_cons.mpr ⟨isNameContinue_of_isNameStart hc, hcs⟩

theorem IsName.ne_empty {s : String} (h : IsName s) : s ≠ "" := by
  rintro rfl
  obtain ⟨c, cs, hs, -⟩ := h
  cases hs

namespace Naming

/-- The words that no binding of a module can have as its name. -/
def reservedWords : List String :=
  ["await", "break", "case", "catch", "class", "const", "continue", "debugger", "default",
    "delete", "do", "else", "enum", "export", "extends", "false", "finally", "for", "function",
    "if", "implements", "import", "in", "instanceof", "interface", "let", "new", "null",
    "package", "private", "protected", "public", "return", "static", "super", "switch", "this",
    "throw", "true", "try", "typeof", "var", "void", "while", "with", "yield"]

def isReserved (name : String) : Bool := reservedWords.contains name

/-- A name as a binding: a reserved word gets an underscore at its end. -/
def escape (name : String) : String := if isReserved name then name ++ "_" else name

/-- The reserved word before the underscore at the end, if there is one. -/
def escaped? (cs : List Char) : Option (List Char) :=
  if cs.getLast? = some '_' ∧ isReserved (String.ofList cs.dropLast) then some cs.dropLast else none

/-- A name without the underscore of `escape`. -/
def unescape (name : String) : String :=
  match escaped? name.toList with
  | some word => String.ofList word
  | none => name

/-- A word with its first letter as a capital. -/
def capitalize : List Char → List Char
  | [] => []
  | c :: cs => Text.upper c ++ cs

/-- A word with its first letter as a small one. -/
def uncapitalize : List Char → List Char
  | [] => []
  | c :: cs => Text.lower c ++ cs

/-- Words between underscores, joined with a capital at each seam. -/
def camelCase (cs : List Char) : List Char :=
  let (first, later) := Text.split '_' cs
  uncapitalize first ++ later.flatMap capitalize

/-- The wire name of a list of characters. -/
def wireChars (cs : List Char) : List Char :=
  let stem := cs.dropWhile (· == '_')
  cs.takeWhile (· == '_') ++ camelCase ((escaped? stem).getD stem)

/-- The field name that a key sends. -/
def wireName (key : String) : String := String.ofList (wireChars key.toList)

end Naming

end GraphClient
