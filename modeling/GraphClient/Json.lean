import GraphClient.Double

/-!
# Untyped data

`Json` is a value as a response carries it. It is read by asking for what may be there: a
member of an object, a text, a list. What is missing or of another form is absent.
-/

namespace GraphClient

inductive Json where
  | null
  | bool (value : Bool)
  | number (value : Double)
  | string (value : String)
  | array (items : List Json)
  | object (members : List (String × Json))
  deriving Repr, Inhabited

namespace Json

/-- The value of a member of an object. -/
def member? (key : String) : Json → Option Json
  | object members => members.lookup key
  | _ => none

def isObject : Json → Bool
  | object _ => true
  | _ => false

def string? : Json → Option String
  | string value => some value
  | _ => none

/-- The items of an array; nothing else has items. -/
def items : Json → List Json
  | array items => items
  | _ => []

/-- The text of a member. -/
def stringMember? (key : String) (j : Json) : Option String := (j.member? key).bind string?

/-- The objects in the array of a member. -/
def objectsMember (key : String) (j : Json) : List Json :=
  (((j.member? key).map items).getD []).filter isObject

/-- Whether a member is true. -/
def isTrueMember (key : String) (j : Json) : Bool :=
  match j.member? key with
  | some (bool true) => true
  | _ => false

theorem sizeOf_lookup_lt {key : String} {v : Json} {members : List (String × Json)}
    (h : members.lookup key = some v) : sizeOf v < sizeOf members := by
  induction members with
  | nil => cases h
  | cons m rest ih =>
    obtain ⟨k, w⟩ := m
    rw [List.lookup_cons] at h
    split at h
    · cases h; simp; omega
    · have := ih h; simp; omega

theorem sizeOf_member?_lt {key : String} {j v : Json} (h : j.member? key = some v) :
    sizeOf v < sizeOf j := by
  cases j <;> simp only [member?] at h <;> try contradiction
  have := sizeOf_lookup_lt h
  simp; omega

end Json

end GraphClient
