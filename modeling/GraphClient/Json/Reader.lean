import GraphClient.Json.Scalar
import GraphClient.Record

/-!
# Data from text

`Json.ofString` reads data, or finds the first defect of a text. The arrays and objects that
are open make a stack of frames, the innermost first: `readValue` reads on to the next value
that is complete, and `readNext` gives it to the innermost frame. Both leave less of the text
than they were given, because each part that is read takes a character. The members of an
object are in the order of a record, and the last of those with one name counts.
-/

namespace GraphClient.Json

/-- An array or object that is open, with what it holds so far, the last first; an object waits
for the value of a member. -/
inductive Frame where
  | array (items : List Json)
  | object (members : List (String × Json)) (key : String)

def isBlank (c : Char) : Bool := c == ' ' || c == '\t' || c == '\n' || c == '\r'

/-- The text without the blanks at its front. -/
def skip (cs : List Char) : List Char := cs.dropWhile isBlank

theorem length_skip_le (cs : List Char) : (skip cs).length ≤ cs.length :=
  (List.dropWhile_sublist isBlank).length_le

theorem length_skip_lt {c : Char} {cs rest : List Char} (h : skip cs = c :: rest) :
    rest.length < cs.length := by
  have := length_skip_le cs
  rw [h, List.length_cons] at this
  omega

/-- Reads the name of a member and its colon. -/
def readKey (flaw : Flaw) (cs : List Char) : Reading String :=
  match skip cs with
  | '"' :: rest =>
    match stringFrom [] rest with
    | .error defect => .error defect
    | .ok (key, rest) =>
      match skip rest with
      | ':' :: rest => .ok (key, rest)
      | rest => .error ⟨.colon, rest⟩
  | rest => .error ⟨flaw, rest⟩

theorem length_readKey_lt {flaw : Flaw} {key : String} {cs rest : List Char}
    (h : readKey flaw cs = .ok (key, rest)) : rest.length < cs.length := by
  unfold readKey at h
  split at h
  · rename_i hq
    split at h
    · cases h
    · rename_i hs
      split at h
      · rename_i hc
        cases h
        have := length_skip_lt hq
        have := length_stringFrom_le hs
        have := length_skip_lt hc
        omega
      · cases h
  · cases h

/-- An object of members, the last first. -/
def closeObject (members : List (String × Json)) : Json :=
  object (Record.ofPairs members.reverse).entries

mutual

/-- Reads the next value inside of frames. -/
def readValue (frames : List Frame) (cs : List Char) : Except Defect Json :=
  match _h : skip cs with
  | '[' :: rest =>
    match _hs : skip rest with
    | ']' :: rest => readNext frames (array []) rest
    | _ => readValue (.array [] :: frames) rest
  | '\x7b' :: rest =>
    match _hs : skip rest with
    | '\x7d' :: rest => readNext frames (object []) rest
    | _ =>
      match _hk : readKey .memberOrBrace rest with
      | .error defect => .error defect
      | .ok (key, rest) => readValue (.object [] key :: frames) rest
  | start =>
    match _hs : scalar start with
    | .error defect => .error defect
    | .ok (v, rest) => readNext frames v rest
termination_by cs.length
decreasing_by
  · exact Nat.lt_trans (length_skip_lt _hs) (length_skip_lt _h)
  · exact length_skip_lt _h
  · exact Nat.lt_trans (length_skip_lt _hs) (length_skip_lt _h)
  · exact Nat.lt_trans (length_readKey_lt _hk) (length_skip_lt _h)
  · exact Nat.lt_of_lt_of_le (length_scalar_lt _hs) (_h ▸ length_skip_le cs)

/-- Goes on behind a value. -/
def readNext (frames : List Frame) (v : Json) (cs : List Char) : Except Defect Json :=
  match frames with
  | [] =>
    match skip cs with
    | [] => .ok v
    | rest => .error ⟨.trailing, rest⟩
  | .array items :: frames =>
    match _h : skip cs with
    | ',' :: rest => readValue (.array (v :: items) :: frames) rest
    | ']' :: rest => readNext frames (array (v :: items).reverse) rest
    | rest => .error ⟨.commaOrBracket, rest⟩
  | .object members key :: frames =>
    match _h : skip cs with
    | ',' :: rest =>
      match _hk : readKey .member rest with
      | .error defect => .error defect
      | .ok (next, rest) => readValue (.object ((key, v) :: members) next :: frames) rest
    | '\x7d' :: rest => readNext frames (closeObject ((key, v) :: members)) rest
    | rest => .error ⟨.commaOrBrace, rest⟩
termination_by cs.length
decreasing_by
  · exact length_skip_lt _h
  · exact length_skip_lt _h
  · exact Nat.lt_trans (length_readKey_lt _hk) (length_skip_lt _h)
  · exact length_skip_lt _h

end

/-- Reads data that a text holds and nothing else. -/
def ofString (text : String) : Except Defect Json := readValue [] text.toList

end GraphClient.Json
