import GraphClient.Double.Layout
import GraphClient.Json
import GraphClient.Text.Quoted

/-!
# Data as text

`Json.text` writes data without blanks, behind a text that is already there (`write`). A
number that is not finite has no form of its own and is written as null.
-/

namespace GraphClient.Json

mutual

/-- The text `out` with data behind it. -/
def write (out : String) : Json → String
  | null => out ++ "null"
  | bool value => out ++ (if value then "true" else "false")
  | number value => out ++ (if value.isFinite then value.text else "null")
  | string value => out ++ Text.quote value
  | array items => (writeItems (out.push '[') "" items).push ']'
  | object members => (writeMembers (out.push '\x7b') "" members).push '\x7d'

/-- The text `out` with items behind it, a separator before the first and commas between them. -/
def writeItems (out separator : String) : List Json → String
  | [] => out
  | item :: items => writeItems (write (out ++ separator) item) "," items

/-- The text `out` with members behind it. -/
def writeMembers (out separator : String) : List (String × Json) → String
  | [] => out
  | (key, value) :: members =>
    writeMembers (write (out ++ separator ++ Text.quote key ++ ":") value) "," members

end

/-- Data as text. -/
def text (j : Json) : String := write "" j

end GraphClient.Json
