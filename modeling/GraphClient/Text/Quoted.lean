/-!
# Quoted text

`quote` writes a text between double quotes, each character by `quoteChar`: a quote and a
backslash after a backslash, five controls by their letters, the other controls as four
hexadecimal digits, everything else as it is.
-/

namespace GraphClient.Text

/-- The digit of a number below sixteen. -/
def hexDigit (n : Nat) : Char := if n < 10 then Char.ofNat (48 + n) else Char.ofNat (87 + n)

/-- One character between the quotes. -/
def quoteChar (c : Char) : List Char :=
  if c = '"' then ['\\', '"']
  else if c = '\\' then ['\\', '\\']
  else if c = '\x08' then ['\\', 'b']
  else if c = '\t' then ['\\', 't']
  else if c = '\n' then ['\\', 'n']
  else if c = '\x0c' then ['\\', 'f']
  else if c = '\r' then ['\\', 'r']
  else if c.toNat < 0x20 then
    ['\\', 'u', '0', '0', hexDigit (c.toNat / 16), hexDigit (c.toNat % 16)]
  else [c]

/-- The characters between the quotes. -/
def quoteChars (cs : List Char) : List Char := cs.flatMap quoteChar

/-- A text as a quoted string. -/
def quote (s : String) : String := String.ofList ('"' :: quoteChars s.toList ++ ['"'])

theorem toList_quote (s : String) : (quote s).toList = '"' :: quoteChars s.toList ++ ['"'] := by
  simp [quote]

end GraphClient.Text
