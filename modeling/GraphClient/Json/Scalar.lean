import GraphClient.Double.Nearest
import GraphClient.Json.Defect
import GraphClient.Token.Quotation

/-!
# Strings, numbers and words of data

A reading takes a part off the front of a text, or finds a defect. `scalar` reads data that
holds no other data: a string, whose escapes are those of a quoted string with four
hexadecimal digits for a unit, a number, or one of three words. It takes one character at
least (`length_scalar_lt`).
-/

namespace GraphClient.Json

/-- What a part of a text says, with the text behind it. -/
abbrev Reading (α : Type) : Type := Except Defect (α × List Char)

/-- Reads hexadecimal digits behind a number that earlier digits write. -/
def hexDigits : Nat → Nat → List Char → Reading Nat
  | 0, value, cs => .ok (value, cs)
  | _ + 1, _, [] => .error ⟨.unicodeEscape, []⟩
  | count + 1, value, c :: cs =>
    match hexValue? c with
    | some d => hexDigits count (value * 16 + d) cs
    | none => .error ⟨.unicodeEscape, c :: cs⟩

/-- The character that a leading surrogate makes with the escape of a trailing one. -/
def paired? (leading : Nat) : List Char → Option (Char × List Char)
  | '\\' :: 'u' :: cs =>
    match hexDigits 4 0 cs with
    | .ok (n, rest) =>
      if leading < 0xDC00 ∧ 0xDC00 ≤ n ∧ n ≤ 0xDFFF then
        some (Char.ofNat (0x10000 + (leading - 0xD800) * 0x400 + (n - 0xDC00)), rest)
      else none
    | .error _ => none
  | _ => none

/-- The character of an escaped unit with a text behind it; half a pair that stands alone is
replaced. -/
def unitChar (n : Nat) (rest : List Char) : Char × List Char :=
  if n.isValidChar then (Char.ofNat n, rest) else (paired? n rest).getD ('\ufffd', rest)

/-- Reads an escape behind its backslash. -/
def escape : List Char → Reading Char
  | [] => .error ⟨.escape, []⟩
  | c :: cs =>
    if c = 'u' then (hexDigits 4 0 cs).map fun r => unitChar r.1 r.2
    else
      match letterEscape c with
      | some d => .ok (d, cs)
      | none => .error ⟨.escape, c :: cs⟩

theorem length_hexDigits_le {count value n : Nat} {cs rest : List Char}
    (h : hexDigits count value cs = .ok (n, rest)) : rest.length ≤ cs.length := by
  fun_induction hexDigits count value cs with
  | case1 => cases h; exact Nat.le_refl _
  | case2 => cases h
  | case3 count value c cs d _ ih => exact Nat.le_succ_of_le (ih h)
  | case4 => cases h

theorem length_paired_le {leading : Nat} {cs rest : List Char} {c : Char}
    (h : paired? leading cs = some (c, rest)) : rest.length ≤ cs.length := by
  unfold paired? at h
  split at h
  · split at h
    · rename_i hd
      have := length_hexDigits_le hd
      split at h
      · have hr : _ = rest := congrArg Prod.snd (Option.some.inj h)
        rw [← hr]
        simp only [List.length_cons]
        omega
      · cases h
    · cases h
  · cases h

theorem length_unitChar_le (n : Nat) (cs : List Char) : (unitChar n cs).2.length ≤ cs.length := by
  unfold unitChar
  split
  · exact Nat.le_refl _
  · match h : paired? n cs with
    | none => exact Nat.le_refl _
    | some (c, rest) => exact length_paired_le h

theorem length_escape_le {c : Char} {cs rest : List Char} (h : escape cs = .ok (c, rest)) :
    rest.length ≤ cs.length := by
  unfold escape at h
  split at h
  · cases h
  · rename_i d cs
    split at h
    · match hd : hexDigits 4 0 cs with
      | .error _ => rw [hd] at h; cases h
      | .ok (n, tail) =>
        rw [hd] at h
        have hr : rest = (unitChar n tail).2 := congrArg Prod.snd (Except.ok.inj h).symm
        rw [hr]
        exact Nat.le_succ_of_le
          (Nat.le_trans (length_unitChar_le n tail) (length_hexDigits_le hd))
    · split at h
      · cases h
        exact Nat.le_succ _
      · cases h

/-- Reads a string behind its opening quote; `read` is what was read of it, the last first. -/
def stringFrom (read : List Char) (cs : List Char) : Reading String :=
  match cs with
  | [] => .error ⟨.unterminated, []⟩
  | c :: rest =>
    if c = '"' then .ok (String.ofList read.reverse, rest)
    else if c = '\\' then
      match _h : escape rest with
      | .error defect => .error defect
      | .ok (d, rest) => stringFrom (d :: read) rest
    else if c.toNat < 0x20 then .error ⟨.control, c :: rest⟩
    else stringFrom (c :: read) rest
termination_by cs.length
decreasing_by
  · have := length_escape_le _h
    simp only [List.length_cons]
    omega
  · simp

theorem length_stringFrom_le {read cs rest : List Char} {s : String}
    (h : stringFrom read cs = .ok (s, rest)) : rest.length ≤ cs.length := by
  fun_induction stringFrom read cs with
  | case1 => cases h
  | case2 => cases h; exact Nat.le_succ _
  | case3 => cases h
  | case4 =>
    rename_i hd _ ih
    exact Nat.le_succ_of_le (Nat.le_trans (ih h) (length_escape_le hd))
  | case5 => cases h
  | case6 _ _ _ _ _ _ ih => exact Nat.le_succ_of_le (ih h)

/-! ## Numbers and words -/

/-- Reads digits, at least one. -/
def digits (flaw : Flaw) (cs : List Char) : Reading (List Char) :=
  match cs.takeWhile Char.isDigit with
  | [] => .error ⟨flaw, cs⟩
  | ds => .ok (ds, cs.dropWhile Char.isDigit)

theorem length_digits_lt {flaw : Flaw} {cs ds rest : List Char}
    (h : digits flaw cs = .ok (ds, rest)) : rest.length < cs.length := by
  have hcs := congrArg List.length (List.takeWhile_append_dropWhile (p := Char.isDigit) (l := cs))
  rw [List.length_append] at hcs
  unfold digits at h
  split at h
  · cases h
  · rename_i hne
    cases h
    have := List.length_pos_iff.mpr hne
    omega

/-- Reads the digits before the point; behind a zero there is no other. -/
def whole (cs : List Char) : Reading (List Char) :=
  match cs with
  | '0' :: c :: rest =>
    if c.isDigit then .error ⟨.unexpected, c :: rest⟩ else .ok (['0'], c :: rest)
  | _ => digits .minusAlone cs

theorem length_whole_lt {cs ds rest : List Char} (h : whole cs = .ok (ds, rest)) :
    rest.length < cs.length := by
  unfold whole at h
  split at h
  · split at h
    · cases h
    · cases h
      exact Nat.lt_succ_self _
  · exact length_digits_lt h

/-- Reads a point with digits, if there is one. -/
def fraction (cs : List Char) : Reading (List Char) :=
  match cs with
  | '.' :: rest => digits .fraction rest
  | _ => .ok ([], cs)

theorem length_fraction_le {cs ds rest : List Char} (h : fraction cs = .ok (ds, rest)) :
    rest.length ≤ cs.length := by
  unfold fraction at h
  split at h
  · exact Nat.le_succ_of_le (Nat.le_of_lt (length_digits_lt h))
  · cases h
    exact Nat.le_refl _

/-- The number that digits write. -/
def digitsValue (ds : List Char) : Nat := ds.foldl (fun n c => n * 10 + (c.toNat - 48)) 0

/-- Whether a text begins with a minus, and the text behind a sign. -/
def sign : List Char → Bool × List Char
  | '-' :: rest => (true, rest)
  | '+' :: rest => (false, rest)
  | cs => (false, cs)

theorem length_sign_le (cs : List Char) : (sign cs).2.length ≤ cs.length := by
  unfold sign
  split
  · exact Nat.le_succ _
  · exact Nat.le_succ _
  · exact Nat.le_refl _

/-- Reads an exponent, if its letter is there. -/
def exponent (cs : List Char) : Reading Int :=
  match cs with
  | c :: rest =>
    if c = 'e' ∨ c = 'E' then
      (digits .exponent (sign rest).2).map fun r =>
        (if (sign rest).1 then -(digitsValue r.1 : Int) else digitsValue r.1, r.2)
    else .ok (0, cs)
  | [] => .ok (0, [])

theorem length_exponent_le {power : Int} {cs rest : List Char}
    (h : exponent cs = .ok (power, rest)) : rest.length ≤ cs.length := by
  unfold exponent at h
  split at h
  · rename_i c tail
    split at h
    · match hd : digits .exponent (sign tail).2 with
      | .error _ => rw [hd] at h; cases h
      | .ok (ds, behind) =>
        rw [hd] at h
        cases h
        have := length_digits_lt hd
        have := length_sign_le tail
        simp only [List.length_cons]
        omega
    · cases h
      exact Nat.le_refl _
  · cases h
    exact Nat.le_refl _

/-- Reads a number without its sign. -/
def decimal (cs : List Char) : Except Defect (Decimal × List Char) := do
  let (ds, rest) ← whole cs
  let (fs, rest) ← fraction rest
  let (power, rest) ← exponent rest
  return (⟨digitsValue (ds ++ fs), power - fs.length⟩, rest)

theorem length_decimal_lt {d : Decimal} {cs rest : List Char} (h : decimal cs = .ok (d, rest)) :
    rest.length < cs.length := by
  unfold decimal at h
  match hw : whole cs with
  | .error _ => rw [hw] at h; cases h
  | .ok (ds, behindWhole) =>
    match hf : fraction behindWhole with
    | .error _ => rw [hw] at h; simp only [bind, Except.bind, hf] at h; cases h
    | .ok (fs, behindFraction) =>
      match he : exponent behindFraction with
      | .error _ => rw [hw] at h; simp only [bind, Except.bind, hf, he] at h; cases h
      | .ok (power, behind) =>
        rw [hw] at h
        simp only [bind, Except.bind, hf, he] at h
        cases h
        have := length_whole_lt hw
        have := length_fraction_le hf
        have := length_exponent_le he
        omega

/-- Reads the rest of a word. -/
def word : List Char → List Char → Except Defect (List Char)
  | [], cs => .ok cs
  | _ :: _, [] => .error ⟨.unexpected, []⟩
  | w :: ws, c :: cs => if c = w then word ws cs else .error ⟨.unexpected, c :: cs⟩

theorem length_word_le {ws cs rest : List Char} (h : word ws cs = .ok rest) :
    rest.length ≤ cs.length := by
  fun_induction word ws cs with
  | case1 => cases h; exact Nat.le_refl _
  | case2 => cases h
  | case3 _ _ _ ih => exact Nat.le_succ_of_le (ih h)
  | case4 => cases h

/-- Reads data that holds no other data. -/
def scalar : List Char → Reading Json
  | [] => .error ⟨.unexpected, []⟩
  | c :: cs =>
    if c = '"' then (stringFrom [] cs).map fun r => (string r.1, r.2)
    else if c = 't' then (word ['r', 'u', 'e'] cs).map fun rest => (bool true, rest)
    else if c = 'f' then (word ['a', 'l', 's', 'e'] cs).map fun rest => (bool false, rest)
    else if c = 'n' then (word ['u', 'l', 'l'] cs).map fun rest => (null, rest)
    else if c = '-' then (decimal cs).map fun r => (number (.nearest true r.1), r.2)
    else if c.isDigit then (decimal (c :: cs)).map fun r => (number (.nearest false r.1), r.2)
    else .error ⟨.unexpected, c :: cs⟩

/-- A reading that goes on with what was read leaves the same text. -/
theorem length_map_le {ε α : Type} {x : Except ε α} {f : α → Json × List Char} {v : Json}
    {rest : List Char} {n : Nat} (h : x.map f = .ok (v, rest))
    (hx : ∀ a, x = .ok a → (f a).2.length ≤ n) : rest.length ≤ n := by
  match x, hx with
  | .error _, _ => cases h
  | .ok a, hx =>
    have hr : (f a).2 = rest := congrArg Prod.snd (Except.ok.inj h)
    exact hr ▸ hx a rfl

theorem length_scalar_lt {v : Json} {cs rest : List Char} (h : scalar cs = .ok (v, rest)) :
    rest.length < cs.length := by
  unfold scalar at h
  split at h
  · cases h
  · rename_i c cs
    rw [List.length_cons, Nat.lt_succ_iff]
    split at h
    · exact length_map_le h fun _ hs => length_stringFrom_le hs
    split at h
    · exact length_map_le h fun _ hw => length_word_le hw
    split at h
    · exact length_map_le h fun _ hw => length_word_le hw
    split at h
    · exact length_map_le h fun _ hw => length_word_le hw
    split at h
    · exact length_map_le h fun _ hd => Nat.le_of_lt (length_decimal_lt hd)
    split at h
    · exact length_map_le h fun _ hd => Nat.le_of_lt_succ (length_decimal_lt hd)
    · cases h

end GraphClient.Json
