import GraphClient.Json.Scalar
import GraphClient.Proofs.Token.Locality
import GraphClient.Text.Quoted

/-!
# Quoted texts read back

Between quotes a character stands for itself, or is written by a letter or by four hexadecimal
digits behind a backslash (`Written`). Data and documents know these escapes, so both read a
quoted text as the text it was made of: `stringFrom_quoteChars`, `readString_quoteChars`.
-/

namespace GraphClient.Text

/-- How a character is written between quotes. -/
inductive Written (c : Char) : List Char → Prop
  | letter {l : Char} (hu : l ≠ 'u') (h : letterEscape l = some c) : Written c ['\\', l]
  | digits (h : c.toNat < 0x20) : Written c
      ['\\', 'u', '0', '0', hexDigit (c.toNat / 16), hexDigit (c.toNat % 16)]
  | plain (hq : c ≠ '"') (hb : c ≠ '\\') (h : 0x20 ≤ c.toNat) : Written c [c]

theorem written_quoteChar (c : Char) : Written c (quoteChar c) := by
  unfold quoteChar
  iterate 7
    split
    · subst_vars
      exact .letter (by decide) rfl
  split
  · exact .digits ‹_›
  · exact .plain ‹_› ‹_› (Nat.le_of_not_lt ‹_›)

theorem hexValue?_hexDigit {n : Nat} (h : n < 16) : hexValue? (hexDigit n) = some n := by
  revert n
  decide

/-- Four digits write a number below 256, the first two as zeros. -/
theorem hexDigits_value {n : Nat} : ((0 * 16 + 0) * 16 + n / 16) * 16 + n % 16 = n := by omega

end GraphClient.Text

namespace GraphClient

open Text

variable {c : Char} {cs w : List Char} {n : Nat}

/-! ## In data -/

namespace Json

variable {read rest : List Char}

theorem hexDigits_hexDigit (h : n < 256) :
    hexDigits 4 0 ('0' :: '0' :: hexDigit (n / 16) :: hexDigit (n % 16) :: rest) =
      .ok (n, rest) := by
  have h0 : hexValue? '0' = some 0 := rfl
  simp only [hexDigits, h0, hexValue?_hexDigit (n := n / 16) (by omega),
    hexValue?_hexDigit (n := n % 16) (by omega), hexDigits_value]

theorem escape_letter {l : Char} (hu : l ≠ 'u') (h : letterEscape l = some c) :
    escape (l :: rest) = .ok (c, rest) := by
  rw [escape, if_neg hu, h]

theorem escape_digits (h : c.toNat < 0x20) :
    escape ('u' :: '0' :: '0' :: hexDigit (c.toNat / 16) :: hexDigit (c.toNat % 16) :: rest) =
      .ok (c, rest) := by
  have hv : c.toNat.isValidChar := .inl (by omega)
  rw [escape, if_pos rfl, hexDigits_hexDigit (by omega)]
  show Except.ok (unitChar c.toNat rest) = _
  rw [unitChar, if_pos hv, Char.ofNat_toNat]

theorem stringFrom_escape (h : escape cs = .ok (c, rest)) :
    stringFrom read ('\\' :: cs) = stringFrom (c :: read) rest := by
  rw [stringFrom, if_neg (by decide), if_pos rfl]
  split <;> simp_all

theorem stringFrom_written (h : Written c w) :
    stringFrom read (w ++ rest) = stringFrom (c :: read) rest := by
  cases h with
  | letter hu h => exact stringFrom_escape (escape_letter hu h)
  | digits h => exact stringFrom_escape (escape_digits h)
  | plain hq hb h =>
    rw [List.singleton_append, stringFrom, if_neg hq, if_neg hb, if_neg (Nat.not_lt.mpr h)]

theorem stringFrom_quoteChars :
    stringFrom read (quoteChars cs ++ '"' :: rest) =
      .ok (String.ofList (read.reverse ++ cs), rest) := by
  induction cs generalizing read with
  | nil => rw [quoteChars, List.flatMap_nil, List.nil_append, stringFrom, if_pos rfl,
      List.append_nil]
  | cons c cs ih =>
    rw [quoteChars, List.flatMap_cons, List.append_assoc, stringFrom_written (written_quoteChar c)]
    refine ih.trans ?_
    rw [List.reverse_cons, List.append_assoc, List.singleton_append]

/-- A quoted text is read back behind its first quote. -/
theorem stringFrom_quote {s : String} :
    stringFrom [] (quoteChars s.toList ++ '"' :: rest) = .ok (s, rest) := by
  rw [stringFrom_quoteChars, List.reverse_nil, List.nil_append, String.ofList_toList]

end Json

/-- Reads a quoted text with the rules of data. -/
def Text.quoted? : List Char → Option (String × List Char)
  | '"' :: cs => (Json.stringFrom [] cs).toOption
  | _ => none

theorem Text.length_quoted?_le {cs rest : List Char} {s : String}
    (h : quoted? cs = some (s, rest)) : rest.length ≤ cs.length := by
  unfold quoted? at h
  split at h
  · rename_i cs
    match hs : Json.stringFrom [] cs with
    | .error _ => rw [hs] at h; cases h
    | .ok p =>
      rw [hs] at h
      cases h
      exact Nat.le_succ_of_le (Json.length_stringFrom_le hs)
  · cases h

theorem Text.quoted?_quote {s : String} {rest : List Char} :
    quoted? ((quote s).toList ++ rest) = some (s, rest) := by
  rw [toList_quote, List.append_assoc]
  show (Json.stringFrom [] (quoteChars s.toList ++ '"' :: rest)).toOption = _
  rw [Json.stringFrom_quote]
  rfl

/-! ## In documents -/

section Documents

variable {rest : Source} {m : Nat}

theorem quadEscape?_digits (h : c.toNat < 0x20) :
    quadEscape? (.whole '0' :: .whole '0' :: .whole (hexDigit (c.toNat / 16)) ::
      .whole (hexDigit (c.toNat % 16)) :: rest) = some (c, 4) := by
  have h0 : hexValue? '0' = some 0 := rfl
  have hv : c.toNat.isValidChar := .inl (by omega)
  have hq : hexQuad? (.whole '0' :: .whole '0' :: .whole (hexDigit (c.toNat / 16)) ::
      .whole (hexDigit (c.toNat % 16)) :: rest) = some c.toNat := by
    simp only [hexQuad?, Cell.hexValue?, h0, hexValue?_hexDigit (n := c.toNat / 16) (by omega),
      hexValue?_hexDigit (n := c.toNat % 16) (by omega), Option.bind_eq_bind, Option.bind_some,
      hexDigits_value]
    rfl
  rw [quadEscape?, hq]
  simp only [if_pos hv, Char.ofNat_toNat]

theorem readString_escape {n : Nat} {cells : Source} (h : readEscape cells = .ok (c, n)) :
    readString m (.whole '\\' :: cells) =
      (readString (m + 1 + n) (cells.drop n)).map fun r => (c :: r.1, r.2) := by
  rw [readString, if_neg (by decide), if_pos rfl, h]

theorem readString_written (h : Written c w) :
    readString m (w.map Cell.whole ++ rest) =
      (readString (m + w.length) rest).map fun r => (c :: r.1, r.2) := by
  cases h with
  | @letter l hu h =>
    have he : readEscape (.whole l :: rest) = .ok (c, 1) := by rw [readEscape_letter hu, h]
    exact readString_escape he
  | digits h =>
    have he : readEscape (.whole 'u' :: .whole '0' :: .whole '0' ::
        .whole (hexDigit (c.toNat / 16)) :: .whole (hexDigit (c.toNat % 16)) :: rest) =
        .ok (c, 5) := by
      rw [readEscape_quad (fun _ e => by cases e), quadEscape?_digits h]
    exact readString_escape he
  | plain hq hb h =>
    have hl : isLineBreak c = false := by
      rw [isLineBreak, Bool.or_eq_false_iff, beq_eq_false_iff_ne, beq_eq_false_iff_ne]
      constructor <;> (rintro rfl; revert h; decide)
    show readString m (.whole c :: rest) = _
    rw [readString, if_neg hq, if_neg hb, if_neg (by simp [hl])]
    rfl

theorem readString_quoteChars :
    readString m ((quoteChars cs).map Cell.whole ++ .whole '"' :: rest) =
      .ok (cs, m + (quoteChars cs).length + 1) := by
  induction cs generalizing m with
  | nil =>
    rw [quoteChars, List.flatMap_nil, List.map_nil, List.nil_append, readString, if_pos rfl]
    rfl
  | cons c cs ih =>
    rw [quoteChars] at ih ⊢
    rw [List.flatMap_cons, List.map_append, List.append_assoc,
      readString_written (written_quoteChar c), ih, List.length_append, Nat.add_assoc m]
    rfl

end Documents

end GraphClient
