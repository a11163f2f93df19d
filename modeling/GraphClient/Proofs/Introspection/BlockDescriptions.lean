import GraphClient.Proofs.Introspection.Spelling
import GraphClient.Proofs.Token.Offset
import GraphClient.Text.Split

/-!
# Descriptions of several lines

A description with a line feed is written between three quotes. If it ends with neither a quote
nor a backslash it is one token again, whatever quotes and backslashes it holds, and what is
written behind it is tokenised as it would be alone (`description_lexed`). The value of the token
is the description with its lines normalised: `Normalises` says what that is line by line, and
`value_normalises` that `Block.value` computes it.
-/

namespace GraphClient

namespace Block

/-! ## Normalised lines -/

/-- Each line that shows something begins with `n` blanks, and one of them with no more. -/
def Shares (lines : List (List Char)) (n : Nat) : Prop :=
  (∀ line ∈ lines, isBlankLine line = false → n ≤ indent line) ∧
    ((∀ line ∈ lines, isBlankLine line = true) ∨
      ∃ line ∈ lines, isBlankLine line = false ∧ indent line = n)

/-- Lines without the blank ones at both ends. -/
structure Trims (lines kept : List (List Char)) : Prop where
  within : ∃ front back, lines = front ++ (kept ++ back) ∧
    ∀ line ∈ front ++ back, isBlankLine line = true
  first : ∀ line ∈ kept.head?, isBlankLine line = false
  last : ∀ line ∈ kept.getLast?, isBlankLine line = false

/-- A text without the indentation that its lines but the first have in common and without the
blank lines at its ends. -/
def Normalises (text value : List Char) : Prop :=
  ∃ first later n kept, Text.joined '\n' first later = text ∧
    (∀ line ∈ first :: later, '\n' ∉ line) ∧ Shares later n ∧
    Trims (first :: later.map (·.drop n)) kept ∧ ['\n'].intercalate kept = value

section Normalised

variable {text : List Char} {lines : List (List Char)}

theorem splitLines_eq_split (h : '\r' ∉ text) : splitLines text = Text.split '\n' text := by
  induction text with
  | nil => rfl
  | cons c cs ih =>
    obtain ⟨hc, hcs⟩ := List.ne_and_not_mem_of_not_mem_cons h
    have hpair : ∀ rest, c = '\r' → cs = '\n' :: rest → False := fun _ e => (hc e.symm).elim
    have hbreak : isLineBreak c = true ↔ c = '\n' := by
      simp [isLineBreak, Ne.symm hc]
    rw [splitLines.eq_3 c cs hpair, Text.split, ih hcs]
    simp only [hbreak]

theorem commonIndent_shares (lines : List (List Char)) : Shares lines (commonIndent lines) := by
  cases hm : ((lines.filter (!isBlankLine ·)).map indent).min? with
  | none =>
    have hnil : lines.filter (!isBlankLine ·) = [] := by simpa using hm
    have hblank : ∀ line ∈ lines, isBlankLine line = true := fun line hl => by
      simpa using List.filter_eq_nil_iff.mp hnil line hl
    exact ⟨fun line hl hn => absurd (hblank line hl) (by simp [hn]), .inl hblank⟩
  | some n =>
    have hn : commonIndent lines = n := by rw [commonIndent, hm]; rfl
    obtain ⟨hmem, hle⟩ := List.min?_eq_some_iff.mp hm
    rw [hn]
    refine ⟨fun line hl hs => hle _ ?_, .inr ?_⟩
    · exact List.mem_map_of_mem (List.mem_filter.mpr ⟨hl, by simp [hs]⟩)
    · obtain ⟨line, hl, e⟩ := List.mem_map.mp hmem
      obtain ⟨hl, hs⟩ := List.mem_filter.mp hl
      exact ⟨line, hl, by simpa using hs, e⟩

theorem dropWhile_blank_head : ∀ line ∈ (lines.dropWhile isBlankLine).head?,
    isBlankLine line = false := by
  intro line hl
  have hnot := List.head?_dropWhile_not isBlankLine lines
  rw [Option.mem_def.mp hl] at hnot
  simpa using hnot

/-- Dropping the blank lines in front, and then those at the end, trims the lines. -/
theorem trims (lines : List (List Char)) :
    Trims lines ((lines.dropWhile isBlankLine).reverse.dropWhile isBlankLine).reverse := by
  have hfront := List.takeWhile_append_dropWhile (p := isBlankLine) (l := lines)
  have hback := List.takeWhile_append_dropWhile (p := isBlankLine)
    (l := (lines.dropWhile isBlankLine).reverse)
  have hrest := congrArg List.reverse hback
  rw [List.reverse_append, List.reverse_reverse] at hrest
  refine ⟨⟨_, _, by rw [hrest, hfront], fun line hl => ?_⟩, fun line hl => ?_, fun line hl => ?_⟩
  · rcases List.mem_append.mp hl with hl | hl
    · exact List.all_eq_true.mp List.all_takeWhile line hl
    · exact List.all_eq_true.mp List.all_takeWhile line (List.mem_reverse.mp hl)
  · -- the first line that is kept is the first behind the blank lines in front
    have hhead : line ∈ (lines.dropWhile isBlankLine).head? := by
      rw [← hrest, List.head?_append, Option.mem_def.mp hl]
      rfl
    exact dropWhile_blank_head line hhead
  · rw [List.getLast?_reverse] at hl
    exact dropWhile_blank_head line hl

theorem value_normalises (h : '\r' ∉ text) : Normalises text (value text) := by
  have hlines := Text.not_mem_split '\n' text
  refine ⟨(Text.split '\n' text).1, (Text.split '\n' text).2, _, _, Text.joined_split '\n' text,
    fun line hl => ?_, commonIndent_shares _, trims _, ?_⟩
  · rcases List.mem_cons.mp hl with rfl | hl
    · exact hlines.1
    · exact hlines.2 line hl
  · rw [value, splitLines_eq_split h]
    rfl

end Normalised

end Block

namespace Introspection

/-! ## Written and read -/

theorem endsClear_of_getLast {cs : List Char} (hquote : cs.getLast? ≠ some '"')
    (hslash : cs.getLast? ≠ some '\\') : EndsClear cs := by
  refine ⟨hslash, ?_⟩
  rw [← List.head?_reverse] at hquote
  rw [quotesAtEnd]
  cases hr : cs.reverse with
  | nil => rfl
  | cons c ds =>
    rw [hr] at hquote
    have hc : ¬ (decide (c = '"') = true) := by simpa using hquote
    rw [List.takeWhile_cons, if_neg hc]
    rfl

theorem describe_block {indent : String} {j : Json}
    (h : '\n' ∈ (textOf "description" j).toList) :
    Source.ofString (describe indent j) =
      blockFront (textOf "description" j).toList ++ threeQuotes ++
        ([.whole '\n'] ++ Source.ofString indent) := by
  have hne : textOf "description" j ≠ "" := fun e => by rw [e] at h; cases h
  have hc : (textOf "description" j).toList.contains '\n' = true := by simpa using h
  rw [describe, if_neg hne, if_pos hc, ofString_append, ofString_append, ofString_append]
  simp [Source.ofString, blockFront, threeQuotes]

/-- Behind a token and a line feed a text is read as it would be alone. -/
theorem lexFrom_token_line {gap a : Source} {place : Place} {t : Token} (position : Nat)
    (rest : Source)
    (h : Scans ([.whole '\n'] ++ rest) ⟨gap, place⟩ a [t] (Spot.past ⟨gap, place⟩ a)) :
    let behind : Offset := ⟨(place.after a).line, position + a.width + 1⟩
    ∃ us, lexFrom gap position place (a ++ ([.whole '\n'] ++ rest)) =
        ⟨t :: us, (lex rest).fault.map (Fault.down behind)⟩ ∧
      Copies behind [] (lex rest).tokens us := by
  intro behind
  have hline : Scans rest (Spot.past ⟨gap, place⟩ a) [.whole '\n'] [] _ := scans_blank rfl
  have hlex := (h.append hline).lexFrom position
  have hplace : (place.after a).nextLine = Place.start.down behind := by
    rw [Place.nextLine, Place.down, Nat.add_comm]
    rfl
  have hposition : position + (a ++ [Cell.whole '\n']).width = 0 + behind.units := by
    rw [Source.width_append, Nat.zero_add, ← Nat.add_assoc]
    rfl
  obtain ⟨hcopies, hfault⟩ := @lexFrom_copies behind [] 0 Place.start rest [.whole '\n']
  rw [← hplace, ← hposition] at hcopies hfault
  refine ⟨_, ?_, hcopies⟩
  rw [← List.append_assoc]
  exact hlex.trans (congrArg (Lexing.mk _) hfault)

/-- A description of several lines that ends with neither a quote nor a backslash is read as one
block string up to its last three quotes, with the normalised lines as its value, and then what
follows is read as it would be alone. -/
theorem description_lexed {indent : String} {j : Json}
    (hfeed : '\n' ∈ (textOf "description" j).toList)
    (hreturn : '\r' ∉ (textOf "description" j).toList)
    (hquote : (textOf "description" j).toList.getLast? ≠ some '"')
    (hslash : (textOf "description" j).toList.getLast? ≠ some '\\')
    (gap : Source) (position : Nat) (place : Place) (rest : Source) :
    let quoted := threeQuotes ++
      ((escapeBlock (textOf "description" j).toList).map Cell.whole ++ threeQuotes)
    let behind : Offset := ⟨(place.after quoted).line, position + quoted.width + 1⟩
    let alone := lex (Source.ofString indent ++ rest)
    ∃ value us, Block.Normalises (textOf "description" j).toList value.toList ∧
      lexFrom gap position place (Source.ofString (describe indent j) ++ rest) =
        ⟨⟨⟨.blockString value, place⟩, gap, quoted⟩ :: us, alone.fault.map (Fault.down behind)⟩ ∧
      Copies behind [] alone.tokens us := by
  intro quoted behind alone
  have hquoted : blockFront (textOf "description" j).toList ++ threeQuotes = quoted := by
    rw [blockFront, List.append_assoc]
  have hscan : Scans ([.whole '\n'] ++ (Source.ofString indent ++ rest)) ⟨gap, place⟩ _ _ _ :=
    scans_block (endsClear_of_getLast hquote hslash)
  obtain ⟨us, hlex, hcopies⟩ := lexFrom_token_line position _ hscan
  rw [hquoted] at hlex hcopies
  refine ⟨String.ofList (Block.value (textOf "description" j).toList), us, ?_, ?_, hcopies⟩
  · rw [String.toList_ofList]
    exact Block.value_normalises hreturn
  · rw [describe_block hfeed, hquoted, List.append_assoc, List.append_assoc]
    exact hlex

/-- Quotes and backslashes within a description are no end of it. -/
theorem description_lexed_quotes :
    let j : Json := .object [("description", .string "Say \"\"\"\\\n  \\\"\"\"\" aloud")]
    let quoted := threeQuotes ++
      ((escapeBlock (textOf "description" j).toList).map Cell.whole ++ threeQuotes)
    let behind : Offset := ⟨2, 0 + quoted.width + 1⟩
    let alone := lex (Source.ofString "" ++ Source.ofString "scalar Date")
    ∃ value us, Block.Normalises (textOf "description" j).toList value.toList ∧
      lexFrom [] 0 Place.start (Source.ofString (describe "" j) ++ Source.ofString "scalar Date") =
        ⟨⟨⟨.blockString value, Place.start⟩, [], quoted⟩ :: us,
          alone.fault.map (Fault.down behind)⟩ ∧
      Copies behind [] alone.tokens us :=
  description_lexed (by decide) (by decide) (by decide) (by decide) [] 0 Place.start _

end Introspection

end GraphClient
