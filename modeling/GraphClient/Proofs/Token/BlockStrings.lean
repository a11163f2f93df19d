import GraphClient.Proofs.Token.Lexemes

/-!
# Block strings

Between three quotes a text is written by `Introspection.escapeBlock`, with a backslash before
each three quotes of its own. In front of anything it is read back if it is `EndsClear`
(`scans_block`). Otherwise the closing quotes are taken apart: a backslash at the end of the
text escapes them, and one or two quotes at its end are read as the first of them, so that as
many are left over (`unclear_end`).
-/

namespace GraphClient

open Introspection

/-! ## Ends of texts -/

/-- How many quotes stand at the end of a text. -/
def quotesAtEnd (cs : List Char) : Nat := (cs.reverse.takeWhile (· = '"')).length

/-- No backslash ends the text, and its last quotes come in threes. -/
def EndsClear (cs : List Char) : Prop := cs.getLast? ≠ some '\\' ∧ quotesAtEnd cs % 3 = 0

instance (cs : List Char) : Decidable (EndsClear cs) := inferInstanceAs (Decidable (_ ∧ _))

/-- Whether three quotes behind an escaped text close it. -/
def closesBlock : List Char → Bool
  | '"' :: '"' :: '"' :: cs => closesBlock cs
  | ['"', '"'] | ['"'] | ['\\'] => false
  | _ :: cs => closesBlock cs
  | [] => true

section Ends

variable {c : Char} {cs : List Char}

theorem quotesAtEnd_quotes (n : Nat) : quotesAtEnd (List.replicate n '"') = n := by
  simp [quotesAtEnd]

theorem quotesAtEnd_cons (h : c ≠ '"' ∨ ∃ d ∈ cs, d ≠ '"') :
    quotesAtEnd (c :: cs) = quotesAtEnd cs := by
  rw [quotesAtEnd, quotesAtEnd, List.reverse_cons, List.takeWhile_append]
  split
  · rename_i hl
    have ht : cs.reverse.takeWhile (· = '"') = cs.reverse :=
      (List.takeWhile_prefix _).eq_of_length hl
    have hall := @List.all_takeWhile _ (fun d : Char => decide (d = '"')) cs.reverse
    rw [ht, List.all_reverse, List.all_eq_true] at hall
    have hc : c ≠ '"' := h.resolve_right fun ⟨d, hd, hq⟩ => hq (by simpa using hall d hd)
    rw [ht, List.takeWhile_cons, if_neg (by simpa using hc), List.append_nil]
  · rfl

theorem eq_quotes_or (cs : List Char) :
    (∃ n, cs = List.replicate n '"') ∨ ∃ d ∈ cs, d ≠ '"' := by
  by_cases h : ∃ d ∈ cs, d ≠ '"'
  · exact .inr h
  · exact .inl ⟨cs.length, List.eq_replicate_iff.mpr ⟨rfl, by simpa using h⟩⟩

theorem endsClear_quotes {n : Nat} : EndsClear (List.replicate n '"') ↔ n % 3 = 0 := by
  rw [EndsClear, quotesAtEnd_quotes]
  refine and_iff_right fun h => ?_
  rcases List.eq_of_mem_replicate (List.mem_of_getLast? h)

theorem endsClear_cons (hne : cs ≠ []) (h : c ≠ '"' ∨ ∃ d ∈ cs, d ≠ '"') :
    EndsClear (c :: cs) ↔ EndsClear cs := by
  rw [EndsClear, EndsClear, quotesAtEnd_cons h]
  cases cs with
  | nil => exact absurd rfl hne
  | cons d ds => rw [List.getLast?_cons_cons]

theorem closesBlock_iff (cs : List Char) : closesBlock cs = true ↔ EndsClear cs := by
  fun_induction closesBlock cs with
  | case1 cs ih =>
    rw [ih]
    rcases eq_quotes_or cs with ⟨n, rfl⟩ | ⟨d, hd, hq⟩
    · rw [endsClear_quotes, ← List.replicate_succ, ← List.replicate_succ, ← List.replicate_succ,
        endsClear_quotes]
      omega
    · have hne : cs ≠ [] := List.ne_nil_of_mem hd
      rw [endsClear_cons (by simp) (.inr ⟨d, by simp [hd], hq⟩),
        endsClear_cons (by simp) (.inr ⟨d, by simp [hd], hq⟩),
        endsClear_cons hne (.inr ⟨d, hd, hq⟩)]
  | case2 => decide
  | case3 => decide
  | case4 => decide
  | case5 c cs hthree htwo hone hslash ih =>
    rw [ih]
    rcases eq_quotes_or cs with ⟨n, rfl⟩ | ⟨d, hd, hq⟩
    · match n with
      | 0 =>
        have hc : c ≠ '\\' := fun e => hslash e rfl
        have hq : c ≠ '"' := fun e => hone e rfl
        simp [EndsClear, quotesAtEnd_cons (.inl hq), hc]
      | 1 =>
        rw [endsClear_cons (by simp) (.inl fun e => htwo e rfl)]
      | n + 2 =>
        rw [endsClear_cons (by simp) (.inl fun e => hthree _ e rfl)]
    · rw [endsClear_cons (List.ne_nil_of_mem hd) (.inr ⟨d, hd, hq⟩)]
  | case6 => decide

end Ends

/-! ## Block strings -/

def threeQuotes : Source := [.whole '"', .whole '"', .whole '"']

/-- A text between three quotes, up to the closing ones. -/
def blockFront (cs : List Char) : Source := threeQuotes ++ (escapeBlock cs).map .whole

section Reading

variable {m : Nat} {c : Char} {cs : List Char} {rest tail : Source} {s : Spot}

theorem escapeBlock_cons (h : ∀ ds, c :: cs ≠ '"' :: '"' :: '"' :: ds) :
    escapeBlock (c :: cs) = c :: escapeBlock cs :=
  escapeBlock.eq_2 c cs fun ds hc hcs => h ds (by rw [hc, hcs])

/-- Three quotes stand at the front of an escaped text only if the closing ones help. -/
theorem escapeBlock_ne (h : cs ∉ [[], ['"'], ['"', '"']]) :
    (escapeBlock cs).map Cell.whole ++ rest ≠ threeQuotes ++ tail := by
  have hplain : ∀ {d ds}, d ≠ '"' → escapeBlock (d :: ds) = d :: escapeBlock ds := fun hd =>
    escapeBlock_cons fun _ e => hd (List.cons.inj e).1
  match cs with
  | [] => simp at h
  | c :: cs =>
    by_cases hc : c = '"'
    · subst hc
      match cs with
      | [] => simp at h
      | d :: ds =>
        by_cases hd : d = '"'
        · subst hd
          match ds with
          | [] => simp at h
          | e :: es =>
            by_cases he : e = '"'
            · subst he
              simp [escapeBlock, threeQuotes]
            · rw [escapeBlock_cons fun ds hds => by simp [he] at hds,
                escapeBlock_cons fun ds hds => by simp [he] at hds, hplain he]
              simp [threeQuotes, he]
        · rw [escapeBlock_cons fun ds hds => by simp [hd] at hds, hplain hd]
          simp [threeQuotes, hd]
    · rw [hplain hc]
      simp [threeQuotes, hc]

theorem readBlockString_cons (hq : ∀ tail, .whole c :: rest ≠ threeQuotes ++ tail)
    (hb : c = '\\' → ∀ tail, rest ≠ threeQuotes ++ tail) :
    readBlockString m (.whole c :: rest) =
      (readBlockString (m + 1) rest).map fun r => (c :: r.1, r.2) :=
  readBlockString.eq_3 m c rest (fun tail hc e => hq tail (by rw [hc, e]; rfl))
    fun tail e hc => hb hc tail e

/-- Three quotes that a backslash stands before are passed over. -/
theorem readBlockString_escape :
    readBlockString m (.whole '\\' :: (threeQuotes ++ rest)) =
      (readBlockString (m + 4) rest).map fun r => ('"' :: '"' :: '"' :: r.1, r.2) := by
  show readBlockString m (.whole '\\' :: .whole '"' :: .whole '"' :: .whole '"' :: rest) = _
  rw [readBlockString]

/-- Escaped quotes at the front of a text are passed over. -/
theorem readBlockString_quotes :
    readBlockString m ((escapeBlock ('"' :: '"' :: '"' :: cs)).map Cell.whole ++ rest) =
      (readBlockString (m + 4) ((escapeBlock cs).map Cell.whole ++ rest)).map fun r =>
        ('"' :: '"' :: '"' :: r.1, r.2) := readBlockString_escape

/-- So is another character, unless the closing quotes add to it. -/
theorem readBlockString_plain (hthree : ∀ ds, c :: cs ≠ '"' :: '"' :: '"' :: ds)
    (hquote : c :: cs ∉ [['"'], ['"', '"']]) (hslash : c = '\\' → cs ∉ [[], ['"'], ['"', '"']]) :
    readBlockString m ((escapeBlock (c :: cs)).map Cell.whole ++ rest) =
      (readBlockString (m + 1) ((escapeBlock cs).map Cell.whole ++ rest)).map fun r =>
        (c :: r.1, r.2) := by
  have hq : ∀ tail, (escapeBlock (c :: cs)).map Cell.whole ++ rest ≠ threeQuotes ++ tail :=
    fun tail => escapeBlock_ne (by simpa using hquote)
  rw [escapeBlock_cons hthree] at hq ⊢
  exact readBlockString_cons hq fun hs tail => escapeBlock_ne (hslash hs)

theorem scans_blockString {cells : Source} {text : List Char}
    (h : readBlockString 3 (cells ++ rest) = .ok (text, cells.length + 3)) :
    Scans rest s (threeQuotes ++ cells)
      [s.token (.blockString (String.ofList (Block.value text))) (threeQuotes ++ cells)]
      (s.past (threeQuotes ++ cells)) := by
  have hread : read (.whole '"') (.whole '"' :: .whole '"' :: (cells ++ rest)) =
      .token (.blockString (String.ofList (Block.value text))) (cells.length + 2) := by
    show readQuoted (.whole '"' :: .whole '"' :: (cells ++ rest)) = _
    rw [readQuoted, h]
    rfl
  exact .lexeme hread

/-! ### Texts that end clear -/

theorem readBlockString_escaped (h : closesBlock cs = true) :
    readBlockString m ((escapeBlock cs).map Cell.whole ++ (threeQuotes ++ rest)) =
      .ok (cs, m + (escapeBlock cs).length + 3) := by
  fun_induction closesBlock cs generalizing m with
  | case1 cs ih =>
    rw [readBlockString_quotes, ih h, escapeBlock]
    simp only [Except.map, List.length_cons]
    congr 2
    omega
  | case2 => cases h
  | case3 => cases h
  | case4 => cases h
  | case5 c cs hthree htwo hone hslash ih =>
    have hcons : ∀ ds, c :: cs ≠ '"' :: '"' :: '"' :: ds := fun ds e =>
      hthree ds (List.cons.inj e).1 (List.cons.inj e).2
    have hquote : c :: cs ∉ [['"'], ['"', '"']] := by
      simpa using ⟨hone, htwo⟩
    have hclosed : cs ∉ [['"'], ['"', '"']] := by
      intro hm
      simp only [List.mem_cons, List.not_mem_nil, or_false] at hm
      rcases hm with rfl | rfl <;> cases h
    rw [readBlockString_plain hcons hquote fun hc hm =>
      (List.mem_cons.mp hm).elim (hslash hc) hclosed, ih h, escapeBlock_cons hcons]
    simp only [Except.map, List.length_cons]
    congr 2
    omega
  | case6 => rfl

/-- A text that ends clear is read as a block string, in front of anything. -/
theorem scans_block (h : EndsClear cs) :
    Scans rest s (blockFront cs ++ threeQuotes)
      [s.token (.blockString (String.ofList (Block.value cs))) (blockFront cs ++ threeQuotes)]
      (s.past (blockFront cs ++ threeQuotes)) := by
  rw [blockFront, List.append_assoc]
  refine scans_blockString ?_
  rw [List.append_assoc, readBlockString_escaped ((closesBlock_iff cs).mpr h)]
  simp only [threeQuotes, List.length_append, List.length_map, List.length_cons, List.length_nil]
  congr 2
  omega

/-! ### Other texts -/

/-- No quotes. -/
def Quoteless (cells : Source) : Prop := ∀ c ∈ cells, c ≠ .whole '"'

instance (cells : Source) : Decidable (Quoteless cells) :=
  inferInstanceAs (Decidable (∀ c ∈ cells, c ≠ _))

/-- Less than three quotes. -/
def IsPart (left : Source) : Prop :=
  left = [] ∨ left = [.whole '"'] ∨ left = [.whole '"', .whole '"']

theorem IsPart.swap {left : Source} (h : IsPart left) :
    left ++ (threeQuotes ++ rest) = threeQuotes ++ (left ++ rest) := by
  rcases h with rfl | rfl | rfl <;> rfl

/-- Less than three quotes close nothing. -/
theorem readBlockString_part {left : Source} (hl : IsPart left) (hr : Quoteless rest) :
    ∃ e, readBlockString m (left ++ rest) = .error e := by
  have hnone : ∀ {m}, ∃ e, readBlockString m rest = .error e := by
    intro m
    induction rest generalizing m with
    | nil => exact ⟨_, rfl⟩
    | cons c rest ih =>
      cases c with
      | half c => exact ⟨_, rfl⟩
      | whole c =>
        have hc : Cell.whole c ≠ .whole '"' := hr _ List.mem_cons_self
        have hrest : Quoteless rest := fun d hd => hr d (List.mem_cons_of_mem _ hd)
        obtain ⟨e, he⟩ := @ih hrest (m + 1)
        rw [readBlockString_cons (fun tail h => hc (List.cons.inj h).1) fun _ tail h =>
          hrest (.whole '"') (by rw [h]; exact List.mem_cons_self) rfl, he]
        exact ⟨e, rfl⟩
  have hne : ∀ tail, rest ≠ .whole '"' :: tail := fun tail h =>
    hr _ (by rw [h]; exact List.mem_cons_self) rfl
  -- a quote in front of no more than one other is a character of the text
  have hquote : ∀ {m cells}, (∀ tail, cells ≠ .whole '"' :: .whole '"' :: tail) →
      readBlockString m (.whole '"' :: cells) =
        (readBlockString (m + 1) cells).map fun r => ('"' :: r.1, r.2) := fun h =>
    readBlockString_cons (fun tail e => h tail (List.cons.inj e).2) fun hc => by cases hc
  rcases hl with rfl | rfl | rfl
  · exact hnone
  · obtain ⟨e, he⟩ := @hnone (m + 1)
    exact ⟨e, by rw [List.singleton_append, hquote fun tail h => hne _ h, he]; rfl⟩
  · obtain ⟨e, he⟩ := @hnone (m + 1 + 1)
    refine ⟨e, ?_⟩
    rw [List.cons_append, List.singleton_append, hquote fun tail h => hne _ (List.cons.inj h).2,
      hquote fun tail h => hne _ h, he]
    rfl

/-- Before closing quotes, nothing is read of a text, or all but its last quotes. -/
def ReadsShort (m : Nat) (cells rest : Source) : Prop :=
  (∃ e, readBlockString m (cells ++ (threeQuotes ++ rest)) = .error e) ∨
    ∃ front left text, cells = front ++ left ∧ IsPart left ∧ left ≠ [] ∧
      readBlockString m (cells ++ (threeQuotes ++ rest)) = .ok (text, m + front.length + 3)

theorem ReadsShort.pass {cells more : Source} {bs : List Char}
    (h : ReadsShort (m + cells.length) more rest)
    (hread : readBlockString m (cells ++ more ++ (threeQuotes ++ rest)) =
      (readBlockString (m + cells.length) (more ++ (threeQuotes ++ rest))).map fun r =>
        (bs ++ r.1, r.2)) :
    ReadsShort m (cells ++ more) rest := by
  rcases h with ⟨e, he⟩ | ⟨front, left, text, rfl, hleft, hne, hmore⟩
  · exact .inl ⟨e, by rw [hread, he]; rfl⟩
  · refine .inr ⟨cells ++ front, left, bs ++ text, by rw [List.append_assoc], hleft, hne, ?_⟩
    rw [hread, hmore, List.length_append, Nat.add_assoc m]
    rfl

/-- The closing quotes behind a backslash are escaped. -/
theorem readsShort_slash {left : Source} (hl : IsPart left) (hr : Quoteless rest) :
    ReadsShort m (.whole '\\' :: left) rest := by
  obtain ⟨e, he⟩ := @readBlockString_part (m + 4) rest left hl hr
  refine .inl ⟨e, ?_⟩
  rw [List.cons_append, hl.swap, readBlockString_escape, he]
  rfl

theorem readsShort (h : closesBlock cs = false) (hr : Quoteless rest) :
    ReadsShort m ((escapeBlock cs).map Cell.whole) rest := by
  fun_induction closesBlock cs generalizing m with
  | case1 cs ih =>
    have hp := @ReadsShort.pass m rest (.whole '\\' :: threeQuotes) _ ['"', '"', '"'] (ih h)
      readBlockString_quotes
    exact hp
  | case2 => exact .inr ⟨[], _, [], rfl, .inr (.inr rfl), by simp, rfl⟩
  | case3 => exact .inr ⟨[], _, [], rfl, .inr (.inl rfl), by simp, rfl⟩
  | case4 => exact readsShort_slash (.inl rfl) hr
  | case5 c cs hthree htwo hone hslash ih =>
    have hcons : ∀ ds, c :: cs ≠ '"' :: '"' :: '"' :: ds := fun ds e =>
      hthree ds (List.cons.inj e).1 (List.cons.inj e).2
    have hquote : c :: cs ∉ [['"'], ['"', '"']] := by
      simpa using ⟨hone, htwo⟩
    by_cases hs : c = '\\' ∧ cs ∈ [[], ['"'], ['"', '"']]
    · obtain ⟨rfl, hm⟩ := hs
      simp only [List.mem_cons, List.not_mem_nil, or_false] at hm
      rcases hm with rfl | rfl | rfl
      · exact absurd rfl (hslash rfl)
      · exact readsShort_slash (.inr (.inl rfl)) hr
      · exact readsShort_slash (.inr (.inr rfl)) hr
    · have hp :=
        @readBlockString_plain m c cs (threeQuotes ++ rest) hcons hquote (by simpa using hs)
      rw [escapeBlock_cons hcons] at hp ⊢
      exact @ReadsShort.pass m rest [.whole c] _ [c] (ih h) hp
  | case6 => cases h

/-- A text that does not end clear cannot be read, or quotes are left over of it. -/
theorem block_unclear (h : ¬ EndsClear cs) (hr : Quoteless rest) :
    (∃ cells cause passed, blockFront cs ++ threeQuotes ++ rest = .whole '"' :: cells ∧
        read (.whole '"') cells = .fault cause passed) ∨
      ∃ front left, blockFront cs ++ threeQuotes = front ++ left ∧ IsPart left ∧ left ≠ [] ∧
        ∀ s, ∃ t, t.string?.isSome ∧ Scans (left ++ rest) s front [t] (s.past front) := by
  rw [← closesBlock_iff, Bool.not_eq_true] at h
  rcases @readsShort 3 cs rest h hr with ⟨e, he⟩ | ⟨front, left, text, hcs, hleft, hne, hread⟩
  · refine .inl ⟨.whole '"' :: .whole '"' :: ((escapeBlock cs).map Cell.whole ++
      (threeQuotes ++ rest)), e.cause, e.passed, ?_, ?_⟩
    · rw [blockFront, List.append_assoc, List.append_assoc]
      rfl
    · show readQuoted (.whole '"' :: .whole '"' :: _) = _
      rw [readQuoted, he]
  · have hlexeme :
        threeQuotes ++ (front ++ threeQuotes) ++ left = blockFront cs ++ threeQuotes := by
      have hswap := @IsPart.swap [] left hleft
      rw [List.append_nil, List.append_nil] at hswap
      rw [blockFront, hcs, List.append_assoc, List.append_assoc, ← hswap]
      simp only [List.append_assoc]
    refine .inr ⟨threeQuotes ++ (front ++ threeQuotes), left, hlexeme.symm, hleft, hne, fun s =>
      ⟨_, rfl, @scans_blockString (left ++ rest) s (front ++ threeQuotes) text ?_⟩⟩
    have hlength : (front ++ threeQuotes).length + 3 = 3 + front.length + 3 := by
      rw [List.length_append, Nat.add_comm 3]
      rfl
    rw [hcs, List.append_assoc, hleft.swap] at hread
    rw [List.append_assoc, hread, hlength]

end Reading

end GraphClient
