import GraphClient.Proofs.Token.Faultless

/-!
# Tokens are made of characters

Blanking one of the two units of a character leaves a half. No reader passes a half: it is in no
class, and neither strings nor comments take it. So whatever was blanked before, the tokens of a
text and the gaps before them are made of whole characters (`lexFrom_intact`), and what they show
is their text again (`ofString_toString`).
-/

namespace GraphClient

/-- No cell is half a character. -/
def Source.Intact (cells : Source) : Prop := ∀ c ∈ cells, ∃ d, c = .whole d

namespace Source

variable {c : Cell} {d : Char} {a b cells : Source} {p : Char → Bool}

theorem intact_nil : Intact [] := List.forall_mem_nil _

theorem intact_cons : Intact (.whole d :: cells) ↔ Intact cells := by
  simp [Intact]

theorem Intact.append (ha : Intact a) (hb : Intact b) : Intact (a ++ b) :=
  List.forall_mem_append.mpr ⟨ha, hb⟩

theorem whole_of_satisfies (h : c.satisfies p = true) : ∃ d, c = .whole d := by
  cases c with
  | whole d => exact ⟨d, rfl⟩
  | half d => cases h

theorem intact_takeWhile : Intact (cells.takeWhile (Cell.satisfies p)) := fun c hc =>
  whole_of_satisfies (List.all_eq_true.mp List.all_takeWhile c hc)

theorem intact_take_takeWhile :
    Intact (cells.take (cells.takeWhile (Cell.satisfies p)).length) := by
  have h := @intact_takeWhile cells p
  rwa [List.prefix_iff_eq_take.mp (List.takeWhile_prefix _)] at h

/-- The characters of an intact text are its cells again. -/
theorem ofString_toString (h : Intact cells) : ofString (toString cells) = cells := by
  rw [ofString, toString, String.toList_ofList, List.map_map]
  refine (List.map_congr_left fun c hc => ?_).trans (List.map_id cells)
  obtain ⟨d, rfl⟩ := h c hc
  rfl

end Source

open Source (Intact intact_nil intact_cons whole_of_satisfies intact_takeWhile)

/-! ## Numbers -/

namespace Front

variable {f g : Front}

/-- Going on from one front to the other passes whole characters. -/
def Passes (f g : Front) : Prop :=
  ∃ cells, f.rest = cells ++ g.rest ∧ g.passed = f.passed + cells.length ∧ Intact cells

theorem passes_self (f : Front) : f.Passes f := ⟨[], rfl, rfl, intact_nil⟩

theorem passes_cons {p : Char → Bool} {c : Cell} {cells : Source} {n : Nat}
    (h : c.satisfies p = true) : (Front.mk n (c :: cells)).Passes ⟨n + 1, cells⟩ :=
  ⟨[c], rfl, rfl, fun _ hm => List.mem_singleton.mp hm ▸ whole_of_satisfies h⟩

theorem Passes.trans {e : Front} (h : e.Passes f) (h' : f.Passes g) : e.Passes g := by
  obtain ⟨as, ha, hm, hi⟩ := h
  obtain ⟨bs, hb, hn, hi'⟩ := h'
  exact ⟨as ++ bs, by rw [ha, hb, List.append_assoc],
    by rw [hn, hm, List.length_append, Nat.add_assoc], hi.append hi'⟩

theorem optional_passes (p : Char → Bool) (f : Front) : f.Passes (f.optional p) := by
  rcases f with ⟨n, _ | ⟨c, cells⟩⟩
  · exact passes_self _
  · simp only [optional]
    split
    · rename_i hc
      exact passes_cons hc
    · exact passes_self _

theorem digits_passes (h : f.digits = .ok g) : f.Passes g := by
  simp only [digits] at h
  split at h
  · cases h
  · cases h
    exact ⟨_, List.takeWhile_append_dropWhile.symm, rfl, intact_takeWhile⟩

theorem whole_passes (h : f.whole = .ok g) : f.Passes g := by
  rcases f with ⟨n, cells⟩
  unfold whole at h
  split at h
  · rename_i cells' e
    simp only at e
    subst e
    split at h
    · cases h
    · cases h
      exact passes_cons (p := Char.isDigit) (by decide)
  · exact digits_passes h

theorem fraction_passes (h : f.fraction = .ok g) : f.Passes g := by
  rcases f with ⟨n, cells⟩
  unfold fraction at h
  split at h
  · rename_i cells' e
    simp only at e
    subst e
    exact (passes_cons (p := (· == '.')) (by decide)).trans (digits_passes h)
  · cases h
    exact passes_self _

theorem exponent_passes (h : f.exponent = .ok g) : f.Passes g := by
  rcases f with ⟨n, _ | ⟨c, cells⟩⟩
  · cases h
    exact passes_self _
  · simp only [exponent] at h
    split at h
    · rename_i hc
      exact (passes_cons hc).trans ((optional_passes _ _).trans (digits_passes h))
    · cases h
      exact passes_self _

end Front

theorem readNumber_intact {cells : Source} {kind : TokenKind} {n : Nat}
    (h : readNumber cells = .ok (kind, n)) : Intact (cells.take n) := by
  simp only [readNumber, bind, Except.bind] at h
  split at h
  · cases h
  rename_i whole hw
  split at h
  · cases h
  rename_i fraction hf
  split at h
  · cases h
  rename_i last hl
  split at h
  · cases h
  cases h
  obtain ⟨passed, hcells, hn, hi⟩ := (Front.optional_passes (· == '-') ⟨0, cells⟩).trans
    ((Front.whole_passes hw).trans ((Front.fraction_passes hf).trans (Front.exponent_passes hl)))
  simp only [Nat.zero_add] at hcells hn
  rwa [hcells, hn, List.take_left]

/-! ## Strings -/

section Escapes

variable {cells : Source} {c : Char} {n m : Nat}

theorem whole_of_hexValue? {d : Cell} (h : d.hexValue? = some n) : ∃ e, d = .whole e := by
  cases d with
  | whole e => exact ⟨e, rfl⟩
  | half e => cases h

theorem hexQuad?_intact (h : hexQuad? cells = some n) : Intact (cells.take 4) := by
  match cells, h with
  | a :: b :: c :: d :: cells, h =>
    simp only [hexQuad?, bind, Option.bind_eq_some_iff] at h
    obtain ⟨_, ha, _, hb, _, hc, _, hd, -⟩ := h
    obtain ⟨_, rfl⟩ := whole_of_hexValue? ha
    obtain ⟨_, rfl⟩ := whole_of_hexValue? hb
    obtain ⟨_, rfl⟩ := whole_of_hexValue? hc
    obtain ⟨_, rfl⟩ := whole_of_hexValue? hd
    simp [Intact]
  | [], h | [_], h | [_, _], h | [_, _, _], h => cases h

theorem trailingEscape?_intact (h : trailingEscape? m cells = some c) :
    Intact (cells.take 6) := by
  unfold trailingEscape? at h
  split at h
  · split at h
    · rename_i k hk
      exact intact_cons.mpr (intact_cons.mpr (hexQuad?_intact hk))
    · cases h
  · cases h

theorem quadEscape?_intact (h : quadEscape? cells = some (c, n)) : Intact (cells.take n) := by
  unfold quadEscape? at h
  split at h
  · rename_i k hk
    split at h
    · cases h
      exact hexQuad?_intact hk
    · split at h
      · obtain ⟨d, hd, e⟩ := Option.map_eq_some_iff.mp h
        cases e
        rw [List.take_add (i := 4) (j := 6)]
        exact (hexQuad?_intact hk).append (trailingEscape?_intact hd)
      · cases h
  · cases h

theorem bracedEscape_intact {value : Nat} (h : bracedEscape value m cells = .ok (c, n)) :
    Intact (cells.take (n - m)) := by
  induction cells generalizing value m with
  | nil => cases h
  | cons d cells ih =>
    have hlt := (@bracedEscape_append _ [] _ _ _ _ h).2.1
    rw [show n - m = n - (m + 1) + 1 by omega, List.take_succ_cons]
    simp only [bracedEscape] at h
    split at h
    · rename_i hd
      split at h
      · cases h
      · cases h
        rw [hd, Nat.sub_self]
        exact intact_cons.mpr intact_nil
    · split at h
      · cases h
      · rename_i k hk
        obtain ⟨e, rfl⟩ := whole_of_hexValue? hk
        split at h
        · cases h
        · exact intact_cons.mpr (ih h)

theorem readEscape_intact (h : readEscape cells = .ok (c, n)) : Intact (cells.take n) := by
  unfold readEscape at h
  split at h
  · split at h
    · rename_i d k hk
      cases h
      exact intact_cons.mpr (intact_cons.mpr (bracedEscape_intact hk))
    · cases h
  · split at h
    · rename_i d k hk
      cases h
      exact intact_cons.mpr (quadEscape?_intact hk)
    · cases h
  · split at h
    · cases h
      exact intact_cons.mpr intact_nil
    · cases h
  · cases h

end Escapes

section Strings

variable {cells : Source} {cs : List Char} {n m : Nat}

theorem readString_intact (h : readString m cells = .ok (cs, n)) :
    Intact (cells.take (n - m)) := by
  fun_induction readString m cells generalizing cs n with
  | case1 | case2 | case4 | case6 => cases h
  | case3 m cells =>
    cases h
    rw [Nat.add_sub_cancel_left]
    exact intact_cons.mpr intact_nil
  | case5 m cells d k he hq ih =>
    obtain ⟨⟨ds, j⟩, hs, e⟩ := except_map_eq_ok h
    cases e
    have hlt := (@readString_append _ [] _ _ _ hs).2.1
    rw [show j - m = k + (j - (m + 1 + k)) + 1 by omega, List.take_succ_cons, List.take_add]
    exact intact_cons.mpr ((readEscape_intact he).append (ih hs))
  | case7 m c cells hc hb hl ih =>
    obtain ⟨⟨ds, j⟩, hs, e⟩ := except_map_eq_ok h
    cases e
    have hlt := (@readString_append _ [] _ _ _ hs).2.1
    rw [show j - m = j - (m + 1) + 1 by omega, List.take_succ_cons]
    exact intact_cons.mpr (ih hs)

theorem readBlockString_intact (h : readBlockString m cells = .ok (cs, n)) :
    Intact (cells.take (n - m)) := by
  fun_induction readBlockString m cells generalizing cs n with
  | case1 m cells =>
    cases h
    rw [Nat.add_sub_cancel_left]
    simp [Intact]
  | case2 m cells ih =>
    obtain ⟨⟨ds, j⟩, hs, e⟩ := except_map_eq_ok h
    cases e
    have hlt := (@readBlockString_append _ [] _ _ _ hs).2.1
    rw [show j - m = j - (m + 4) + 1 + 1 + 1 + 1 by omega]
    simp only [List.take_succ_cons, intact_cons]
    exact ih hs
  | case3 m c cells hq hb ih =>
    obtain ⟨⟨ds, j⟩, hs, e⟩ := except_map_eq_ok h
    cases e
    have hlt := (@readBlockString_append _ [] _ _ _ hs).2.1
    rw [show j - m = j - (m + 1) + 1 by omega, List.take_succ_cons]
    exact intact_cons.mpr (ih hs)
  | case4 | case5 => cases h

theorem readQuoted_intact {kind : TokenKind} (h : readQuoted cells = .token kind n) :
    Intact (cells.take n) := by
  unfold readQuoted at h
  split at h
  · split at h
    · rename_i text k hk
      cases h
      have hlt := (@readBlockString_append _ [] _ _ _ hk).2.1
      rw [show k - 1 = k - 3 + 1 + 1 by omega]
      simp only [List.take_succ_cons, intact_cons]
      exact readBlockString_intact hk
    · cases h
  · split at h
    · rename_i value k hk
      cases h
      exact readString_intact hk
    · cases h

end Strings

/-! ## Reading -/

section Read

variable {c : Cell} {cells : Source} {n : Nat}

theorem TokenFrom.intact {c : Char} {kind : TokenKind} (h : TokenFrom c cells kind n) :
    Intact (cells.take n) := by
  cases h with
  | spread _ hd =>
    rw [hd]
    simp [Intact]
  | quoted _ h => exact readQuoted_intact h
  | @number _ k _ _ _ h =>
    have hi := readNumber_intact h
    cases k with
    | zero => exact intact_nil
    | succ k => exact intact_cons.mp hi
  | name => exact Source.intact_take_takeWhile
  | punctuator => exact intact_nil

theorem read_token_intact {kind : TokenKind} (h : read c cells = .token kind n) :
    Intact (c :: cells.take n) := by
  cases c with
  | half c => cases h
  | whole c =>
    obtain ⟨-, -, -, ht⟩ := readFrom_token.mp h
    exact intact_cons.mpr ht.intact

theorem read_ignored_intact (h : read c cells = .ignored n) : Intact (c :: cells.take n) := by
  rcases read_ignored h with ⟨d, rfl, -, rfl⟩ | ⟨rfl, hn⟩ | ⟨rfl, rfl⟩
  · exact intact_cons.mpr intact_nil
  · rw [intact_cons]
    split at hn
    · rename_i hd
      obtain ⟨tail, rfl⟩ := List.head?_eq_some_iff.mp hd
      rw [hn]
      exact intact_cons.mpr intact_nil
    · rw [hn]
      exact intact_nil
  · exact intact_cons.mpr Source.intact_take_takeWhile

theorem lexFrom_intact {gap : Source} (hg : Intact gap) (position : Nat) (place : Place)
    (cells : Source) : ∀ t ∈ (lexFrom gap position place cells).tokens,
      Intact t.gap ∧ Intact t.lexeme := by
  fun_induction lexFrom gap position place cells with
  | case1 | case2 => exact List.forall_mem_nil _
  | case3 gap position place c cells n hr text ih =>
    exact ih (hg.append (read_ignored_intact hr))
  | case4 gap position place c cells kind n hr lexeme later ih =>
    exact List.forall_mem_cons.mpr ⟨⟨hg, read_token_intact hr⟩, ih intact_nil⟩

end Read

end GraphClient
