import GraphClient.Double.Layout
import GraphClient.Proofs.Double.Shortest
import GraphClient.Proofs.Token.Numerals

/-!
# The text of a finite double is a numeral

No digits that are laid out start with a zero, except for the number zero: so each layout has a
whole part, perhaps a fraction, and perhaps an exponent (`numeral_layout`). A finite double is
written as a numeral, whatever its sign (`exists_numeral`).
-/

namespace GraphClient

open Numeral

variable {n : Nat} {d : Decimal} {cs ds : List Char}

theorem Numeral.Digits.append (h : Digits cs) (hd : ∀ c ∈ ds, c.isDigit = true) :
    Digits (cs ++ ds) :=
  ⟨List.append_ne_nil_of_left_ne_nil h.1 _, List.forall_mem_append.mpr ⟨h.2, hd⟩⟩

theorem Numeral.Digits.head?_append (h : Digits cs) : (cs ++ ds).head? = cs.head? := by
  obtain ⟨c, cs, rfl, -⟩ := h.cons
  rfl

theorem digits_toDigits (n : Nat) : Digits (Nat.toDigits 10 n) :=
  ⟨Nat.toDigits_ne_nil, fun _ hc => Nat.isDigit_of_mem_toDigits (by decide) (by decide) hc⟩

/-- A number other than zero starts with another digit than zero. -/
theorem head_toDigits (hn : n ≠ 0) : (Nat.toDigits 10 n).head? ≠ some '0' := by
  induction n using Nat.strongRecOn with
  | ind n ih =>
    rcases Nat.lt_or_ge n 10 with hlt | hge
    · have hdigit : ∀ m < 10, m ≠ 0 → [m.digitChar].head? ≠ some '0' := by decide
      rw [Nat.toDigits_of_lt_base hlt]
      exact hdigit n hlt hn
    · rw [Nat.toDigits_of_base_le (by decide) hge, (digits_toDigits _).head?_append]
      exact ih (n / 10) (by omega) (by omega)

theorem isDigit_replicate : ∀ c ∈ List.replicate n '0', c.isDigit = true := fun c hc => by
  rw [List.eq_of_mem_replicate hc]
  rfl

namespace Decimal

/-- The parts of a number without its sign. -/
def Laid (cs : List Char) : Prop :=
  ∃ w f e, Whole w ∧ Fraction f ∧ Exponent e ∧ cs = w ++ (f ++ e)

theorem laid_whole (h : Whole cs) : Laid cs :=
  ⟨cs, [], [], h, .none, .none, (List.append_nil cs).symm⟩

theorem laid_point {w ds : List Char} (h : Whole w) (hd : Digits ds) : Laid (w ++ '.' :: ds) :=
  ⟨w, '.' :: ds, [], h, .point hd, .none, by rw [List.append_nil]⟩

/-- The first digits, at least one. -/
theorem whole_take {k : Nat} (h : Digits cs) (hz : cs.head? ≠ some '0') (hk : 0 < k) :
    Whole (cs.take k) := by
  obtain ⟨c, ds, rfl, -⟩ := h.cons
  obtain ⟨k, rfl⟩ := Nat.exists_eq_succ_of_ne_zero (Nat.ne_of_gt hk)
  exact .inr ⟨⟨List.cons_ne_nil _ _, fun c hc => h.2 c (List.mem_of_mem_take hc)⟩, hz⟩

theorem digits_drop {k : Nat} (h : Digits cs) (hk : k < cs.length) : Digits (cs.drop k) :=
  ⟨fun he => by have := List.drop_eq_nil_iff.mp he; omega,
    fun c hc => h.2 c (List.mem_of_mem_drop hc)⟩

theorem laid_scientific {k : Int} (h : Digits cs) (hz : cs.head? ≠ some '0') :
    Laid (scientific cs k) := by
  have he : Exponent (['e', if k < 0 then '-' else '+'] ++ Nat.toDigits 10 k.natAbs) :=
    .signed rfl (by split <;> rfl) (digits_toDigits _)
  unfold scientific
  split
  · exact ⟨_, [], _, whole_take h hz Nat.one_pos, .none, he, by simp⟩
  · rename_i hl
    exact ⟨_, _, _, whole_take h hz Nat.one_pos,
      .point (digits_drop h (Nat.lt_of_not_le hl)), he, by simp⟩

/-- A layout is a numeral without sign. -/
theorem laid_layout (h : d.digits ≠ 0 ∨ d.power = 0) : Laid d.layout := by
  have hd := digits_toDigits d.digits
  -- A zero with a power would have zeros before its digit, or a digit before zeros.
  rcases Decidable.em (d.digits = 0) with h0 | h0
  · have hp : d.power = 0 := h.resolve_left (not_not_intro h0)
    have hl : d.layout = ['0'] := by
      rw [layout, h0, hp]
      rfl
    rw [hl]
    exact laid_whole (.inl rfl)
  have hz := head_toDigits h0
  unfold layout
  simp only
  split
  · refine laid_whole (.inr ⟨hd.append isDigit_replicate, ?_⟩)
    rwa [hd.head?_append]
  split
  · exact laid_point (whole_take hd hz (by omega)) (digits_drop hd (by omega))
  split
  · exact @laid_point ['0'] _ (.inl rfl) ⟨by simp [hd.1],
      List.forall_mem_append.mpr ⟨isDigit_replicate, hd.2⟩⟩
  · exact laid_scientific hd hz

end Decimal

namespace Double

variable {x : Double}

theorem laid_shortest (x : Double) : Decimal.Laid x.shortest.layout := by
  apply Decimal.laid_layout
  cases hx : x.isZero with
  | true => exact .inr (by rw [shortest, if_pos hx])
  | false => exact .inl (digits_shortest hx)

/-- A finite double is written as a numeral. -/
theorem exists_numeral (hx : x.isFinite = true) : ∃ n : Numeral, x.text.toList = n.chars := by
  obtain ⟨w, f, e, hw, hf, he, hl⟩ := laid_shortest x
  have hnan : x.isNaN = false := by
    rw [isFinite, bne_iff_ne] at hx
    rw [isNaN, beq_eq_false_iff_ne.mpr hx]
    rfl
  unfold text
  simp only [hnan, hx, Bool.false_eq_true, if_false, if_true]
  split
  · refine ⟨⟨['-'], w, f, e, .inr rfl, hw, hf, he⟩, ?_⟩
    rw [String.toList_append, String.toList_ofList, String.toList_ofList, hl]
    rfl
  · refine ⟨⟨[], w, f, e, .inl rfl, hw, hf, he⟩, ?_⟩
    rw [String.toList_ofList, hl]
    rfl

end Double

end GraphClient
