import GraphClient.Text.LetterCase
import GraphClient.Text.Units

/-!
# What the case maps keep

The first letter of a small form is its own small form (`lower_lower`), and no case map makes an
underscore (`not_mem_lower`, `not_mem_upper`). Both come from the table: the letters that a run
leads to (`Run.image`) lie apart from the runs and from what they must miss. Two runs lie apart if
one ends before the other, or if each keeps to even or to odd letters and they differ in this.
Characters of two units have no case (`lower_of_unitCount`).
-/

namespace GraphClient.Text

namespace Run

/-- The other cases of the letters of a run. -/
def image (r : Run) : Run :=
  ⟨(r.first + r.shift).toNat, (r.last + r.shift).toNat, r.step, 0⟩

/-- Whether the letters of a run are all even or all odd. -/
def alternates (r : Run) : Bool := r.step % 2 == 0 || r.first == r.last

/-- Whether two runs are seen to have no letter in common. -/
def apart (r r' : Run) : Bool :=
  Nat.blt r.last r'.first || Nat.blt r'.last r.first ||
    (r.alternates && r'.alternates && (r.first + r'.first) % 2 == 1)

/-- The run of a single letter. -/
def single (n : Nat) : Run := ⟨n, n, 1, 0⟩

section

variable {r r' : Run} {runs : List Run} {n : Nat}

theorem covers_iff :
    r.covers n = true ↔ r.first ≤ n ∧ n ≤ r.last ∧ (n - r.first) % r.step = 0 := by
  simp [covers, and_assoc]

theorem covers_single : (single n).covers n = true := by simp [covers, single]

theorem alternates_parity (h : r.alternates = true) (hn : r.covers n = true) :
    n % 2 = r.first % 2 := by
  obtain ⟨hf, hl, hs⟩ := covers_iff.mp hn
  rw [alternates, Bool.or_eq_true, beq_iff_eq, beq_iff_eq] at h
  rcases h with h | h
  · have hd : 2 ∣ n - r.first :=
      Nat.dvd_trans (Nat.dvd_of_mod_eq_zero h) (Nat.dvd_of_mod_eq_zero hs)
    omega
  · rw [← h] at hl
    rw [Nat.le_antisymm hl hf]

theorem not_covers_of_apart (h : r.apart r' = true) (hn : r.covers n = true) :
    r'.covers n = false := by
  rw [Bool.eq_false_iff]
  intro hn'
  obtain ⟨hf, hl, -⟩ := covers_iff.mp hn
  obtain ⟨hf', hl', -⟩ := covers_iff.mp hn'
  simp only [apart, Bool.or_eq_true, Bool.and_eq_true, Nat.blt_eq, beq_iff_eq] at h
  rcases h with (h | h) | ⟨⟨ha, ha'⟩, h⟩
  · omega
  · omega
  · have hp := alternates_parity ha hn
    have hp' := alternates_parity ha' hn'
    omega

theorem covers_image (h : 0 ≤ r.first + r.shift) (hn : r.covers n = true) :
    r.image.covers (n + r.shift).toNat = true := by
  obtain ⟨hf, hl, hs⟩ := covers_iff.mp hn
  have he : (n + r.shift).toNat - (r.first + r.shift).toNat = n - r.first := by omega
  refine covers_iff.mpr ⟨?_, ?_, by rw [image, he, hs]⟩
  · show (r.first + r.shift).toNat ≤ _
    omega
  · show _ ≤ (r.last + r.shift).toNat
    omega

/-- A letter is no member of a run and stays, or a member and leads to the image of the run. -/
theorem apply_cases (h : ∀ r ∈ runs, 0 ≤ r.first + r.shift) (n : Nat) :
    ((∀ r ∈ runs, r.covers n = false) ∧ apply runs n = n) ∨
      ∃ r ∈ runs, r.image.covers (apply runs n) = true := by
  cases hr : runs.find? (·.covers n) with
  | none =>
    rw [List.find?_eq_none] at hr
    refine .inl ⟨fun r hm => by simpa using hr r hm, ?_⟩
    rw [apply, List.find?_eq_none.mpr hr]
  | some r =>
    have hm := List.mem_of_find?_eq_some hr
    refine .inr ⟨r, hm, ?_⟩
    rw [apply, hr]
    exact covers_image (h r hm) (by simpa using List.find?_some hr)

theorem apply_of_not_covers (h : ∀ r ∈ runs, r.covers n = false) : apply runs n = n := by
  rw [apply, List.find?_eq_none.mpr fun r hr => by simp [h r hr]]

/-- What no run leads to is led to by itself alone. -/
theorem apply_eq {m : Nat} (h : ∀ r ∈ runs, 0 ≤ r.first + r.shift)
    (hm : ∀ r ∈ runs, r.image.apart (single m) = true) (hn : apply runs n = m) : n = m := by
  rcases apply_cases h n with ⟨-, he⟩ | ⟨r, hr, hc⟩
  · rw [← he, hn]
  · have hs := not_covers_of_apart (hm r hr) hc
    rw [hn, covers_single] at hs
    cases hs

end

end Run

/-! ## The tables -/

/-- The characters that stand for halves of others. -/
def surrogates : Run := ⟨0xD800, 0xDFFF, 1, 0⟩

section Tables

theorem lowerRuns_bounds : ∀ r ∈ lowerRuns, 0 ≤ r.first + r.shift ∧ r.image.last < 0x110000 ∧
    r.image.apart surrogates = true ∧ r.image.apart (Run.single 0x5F) = true ∧
    r.image.apart (Run.single 0x130) = true := by
  decide +kernel

theorem lowerRuns_basic : ∀ r ∈ lowerRuns, r.last < 0x10000 := by
  decide +kernel

theorem lowerRuns_apart : ∀ r ∈ lowerRuns.map Run.image, ∀ r' ∈ lowerRuns, r.apart r' = true := by
  have h : ((lowerRuns.map Run.image).all fun r => lowerRuns.all r.apart) = true := by
    decide +kernel
  simpa only [List.all_eq_true] using h

theorem upperRuns_bounds : ∀ r ∈ upperRuns,
    0 ≤ r.first + r.shift ∧ r.image.apart (Run.single 0x5F) = true := by
  decide +kernel

theorem upperWide_letters : ∀ e ∈ upperWide, '_' ∉ e.2.map Char.ofNat := by
  decide +kernel

end Tables

section Maps

variable {c d : Char} {ds : List Char}

theorem apply_lowerRuns (n : Nat) :
    Run.apply lowerRuns (Run.apply lowerRuns n) = Run.apply lowerRuns n := by
  rcases Run.apply_cases (fun r hr => (lowerRuns_bounds r hr).1) n with ⟨-, he⟩ | ⟨r, hr, hc⟩
  · rw [he, he]
  · exact Run.apply_of_not_covers fun r' hr' => Run.not_covers_of_apart
      (lowerRuns_apart r.image (List.mem_map_of_mem hr) r' hr') hc

theorem isValidChar_apply_lowerRuns (c : Char) :
    (Run.apply lowerRuns c.toNat).isValidChar := by
  rcases Run.apply_cases (fun r hr => (lowerRuns_bounds r hr).1) c.toNat with
    ⟨-, he⟩ | ⟨r, hr, hc⟩
  · rw [he]
    exact c.valid
  · obtain ⟨-, hmax, hsur, -⟩ := lowerRuns_bounds r hr
    have hs := Run.not_covers_of_apart hsur hc
    obtain ⟨-, hl, -⟩ := Run.covers_iff.mp hc
    rw [Bool.eq_false_iff, Ne, Run.covers_iff] at hs
    simp only [surrogates, Nat.mod_one, and_true, not_and] at hs
    unfold Nat.isValidChar
    omega

theorem toNat_ofNat {n : Nat} (h : n.isValidChar) : (Char.ofNat n).toNat = n := by
  rw [Char.ofNat, dif_pos h]
  rfl

theorem ofNat_ne {n : Nat} (h : n ≠ 0x5F) : Char.ofNat n ≠ '_' := by
  intro e
  by_cases hn : n.isValidChar
  · have ht := toNat_ofNat hn
    rw [e] at ht
    exact h ht.symm
  · rw [Char.ofNat, dif_neg hn] at e
    cases e

/-- The first letter of a small form is its own small form. -/
theorem lower_lower (h : lower c = d :: ds) : lower d = [d] := by
  rw [lower] at h
  split at h
  · cases h
    decide +kernel
  · rename_i hc
    rw [beq_iff_eq] at hc
    obtain ⟨rfl, -⟩ := List.cons.inj h
    have hd := toNat_ofNat (isValidChar_apply_lowerRuns c)
    have hi : Run.apply lowerRuns c.toNat ≠ 0x130 := fun e => hc <|
      Run.apply_eq (fun r hr => (lowerRuns_bounds r hr).1)
        (fun r hr => (lowerRuns_bounds r hr).2.2.2.2) e
    rw [lower, hd, if_neg (by simpa using hi), apply_lowerRuns]

theorem lower_of_unitCount (h : unitCount c = 2) : lower c = [c] := by
  have hc : 0x10000 ≤ c.toNat := by
    unfold unitCount at h
    split at h
    · omega
    · rename_i hv
      exact Nat.not_lt.mp hv
  have hr : ∀ r ∈ lowerRuns, r.covers c.toNat = false := by
    intro r hr
    rw [Bool.eq_false_iff, Ne, Run.covers_iff]
    have hlast := lowerRuns_basic r hr
    omega
  have hdot : (c.toNat == 0x130) = false := beq_eq_false_iff_ne.mpr (by omega)
  rw [lower, hdot, if_neg Bool.false_ne_true, Run.apply_of_not_covers hr, Char.ofNat_toNat]

theorem not_mem_lower (h : c ≠ '_') : '_' ∉ lower c := by
  rw [lower]
  split
  · decide
  · rw [List.mem_singleton]
    refine (ofNat_ne fun e => h (Char.toNat_inj.mp ?_)).symm
    exact Run.apply_eq (fun r hr => (lowerRuns_bounds r hr).1)
      (fun r hr => (lowerRuns_bounds r hr).2.2.2.1) e

theorem not_mem_upper (h : c ≠ '_') : '_' ∉ upper c := by
  rw [upper]
  split
  · rename_i ns hw
    obtain ⟨before, after, hmem, -⟩ := List.lookup_eq_some_iff.mp hw
    exact upperWide_letters (c.toNat, ns) (by rw [hmem]; simp)
  · rw [List.mem_singleton]
    refine (ofNat_ne fun e => h (Char.toNat_inj.mp ?_)).symm
    exact Run.apply_eq (fun r hr => (upperRuns_bounds r hr).1)
      (fun r hr => (upperRuns_bounds r hr).2) e

end Maps

end GraphClient.Text
