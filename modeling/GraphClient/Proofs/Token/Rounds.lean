import GraphClient.Document
import GraphClient.Proofs.Token.Blanking

/-!
# The rounds of tokenising

A text is lexed in rounds (`Rounds`): a round that meets a fault at something visible blanks its
first unit for the next one. In units (`Source.units`), the rounds change the text at the
positions of these faults and nowhere else, at each position once and in order, and each of them
held something visible before (`Relexed`). So the rounds are fewer than the visible units but one,
and there is one warning for each fault, in order (`tokenize_relexed`).
-/

namespace GraphClient

/-! ## Units -/

/-- Whether a unit is white space; a surrogate is no character of its own, and none. -/
def isSpaceUnit (u : Nat) : Bool := Text.isSpace (Char.ofNat u)

/-- The units of a cell. -/
def Cell.units : Cell → List Nat
  | whole c => Text.unitsOf c
  | half c => [0xDC00 + (c.toNat - 0x10000) % 0x400]

/-- The units of a text. -/
def Source.units (cells : Source) : List Nat := cells.flatMap Cell.units

theorem isSpaceUnit_surrogate {u : Nat} (h : 0xD800 ≤ u) (h' : u ≤ 0xDFFF) :
    isSpaceUnit u = false := by
  have hu : ¬ u.isValidChar := by
    rintro (h | h) <;> omega
  rw [isSpaceUnit, Char.ofNat, dif_neg hu]
  rfl

/-- White space is one unit. -/
theorem isSpace_pair {c : Char} (h : 0x10000 ≤ c.toNat) : Text.isSpace c = false := by
  refine Bool.eq_false_iff.mpr fun hs => ?_
  simp only [Text.isSpace, Bool.or_eq_true, Bool.and_eq_true, decide_eq_true_eq, beq_iff_eq] at hs
  omega

namespace Cell

theorem length_units (c : Cell) : c.units.length = c.width := by
  cases c with
  | whole c => exact Text.length_unitsOf c
  | half c => rfl

/-- A cell is visible by its first unit. -/
theorem units_visible (c : Cell) : ∃ u us, c.units = u :: us ∧ c.isVisible = !isSpaceUnit u := by
  cases c with
  | half c =>
    refine ⟨_, [], rfl, ?_⟩
    rw [isSpaceUnit_surrogate (Nat.le_add_right_of_le (by decide)) (by omega)]
    rfl
  | whole c =>
    rw [units, Text.unitsOf, isVisible]
    split
    · exact ⟨_, [], rfl, by rw [isSpaceUnit, Char.ofNat_toNat]⟩
    · rename_i hc
      have hlt : c.toNat < 0x110000 := by
        rcases c.valid with h | h
        · exact Nat.lt_of_lt_of_le h (by decide)
        · exact h.2
      have hge : 0x10000 ≤ c.toNat := Nat.le_of_not_lt hc
      refine ⟨_, _, rfl, ?_⟩
      rw [isSpaceUnit_surrogate (Nat.le_add_right _ _) (by omega)]
      rw [isSpace_pair hge]

theorem units_blanked (c : Cell) : Source.units c.blanked = c.units.set 0 0x20 := by
  cases c with
  | half c => rfl
  | whole c =>
    rw [blanked, units, Text.unitsOf]
    split <;> rfl

end Cell

namespace Source

theorem units_append (a b : Source) : units (a ++ b) = units a ++ units b := List.flatMap_append

theorem length_units (cells : Source) : (units cells).length = width cells := by
  induction cells with
  | nil => rfl
  | cons c cells ih =>
    rw [units, List.flatMap_cons, List.length_append, c.length_units, width]
    exact congrArg (c.width + ·) ih

theorem units_ofString (s : String) : units (ofString s) = Text.units s := by
  rw [units, ofString, List.flatMap_map]
  rfl

/-- The unit behind a text is the first one of the cell there, and visible with it. -/
theorem unit_behind (a : Source) (c : Cell) (b : Source) :
    ∃ u, (units (a ++ c :: b))[a.width]? = some u ∧ c.isVisible = !isSpaceUnit u := by
  obtain ⟨u, us, hc, hv⟩ := c.units_visible
  refine ⟨u, ?_, hv⟩
  rw [units_append, List.getElem?_append_right (Nat.le_of_eq (length_units a)), length_units,
    Nat.sub_self, units, List.flatMap_cons, hc]
  rfl

theorem units_blank_behind (a : Source) (c : Cell) (b : Source) :
    units (a ++ (c.blanked ++ b)) = (units (a ++ c :: b)).set a.width 0x20 := by
  obtain ⟨u, us, hc, -⟩ := c.units_visible
  rw [units_append, units_append, units_append, c.units_blanked,
    List.set_append_right _ _ (Nat.le_of_eq (length_units a)), length_units, Nat.sub_self, units,
    units, units, List.flatMap_cons, hc]
  rfl

end Source

/-- Setting something that counts to something that does not. -/
theorem countP_set_pred {p : Nat → Bool} {us : List Nat} {i u v : Nat} (h : us[i]? = some u)
    (hu : p u = true) (hv : p v = false) : (us.set i v).countP p + 1 = us.countP p := by
  obtain ⟨hi, rfl⟩ := List.getElem?_eq_some_iff.mp h
  have hpos : 0 < us.countP p := List.countP_pos_iff.mpr ⟨_, List.getElem_mem hi, hu⟩
  rw [List.countP_set hi, if_pos hu, hv]
  simp only [Bool.false_eq_true, if_false]
  omega

/-! ## Rounds -/

section Faults

variable {cells : Source} {fault : Fault}

theorem lex_fault_front (h : (lex cells).fault = some fault) :
    ∃ a b, cells = a ++ b ∧ fault.position = a.width := by
  obtain ⟨a, -, -, c, bs, n, rfl, -, -, hp⟩ := lexFrom_fault h
  refine ⟨a ++ (c :: bs).take n, (c :: bs).drop n, ?_, by rw [hp, Nat.zero_add]⟩
  rw [List.append_assoc, List.take_append_drop]

theorem cellAt?_front (a b : Source) : Source.cellAt? (a ++ b) a.width = b.head? := by
  have h := @Source.cellAt?_behind a b 0
  rw [Nat.zero_add] at h
  rw [h]
  cases b <;> rfl

/-- Where a fault stands there is a cell with the unit, or the end of the text. -/
theorem unit_of_fault (h : (lex cells).fault = some fault) :
    (∀ c ∈ cells.cellAt? fault.position, ∃ u, cells.units[fault.position]? = some u ∧
      c.isVisible = !isSpaceUnit u) ∧
    ∀ u ∈ cells.units[fault.position]?, ∃ c, cells.cellAt? fault.position = some c ∧
      c.isVisible = !isSpaceUnit u := by
  obtain ⟨a, b, rfl, hp⟩ := lex_fault_front h
  rw [hp, cellAt?_front]
  cases b with
  | nil =>
    refine ⟨nofun, fun u hu => ?_⟩
    rw [List.append_nil, ← Source.length_units, List.getElem?_eq_none (Nat.le_refl _)] at hu
    cases hu
  | cons c b =>
    obtain ⟨u, hu, hv⟩ := Source.unit_behind a c b
    refine ⟨?_, ?_⟩
    · rintro d hd
      cases hd
      exact ⟨u, hu, hv⟩
    · intro v hv'
      rw [hu] at hv'
      cases hv'
      exact ⟨c, rfl, hv⟩

theorem units_blank {c : Cell} (h : (lex cells).fault = some fault)
    (hc : cells.cellAt? fault.position = some c) :
    (cells.blank fault.position).units = cells.units.set fault.position 0x20 := by
  obtain ⟨a, b, rfl, hp⟩ := lex_fault_front h
  rw [hp, cellAt?_front] at hc
  obtain ⟨b, rfl⟩ := List.head?_eq_some_iff.mp hc
  have hb := @Source.blank_behind a (c :: b) 0
  rw [Nat.zero_add] at hb
  rw [hp, hb]
  exact Source.units_blank_behind a c b

/-- No fault of a text is met above the first. -/
theorem faults_behind (cells : Source) :
    ∀ first ∈ (lex cells).fault, ∀ f ∈ (tokenize cells).faults, first.position ≤ f.position := by
  fun_induction tokenize cells with
  | case1 cells hn =>
    intro first h
    rw [hn] at h
    cases h
  | case2 cells fault hf | case4 cells fault hf =>
    intro first h f hmem
    rw [hf] at h
    cases h
    cases List.mem_singleton.mp hmem
    exact Nat.le_refl _
  | case3 cells fault hf c hc hv later ih =>
    intro first h f hmem
    rw [hf] at h
    cases h
    rcases List.mem_cons.mp hmem with rfl | hmem
    · exact Nat.le_refl _
    · cases hl : (lex (cells.blank fault.position)).fault with
      | none =>
        simp only [later, tokenize_faultless hl] at hmem
        cases hmem
      | some next => exact Nat.le_trans (lex_blank_le hf hc hl) (ih next hl f hmem)

end Faults

/-- The texts that are lexed one after the other: a fault at something visible is blanked for the
next round, and the last text has no such fault. -/
inductive Rounds : Source → List Source → Prop where
  | ends {cells : Source} :
    (∀ f ∈ (lex cells).fault, ∀ c ∈ cells.cellAt? f.position, c.isVisible = false) →
      Rounds cells [cells]
  | blanks {cells : Source} {fault : Fault} {c : Cell} {texts : List Source} :
    (lex cells).fault = some fault → cells.cellAt? fault.position = some c → c.isVisible = true →
      Rounds (cells.blank fault.position) texts → Rounds cells (cells :: texts)

/-- Each text has its rounds. -/
theorem rounds_exist (cells : Source) : ∃ texts, Rounds cells texts := by
  fun_induction tokenize cells with
  | case1 cells hn => exact ⟨_, .ends fun f hf => by rw [hn] at hf; cases hf⟩
  | case2 cells fault hf hc =>
    refine ⟨_, .ends fun f hf' c hc' => ?_⟩
    rw [hf] at hf'
    cases hf'
    rw [hc] at hc'
    cases hc'
  | case3 cells fault hf c hc hv later ih =>
    obtain ⟨texts, ht⟩ := ih
    exact ⟨_, .blanks hf hc hv ht⟩
  | case4 cells fault hf c hc hv =>
    refine ⟨_, .ends fun f hf' d hd => ?_⟩
    rw [hf] at hf'
    cases hf'
    rw [hc] at hd
    cases hd
    exact Bool.eq_false_iff.mpr hv

/-- What the rounds over some texts make of a text with the units `us`, blanked at the positions
`blanked`. -/
structure Relexed (us : List Nat) (texts : List Source) (blanked : List Nat) (t : Tokenized) :
    Prop where
  /-- There is a fault for each text that has one. -/
  faults : t.faults = texts.filterMap fun cells => (lex cells).fault
  /-- All faults are blanked but the one, if any, that is left in the end. -/
  positions : t.faults.map (·.position) = blanked ++ (lex t.text).fault.toList.map (·.position)
  increasing : blanked.Pairwise (· < ·)
  /-- The fault that is left is not above a blanked position, and at nothing visible. -/
  stops : ∀ f ∈ (lex t.text).fault, (∀ p ∈ blanked, p ≤ f.position) ∧
    ∀ u ∈ t.text.units[f.position]?, isSpaceUnit u = true
  visible : ∀ p ∈ blanked, ∃ u, us[p]? = some u ∧ isSpaceUnit u = false
  rounds : texts.length = blanked.length + 1
  bounded : texts.length ≤ us.countP (!isSpaceUnit ·) + 1
  length : t.text.units.length = us.length
  text : ∀ i, t.text.units[i]? = if i ∈ blanked then some 0x20 else us[i]?
  tokens : t.tokens = (lex t.text).tokens

namespace Relexed

variable {cells : Source} {fault : Fault} {c : Cell} {texts : List Source} {blanked : List Nat}

theorem ends (h : ∀ f ∈ (lex cells).fault, ∀ c ∈ cells.cellAt? f.position, c.isVisible = false) :
    Relexed cells.units [cells] [] (tokenize cells) := by
  have ht : tokenize cells = ⟨cells, (lex cells).tokens, (lex cells).fault.toList⟩ := by
    cases hf : (lex cells).fault with
    | none => exact tokenize_faultless hf
    | some fault => exact tokenize_stops hf (h fault hf)
  rw [ht]
  refine ⟨?_, rfl, .nil, fun f hf => ⟨nofun, fun u hu => ?_⟩, nofun, rfl, Nat.le_add_left 1 _, rfl,
    fun i => rfl, rfl⟩
  · cases hf : (lex cells).fault <;> simp [hf]
  · obtain ⟨c, hc, hv⟩ := (unit_of_fault hf).2 u hu
    rw [h f hf c hc] at hv
    exact (Bool.not_eq_false' _).mp hv.symm

/-- One round blanks one more position, above those of the later rounds. -/
theorem blanks (hf : (lex cells).fault = some fault)
    (hc : cells.cellAt? fault.position = some c) (hv : c.isVisible = true)
    (h : Relexed (cells.blank fault.position).units texts blanked
      (tokenize (cells.blank fault.position))) :
    Relexed cells.units (cells :: texts) (fault.position :: blanked) (tokenize cells) := by
  obtain ⟨u, hu, huv⟩ := (unit_of_fault hf).1 c hc
  have hspace : isSpaceUnit u = false := by
    rw [hv] at huv
    exact (Bool.not_eq_true' _).mp huv.symm
  have hlt : fault.position < cells.units.length := (List.getElem?_eq_some_iff.mp hu).1
  have hbehind := faults_behind cells fault hf
  rw [tokenize_blanks hf hc hv] at hbehind ⊢
  rw [units_blank hf hc] at h
  -- the later positions are not above this one, and it holds a space from now on
  have hlater : ∀ p ∈ (tokenize (cells.blank fault.position)).faults.map (·.position),
      fault.position ≤ p := by
    intro p hp
    obtain ⟨f, hmem, rfl⟩ := List.mem_map.mp hp
    exact hbehind f (List.mem_cons_of_mem _ hmem)
  rw [h.positions] at hlater
  have hblanked : ∀ p ∈ blanked, fault.position < p := by
    intro p hp
    refine Nat.lt_of_le_of_ne (hlater p (List.mem_append_left _ hp)) ?_
    rintro rfl
    obtain ⟨v, hset, hvis⟩ := h.visible _ hp
    rw [List.getElem?_set_self hlt] at hset
    cases hset
    exact absurd hvis (by decide)
  have hset : ∀ p ∈ blanked, (cells.units.set fault.position 0x20)[p]? = cells.units[p]? :=
    fun p hp => List.getElem?_set_ne (Nat.ne_of_lt (hblanked p hp))
  constructor
  · simp only [List.filterMap_cons, hf, h.faults]
  · simp only [List.map_cons, h.positions, List.cons_append]
  · exact List.pairwise_cons.mpr ⟨hblanked, h.increasing⟩
  · intro f hl
    obtain ⟨hp, hs⟩ := h.stops f hl
    refine ⟨?_, hs⟩
    rw [List.forall_mem_cons]
    refine ⟨hlater f.position (List.mem_append_right _ ?_), hp⟩
    rw [hl]
    exact List.mem_singleton_self _
  · rw [List.forall_mem_cons]
    refine ⟨⟨u, hu, hspace⟩, fun p hp => ?_⟩
    rw [← hset p hp]
    exact h.visible p hp
  · rw [List.length_cons, List.length_cons, h.rounds]
  · have hcount : (cells.units.set fault.position 0x20).countP (!isSpaceUnit ·) + 1 =
        cells.units.countP (!isSpaceUnit ·) :=
      countP_set_pred hu (by rw [hspace]; rfl) (by decide)
    rw [List.length_cons, ← hcount]
    exact Nat.succ_le_succ h.bounded
  · rw [h.length, List.length_set]
  · intro i
    rw [h.text i]
    by_cases hi : i = fault.position
    · subst hi
      simp [hlt]
    · simp [hi, List.getElem?_set_ne (Ne.symm hi)]
  · exact h.tokens

end Relexed

/-- Every run of rounds comes to what tokenising returns. -/
theorem Rounds.relexed {cells : Source} {texts : List Source} (h : Rounds cells texts) :
    ∃ blanked, Relexed cells.units texts blanked (tokenize cells) := by
  induction h with
  | ends h => exact ⟨[], .ends h⟩
  | blanks hf hc hv _ ih =>
    obtain ⟨blanked, hb⟩ := ih
    exact ⟨_, hb.blanks hf hc hv⟩

/-- Tokenising a text blanks visible units, from the first to the last and each once, until no
fault at something visible is left, and warns of each fault in the order of their positions. -/
theorem tokenize_relexed (s : String) :
    ∃ texts blanked, Rounds (Source.ofString s) texts ∧
      Relexed (Text.units s) texts blanked (tokenize (Source.ofString s)) ∧
      (Document.ofString s).warnings = (tokenize (Source.ofString s)).faults.map .lexical ++
        (Document.ofTokens (tokenize (Source.ofString s)).tokens).warnings := by
  obtain ⟨texts, ht⟩ := rounds_exist (Source.ofString s)
  obtain ⟨blanked, hb⟩ := ht.relexed
  rw [Source.units_ofString] at hb
  exact ⟨texts, blanked, ht, hb, rfl⟩

end GraphClient
