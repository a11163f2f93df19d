import GraphClient.Proofs.Document.Reads
import GraphClient.Proofs.Document.Grammar
import GraphClient.Proofs.Token.BlockStrings
import GraphClient.Proofs.Token.Faultless
import GraphClient.Proofs.Token.Lexemes

/-!
# Texts that spell tokens

`Spells next a Q`: wherever `a` stands on a line, in front of a text that `next` allows, it is
read as tokens for which `Q` holds, and the line does not end. `Spans a Q`: so it is in front of
any text, but lines may end. `Breaks a`: wherever `a` stands, and whatever follows, tokenising
ends in it with a fault. All are put together from parts.
-/

namespace GraphClient

/-- Any text. -/
def Anything : Source → Prop := fun _ => True

def Spells (next : Source → Prop) (a : Source) (Q : List Token → Prop) : Prop :=
  ∀ (rest : Source) (s : Spot), next rest →
    ∃ ts s', Scans rest s a ts s' ∧ s'.place.line = s.place.line ∧ Q ts

/-- Tokens of given kinds. -/
def OfKinds (ks : List TokenKind) (ts : List Token) : Prop := kindsOf ts = ks

namespace Spells

variable {next before : Source → Prop} {a b : Source} {Q R : List Token → Prop}
  {ks ls : List TokenKind}

theorem imp (h : Spells next a Q) (hQ : ∀ ts, Q ts → R ts) : Spells next a R := by
  intro rest s hr
  obtain ⟨ts, s', hs, hl, hq⟩ := h rest s hr
  exact ⟨ts, s', hs, hl, hQ ts hq⟩

/-- A text behind which anything may follow, in front of less. -/
theorem weaken (h : Spells Anything a Q) : Spells next a Q := fun rest s _ => h rest s trivial

theorem nil (hQ : Q []) : Spells next [] Q := fun _ s _ => ⟨[], s, .done, rfl, hQ⟩

theorem append (h : Spells before a Q) (h' : Spells next b R)
    (hn : ∀ rest, next rest → before (b ++ rest)) :
    Spells next (a ++ b) fun ts => ∃ us vs, ts = us ++ vs ∧ Q us ∧ R vs := by
  intro rest s hr
  obtain ⟨us, u, hs, hl, hq⟩ := h (b ++ rest) s (hn rest hr)
  obtain ⟨vs, v, hs', hl', hq'⟩ := h' rest u hr
  exact ⟨us ++ vs, v, hs.append hs', hl'.trans hl, us, vs, rfl, hq, hq'⟩

theorem kinds_append (h : Spells before a (OfKinds ks)) (h' : Spells next b (OfKinds ls))
    (hn : ∀ rest, next rest → before (b ++ rest)) : Spells next (a ++ b) (OfKinds (ks ++ ls)) := by
  apply (h.append h' hn).imp
  rintro ts ⟨us, vs, rfl, hu, hv⟩
  rw [OfKinds, kindsOf, List.map_append]
  exact congr (congrArg _ hu) hv

/-- A text behind which anything may follow. -/
theorem andThen (h : Spells Anything a (OfKinds ks)) (h' : Spells next b (OfKinds ls)) :
    Spells next (a ++ b) (OfKinds (ks ++ ls)) := h.kinds_append h' fun _ _ => trivial

theorem blank {c : Char} (h : isIgnored c = true) (hl : isLineBreak c = false) :
    Spells Anything [.whole c] (OfKinds []) := fun _ s _ =>
  ⟨[], _, scans_blank h, Place.line_after (by simpa [Cell.isBreak, Cell.satisfies] using hl), rfl⟩

theorem punctuator {c : Char} {p : Punctuator} (h : punctuator? c = some p) :
    Spells Anything [.whole c] (OfKinds [.punctuator p]) := by
  have hl : isLineBreak c = false := by
    unfold punctuator? at h
    split at h <;> first | rfl | cases h
  exact fun _ s _ => ⟨_, _, scans_punctuator h,
    Place.line_after (by simpa [Cell.isBreak, Cell.satisfies] using hl), rfl⟩

theorem oneLine_ofString {s : String} (h : IsOneLine s) :
    ∀ c ∈ Source.ofString s, c.satisfies (!isLineBreak ·) = true := by
  intro c hc
  obtain ⟨d, hd, rfl⟩ := List.mem_map.mp hc
  simpa [Cell.satisfies] using h d hd

theorem not_isBreak {c : Cell} (h : c.satisfies (!isLineBreak ·) = true) : c.isBreak = false := by
  cases c with
  | whole c => simpa [Cell.isBreak, Cell.satisfies] using h
  | half c => cases h

theorem name {n : String} (h : IsName n) :
    Spells Delimits (Source.ofString n) (OfKinds [.name n]) := by
  have hl : IsOneLine n := by
    intro d hd
    have hc := h.continues d hd
    cases hb : isLineBreak d with
    | false => rfl
    | true =>
      rw [isLineBreak, Bool.or_eq_true, beq_iff_eq, beq_iff_eq] at hb
      rcases hb with rfl | rfl <;> revert hc <;> decide
  exact fun _ s hr => ⟨_, _, scans_name h hr,
    Place.line_after fun c hc => not_isBreak (oneLine_ofString hl c hc), rfl⟩

theorem nothing : Spells next [] (OfKinds []) := .nil rfl

theorem cons_blank {c : Char} (hc : c = ' ' ∨ c = ',') (h : Spells next b (OfKinds ls)) :
    Spells next (.whole c :: b) (OfKinds ls) := by
  rcases hc with rfl | rfl <;> exact (blank rfl rfl).andThen h

theorem cons_punctuator {c : Char} {p : Punctuator} (hp : punctuator? c = some p)
    (h : Spells next b (OfKinds ls)) :
    Spells next (.whole c :: b) (OfKinds (.punctuator p :: ls)) := (punctuator hp).andThen h

theorem cons_name {n : String} (hn : IsName n) (h : Spells next b (OfKinds ls))
    (hd : ∀ rest, next rest → Delimits (b ++ rest)) :
    Spells next (Source.ofString n ++ b) (OfKinds (.name n :: ls)) := (name hn).kinds_append h hd

theorem closingBrace : Spells Anything (Source.ofString " \x7d") (OfKinds [.punctuator .braceR]) :=
  .cons_blank (.inl rfl) (.cons_punctuator rfl .nothing)

theorem quoted {t : String} (h : IsOneLine t) :
    Spells Delimits (quoted t) (OfKinds [.string t]) := by
  refine fun _ s hr => ⟨_, _, scans_quoted h hr, Place.line_after fun c hc => ?_, rfl⟩
  rw [GraphClient.quoted, ofString_escape] at hc
  rcases List.mem_cons.mp hc with rfl | hc
  · rfl
  rcases List.mem_append.mp hc with hc | hc
  · obtain ⟨d, hd, rfl⟩ := List.mem_map.mp hc
    obtain ⟨e, he, hd⟩ := List.mem_flatMap.mp hd
    have hb := h e he
    unfold Introspection.escapeChar at hd
    split at hd
    · simp only [List.mem_cons, List.not_mem_nil, or_false, or_self] at hd
      subst hd
      rfl
    · split at hd
      · simp only [List.mem_cons, List.not_mem_nil, or_false] at hd
        rcases hd with rfl | rfl <;> rfl
      · rw [List.mem_singleton.mp hd]
        exact hb
  · rw [List.mem_singleton.mp hc]
    rfl

end Spells

/-! ## Texts of several lines -/

/-- Wherever it stands and whatever follows, the text `a` is read as tokens for which `Q` holds. -/
def Spans (a : Source) (Q : List Token → Prop) : Prop :=
  ∀ (rest : Source) (s : Spot), ∃ ts s', Scans rest s a ts s' ∧ Q ts

namespace Spans

variable {next : Source → Prop} {a b : Source} {Q R : List Token → Prop}

theorem imp (h : Spans a Q) (hQ : ∀ ts, Q ts → R ts) : Spans a R := by
  intro rest s
  obtain ⟨ts, s', hs, hq⟩ := h rest s
  exact ⟨ts, s', hs, hQ ts hq⟩

theorem append (h : Spans a Q) (h' : Spans b R) :
    Spans (a ++ b) fun ts => ∃ us vs, ts = us ++ vs ∧ Q us ∧ R vs := by
  intro rest s
  obtain ⟨us, u, hs, hq⟩ := h (b ++ rest) s
  obtain ⟨vs, v, hs', hq'⟩ := h' rest u
  exact ⟨us ++ vs, v, hs.append hs', us, vs, rfl, hq, hq'⟩

theorem after (h : Spells next a Q) (h' : Spans b R) (hn : ∀ rest, next (b ++ rest)) :
    Spans (a ++ b) fun ts => ∃ us vs, ts = us ++ vs ∧ Q us ∧ R vs := by
  intro rest s
  obtain ⟨us, u, hs, -, hq⟩ := h (b ++ rest) s (hn rest)
  obtain ⟨vs, v, hs', hq'⟩ := h' rest u
  exact ⟨us ++ vs, v, hs.append hs', us, vs, rfl, hq, hq'⟩

/-- A text behind which anything may follow. -/
theorem of_spells (h : Spells Anything a Q) : Spans a Q := by
  intro rest s
  obtain ⟨ts, s', hs, -, hq⟩ := h rest s trivial
  exact ⟨ts, s', hs, hq⟩

theorem blanks {cs : List Char} (h : ∀ c ∈ cs, isIgnored c = true) :
    Spans (cs.map Cell.whole) (OfKinds []) := by
  induction cs with
  | nil => exact fun _ s => ⟨[], s, .done, rfl⟩
  | cons c cs ih =>
    intro rest s
    obtain ⟨ts, s', hs, hq⟩ := ih (fun d hd => h d (List.mem_cons_of_mem c hd)) rest
      (s.skip [.whole c])
    exact ⟨ts, s', (scans_blank (h c List.mem_cons_self)).append hs, hq⟩

theorem block {cs : List Char} (h : EndsClear cs) : Spans (blockFront cs ++ threeQuotes)
    (OfKinds [.blockString (String.ofList (Block.value cs))]) := fun _ _ =>
  ⟨_, _, scans_block h, rfl⟩

end Spans

/-! ## Broken texts -/

def Breaks (a : Source) : Prop :=
  ∀ (rest : Source) (s : Spot) (position : Nat),
    (lexFrom s.gap position s.place (a ++ rest)).fault ≠ none

namespace Breaks

variable {before : Source → Prop} {a b : Source} {Q : List Token → Prop}

theorem append (h : Breaks a) : Breaks (a ++ b) := by
  intro rest s position
  rw [List.append_assoc]
  exact h (b ++ rest) s position

theorem of_scans (h : ∀ rest s, ∃ ts s', Scans (b ++ rest) s a ts s') (hb : Breaks b) :
    Breaks (a ++ b) := by
  intro rest s position
  obtain ⟨ts, s', hs⟩ := h rest s
  rw [List.append_assoc, hs.lexFrom position]
  exact hb rest s' _

theorem behind (h : Spans a Q) (hb : Breaks b) : Breaks (a ++ b) :=
  of_scans (fun rest s => by
    obtain ⟨ts, s', hs, -⟩ := h (b ++ rest) s
    exact ⟨ts, s', hs⟩) hb

theorem after (h : Spells before a Q) (hb : Breaks b) (hn : ∀ rest, before (b ++ rest)) :
    Breaks (a ++ b) :=
  of_scans (fun rest s => by
    obtain ⟨ts, s', hs, -, -⟩ := h (b ++ rest) s (hn rest)
    exact ⟨ts, s', hs⟩) hb

theorem quoted {t : String} (h : ¬ IsOneLine t) : Breaks (quoted t) := by
  intro rest s position
  obtain ⟨cause, passed, hf⟩ := @broken_quoted ([.whole '"'] ++ rest) t h
  rw [GraphClient.quoted, List.cons_append, List.append_assoc, lexFrom, hf]
  exact Option.some_ne_none _

end Breaks

/-! ## Documents -/

/-- A text that is scanned to its end is read as the document of its tokens. -/
theorem ofString_of_scans {text : String} {ts : List Token} {s' : Spot}
    (h : Scans [] ⟨[], Place.start⟩ (Source.ofString text) ts s') :
    Document.ofString text = Document.ofTokens ts := by
  have hl : lex (Source.ofString text) = ⟨ts, none⟩ := by
    have hs := h.lexFrom 0
    simp only [lexFrom, List.append_nil] at hs
    exact hs
  rw [Document.ofString, tokenize]
  simp only [hl, List.map_nil, List.nil_append]

theorem warnings_of_fault {text : String} (h : (lex (Source.ofString text)).fault ≠ none) :
    (Document.ofString text).warnings ≠ [] := by
  intro hw
  have hf : (tokenize (Source.ofString text)).faults = [] :=
    List.map_eq_nil_iff.mp (List.append_eq_nil_iff.mp hw).1
  exact h (fault_eq_none hf)

end GraphClient
