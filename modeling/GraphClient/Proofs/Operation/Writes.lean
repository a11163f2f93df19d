import GraphClient.Proofs.Double.Layout
import GraphClient.Proofs.Operation.Grammar
import GraphClient.Proofs.Text.Quoted
import GraphClient.Proofs.Token.Spells
import Mathlib.Data.List.Forall2

/-!
# Texts that write terminals

`Writes next s ws`: wherever the text `s` stands in front of what `next` allows, it is read as
tokens whose terminals are `ws`. Marks, names, quoted texts and numerals write one terminal each;
other texts are put together from them.
-/

namespace GraphClient

open Executable

/-- The literal of a number: one with a point or an exponent is no int. -/
def Executable.Literal.ofNumber (text : String) : Literal :=
  if text.toList.all Numeral.isIntChar then .int text else .float text

def Writes (next : Source → Prop) (s : String) (ws : List Terminal) : Prop :=
  ∀ (rest : Source) (a : Spot), next rest →
    ∃ ts b, Scans rest a (Source.ofString s) ts b ∧ ts.map Token.terminal = ws

namespace Writes

variable {next before : Source → Prop} {s t : String} {ws vs : List Terminal}

theorem append (h : Writes before s ws) (h' : Writes next t vs)
    (hn : ∀ rest, next rest → before (Source.ofString t ++ rest)) :
    Writes next (s ++ t) (ws ++ vs) := by
  intro rest a hr
  obtain ⟨us, b, hs, hu⟩ := h (Source.ofString t ++ rest) a (hn rest hr)
  obtain ⟨xs, c, hs', hx⟩ := h' rest b hr
  refine ⟨us ++ xs, c, ?_, by rw [List.map_append, hu, hx]⟩
  rw [ofString_append]
  exact hs.append hs'

/-- A text behind which anything may follow, in front of less. -/
theorem weaken (h : Writes Anything s ws) : Writes next s ws := fun rest a _ => h rest a trivial

/-- A text behind which anything may follow. -/
theorem andThen (h : Writes Anything s ws) (h' : Writes next t vs) :
    Writes next (s ++ t) (ws ++ vs) := h.append h' fun _ _ => trivial

/-- A text in front of one that begins with a delimiter. -/
theorem before_delimiter (h : Writes Delimits s ws) {d : Char} {cs : List Char}
    (ht : t.toList = d :: cs) (hd : d ∈ delimiters) (h' : Writes next t vs) :
    Writes next (s ++ t) (ws ++ vs) := by
  refine h.append h' fun rest _ => ?_
  rw [Source.ofString, ht]
  exact delimits_cons hd

theorem empty : Writes next "" [] := fun _ a _ => ⟨[], a, .done, rfl⟩

theorem of_spells {kind : TokenKind} {w : Terminal}
    (h : Spells next (Source.ofString s) (OfKinds [kind])) (hw : ∀ text, kind.terminal text = w) :
    Writes next s [w] := by
  intro rest a hr
  obtain ⟨ts, b, hs, -, hk⟩ := h rest a hr
  obtain ⟨t, rfl, ht⟩ := List.map_eq_singleton_iff.mp hk
  exact ⟨[t], b, hs, by rw [List.map_singleton, Token.terminal, ht, hw]⟩

theorem name (h : IsName s) : Writes Delimits s [.name s] := of_spells (.name h) fun _ => rfl

/-! ## Marks -/

/-- The terminals of blanks and punctuators. -/
def markTerminals (cs : List Char) : List Terminal :=
  cs.filterMap fun c => (punctuator? c).map .punctuator

/-- A space, a comma or a punctuator of one character. -/
def isMark (c : Char) : Bool := c == ' ' || c == ',' || (punctuator? c).isSome

theorem marks (h : s.toList.all isMark = true) : Writes Anything s (markTerminals s.toList) := by
  have run : ∀ cs : List Char, cs.all isMark = true → ∀ (rest : Source) (a : Spot), ∃ ts b,
      Scans rest a (cs.map Cell.whole) ts b ∧ ts.map Token.terminal = markTerminals cs := by
    intro cs hcs rest
    induction cs with
    | nil => exact fun a => ⟨[], a, .done, rfl⟩
    | cons c cs ih =>
      rw [List.all_cons, Bool.and_eq_true] at hcs
      have ih := ih hcs.2
      intro a
      cases hp : punctuator? c with
      | some p =>
        obtain ⟨ts, b, hs, ht⟩ := ih (a.past [.whole c])
        exact ⟨_, b, (scans_punctuator hp).append hs, by
          simpa [markTerminals, hp, Token.terminal, Spot.token, TokenKind.terminal] using ht⟩
      | none =>
        have hc : isIgnored c = true := by
          have hc := hcs.1
          rw [isMark, hp, Bool.or_eq_true, Bool.or_eq_true, beq_iff_eq, beq_iff_eq] at hc
          rcases hc with (rfl | rfl) | hc
          · rfl
          · rfl
          · cases hc
        obtain ⟨ts, b, hs, ht⟩ := ih (a.skip [.whole c])
        exact ⟨ts, b, (scans_blank hc).append hs, by simpa [markTerminals, hp] using ht⟩
  exact fun rest a _ => run s.toList h rest a

/-! ## Quoted texts -/

/-- A written character begins with no quote. -/
theorem written_head {c : Char} {cs : List Char} (h : Text.Written c cs) :
    ∃ d ds, cs = d :: ds ∧ d ≠ '"' := by
  cases h with
  | letter _ _ => exact ⟨_, _, rfl, by decide⟩
  | digits _ => exact ⟨_, _, rfl, by decide⟩
  | plain hq _ _ => exact ⟨_, _, rfl, hq⟩

theorem quoteChars_ne_quotes {cs : List Char} {rest tail : Source} (hr : Delimits rest) :
    (Text.quoteChars cs).map Cell.whole ++ .whole '"' :: rest ≠
      .whole '"' :: .whole '"' :: tail := by
  cases cs with
  | nil => exact fun he => hr.ne_quote (List.cons.inj he).2
  | cons c cs =>
    obtain ⟨d, ds, hd, hne⟩ := written_head (Text.written_quoteChar c)
    rw [Text.quoteChars, List.flatMap_cons, hd]
    exact fun he => hne (Cell.whole.inj (List.cons.inj he).1)

theorem quote (s : String) : Writes Delimits (Text.quote s) [.string s] := by
  intro rest a hr
  have htext : Source.ofString (Text.quote s) =
      .whole '"' :: ((Text.quoteChars s.toList).map Cell.whole ++ [.whole '"']) := by
    simp [Source.ofString, Text.toList_quote]
  have hlength : 1 + (Text.quoteChars s.toList).length + 1 - 1 =
      ((Text.quoteChars s.toList).map Cell.whole ++ [Cell.whole '"']).length := by
    rw [List.length_append, List.length_map, List.length_singleton, Nat.add_sub_cancel, Nat.add_comm]
  have hread : readQuoted ((Text.quoteChars s.toList).map Cell.whole ++ [Cell.whole '"'] ++ rest) =
      .token (.string s) ((Text.quoteChars s.toList).map Cell.whole ++ [Cell.whole '"']).length := by
    rw [List.append_assoc, List.singleton_append,
      readQuoted_string fun tail => quoteChars_ne_quotes hr, readString_quoteChars]
    simp only [String.ofList_toList, hlength]
  rw [htext]
  exact ⟨_, _, .lexeme hread, rfl⟩

/-! ## Numbers -/

theorem number {x : Double} (hx : x.isFinite = true) :
    Writes Delimits x.text (Literal.ofNumber x.text).terminals := by
  intro rest a hr
  obtain ⟨n, hn⟩ := Double.exists_numeral hx
  have htext : Source.ofString x.text = n.chars.map Cell.whole := by rw [Source.ofString, hn]
  have hlexeme : Source.toString (n.chars.map Cell.whole) = x.text := by
    rw [← htext, Source.toString_ofString]
  rw [htext]
  refine ⟨_, _, n.scans_numeral hr, ?_⟩
  rw [List.map_singleton, Token.terminal]
  show [n.kind.terminal (Source.toString (n.chars.map Cell.whole))] = _
  rw [hlexeme, Literal.ofNumber, hn, n.kind_eq]
  split <;> rfl

/-! ## Texts with separators -/

theorem intercalate {α : Type} {separator : String} {texts : List String} {as : List α}
    {terminals : α → List Terminal} {d : Char} {cs : List Char}
    (hs : Writes Anything separator []) (hd : separator.toList = d :: cs) (hm : d ∈ delimiters)
    (h : List.Forall₂ (fun text a => Writes Delimits text (terminals a)) texts as) :
    Writes Delimits (separator.intercalate texts) (as.flatMap terminals) := by
  induction h with
  | nil => exact empty
  | @cons text a texts as ht hts ih =>
    cases hts with
    | nil => simpa using ht
    | cons hu hus =>
      rw [String.intercalate_cons_cons, String.append_assoc, List.flatMap_cons]
      refine ht.append (hs.andThen ih) fun rest _ => ?_
      rw [ofString_append, Source.ofString, hd]
      exact delimits_cons hm

/-- A text that the end may follow has tokens with its terminals, and no fault. -/
theorem lex_to_end (h : Writes next s ws) (hn : next []) :
    (lex (Source.ofString s)).fault = none ∧
      (lex (Source.ofString s)).tokens.map Token.terminal = ws := by
  obtain ⟨ts, b, hs, ht⟩ := h [] ⟨[], Place.start⟩ hn
  have hl : lex (Source.ofString s) = ⟨ts, none⟩ := by
    have hl := hs.lexFrom 0
    simp only [List.append_nil] at hl
    rw [lex, hl, lexFrom]
    simp
  rw [hl]
  exact ⟨rfl, ht⟩

/-- A whole text has tokens with its terminals, and no fault. -/
theorem lex (h : Writes Anything s ws) : (lex (Source.ofString s)).fault = none ∧
    (GraphClient.lex (Source.ofString s)).tokens.map Token.terminal = ws := h.lex_to_end trivial

end Writes

end GraphClient
