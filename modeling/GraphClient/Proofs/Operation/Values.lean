import GraphClient.Proofs.Document.Definitions
import GraphClient.Proofs.Document.Parts
import GraphClient.Proofs.Double.ReadBack
import GraphClient.Proofs.Operation.ReadBack

/-!
# The literal of a value means the value

A value is rendered unless a number in it is not finite (`rejected?_render`). The text of a
`Writable` value is one literal: it is tokenised without a fault, skipping a value takes its tokens
and no others, and of all literals only one has them. That literal decodes to the value
(`value?_literal`), the signs of zeros apart, and so values with one text differ in those at most
(`render_faithful`).
-/

namespace GraphClient

open Executable

namespace Value

variable {α β : Type} {v w : Value}

/-! ## Numbers without a literal -/

mutual

/-- The numbers in a value, at any depth, in the order of its text. -/
def numbers : Value → List Double
  | number x => [x]
  | list items => itemNumbers items
  | object fields => fieldNumbers fields
  | null | bool _ | string _ | enum _ => []

def itemNumbers : List Value → List Double
  | [] => []
  | v :: vs => numbers v ++ itemNumbers vs

def fieldNumbers : List (String × Value) → List Double
  | [] => []
  | (_, v) :: rest => numbers v ++ fieldNumbers rest

end

/-- The number for which nothing was rendered. -/
def rejected? : Except NotFinite α → Option NotFinite
  | .ok _ => none
  | .error e => some e

/-- What is rendered first is rejected first. -/
theorem rejected?_bind {x : Except NotFinite α} {f : α → Except NotFinite β} {r : Option NotFinite}
    (h : ∀ a, rejected? (f a) = r) : rejected? (x >>= f) = (rejected? x).or r := by
  cases x with
  | error e => rfl
  | ok a => exact h a

theorem rejected?_return {x : Except NotFinite α} {f : α → β} :
    rejected? (do let a ← x; return f a) = rejected? x := by
  cases x <;> rfl

/-- The first number that is not finite. -/
def firstNotFinite? (xs : List Double) : Option NotFinite :=
  (xs.find? fun x => !x.isFinite).map .mk

theorem firstNotFinite?_append (xs ys : List Double) :
    firstNotFinite? (xs ++ ys) = (firstNotFinite? xs).or (firstNotFinite? ys) := by
  rw [firstNotFinite?, List.find?_append, Option.map_or]
  rfl

mutual

/-- A value is rejected for its first number that is not finite, and for nothing else. -/
theorem rejected?_render : (v : Value) → rejected? v.render = firstNotFinite? v.numbers
  | null | bool true | bool false | string _ | enum _ => rfl
  | number x => by
    rw [render, numbers, firstNotFinite?]
    cases hx : x.isFinite <;> simp [hx, rejected?]
  | list items => by
    rw [render, numbers, ← rejected?_renderItems items]
    exact rejected?_return
  | object fields => by
    rw [render, numbers, ← rejected?_renderFields fields]
    exact rejected?_return

theorem rejected?_renderItems :
    (vs : List Value) → rejected? (renderItems vs) = firstNotFinite? (itemNumbers vs)
  | [] => rfl
  | v :: vs => by
    rw [renderItems, itemNumbers, firstNotFinite?_append, ← rejected?_render v,
      ← rejected?_renderItems vs]
    exact rejected?_bind fun _ => rejected?_return

theorem rejected?_renderFields : (fs : List (String × Value)) →
    rejected? (renderFields fs) = firstNotFinite? (fieldNumbers fs)
  | [] => rfl
  | (_, v) :: fs => by
    rw [renderFields, fieldNumbers, firstNotFinite?_append, ← rejected?_render v,
      ← rejected?_renderFields fs]
    exact rejected?_bind fun _ => rejected?_return

end

theorem render_error_iff :
    (∃ e, v.render = .error e) ↔ ∃ x ∈ v.numbers, x.isFinite = false := by
  have hr : (∃ e, v.render = .error e) ↔ (rejected? v.render).isSome = true := by
    cases v.render <;> simp [rejected?]
  rw [hr, rejected?_render, firstNotFinite?, Option.isSome_map, List.find?_isSome]
  simp

/-! ## Zeros without their signs -/

mutual

/-- The same value, with zeros that have no sign. -/
def unsignedZeros : Value → Value
  | number x => number x.unsignedZero
  | list items => list (itemsUnsigned items)
  | object fields => object (fieldsUnsigned fields)
  | v => v

def itemsUnsigned : List Value → List Value
  | [] => []
  | v :: vs => unsignedZeros v :: itemsUnsigned vs

def fieldsUnsigned : List (String × Value) → List (String × Value)
  | [] => []
  | (name, v) :: rest => (name, unsignedZeros v) :: fieldsUnsigned rest

end

mutual

/-- The sign of a zero is not rendered. -/
theorem render_unsignedZeros : (v : Value) → v.unsignedZeros.render = v.render
  | null | bool _ | string _ | enum _ => rfl
  | number x => by
    rw [unsignedZeros, render, render, Double.unsignedZero]
    split
    · rename_i hx
      rw [if_pos (Double.isFinite_of_isZero hx), Double.text_zero hx]
      rfl
    · rfl
  | list items => by rw [unsignedZeros, render, render, renderItems_unsigned items]
  | object fields => by rw [unsignedZeros, render, render, renderFields_unsigned fields]

theorem renderItems_unsigned :
    (vs : List Value) → renderItems (itemsUnsigned vs) = renderItems vs
  | [] => rfl
  | v :: vs => by
    rw [itemsUnsigned, renderItems, renderItems, render_unsignedZeros v, renderItems_unsigned vs]

theorem renderFields_unsigned :
    (fs : List (String × Value)) → renderFields (fieldsUnsigned fs) = renderFields fs
  | [] => rfl
  | (_, v) :: fs => by
    rw [fieldsUnsigned, renderFields, renderFields, render_unsignedZeros v,
      renderFields_unsigned fs]

end

end Value

/-! ## Decoding -/

namespace Executable.Literal

mutual

/-- The value that a literal without variables stands for. -/
def value? : Literal → Option Value
  | var _ => none
  | int text | float text => (Double.ofText? text).map .number
  | string value | blockString value => some (.string value)
  | bool value => some (.bool value)
  | null => some .null
  | enum name => some (.enum name)
  | list items => (itemValues? items).map .list
  | object fields => (fieldValues? fields).map .object

def itemValues? : List Literal → Option (List Value)
  | [] => some []
  | l :: ls => do return (← value? l) :: (← itemValues? ls)

def fieldValues? : List (String × Literal) → Option (List (String × Value))
  | [] => some []
  | (name, l) :: rest => do return (name, ← value? l) :: (← fieldValues? rest)

end

end Executable.Literal

namespace Value

variable {v w : Value}

theorem itemValues?_literals {vs : List Value}
    (h : ∀ v ∈ vs, v.literal.value? = some v.unsignedZeros) :
    Literal.itemValues? (itemLiterals vs) = some (itemsUnsigned vs) := by
  induction vs with
  | nil => rfl
  | cons v vs ih =>
    rw [List.forall_mem_cons] at h
    rw [itemLiterals, Literal.itemValues?, h.1, ih h.2]
    rfl

theorem fieldValues?_literals {fs : List (String × Value)}
    (h : ∀ f ∈ fs, f.2.literal.value? = some f.2.unsignedZeros) :
    Literal.fieldValues? (fieldLiterals fs) = some (fieldsUnsigned fs) := by
  induction fs with
  | nil => rfl
  | cons f fs ih =>
    rw [List.forall_mem_cons] at h
    rw [fieldLiterals, Literal.fieldValues?, h.1, ih h.2]
    rfl

/-- The literal of a value decodes to it. -/
theorem value?_literal (h : v.Writable) : v.literal.value? = some v.unsignedZeros := by
  induction h with
  | null | bool _ | string _ => rfl
  | @number x hx =>
    have hd : (Literal.ofNumber x.text).value? = (Double.ofText? x.text).map .number := by
      unfold Literal.ofNumber
      split <;> rfl
    rw [literal, hd, Double.ofText?_text hx]
    rfl
  | enum _ hn =>
    rw [literal, dif_pos hn]
    rfl
  | list _ ih =>
    rw [literal, Literal.value?, itemValues?_literals ih]
    rfl
  | object _ _ ih =>
    rw [literal, Literal.value?, fieldValues?_literals ih]
    rfl

end Value

/-! ## The tokens of a literal -/

/-- The kind of token that a terminal is. -/
def Terminal.kind : Terminal → TokenKind
  | punctuator p => .punctuator p
  | name n => .name n
  | int _ => .int
  | float _ => .float
  | string value => .string value
  | blockString value => .blockString value

theorem Token.kind_terminal (t : Token) : t.terminal.kind = t.kind := by
  unfold terminal
  cases t.kind <;> rfl

theorem kindsOf_eq_terminals (ts : List Token) :
    kindsOf ts = (ts.map Token.terminal).map Terminal.kind := by
  rw [List.map_map]
  exact List.map_congr_left fun t _ => (Token.kind_terminal t).symm

namespace Executable.Literal

mutual

/-- The brackets of a literal are properly nested. -/
theorem balanced : (l : Literal) → Balanced (l.terminals.map Terminal.kind)
  | var _ => .token rfl (.single rfl)
  | int _ | float _ | string _ | blockString _ | bool _ | null | enum _ => .single rfl
  | list items => by
    rw [terminals, List.map_cons, List.map_append]
    exact .enclosed .brackets (balanced_items items)
  | object fields => by
    rw [terminals, List.map_cons, List.map_append]
    exact .enclosed .braces (balanced_fields fields)

theorem balanced_items : (ls : List Literal) → Balanced ((itemTerminals ls).map Terminal.kind)
  | [] => .nil
  | l :: ls => by
    rw [itemTerminals, List.map_append]
    exact (balanced l).append (balanced_items ls)

theorem balanced_fields :
    (fs : List (String × Literal)) → Balanced ((fieldTerminals fs).map Terminal.kind)
  | [] => .nil
  | (_, l) :: fs => by
    rw [fieldTerminals, List.map_cons, List.map_cons, List.map_append]
    exact .token rfl (.token rfl ((balanced l).append (balanced_fields fs)))

end

/-- The tokens of a literal are those of a value of a document. -/
theorem grammar (l : Literal) : Grammar.Literal (l.terminals.map Terminal.kind) := by
  cases l with
  | var n => exact .dollar n
  | int => exact .int
  | float => exact .float
  | string value => exact .string value
  | blockString value => exact .blockString value
  | bool => exact .name _
  | null => exact .name _
  | enum => exact .name _
  | list items =>
    rw [terminals, List.map_cons, List.map_append]
    exact .list (balanced_items items)
  | object fields =>
    rw [terminals, List.map_cons, List.map_append]
    exact .object (balanced_fields fields)

theorem terminals_inj {l m : Literal} (h : l.terminals = m.terminals) : l = m := by
  refine (literal_readsOff l m [] [] avoids_none avoids_none ?_).1
  rw [h]

end Executable.Literal

namespace Value

variable {v w : Value}

/-- The text of a value has the tokens of its literal. -/
theorem render_lex (h : v.Writable) : ∃ text, v.render = .ok text ∧
    (lex (Source.ofString text)).fault = none ∧
    (lex (Source.ofString text)).tokens.map Token.terminal = v.literal.terminals := by
  obtain ⟨text, hr, hw⟩ := render_writes h
  exact ⟨text, hr, hw.lex_to_end delimits_nil⟩

/-- Rendering fails for values with numbers that are not finite, and for no others. The text of a
value with names for its enum values and fields is one literal, which is taken as a value wherever it
stands and decodes to that value, except that a zero loses its sign; so two such values have one text
only if they differ in the signs of zeros at most. -/
theorem render_faithful (v : Value) :
    ((∃ e, v.render = .error e) ↔ ∃ x ∈ v.numbers, x.isFinite = false) ∧
      (v.Writable → ∃ text, v.render = .ok text ∧
        (lex (Source.ofString text)).fault = none ∧
        (∀ line rest,
          Parse.Reads Parse.anyValue line (lex (Source.ofString text)).tokens rest ()) ∧
        (∃ l : Literal, l.value? = some v.unsignedZeros ∧
          ∀ m : Literal, m.terminals = (lex (Source.ofString text)).tokens.map Token.terminal ↔
            m = l) ∧
        ∀ w : Value, w.Writable → (w.render = .ok text ↔ w.unsignedZeros = v.unsignedZeros)) := by
  refine ⟨render_error_iff, fun h => ?_⟩
  obtain ⟨text, hr, hfault, hterminals⟩ := render_lex h
  refine ⟨text, hr, hfault, fun line rest => Parse.anyValue_reads ?_,
    ⟨v.literal, value?_literal h, fun m => ?_⟩, fun w hw => ⟨fun he => ?_, fun he => ?_⟩⟩
  · rw [kindsOf_eq_terminals, hterminals]
    exact v.literal.grammar
  · rw [hterminals]
    exact ⟨Literal.terminals_inj, congrArg Literal.terminals⟩
  · obtain ⟨text', hr', -, hterminals'⟩ := render_lex hw
    obtain rfl : text' = text := Except.ok.inj (hr'.symm.trans he)
    have hl : w.literal = v.literal := Literal.terminals_inj (hterminals'.symm.trans hterminals)
    have hd := value?_literal hw
    rw [hl, value?_literal h] at hd
    exact (Option.some.inj hd).symm
  · rw [← render_unsignedZeros w, he, render_unsignedZeros, hr]

/-- Bugs that mention some text, in a range from a negative zero on. -/
def bugFilter : Value :=
  .object [("kind", .enum "BUG"), ("texts", .list [.string "say \"hi\"\n", .null]),
    ("range", .list [.number ⟨0x8000000000000000⟩, .number ⟨0x3FF8000000000000⟩])]

def bugText : String :=
  "\x7bkind: BUG, texts: [\"say \\\"hi\\\"\\n\", null], range: [0, 1.5]\x7d"

theorem writable_bugFilter : bugFilter.Writable := by
  have htexts : (list [.string "say \"hi\"\n", .null]).Writable := by
    refine .list ?_
    simp only [List.forall_mem_cons]
    exact ⟨.string _, .null, nofun⟩
  have hrange : (list [.number ⟨0x8000000000000000⟩, .number ⟨0x3FF8000000000000⟩]).Writable := by
    refine .list ?_
    simp only [List.forall_mem_cons]
    exact ⟨.number (by decide), .number (by decide), nofun⟩
  refine .object (by decide) ?_
  simp only [List.forall_mem_cons]
  exact ⟨.enum (by decide) (by decide), htexts, hrange, nofun⟩

theorem render_bugFilter : bugFilter.render = .ok bugText := by decide +kernel

/-- The filter is read back from its text with a zero that has no sign; beside an infinity it is
not rendered. -/
theorem render_faithful_bugs :
    (∃ e, (list [bugFilter, .number .infinity]).render = .error e) ∧
      bugFilter.Writable ∧ bugFilter.render = .ok bugText ∧
        (lex (Source.ofString bugText)).fault = none ∧
        (∀ line rest,
          Parse.Reads Parse.anyValue line (lex (Source.ofString bugText)).tokens rest ()) ∧
        (∃ l : Literal, l.value? = some (.object [("kind", .enum "BUG"),
            ("texts", .list [.string "say \"hi\"\n", .null]),
            ("range", .list [.number ⟨0⟩, .number ⟨0x3FF8000000000000⟩])]) ∧
          ∀ m : Literal,
            m.terminals = (lex (Source.ofString bugText)).tokens.map Token.terminal ↔ m = l) ∧
        ∀ w : Value, w.Writable →
          (w.render = .ok bugText ↔ w.unsignedZeros = bugFilter.unsignedZeros) := by
  have hinfinity : Double.infinity ∈ (list [bugFilter, .number .infinity]).numbers := by decide
  obtain ⟨text, hr, hrest⟩ := (render_faithful bugFilter).2 writable_bugFilter
  obtain rfl : text = bugText := Except.ok.inj (hr.symm.trans render_bugFilter)
  exact ⟨(render_faithful _).1.mpr ⟨_, hinfinity, rfl⟩, writable_bugFilter, hr, hrest⟩

end Value

end GraphClient
