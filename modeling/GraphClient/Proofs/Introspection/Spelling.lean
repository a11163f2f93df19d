import GraphClient.Proofs.Document.Bodies
import GraphClient.Proofs.Introspection.Meaning
import GraphClient.Proofs.Token.Spells

/-!
# What is written for introspection data

The text of each element spells the tokens of the element that it stands for: type references,
default values, arguments, descriptions, fields, enum values and lists of names. An element
whose reason of deprecation has a line break is written as a broken text.
-/

namespace GraphClient

namespace Introspection

open Grammar

/-! ## Types and values -/

theorem typeRef_spells (t : TypeRef) (h : IsName t.baseName) :
    Spells Delimits (Source.ofString t.render) (OfKinds t.kinds) := by
  induction t with
  | named n => exact .name h
  | list element ih =>
    have hl : Spells Delimits (Source.ofString element.render ++ Source.ofString "]")
        (OfKinds (element.kinds ++ [.punctuator .bracketR])) :=
      (ih h).kinds_append (.cons_punctuator rfl .nothing) fun _ _ => delimits_cons (by decide)
    rw [TypeRef.render, ofString_append, ofString_append, List.append_assoc]
    exact .cons_punctuator rfl hl
  | nonNull inner ih =>
    rw [TypeRef.render, ofString_append]
    exact (ih h).kinds_append (.cons_punctuator rfl .nothing) fun _ _ => delimits_cons (by decide)

theorem type_spells {j : Json} (h : IsName (elementType j).baseName) :
    Spells Delimits (Source.ofString (typeOf j)) (OfKinds (elementType j).kinds) := by
  rw [typeOf_eq]
  exact typeRef_spells _ h

theorem length_toString (cells : Source) :
    (Source.toString cells).toList.length = cells.length := by
  simp [Source.toString]

/-- The tokens of a constant make up its whole text. -/
theorem spelled_constant {s : String} (h : IsConstant s) :
    spelled (lex (Source.ofString s)).tokens = Source.ofString s := by
  obtain ⟨-, hf, hs, -⟩ := h
  obtain ⟨tail, ht⟩ : ∃ tail, spelled (lex (Source.ofString s)).tokens ++ tail =
      [] ++ Source.ofString s := lexFrom_spelled hf
  have hlen : (Source.ofString s).length = (bare (lex (Source.ofString s)).tokens).length := by
    rw [spanText_eq] at hs
    rw [← length_toString (bare _), hs]
    simp [Source.ofString]
  have hge : (bare (lex (Source.ofString s)).tokens).length ≤
      (spelled (lex (Source.ofString s)).tokens).length := by
    cases (lex (Source.ofString s)).tokens with
    | nil => exact Nat.le_refl _
    | cons t ts =>
      rw [spelled_cons, bare]
      simp only [List.length_append]
      omega
  have htail : tail.length = 0 := by
    have := congrArg List.length ht
    simp only [List.length_append, List.nil_append] at this
    omega
  rwa [List.length_eq_zero_iff.mp htail, List.append_nil, List.nil_append] at ht

theorem constant_spells {s : String} (h : IsConstant s) :
    Spells Delimits (Source.ofString s) fun ts => Literal (kindsOf ts) ∧ spanText ts = s := by
  have hsp := spelled_constant h
  obtain ⟨hl, hf, hs, hv⟩ := h
  intro rest spot hr
  obtain ⟨u, hu⟩ := scans_spelled hf hsp (Spells.oneLine_ofString hl) hr
  obtain ⟨us, u', hus, hk, hb, -⟩ := hu.move spot
  have hline : u'.place.line = spot.place.line :=
    hus.same_line fun c hc => Spells.not_isBreak (Spells.oneLine_ofString hl c hc)
  refine ⟨us, u', hus, hline, ?_, ?_⟩
  · rw [kindsOf, hk]
    exact hv
  · rw [spanText_eq, hb, ← spanText_eq]
    exact hs

/-! ## Arguments and input fields -/

theorem default_spells {j : Json} (h : ∀ s ∈ textOf? "defaultValue" j, IsConstant s) :
    Spells Delimits (Source.ofString (defaultClause j)) fun ts =>
      Default ts (textOf? "defaultValue" j) := by
  rw [defaultClause, textOf?] at *
  by_cases he : textOf "defaultValue" j = ""
  · simp only [if_pos he]
    exact .nil .none
  · simp only [if_neg he] at h ⊢
    have hfront : Spells Anything (Source.ofString " = ") (OfKinds [.punctuator .equals]) :=
      .cons_blank (.inl rfl) (.cons_punctuator rfl (.cons_blank (.inl rfl) .nothing))
    rw [ofString_append]
    refine (hfront.append (constant_spells (h _ rfl)) fun _ _ => trivial).imp ?_
    rintro ts ⟨us, vs, rfl, hu, hv, hs⟩
    obtain ⟨e, rfl, he⟩ := kindsOf_eq_singleton.mp hu
    rw [← hs]
    exact .value he hv

/-- The tokens of an input value, to which a description may be added. -/
def InputTokens (v : InputValueDef) (ts : List Token) : Prop :=
  ∀ ds d, Description ds d → InputValue (ds ++ ts) { v with description := d }

theorem delimits_default {j : Json} {rest : Source} (hr : Delimits rest) :
    Delimits (Source.ofString (defaultClause j) ++ rest) := by
  rw [defaultClause]
  split
  · exact hr
  · rw [ofString_append, List.append_assoc]
    exact delimits_cons (by decide)

theorem inputValue_spells {j : Json} (h : InputValueWellFormed j) :
    Spells Delimits (Source.ofString (inputValue j)) (InputTokens (argumentOf j)) := by
  have hname : Spells Anything (Source.ofString (textOf "name" j) ++ Source.ofString ": ")
      (OfKinds [.name (textOf "name" j), .punctuator .colon]) :=
    .cons_name h.name (.cons_punctuator rfl (.cons_blank (.inl rfl) .nothing)) fun _ _ =>
      delimits_cons (by decide)
  have htype : Spells Delimits (Source.ofString (textOf "name" j ++ ": " ++ typeOf j))
      (OfKinds (.name (textOf "name" j) :: .punctuator .colon :: (elementType j).kinds)) := by
    rw [ofString_append, ofString_append]
    exact hname.andThen (type_spells h.typeName)
  rw [inputValue, ofString_append]
  refine (htype.append (default_spells h.default) fun _ => delimits_default).imp ?_
  rintro ts ⟨us, vs, rfl, hu, hv⟩ ds d hd
  obtain ⟨t, ws, rfl, ht, hws⟩ := kindsOf_eq_cons.mp hu
  obtain ⟨colon, tys, rfl, hc, htys⟩ := kindsOf_eq_cons.mp hws
  have hx : InputValue (ds ++ t :: colon :: (tys ++ (vs ++ []))) _ :=
    .mk hd ht hc htys h.type hv .nil
  rwa [List.append_nil] at hx

theorem inputValues_spell {js : List Json} (h : ∀ j ∈ js, InputValueWellFormed j) :
    Spells Delimits (Source.ofString (", ".intercalate (js.map inputValue))) fun ts =>
      Many InputValue ts (js.map argumentOf) := by
  induction js with
  | nil => exact .nil .nil
  | cons j js ih =>
    have hj := inputValue_spells (h j List.mem_cons_self)
    have hjs := ih fun k hk => h k (List.mem_cons_of_mem j hk)
    cases js with
    | nil =>
      refine hj.imp fun ts ht => ?_
      have hm : Many InputValue (ts ++ []) [argumentOf j] := .cons (ht [] none .none) .nil
      rwa [List.append_nil] at hm
    | cons k js =>
      have hcomma : Spells Anything (Source.ofString ", ") (OfKinds []) :=
        .cons_blank (.inr rfl) (.cons_blank (.inl rfl) .nothing)
      rw [List.map_cons, List.map_cons, String.intercalate_cons_cons, ofString_append,
        ofString_append, List.append_assoc]
      refine (hj.append (hcomma.append hjs fun _ _ => trivial) fun _ _ =>
        delimits_cons (by decide)).imp ?_
      rintro ts ⟨us, vs, rfl, hu, ws, xs, rfl, hw, hx⟩
      rw [kindsOf_eq_nil.mp hw]
      exact .cons (hu [] none .none) hx

theorem arguments_spell {js : List Json} (h : ∀ j ∈ js, InputValueWellFormed j) :
    Spells Anything (Source.ofString ("(" ++ ", ".intercalate (js.map inputValue) ++ ")")) fun ts =>
      Arguments ts (js.map argumentOf) := by
  have hopen : Spells Anything (Source.ofString "(") (OfKinds [.punctuator .parenL]) :=
    .cons_punctuator rfl .nothing
  have hclose : Spells Anything (Source.ofString ")") (OfKinds [.punctuator .parenR]) :=
    .cons_punctuator rfl .nothing
  rw [ofString_append, ofString_append, List.append_assoc]
  refine (hopen.append ((inputValues_spell h).append hclose fun _ _ =>
    delimits_cons (by decide)) fun _ _ => trivial).imp ?_
  rintro ts ⟨us, vs, rfl, hu, ws, xs, rfl, hw, hx⟩
  obtain ⟨o, rfl, ho⟩ := kindsOf_eq_singleton.mp hu
  obtain ⟨c, rfl, hc⟩ := kindsOf_eq_singleton.mp hx
  exact .list ho hw hc

/-! ## Descriptions -/

/-- Quotes around an escaped text, in front of another text. -/
theorem ofString_quotes (b s : String) :
    Source.ofString ("\"" ++ escape s ++ ("\"" ++ b)) = quoted s ++ Source.ofString b := by
  have hq : Source.ofString "\"" = [.whole '"'] := rfl
  rw [ofString_append, ofString_append, ofString_append, hq, quoted]
  simp only [List.cons_append, List.nil_append, List.append_assoc]

/-- A description on the line of its element. -/
theorem line_spells {j : Json} (h : IsOneLine (textOf "description" j)) (indent : String) :
    Spells Anything (Source.ofString (describe indent j)) fun ts =>
      Description ts (readText (textOf "description" j)) := by
  have hn := not_contains_of_oneLine h
  simp only [describe, readText, hn, Bool.false_eq_true, if_false]
  by_cases he : textOf "description" j = ""
  · simp only [if_pos he]
    exact .nil .none
  · have hq : Spells Anything (quoted (textOf "description" j) ++ Source.ofString " ")
        (OfKinds ([.string (textOf "description" j)] ++ [])) :=
      (Spells.quoted h).kinds_append (.cons_blank (.inl rfl) .nothing) fun _ _ =>
        delimits_cons (by decide)
    have hblank : "\" " = "\"" ++ " " := rfl
    rw [if_neg he, hblank, ofString_quotes]
    refine hq.imp fun ts hts => ?_
    obtain ⟨t, rfl, hk⟩ := kindsOf_eq_singleton.mp hts
    exact .string (by rw [Token.string?, hk])

theorem ofString_block (text : List Char) (indent : String) :
    Source.ofString ("\"\"\"" ++ String.ofList (escapeBlock text) ++ "\"\"\"\n" ++ indent) =
      blockFront text ++ threeQuotes ++ ('\n' :: indent.toList).map .whole := by
  have hclose : Source.ofString "\"\"\"\n" = threeQuotes ++ [.whole '\n'] := rfl
  have htext : Source.ofString (String.ofList (escapeBlock text)) =
      (escapeBlock text).map .whole := by
    rw [Source.ofString, String.toList_ofList]
  rw [ofString_append, ofString_append, ofString_append, hclose, htext, blockFront]
  simp only [List.append_assoc, List.singleton_append, List.map_cons]
  rfl

/-- A description on lines of its own. -/
theorem lines_span {j : Json} {indent : String} (hi : indent.toList.all isIgnored = true)
    (hn : (textOf "description" j).toList.contains '\n' = true)
    (h : EndsClear (textOf "description" j).toList) :
    Spans (Source.ofString (describe indent j)) fun ts =>
      Description ts (readText (textOf "description" j)) := by
  have he : textOf "description" j ≠ "" := fun he => by
    rw [he] at hn
    cases hn
  simp only [describe, readText, hn, if_neg he, if_true]
  rw [ofString_block]
  have hblanks : ∀ c ∈ '\n' :: indent.toList, isIgnored c = true :=
    List.forall_mem_cons.mpr ⟨rfl, List.all_eq_true.mp hi⟩
  refine ((Spans.block h).append (Spans.blanks hblanks)).imp ?_
  rintro ts ⟨us, vs, rfl, hu, hv⟩
  obtain ⟨t, rfl, hk⟩ := kindsOf_eq_singleton.mp hu
  rw [kindsOf_eq_nil.mp hv]
  exact .string (by rw [Token.string?, hk])

/-- A description that ends where it is closed is read, and its element behind it. -/
theorem describe_spans {j : Json} {indent : String} (hi : indent.toList.all isIgnored = true)
    (h : Fits (textOf "description" j)) :
    Spans (Source.ofString (describe indent j)) fun ts =>
      Description ts (readText (textOf "description" j)) := by
  rw [Fits] at h
  split at h
  · rename_i hn
    exact lines_span hi hn h
  · exact .of_spells (line_spells h indent)

/-! ## Deprecation -/

theorem isName_deprecated : IsName "deprecated" := by decide

theorem isName_reason : IsName "reason" := by decide

/-- The mark of deprecation up to its reason. -/
theorem reason_spells : Spells Anything (Source.ofString " @deprecated(reason: ")
    (OfKinds [.punctuator .atSign, .name "deprecated", .punctuator .parenL, .name "reason",
      .punctuator .colon]) := by
  have hreason : Spells Anything (Source.ofString "reason" ++ Source.ofString ": ")
      (OfKinds [.name "reason", .punctuator .colon]) :=
    .cons_name isName_reason (.cons_punctuator rfl (.cons_blank (.inl rfl) .nothing)) fun _ _ =>
      delimits_cons (by decide)
  have hdeprecated : Spells Anything (Source.ofString "deprecated" ++ Source.ofString "(reason: ")
      (OfKinds [.name "deprecated", .punctuator .parenL, .name "reason", .punctuator .colon]) :=
    .cons_name isName_deprecated (.cons_punctuator rfl hreason) fun _ _ => delimits_cons (by decide)
  exact .cons_blank (.inl rfl) (.cons_punctuator rfl hdeprecated)

theorem ofString_reason (r : String) :
    Source.ofString (" @deprecated(reason: \"" ++ escape r ++ "\")") =
      Source.ofString " @deprecated(reason: " ++ (quoted r ++ Source.ofString ")") := by
  have hopen : " @deprecated(reason: \"" = " @deprecated(reason: " ++ "\"" := rfl
  have hclose : "\")" = "\"" ++ ")" := rfl
  rw [← ofString_quotes, ← ofString_append, hopen, hclose]
  simp only [String.append_assoc]

theorem deprecation_spells {j : Json} (h : ∀ r ∈ reason? j, IsOneLine r) :
    Spells Delimits (Source.ofString (deprecation j)) fun ts => Directives (kindsOf ts) := by
  rw [deprecation]
  rw [reason?] at h
  by_cases hd : j.isTrueMember "isDeprecated" = true
  · rw [if_pos hd] at h ⊢
    cases hr : j.stringMember? "deprecationReason" with
    | none =>
      have hs : Spells Delimits (Source.ofString " @deprecated")
          (OfKinds [.punctuator .atSign, .name "deprecated"]) :=
        .cons_blank (.inl rfl) (.cons_punctuator rfl (.name isName_deprecated))
      refine hs.imp fun ts ht => ?_
      rw [ht]
      exact .bare rfl .nil
    | some r =>
      have hq : Spells Delimits (quoted r ++ Source.ofString ")")
          (OfKinds ([.string r] ++ [.punctuator .parenR])) :=
        (Spells.quoted (h r hr)).kinds_append (.cons_punctuator rfl .nothing) fun _ _ =>
          delimits_cons (by decide)
      show Spells Delimits (Source.ofString (" @deprecated(reason: \"" ++ escape r ++ "\")")) _
      rw [ofString_reason]
      refine (reason_spells.andThen hq).imp fun ts ht => ?_
      rw [ht]
      exact @Directives.withArguments "deprecated"
        [.name "reason", .punctuator .colon, .string r] []
        rfl (.token rfl (.token rfl (.token rfl .nil))) .nil
  · rw [if_neg hd]
    exact .nil .nil

/-- A reason with a line break breaks the text, behind a blank. -/
theorem deprecation_breaks {j : Json} (h : ¬ ∀ r ∈ reason? j, IsOneLine r) :
    Breaks (Source.ofString (deprecation j)) ∧
      ∀ rest, Delimits (Source.ofString (deprecation j) ++ rest) := by
  rw [reason?] at h
  rw [deprecation]
  by_cases hd : j.isTrueMember "isDeprecated" = true
  · rw [if_pos hd] at h ⊢
    cases hr : j.stringMember? "deprecationReason" with
    | none => simp [hr] at h
    | some r =>
      have hl : ¬ IsOneLine r := fun hl => h fun s hs => by
        rw [hr] at hs
        cases hs
        exact hl
      simp only [ofString_reason]
      exact ⟨.after reason_spells (.append (.quoted hl)) fun _ => trivial,
        fun _ => delimits_cons (by decide)⟩
  · rw [if_neg hd] at h
    simp at h

theorem delimits_deprecation {j : Json} {rest : Source} (hr : Delimits rest) :
    Delimits (Source.ofString (deprecation j) ++ rest) := by
  rw [deprecation]
  split
  · split
    · rw [ofString_append, ofString_append, List.append_assoc, List.append_assoc]
      exact delimits_cons (by decide)
    · exact delimits_cons (by decide)
  · exact hr

/-! ## Fields and enum values -/

/-- The tokens of a field, to which a description may be added. -/
def FieldTokens (f : FieldDef) (ts : List Token) : Prop :=
  ∀ ds d, Description ds d → Field (ds ++ ts) { f with description := d }

/-- The tokens of an enum value, which may be named by a keyword. -/
def ValueTokens (ts : List Token) (v : EnumValueDef) : Prop :=
  ∃ ds t dirs, ts = ds ++ t :: dirs ∧ Description ds v.description ∧ t.kind = .name v.name ∧
    Directives (kindsOf dirs)

theorem signature_spells {j : Json} (h : FieldFormed j) :
    Spells Delimits (Source.ofString (signature j)) fun ts =>
      ∃ t us, ts = t :: us ∧ t.kind = .name (textOf "name" j) ∧
        Arguments us ((j.objectsMember "args").map argumentOf) := by
  rw [signature]
  cases ha : j.objectsMember "args" with
  | nil =>
    refine (Spells.name h.name).imp fun ts hts => ?_
    obtain ⟨t, rfl, ht⟩ := kindsOf_eq_singleton.mp hts
    exact ⟨t, [], rfl, ht, .none⟩
  | cons a as =>
    have hargs := arguments_spell fun b hb => h.args b hb
    rw [ha] at hargs
    have he : textOf "name" j ++ "(" ++ ", ".intercalate ((a :: as).map inputValue) ++ ")" =
        textOf "name" j ++ ("(" ++ ", ".intercalate ((a :: as).map inputValue) ++ ")") := by
      simp only [String.append_assoc]
    simp only [List.isEmpty_cons, Bool.false_eq_true, if_false]
    rw [he, ofString_append]
    refine (((Spells.name h.name).append hargs fun rest _ => ?_).imp ?_).weaken
    · rw [ofString_append, ofString_append, List.append_assoc, List.append_assoc]
      exact delimits_cons (by decide)
    · rintro ts ⟨us, vs, rfl, hu, hv⟩
      obtain ⟨t, rfl, ht⟩ := kindsOf_eq_singleton.mp hu
      exact ⟨t, vs, rfl, ht, hv⟩

/-- A field up to its mark of deprecation. -/
theorem typedField_spells {j : Json} (h : FieldFormed j) :
    Spells Delimits (Source.ofString (signature j ++ ": " ++ typeOf j)) fun ts =>
      ∃ t us colon tys, ts = t :: (us ++ colon :: tys) ∧ t.kind = .name (textOf "name" j) ∧
        Arguments us ((j.objectsMember "args").map argumentOf) ∧
        colon.kind = .punctuator .colon ∧ kindsOf tys = (elementType j).kinds := by
  have htype : Spells Delimits (Source.ofString (": " ++ typeOf j))
      (OfKinds (.punctuator .colon :: (elementType j).kinds)) := by
    rw [ofString_append]
    exact .cons_punctuator rfl (.cons_blank (.inl rfl) (type_spells h.typeName))
  rw [String.append_assoc, ofString_append]
  refine ((signature_spells h).append htype fun rest _ => ?_).imp ?_
  · rw [ofString_append, List.append_assoc]
    exact delimits_cons (by decide)
  · rintro ts ⟨us, vs, rfl, ⟨t, ws, rfl, ht, ha⟩, hv⟩
    obtain ⟨colon, tys, rfl, hc, htys⟩ := kindsOf_eq_cons.mp hv
    exact ⟨t, ws, colon, tys, rfl, ht, ha, hc, htys⟩

theorem field_spells {j : Json} (h : FieldFormed j) (hr : ∀ r ∈ reason? j, IsOneLine r) :
    Spells Delimits (Source.ofString (field j)) (FieldTokens (fieldOf j)) := by
  rw [field, ofString_append]
  refine ((typedField_spells h).append (deprecation_spells hr) fun _ =>
    delimits_deprecation).imp ?_
  rintro ts ⟨us, dirs, rfl, ⟨t, ws, colon, tys, rfl, ht, ha, hc, htys⟩, hdirs⟩ ds d hd
  have hf := Grammar.Field.mk hd ht ha hc htys h.type hdirs
  rwa [List.cons_append, List.append_assoc, List.cons_append]

theorem field_breaks {j : Json} (h : FieldFormed j) (hr : ¬ ∀ r ∈ reason? j, IsOneLine r) :
    Breaks (Source.ofString (field j)) := by
  obtain ⟨hb, hd⟩ := deprecation_breaks hr
  rw [field, ofString_append]
  exact .after (typedField_spells h) hb hd

theorem enumValue_spells {j : Json} (h : IsName (textOf "name" j))
    (hr : ∀ r ∈ reason? j, IsOneLine r) :
    Spells Delimits (Source.ofString (enumValue j)) fun ts =>
      ∃ t dirs, ts = t :: dirs ∧ t.kind = .name (textOf "name" j) ∧ Directives (kindsOf dirs) := by
  rw [enumValue, ofString_append]
  refine ((Spells.name h).append (deprecation_spells hr) fun _ => delimits_deprecation).imp ?_
  rintro ts ⟨us, dirs, rfl, hu, hdirs⟩
  obtain ⟨t, rfl, ht⟩ := kindsOf_eq_singleton.mp hu
  exact ⟨t, dirs, rfl, ht, hdirs⟩

theorem enumValue_breaks {j : Json} (h : IsName (textOf "name" j))
    (hr : ¬ ∀ r ∈ reason? j, IsOneLine r) : Breaks (Source.ofString (enumValue j)) := by
  obtain ⟨hb, hd⟩ := deprecation_breaks hr
  rw [enumValue, ofString_append]
  exact .after (.name h) hb hd

/-! ## Lists of names -/

theorem names_spell {p : Punctuator} {between : String} {n : String} {ns : List String}
    (hb : Spells Anything (Source.ofString between) (OfKinds [.punctuator p]))
    (hd : ∀ rest, Delimits (Source.ofString between ++ rest)) (h : ∀ m ∈ n :: ns, IsName m) :
    Spells Delimits (Source.ofString (between.intercalate (n :: ns)))
      (OfKinds (separated p (n :: ns))) := by
  induction ns generalizing n with
  | nil => exact .name (h n List.mem_cons_self)
  | cons m ns ih =>
    have hrest := ih fun l hl => h l (List.mem_cons_of_mem n hl)
    rw [String.intercalate_cons_cons, ofString_append, ofString_append, List.append_assoc]
    refine (Spells.name (h n List.mem_cons_self)).kinds_append (hb.andThen hrest) fun rest _ => ?_
    rw [List.append_assoc]
    exact hd _

theorem interfaces_spell {j : Json} (h : ∀ n ∈ namesIn "interfaces" j, IsName n) :
    Spells Delimits (Source.ofString (interfaces j)) fun ts =>
      NamesBehind (.name "implements") .amp (kindsOf ts) := by
  have hi : interfaces j = if (namesIn "interfaces" j).isEmpty then "" else
      " implements " ++ " & ".intercalate (namesIn "interfaces" j) := rfl
  rw [hi]
  cases hn : namesIn "interfaces" j with
  | nil => exact .nil (.inl rfl)
  | cons n ns =>
    rw [hn] at h
    have hamp : Spells Anything (Source.ofString " & ") (OfKinds [.punctuator .amp]) :=
      .cons_blank (.inl rfl) (.cons_punctuator rfl (.cons_blank (.inl rfl) .nothing))
    have hname : IsName "implements" := by decide
    have himp : Spells Anything (Source.ofString "implements" ++ Source.ofString " ")
        (OfKinds [.name "implements"]) :=
      .cons_name hname (.cons_blank (.inl rfl) .nothing) fun _ _ => delimits_cons (by decide)
    have hfront : Spells Anything (Source.ofString " implements ") (OfKinds [.name "implements"]) :=
      .cons_blank (.inl rfl) himp
    simp only [List.isEmpty_cons, Bool.false_eq_true, if_false]
    rw [ofString_append]
    refine (hfront.andThen (names_spell hamp (fun _ => delimits_cons (by decide)) h)).imp ?_
    intro ts hts
    exact .inr ⟨_, hts, n, ns, .inl rfl⟩

theorem delimits_interfaces {j : Json} {rest : Source} (hr : Delimits rest) :
    Delimits (Source.ofString (interfaces j) ++ rest) := by
  rw [interfaces]
  split
  · exact hr
  · rw [ofString_append, List.append_assoc]
    exact delimits_cons (by decide)

/-- Names between bars behind an equals sign. -/
theorem alternatives_spell {ns : List String} (h : ∀ n ∈ ns, IsName n) :
    Spells Delimits (Source.ofString (" = " ++ " | ".intercalate ns))
      (OfKinds (.punctuator .equals :: separated .pipe ns)) := by
  have hfront : Spells Anything (Source.ofString " = ") (OfKinds [.punctuator .equals]) :=
    .cons_blank (.inl rfl) (.cons_punctuator rfl (.cons_blank (.inl rfl) .nothing))
  have hbar : Spells Anything (Source.ofString " | ") (OfKinds [.punctuator .pipe]) :=
    .cons_blank (.inl rfl) (.cons_punctuator rfl (.cons_blank (.inl rfl) .nothing))
  rw [ofString_append]
  cases ns with
  | nil => exact hfront.andThen .nothing
  | cons n ns => exact hfront.andThen (names_spell hbar (fun _ => delimits_cons (by decide)) h)

/-- The members of a union behind its name. -/
theorem members_spell {j : Json} (h : ∀ n ∈ namesIn "possibleTypes" j, IsName n)
    (hne : namesIn "possibleTypes" j ≠ []) :
    Spells Delimits (Source.ofString (" = " ++ " | ".intercalate (namesIn "possibleTypes" j)))
      fun ts => NamesBehind (.punctuator .equals) .pipe (kindsOf ts) := by
  obtain ⟨n, ns, hn⟩ := List.exists_cons_of_ne_nil hne
  refine (alternatives_spell h).imp fun ts hts => ?_
  rw [hn] at hts
  exact .inr ⟨_, hts, n, ns, .inl rfl⟩

end Introspection

end GraphClient
