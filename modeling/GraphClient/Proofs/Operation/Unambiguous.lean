import GraphClient.Proofs.Operation.Grammar

/-!
# The grammar of operations is unambiguous

`ReadsOff terminals next a`: wherever the terminals of `a` stand in front of what `next` allows,
they are the front terminals of `a` only, and end in one place. What `next` says is which
punctuators may not follow (`Avoids`): those that would continue `a`. Each part of the grammar is
read off in front of what the grammar puts behind it, so a document is determined by its
terminals (`terminals_inj`).
-/

namespace GraphClient.Executable

/-- Terminals that begin with none of some punctuators. -/
def Avoids (ps : List Punctuator) (r : List Terminal) : Prop :=
  ∀ p ∈ ps, r.head? ≠ some (.punctuator p)

section Avoids

variable {ps qs : List Punctuator} {r : List Terminal}

theorem avoids_none : Avoids [] r := fun _ hp => absurd hp List.not_mem_nil

theorem avoids_punctuator {q : Punctuator} (h : q ∉ ps) : Avoids ps (.punctuator q :: r) := by
  intro p hp he
  cases he
  exact h hp

theorem Avoids.mono (h : Avoids ps r) (hq : ∀ p ∈ qs, p ∈ ps) : Avoids qs r :=
  fun p hp => h p (hq p hp)

theorem Avoids.ne (h : Avoids ps r) {p : Punctuator} (hp : p ∈ ps) {s : List Terminal} :
    r ≠ .punctuator p :: s := by
  rintro rfl
  exact h p hp rfl

end Avoids

section ReadsOff

variable {α : Type} {terminals : α → List Terminal} {ps : List Punctuator} {as : List α}
  {o c : Punctuator}

def ReadsOff (terminals : α → List Terminal) (next : List Terminal → Prop) (a : α) : Prop :=
  ∀ (b : α) (r s : List Terminal), next r → next s → terminals a ++ r = terminals b ++ s →
    a = b ∧ r = s

/-- Every element has terminals, and they begin with none of some punctuators. -/
def Begins (ps : List Punctuator) (terminals : α → List Terminal) : Prop :=
  ∀ a, ∃ t ts, terminals a = t :: ts ∧ ∀ p ∈ ps, t ≠ .punctuator p

theorem Begins.avoids (h : Begins ps terminals) (a : α) (r : List Terminal) :
    Avoids ps (terminals a ++ r) := by
  obtain ⟨t, ts, ha, ht⟩ := h a
  rw [ha]
  exact fun p hp he => ht p hp (Option.some.inj he)

theorem Begins.mono {qs : List Punctuator} (h : Begins ps terminals) (hq : ∀ p ∈ qs, p ∈ ps) :
    Begins qs terminals := fun a =>
  have ⟨t, ts, ha, ht⟩ := h a
  ⟨t, ts, ha, fun p hp => ht p (hq p hp)⟩

/-- No element begins as the text does. -/
def Ends (terminals : α → List Terminal) (r : List Terminal) : Prop :=
  ∀ a s, r ≠ terminals a ++ s

theorem Begins.ends (h : Begins ps terminals) {r : List Terminal} {p : Punctuator} (hp : p ∈ ps) :
    Ends terminals (.punctuator p :: r) := by
  intro a s he
  obtain ⟨t, ts, ha, ht⟩ := h a
  rw [ha] at he
  exact ht p hp (List.cons.inj he).1.symm

theorem Begins.ends_nil (h : Begins ps terminals) : Ends terminals [] := by
  intro a s he
  obtain ⟨t, ts, ha, -⟩ := h a
  rw [ha] at he
  cases he

theorem avoids_flatMap (h : Begins ps terminals) {r : List Terminal} (hr : Avoids ps r) :
    Avoids ps (as.flatMap terminals ++ r) := by
  cases as with
  | nil => exact hr
  | cons a as =>
    rw [List.flatMap_cons, List.append_assoc]
    exact h.avoids a _

/-- Elements one after the other, up to where none begins. -/
theorem flatMap_readsOff (h : ∀ a ∈ as, ReadsOff terminals (Avoids ps) a)
    (hb : Begins ps terminals) :
    ReadsOff (List.flatMap terminals) (fun r => Avoids ps r ∧ Ends terminals r) as := by
  induction as with
  | nil =>
    intro bs r s hr hs he
    cases bs with
    | nil => exact ⟨rfl, he⟩
    | cons b bs =>
      rw [List.flatMap_cons, List.append_assoc] at he
      exact absurd he (hr.2 b _)
  | cons a as ih =>
    intro bs r s hr hs he
    rw [List.flatMap_cons, List.append_assoc] at he
    cases bs with
    | nil => exact absurd he.symm (hs.2 a _)
    | cons b bs =>
      rw [List.flatMap_cons, List.append_assoc] at he
      obtain ⟨rfl, hrest⟩ := h a List.mem_cons_self b _ _ (avoids_flatMap hb hr.1)
        (avoids_flatMap hb hs.1) he
      obtain ⟨rfl, rfl⟩ := ih (fun d hd => h d (List.mem_cons_of_mem a hd)) bs r s hr hs hrest
      exact ⟨rfl, rfl⟩

theorem bracketed_readsOff (h : ∀ a ∈ as, ReadsOff terminals (Avoids ps) a)
    (hb : Begins (c :: ps) terminals) (hc : c ∉ ps) :
    ReadsOff (bracketed o c terminals) (Avoids []) as := by
  intro bs r s _ _ he
  have next : ∀ r, Avoids ps (.punctuator c :: r) ∧ Ends terminals (.punctuator c :: r) :=
    fun r => ⟨avoids_punctuator hc, hb.ends List.mem_cons_self⟩
  simp only [bracketed, List.cons_append, List.append_assoc, List.nil_append] at he
  obtain ⟨rfl, hrest⟩ := flatMap_readsOff h (hb.mono fun p hp => List.mem_cons_of_mem c hp) bs _ _
    (next r) (next s) (List.cons.inj he).2
  exact ⟨rfl, (List.cons.inj hrest).2⟩

theorem group_readsOff (h : ∀ a ∈ as, ReadsOff terminals (Avoids ps) a)
    (hb : Begins (c :: ps) terminals) (hc : c ∉ ps) :
    ReadsOff (group o c terminals) (Avoids [o]) as := by
  intro bs r s hr hs he
  cases as with
  | nil =>
    cases bs with
    | nil => exact ⟨rfl, he⟩
    | cons b bs => exact absurd he (hr.ne List.mem_cons_self)
  | cons a as =>
    cases bs with
    | nil => exact absurd he.symm (hs.ne List.mem_cons_self)
    | cons b bs => exact bracketed_readsOff h hb hc (b :: bs) r s avoids_none avoids_none he

theorem avoids_group {r : List Terminal} (ho : o ∉ ps) (hr : Avoids ps r) :
    Avoids ps (group o c terminals as ++ r) := by
  cases as with
  | nil => exact hr
  | cons a as => exact avoids_punctuator ho

end ReadsOff

/-! ## Values -/

theorem begins_literal : Begins [.bracketR] Literal.terminals := by
  intro v
  cases v <;> exact ⟨_, _, rfl, by simp⟩

theorem begins_argument {ps : List Punctuator} : Begins ps argumentTerminals :=
  fun a => ⟨_, _, rfl, fun p _ => by simp⟩

theorem argument_readsOff {a : String × Literal}
    (h : ReadsOff Literal.terminals (Avoids []) a.2) :
    ReadsOff argumentTerminals (Avoids []) a := by
  intro b r s hr hs he
  simp only [argumentTerminals, List.cons_append, List.cons.injEq, Terminal.name.injEq] at he
  obtain ⟨hname, -, he⟩ := he
  obtain ⟨hvalue, rfl⟩ := h b.2 r s hr hs he
  exact ⟨Prod.ext hname hvalue, rfl⟩

/-- The name that a value is. -/
def Literal.word? : Literal → Option String
  | bool value => some (if value then "true" else "false")
  | null => some "null"
  | enum name => some name
  | _ => none

theorem Literal.word?_inj {v w : Literal} {n : String} (hv : v.word? = some n)
    (hw : w.word? = some n) : v = w := by
  -- No enum value has the word of another one as its name.
  have henum : ∀ m : { n : String // n ∉ valueWords }, m.1 ≠ "true" ∧ m.1 ≠ "false" ∧
      m.1 ≠ "null" := fun m => by simpa [valueWords] using m.2
  cases v <;> cases w <;> simp only [word?, Option.some.injEq, reduceCtorEq] at hv hw
  case enum.enum => rw [Subtype.ext (hv.trans hw.symm)]
  all_goals grind

theorem word_readsOff {v : Literal} {n : String} (hv : v.word? = some n) :
    ReadsOff Literal.terminals (Avoids []) v := by
  have ht : v.terminals = [.name n] := by
    cases v <;> simp_all [Literal.word?, Literal.terminals]
  intro w r s _ _ he
  rw [ht] at he
  have hw : w.word? = some n ∧ r = s := by
    cases w <;> simp_all [Literal.word?, Literal.terminals]
  exact ⟨Literal.word?_inj hv hw.1, hw.2⟩

mutual

theorem literal_readsOff : (v : Literal) → ReadsOff Literal.terminals (Avoids []) v
  | .var _ | .int _ | .float _ | .string _ | .blockString _ => by
    intro b r s _ _ he
    cases b <;> simp_all [Literal.terminals]
  | .bool _ => word_readsOff rfl
  | .null => word_readsOff rfl
  | .enum _ => word_readsOff rfl
  | .list items => by
    intro b r s hr hs he
    cases b with
    | list others =>
      rw [Literal.terminals_list, Literal.terminals_list] at he
      obtain ⟨rfl, rfl⟩ := bracketed_readsOff (items_readsOff items) begins_literal
        List.not_mem_nil others r s hr hs he
      exact ⟨rfl, rfl⟩
    | _ => simp [Literal.terminals] at he
  | .object fields => by
    intro b r s hr hs he
    cases b with
    | object others =>
      rw [Literal.terminals_object, Literal.terminals_object] at he
      obtain ⟨rfl, rfl⟩ := bracketed_readsOff
        (fun f hf => argument_readsOff (fields_readsOff fields f hf)) begins_argument
        List.not_mem_nil others r s hr hs he
      exact ⟨rfl, rfl⟩
    | _ => simp [Literal.terminals] at he

theorem items_readsOff : (vs : List Literal) →
    ∀ v ∈ vs, ReadsOff Literal.terminals (Avoids []) v
  | [] => fun _ h => absurd h List.not_mem_nil
  | v :: vs => List.forall_mem_cons.mpr ⟨literal_readsOff v, items_readsOff vs⟩

theorem fields_readsOff : (fs : List (String × Literal)) →
    ∀ f ∈ fs, ReadsOff Literal.terminals (Avoids []) f.2
  | [] => fun _ h => absurd h List.not_mem_nil
  | (_, v) :: fs => List.forall_mem_cons.mpr ⟨literal_readsOff v, fields_readsOff fs⟩

end

theorem arguments_readsOff (as : Arguments) : ReadsOff Arguments.terminals (Avoids [.parenL]) as :=
  group_readsOff (fun a _ => argument_readsOff (literal_readsOff a.2)) begins_argument
    List.not_mem_nil

theorem default_readsOff (v : Option Literal) :
    ReadsOff defaultTerminals (Avoids [.equals]) v := by
  intro w r s hr hs he
  cases v with
  | none =>
    cases w with
    | none => exact ⟨rfl, he⟩
    | some w => exact absurd he (hr.ne List.mem_cons_self)
  | some v =>
    cases w with
    | none => exact absurd he.symm (hs.ne List.mem_cons_self)
    | some w =>
      obtain ⟨rfl, rfl⟩ := literal_readsOff v w r s avoids_none avoids_none (List.cons.inj he).2
      exact ⟨rfl, rfl⟩

/-! ## Directives -/

theorem begins_directive {ps : List Punctuator} (h : .atSign ∉ ps) :
    Begins ps Directive.terminals := by
  refine fun d => ⟨_, _, rfl, fun p hp he => ?_⟩
  cases he
  exact h hp

theorem directive_readsOff (d : Directive) :
    ReadsOff Directive.terminals (Avoids [.parenL]) d := by
  intro e r s hr hs he
  simp only [Directive.terminals, List.cons_append, List.cons.injEq, Terminal.name.injEq] at he
  obtain ⟨-, hname, he⟩ := he
  obtain ⟨harguments, rfl⟩ := arguments_readsOff d.arguments e.arguments r s hr hs he
  cases d
  cases e
  simp_all

theorem directives_readsOff (ds : List Directive) :
    ReadsOff directiveTerminals (Avoids [.atSign, .parenL]) ds := by
  have next : ∀ r, Avoids [.atSign, .parenL] r →
      Avoids [.parenL] r ∧ Ends Directive.terminals r := fun r hr =>
    ⟨hr.mono (by decide), fun d s => hr.ne List.mem_cons_self⟩
  intro es r s hr hs he
  exact flatMap_readsOff (fun d _ => directive_readsOff d) (begins_directive (by decide)) es r s
    (next r hr) (next s hs) he

theorem avoids_directives {ps : List Punctuator} {ds : List Directive} {r : List Terminal}
    (h : .atSign ∉ ps) (hr : Avoids ps r) : Avoids ps (directiveTerminals ds ++ r) :=
  avoids_flatMap (begins_directive h) hr

/-! ## Selections -/

theorem label_readsOff {a b : Option String} {n m : String} {r s : List Terminal}
    (hr : Avoids [.colon] r) (hs : Avoids [.colon] s)
    (h : labelTerminals a n ++ r = labelTerminals b m ++ s) : a = b ∧ n = m ∧ r = s := by
  cases a with
  | none =>
    cases b with
    | none => simpa [labelTerminals] using h
    | some b => exact absurd (List.cons.inj h).2 (hr.ne List.mem_cons_self)
  | some a =>
    cases b with
    | none => exact absurd (List.cons.inj h).2.symm (hs.ne List.mem_cons_self)
    | some b => simpa [labelTerminals, and_assoc] using h

/-- A text that begins with a punctuator. -/
def Punctuated (r : List Terminal) : Prop := ∃ p s, r = .punctuator p :: s

theorem punctuated_directives {ds : List Directive} {r : List Terminal} (h : Punctuated r) :
    Punctuated (directiveTerminals ds ++ r) := by
  cases ds with
  | nil => exact h
  | cons d ds => exact ⟨_, _, rfl⟩

theorem condition_readsOff (c : Option String) : ReadsOff conditionTerminals Punctuated c := by
  rintro d r s ⟨p, r, rfl⟩ ⟨q, s, rfl⟩ he
  cases c <;> cases d <;> simp_all [conditionTerminals]

/-- The name of a fragment stands at no condition. -/
theorem fragment_ne_condition {f : FragmentName} {c : Option String} {r s : List Terminal}
    (hs : Punctuated s) : .name f :: r ≠ conditionTerminals c ++ s := by
  obtain ⟨q, s, rfl⟩ := hs
  intro he
  cases c with
  | none => cases he
  | some type => exact f.2 (Terminal.name.inj (List.cons.inj he).1)

/-- What may not follow a selection. -/
def afterSelection : List Punctuator := [.colon, .parenL, .atSign, .braceL]

theorem begins_selection : Begins (.braceR :: afterSelection) Selection.terminals := by
  intro s
  cases s with
  | field label name arguments directives selections =>
    cases label <;> exact ⟨_, _, rfl, fun _ _ => by simp⟩
  | spread fragment directives => exact ⟨_, _, rfl, by decide⟩
  | inline condition directives first rest => exact ⟨_, _, rfl, by decide⟩

section Selections

variable {label : Option String} {name : String} {arguments : Arguments}
  {directives others : List Directive} {selections : List Selection} {first : Selection}
  {rest : List Selection} {fragment : FragmentName} {condition : Option String}
  {r s : List Terminal}

/-- A field is told from what begins with three points. -/
theorem field_ne_spread :
    (Selection.field label name arguments directives selections).terminals ++ r ≠
      .punctuator .spread :: s := by
  rw [Selection.terminals_field, List.append_assoc]
  cases label <;> exact fun he => by cases he

/-- A fragment by its name is told from one that stands there. -/
theorem spread_ne_inline : (Selection.spread fragment directives).terminals ++ r ≠
    (Selection.inline condition others first rest).terminals ++ s := by
  simp only [Selection.terminals, List.cons_append, List.append_assoc]
  exact fun he => fragment_ne_condition (punctuated_directives ⟨_, _, rfl⟩) (List.cons.inj he).2

/-- What follows the arguments and the directives of a field. -/
theorem avoids_selections (hr : Avoids afterSelection r) :
    Avoids [.braceL] r ∧
    Avoids [.atSign, .parenL] (group .braceL .braceR Selection.terminals selections ++ r) ∧
    Avoids [.parenL, .colon]
      (directiveTerminals directives ++
        (group .braceL .braceR Selection.terminals selections ++ r)) :=
  ⟨hr.mono (by decide), avoids_group (by decide) (hr.mono (by decide)),
    avoids_directives (by decide) (avoids_group (by decide) (hr.mono (by decide)))⟩

theorem field_readsOff
    (h : ∀ a ∈ selections, ReadsOff Selection.terminals (Avoids afterSelection) a) :
    ReadsOff Selection.terminals (Avoids afterSelection)
      (.field label name arguments directives selections) := by
  intro b r s hr hs he
  cases b with
  | spread | inline => exact absurd he field_ne_spread
  | field label' name' arguments' directives' selections' =>
    simp only [Selection.terminals_field, List.append_assoc] at he
    obtain ⟨hr1, hr2, hr3⟩ := @avoids_selections directives selections r hr
    obtain ⟨hs1, hs2, hs3⟩ := @avoids_selections directives' selections' s hs
    obtain ⟨rfl, rfl, h1⟩ := label_readsOff (avoids_group (by decide) (hr3.mono (by decide)))
      (avoids_group (by decide) (hs3.mono (by decide))) he
    obtain ⟨rfl, h2⟩ := arguments_readsOff arguments _ _ _ (hr3.mono (by decide))
      (hs3.mono (by decide)) h1
    obtain ⟨rfl, h3⟩ := directives_readsOff directives _ _ _ hr2 hs2 h2
    obtain ⟨rfl, rfl⟩ := group_readsOff h begins_selection (by decide) _ _ _ hr1 hs1 h3
    exact ⟨rfl, rfl⟩

theorem spread_readsOff :
    ReadsOff Selection.terminals (Avoids afterSelection) (.spread fragment directives) := by
  intro b r s hr hs he
  cases b with
  | field => exact absurd he.symm field_ne_spread
  | inline => exact absurd he spread_ne_inline
  | spread fragment' directives' =>
    simp only [Selection.terminals, List.cons_append, List.cons.injEq, Terminal.name.injEq,
      true_and] at he
    obtain ⟨rfl, rfl⟩ := directives_readsOff directives directives' r s (hr.mono (by decide))
      (hs.mono (by decide)) he.2
    rw [Subtype.ext he.1]
    exact ⟨rfl, rfl⟩

theorem inline_readsOff
    (h : ∀ a ∈ first :: rest, ReadsOff Selection.terminals (Avoids afterSelection) a) :
    ReadsOff Selection.terminals (Avoids afterSelection)
      (.inline condition directives first rest) := by
  intro b r s _ _ he
  cases b with
  | field => exact absurd he.symm field_ne_spread
  | spread => exact absurd he.symm spread_ne_inline
  | inline condition' directives' first' rest' =>
    simp only [Selection.terminals_inline, List.cons_append, List.append_assoc] at he
    obtain ⟨rfl, h1⟩ := condition_readsOff condition condition' _ _
      (punctuated_directives ⟨_, _, rfl⟩) (punctuated_directives ⟨_, _, rfl⟩)
      (List.cons.inj he).2
    obtain ⟨rfl, h2⟩ := directives_readsOff directives directives' _ _
      (avoids_punctuator (by decide)) (avoids_punctuator (by decide)) h1
    obtain ⟨h3, rfl⟩ := bracketed_readsOff h begins_selection (by decide) (first' :: rest') r s
      avoids_none avoids_none h2
    cases h3
    exact ⟨rfl, rfl⟩

end Selections

mutual

theorem selection_readsOff : (a : Selection) →
    ReadsOff Selection.terminals (Avoids afterSelection) a
  | .field _ _ _ _ selections => field_readsOff (selections_readsOff selections)
  | .spread _ _ => spread_readsOff
  | .inline _ _ first rest =>
    inline_readsOff (List.forall_mem_cons.mpr ⟨selection_readsOff first, selections_readsOff rest⟩)

theorem selections_readsOff : (as : List Selection) →
    ∀ a ∈ as, ReadsOff Selection.terminals (Avoids afterSelection) a
  | [] => fun _ h => absurd h List.not_mem_nil
  | a :: as => List.forall_mem_cons.mpr ⟨selection_readsOff a, selections_readsOff as⟩

end

theorem selectionSet_readsOff (a : SelectionSet) :
    ReadsOff SelectionSet.terminals (Avoids []) a := by
  intro b r s hr hs he
  obtain ⟨h, rfl⟩ := bracketed_readsOff (selections_readsOff (a.first :: a.rest)) begins_selection
    (by decide) (b.first :: b.rest) r s hr hs he
  cases a
  cases b
  cases h
  exact ⟨rfl, rfl⟩

/-! ## Definitions -/

theorem required_readsOff (a : Bool) : ReadsOff requiredTerminals (Avoids [.bang]) a := by
  intro b r s hr hs he
  cases a with
  | false =>
    cases b with
    | false => exact ⟨rfl, he⟩
    | true => exact absurd he (hr.ne List.mem_cons_self)
  | true =>
    cases b with
    | false => exact absurd he.symm (hs.ne List.mem_cons_self)
    | true => exact ⟨rfl, (List.cons.inj he).2⟩

theorem type_readsOff (t : TypeExpression) :
    ReadsOff TypeExpression.terminals (Avoids [.bang]) t := by
  induction t with
  | named name required =>
    intro b r s hr hs he
    cases b with
    | list => cases he
    | named name' required' =>
      simp only [TypeExpression.terminals, List.cons_append, List.cons.injEq,
        Terminal.name.injEq] at he
      obtain ⟨rfl, he⟩ := he
      obtain ⟨rfl, rfl⟩ := required_readsOff required required' r s hr hs he
      exact ⟨rfl, rfl⟩
  | list element required ih =>
    intro b r s hr hs he
    cases b with
    | named => cases he
    | list element' required' =>
      simp only [TypeExpression.terminals, List.cons_append, List.append_assoc, List.cons.injEq,
        true_and] at he
      obtain ⟨rfl, h1⟩ := ih element' _ _ (avoids_punctuator (by decide))
        (avoids_punctuator (by decide)) he
      obtain ⟨rfl, rfl⟩ := required_readsOff required required' r s hr hs (List.cons.inj h1).2
      exact ⟨rfl, rfl⟩

theorem avoids_default {ps : List Punctuator} {v : Option Literal} {r : List Terminal}
    (h : .equals ∉ ps) (hr : Avoids ps r) : Avoids ps (defaultTerminals v ++ r) := by
  cases v with
  | none => exact hr
  | some v => exact avoids_punctuator h

/-- What may not follow the definition of a variable. -/
def afterVariable : List Punctuator := [.bang, .equals, .atSign, .parenL]

theorem begins_variable : Begins (.parenR :: afterVariable) VariableDefinition.terminals :=
  fun _ => ⟨_, _, rfl, by decide⟩

theorem variable_readsOff (a : VariableDefinition) :
    ReadsOff VariableDefinition.terminals (Avoids afterVariable) a := by
  intro b r s hr hs he
  simp only [VariableDefinition.terminals, List.cons_append, List.append_assoc, List.cons.injEq,
    Terminal.name.injEq, true_and] at he
  obtain ⟨hname, he⟩ := he
  obtain ⟨htype, h1⟩ := type_readsOff a.type b.type _ _
    (avoids_default (by decide) (avoids_directives (by decide) (hr.mono (by decide))))
    (avoids_default (by decide) (avoids_directives (by decide) (hs.mono (by decide)))) he
  obtain ⟨hdefault, h2⟩ := default_readsOff a.default b.default _ _
    (avoids_directives (by decide) (hr.mono (by decide)))
    (avoids_directives (by decide) (hs.mono (by decide))) h1
  obtain ⟨hdirectives, rfl⟩ := directives_readsOff a.directives b.directives r s
    (hr.mono (by decide)) (hs.mono (by decide)) h2
  cases a
  cases b
  simp_all

theorem name_readsOff (n : Option String) : ReadsOff nameTerminals Punctuated n := by
  rintro m r s ⟨p, r, rfl⟩ ⟨q, s, rfl⟩ he
  cases n <;> cases m <;> simp_all [nameTerminals]

theorem keyword_inj {a b : OperationType} (h : a.keyword = b.keyword) : a = b := by
  cases a <;> cases b <;> first | rfl | exact absurd h (by decide)

theorem keyword_ne_fragment (a : OperationType) : a.keyword ≠ "fragment" := by
  cases a <;> decide

section Definitions

variable {type : OperationType} {name : Option String} {parameters : List VariableDefinition}
  {directives : List Directive} {selections : SelectionSet} {r s : List Terminal}

theorem punctuated_variables (h : Punctuated r) :
    Punctuated (group .parenL .parenR VariableDefinition.terminals parameters ++ r) := by
  cases parameters with
  | nil => exact h
  | cons v vs => exact ⟨_, _, rfl⟩

theorem operation_readsOff : ReadsOff Definition.terminals (Avoids [])
    (.operation type name parameters directives selections) := by
  intro b r s _ _ he
  cases b with
  | shorthand => cases he
  | fragment =>
    exact absurd (Terminal.name.inj (List.cons.inj he).1) (keyword_ne_fragment type)
  | operation type' name' parameters' directives' selections' =>
    simp only [Definition.terminals, List.cons_append, List.append_assoc, List.cons.injEq,
      Terminal.name.injEq] at he
    have hb : ∀ (s : SelectionSet) (r : List Terminal), Punctuated (s.terminals ++ r) :=
      fun _ _ => ⟨_, _, rfl⟩
    have ha : ∀ (ps : List Punctuator) (s : SelectionSet) (r : List Terminal), .braceL ∉ ps →
        Avoids ps (s.terminals ++ r) := fun _ _ _ h => avoids_punctuator h
    obtain ⟨rfl, h1⟩ := name_readsOff name name' _ _
      (punctuated_variables (punctuated_directives (hb _ _)))
      (punctuated_variables (punctuated_directives (hb _ _))) he.2
    obtain ⟨rfl, h2⟩ := group_readsOff (fun a _ => variable_readsOff a) begins_variable
      (by decide) parameters' _ _ (avoids_directives (by decide) (ha _ _ _ (by decide)))
      (avoids_directives (by decide) (ha _ _ _ (by decide))) h1
    obtain ⟨rfl, h3⟩ := directives_readsOff directives directives' _ _ (ha _ _ _ (by decide))
      (ha _ _ _ (by decide)) h2
    obtain ⟨rfl, rfl⟩ := selectionSet_readsOff selections selections' r s avoids_none
      avoids_none h3
    rw [keyword_inj he.1]
    exact ⟨rfl, rfl⟩

theorem fragment_readsOff {name : FragmentName} {condition : String} :
    ReadsOff Definition.terminals (Avoids []) (.fragment name condition directives selections) := by
  intro b r s _ _ he
  cases b with
  | shorthand => cases he
  | operation type =>
    exact absurd (Terminal.name.inj (List.cons.inj he).1).symm (keyword_ne_fragment type)
  | fragment name' condition' directives' selections' =>
    simp only [Definition.terminals, List.cons_append, List.append_assoc, List.cons.injEq,
      Terminal.name.injEq, true_and] at he
    obtain ⟨hname, rfl, h1⟩ := he
    obtain ⟨rfl, h2⟩ := directives_readsOff directives directives' _ _
      (avoids_punctuator (by decide)) (avoids_punctuator (by decide)) h1
    obtain ⟨rfl, rfl⟩ := selectionSet_readsOff selections selections' r s avoids_none
      avoids_none h2
    rw [Subtype.ext hname]
    exact ⟨rfl, rfl⟩

end Definitions

theorem definition_readsOff (a : Definition) : ReadsOff Definition.terminals (Avoids []) a := by
  cases a with
  | operation => exact operation_readsOff
  | fragment => exact fragment_readsOff
  | shorthand selections =>
    intro b r s hr hs he
    cases b with
    | operation | fragment => cases he
    | shorthand selections' =>
      obtain ⟨rfl, rfl⟩ := selectionSet_readsOff selections selections' r s hr hs he
      exact ⟨rfl, rfl⟩

theorem begins_definition : Begins [] Definition.terminals := by
  intro a
  cases a <;> exact ⟨_, _, rfl, fun _ h => absurd h List.not_mem_nil⟩

/-- A document is determined by its terminals. -/
theorem terminals_inj {a b : Document} (h : a.terminals = b.terminals) : a = b := by
  have hend : Avoids [] [] ∧ Ends Definition.terminals [] :=
    ⟨avoids_none, begins_definition.ends_nil⟩
  obtain ⟨hd, -⟩ := flatMap_readsOff (fun d _ => definition_readsOff d) begins_definition
    (b.first :: b.rest) [] [] hend hend (congrArg (· ++ []) h)
  cases a
  cases b
  cases hd
  rfl

end GraphClient.Executable
