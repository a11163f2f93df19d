import GraphClient.Proofs.Document.Accepts
import GraphClient.Proofs.Document.Followed
import GraphClient.Proofs.Document.Names
import GraphClient.Proofs.Document.Results
import GraphClient.Proofs.Introspection.Spelling

/-!
# Type references are read again

The text of a type with a name at its leaf is read as the type if no mark that it is never null
stands behind another one (`ofString_typed`), so different types have different texts
(`render_injective`). A mark behind a mark is left over where the type is read, at whatever depth
it stands, and no field of that type is read without a warning (`ofString_mistyped`).
-/

namespace GraphClient

open Grammar

namespace TypeRef

variable {type : TypeRef}

theorem Proper.isName_baseName (h : type.Proper) : IsName type.baseName := by
  induction type with
  | named n => exact h
  | list element ih => exact ih h
  | nonNull inner ih => exact ih h.1

theorem Proper.isProper (h : type.Proper) : type.IsProper := by
  induction type with
  | named n => trivial
  | list element ih => exact ih h
  | nonNull inner ih => exact ⟨h.2, ih h.1⟩

end TypeRef

namespace Parse

variable {α : Type} {line : Nat} {ts us rest : List Token} {c d : Cursor}

/-! ## Marks behind marks -/

/-- Nothing is answered, or a mark is next. -/
def LeavesMark (o : Outcome α) : Prop :=
  ∀ a, o.result = .ok a → ∃ b bs, o.cursor.rest = b :: bs ∧ b.kind = .punctuator .bang

/-- A type with a mark behind a mark is not read whole. -/
theorem typeRefFrom_leavesMark (type : TypeRef) : ∀ {line : Nat} {ts rest : List Token},
    ¬ type.IsProper → kindsOf ts = type.kinds → LeavesMark (typeRefFrom line (ts ++ rest)) := by
  induction type with
  | named n => exact fun hp => absurd trivial hp
  | list element ih =>
    intro line ts rest hp hk
    obtain ⟨o, us, rfl, ho, hus⟩ := kindsOf_eq_cons.mp hk
    obtain ⟨vs, ws, rfl, hvs, hws⟩ := kindsOf_eq_append.mp hus
    intro a ha
    rw [List.cons_append, List.append_assoc, typeRefFrom, if_pos (Token.is_iff.mpr ho)] at ha
    -- no bracket can be expected where the mark is left over
    obtain ⟨e, he, hmore⟩ := result_andThen.mp ha
    obtain ⟨b, bs, hb, hbang⟩ := ih hp hvs e he
    obtain ⟨u, hu, -⟩ := result_andThen.mp hmore
    obtain ⟨x, hx, hfail⟩ := result_andThen.mp hu
    have hn : nextIs .bracketR (typeRefFrom o.line (vs ++ (ws ++ rest))).cursor = false := by
      simp [nextIs, hb, Token.is, hbang]
    rw [accept_of_not_nextIs hn] at hx
    cases hx
    cases hfail
  | nonNull inner ih =>
    intro line ts rest hp hk
    obtain ⟨us, vs, rfl, hus, hvs⟩ := kindsOf_eq_append.mp hk
    obtain ⟨b, rfl, hb⟩ := kindsOf_eq_singleton.mp hvs
    rw [List.append_assoc]
    by_cases hi : inner.IsProper
    · cases inner with
      | nonNull core =>
        obtain ⟨ws, xs, rfl, hws, hxs⟩ := kindsOf_eq_append.mp hus
        obtain ⟨x, rfl, hx⟩ := kindsOf_eq_singleton.mp hxs
        rw [List.append_assoc, (typeRefFrom_kinds core hi.2 hws).1 hi.1]
        have hm := @marked_reads (lastLine line ws) ([b] ++ rest) core x hx
        rw [hm]
        exact fun _ _ => ⟨b, rest, rfl, hb⟩
      | named n => exact absurd ⟨rfl, hi⟩ hp
      | list element => exact absurd ⟨rfl, hi⟩ hp
    · exact ih hi hus

/-- What goes on behind such a reading is in front of the mark. -/
theorem LeavesMark.andThen {β : Type} {o : Outcome α} {f : α → Parse β} (h : LeavesMark o)
    (hf : ∀ a line b bs, b.kind = .punctuator .bang → LeavesMark (f a ⟨line, b :: bs⟩)) :
    LeavesMark (o.andThen f) := by
  rcases o with ⟨ws, ⟨line, ts⟩, i | a⟩
  · exact nofun
  · obtain ⟨b, bs, rfl, hb⟩ := h a rfl
    exact hf a line b bs hb

/-- A field of such a type leaves the mark as well. -/
theorem field_leavesMark {owner n : String} {type : TypeRef} {f colon : Token}
    (hf : f.kind = .name n) (hcolon : colon.kind = .punctuator .colon) (hp : ¬ type.IsProper)
    (hk : kindsOf ts = type.kinds) :
    LeavesMark (field owner ⟨line, f :: colon :: (ts ++ rest)⟩) := by
  have hdescribed : Reads description line [] (f :: colon :: (ts ++ rest)) none :=
    describes_name .none hf
  have hargs : Reads (arguments (owner ++ "." ++ n)) f.line [] (colon :: (ts ++ rest)) [] :=
    arguments_reads .none (avoids_of_kind hcolon (by decide))
  have htype : typeAnnotation (owner ++ "." ++ n) ⟨f.line, colon :: (ts ++ rest)⟩ =
      typeRefFrom colon.line (ts ++ rest) := Reads.followed (@accept_reads f.line colon _ _ hcolon)
  have hfield : field owner ⟨line, f :: colon :: (ts ++ rest)⟩ =
      (typeRefFrom colon.line (ts ++ rest)).andThen fun type => do
        directives
        return ⟨n, none, type, []⟩ := by
    rw [← htype]
    exact (Reads.followed hdescribed).trans
      ((Reads.followed (name_reads hf)).trans (Reads.followed hargs))
  rw [hfield]
  refine (typeRefFrom_leavesMark type hp hk).andThen fun type line b bs hb => ?_
  have hdirs : Reads directives line [] (b :: bs) () :=
    directives_reads .nil (avoids_of_kind hb (by decide))
  have hend : (do directives; return (⟨n, none, type, []⟩ : FieldDef) : Parse _) ⟨line, b :: bs⟩ =
      ⟨[], ⟨line, b :: bs⟩, .ok ⟨n, none, type, []⟩⟩ := Reads.followed hdirs
  rw [hend]
  exact fun _ _ => ⟨b, bs, rfl, hb⟩

/-- A loop without warnings gives none at any of its steps. -/
theorem loop_eq_nil {continues : Cursor → Bool} {step : Parse (Option α)} {as : List α}
    (h : loop continues step c = ⟨[], d, .ok as⟩) (hc : continues c = true) :
    ∃ e o, step c = ⟨[], e, .ok o⟩ ∧
      (e.rest.length < c.rest.length → ∃ bs, loop continues step e = ⟨[], d, .ok bs⟩) := by
  rw [loop, if_pos hc] at h
  obtain ⟨e, o, hs, hmore⟩ := bind_eq_nil.mp h
  refine ⟨e, o, hs, fun hl => ?_⟩
  rw [if_pos hl] at hmore
  obtain ⟨f, bs, hloop, hend⟩ := bind_eq_nil.mp hmore
  cases hend
  exact ⟨bs, hloop⟩

/-- A member without warnings is one that is read without them. -/
theorem member_eq_nil {owner : String} {p : Parse α} {o : Option α}
    (h : member owner p c = ⟨[], d, .ok o⟩) : ∃ a, p c = ⟨[], d, .ok a⟩ := by
  rcases hp : p c with ⟨ws, e, i | a⟩
  · rw [member_error hp] at h
    cases (List.append_eq_nil_iff.mp (congrArg Outcome.warnings h)).2
  · rw [member_ok hp] at h
    cases h
    exact ⟨a, rfl⟩

/-- No field begins with a mark. -/
theorem field_at_mark {owner : String} {b : Token} {f : FieldDef}
    (hb : b.kind = .punctuator .bang) : field owner ⟨line, b :: ts⟩ ≠ ⟨[], d, .ok f⟩ := by
  intro h
  have hdescribed : Reads description line [] (b :: ts) none := by
    refine description_passes fun t ht => ?_
    cases ht
    simp [Token.string?, hb]
  have hname : (b :: ts).head?.bind Token.name? = none := by simp [Token.name?, hb]
  rw [field, bind_eq_nil] at h
  obtain ⟨e, a, hd, h⟩ := h
  rw [show description ⟨line, b :: ts⟩ = ⟨[], ⟨line, b :: ts⟩, .ok none⟩ from hdescribed] at hd
  cases hd
  obtain ⟨e, a, hn, -⟩ := bind_eq_nil.mp h
  rw [name_of_none hname] at hn
  cases hn

theorem continuesBlock_at_mark {b : Token} (hb : b.kind = .punctuator .bang) :
    continuesBlock ⟨line, b :: ts⟩ = true := by
  have hstring : b.isString = false := by simp [Token.isString, Token.string?, hb]
  have hi : interruptsBlock ⟨line, b :: ts⟩ = false := by
    refine interruptsBlock_eq_false fun k m us e => .inl ?_
    simp only [afterDescription, hstring] at e
    cases e
    simp [Token.keyword?, Token.name?, hb]
  rw [continuesBlock, continuesUntil_of_head (by simp [Token.is, hb]), hi]
  rfl

/-- A block that begins with such a field is not read without warnings. -/
theorem fields_of_leavesMark {owner : String} {f : Token} {fields : List FieldDef}
    (hc : continuesBlock ⟨line, f :: ts⟩ = true) (hf : f.kind ≠ .punctuator .bang)
    (hl : LeavesMark (field owner ⟨line, f :: ts⟩))
    (h : loop continuesBlock (member owner (field owner)) ⟨line, f :: ts⟩ =
      ⟨[], d, .ok fields⟩) : False := by
  obtain ⟨e, o, hs, hmore⟩ := loop_eq_nil h hc
  obtain ⟨g, hg⟩ := member_eq_nil hs
  have hsuffix := (local_field owner ⟨line, f :: ts⟩).passes.suffix
  rw [hg] at hl hsuffix
  obtain ⟨b, bs, hrest, hb⟩ := hl g rfl
  rcases e with ⟨line', us⟩
  cases hrest
  -- the field has read its name, so the loop goes on at the mark
  have hlt : (b :: bs).length < (f :: ts).length := by
    refine lt_of_le_of_ne hsuffix.length_le fun e => hf ?_
    cases hsuffix.eq_of_length e
    exact hb
  obtain ⟨gs, hloop⟩ := hmore hlt
  obtain ⟨e', o', hs', -⟩ := loop_eq_nil hloop (continuesBlock_at_mark hb)
  obtain ⟨g', hg'⟩ := member_eq_nil hs'
  exact field_at_mark hb hg'

end Parse

/-! ## A type with one field -/

namespace Document

open Parse

variable {type : TypeRef}

/-- The text of a type with one field, whose type has a given text. -/
def textOfField (text : String) : String := "type X \x7b f: " ++ text ++ " \x7d"

/-- Its tokens. -/
theorem textOfField_scans (h : IsName type.baseName) :
    ∃ k x o f colon ts c s, Scans [] ⟨[], Place.start⟩ (Source.ofString (textOfField type.render))
        (k :: x :: o :: f :: colon :: (ts ++ [c])) s ∧
      k.kind = .name "type" ∧ x.kind = .name "X" ∧ o.kind = .punctuator .braceL ∧
      f.kind = .name "f" ∧ colon.kind = .punctuator .colon ∧ kindsOf ts = type.kinds ∧
      c.kind = .punctuator .braceR := by
  have hnames : IsName "type" ∧ IsName "X" ∧ IsName "f" := by decide
  have hblank : ∀ {b rest : Source}, Delimits (.whole ' ' :: b ++ rest) := delimits_cons (by decide)
  have htype : Spells Anything (Source.ofString type.render ++ Source.ofString " \x7d")
      (OfKinds (type.kinds ++ [.punctuator .braceR])) :=
    (Introspection.typeRef_spells type h).kinds_append .closingBrace fun _ _ => hblank
  have hall : Spells Anything (Source.ofString (textOfField type.render))
      (OfKinds (.name "type" :: .name "X" :: .punctuator .braceL :: .name "f" ::
        .punctuator .colon :: (type.kinds ++ [.punctuator .braceR]))) := by
    rw [textOfField, ofString_append, ofString_append, List.append_assoc]
    refine .cons_name hnames.1 (.cons_blank (.inl rfl) ?_) fun _ _ => hblank
    refine .cons_name hnames.2.1 (.cons_blank (.inl rfl) (.cons_punctuator rfl ?_)) fun _ _ =>
      hblank
    refine .cons_blank (.inl rfl) (.cons_name hnames.2.2 ?_ fun _ _ => delimits_cons (by decide))
    exact .cons_punctuator rfl (.cons_blank (.inl rfl) htype)
  obtain ⟨us, s, hs, -, hus⟩ := hall [] ⟨[], Place.start⟩ trivial
  obtain ⟨k, us, rfl, hk, hus⟩ := kindsOf_eq_cons.mp hus
  obtain ⟨x, us, rfl, hx, hus⟩ := kindsOf_eq_cons.mp hus
  obtain ⟨o, us, rfl, ho, hus⟩ := kindsOf_eq_cons.mp hus
  obtain ⟨f, us, rfl, hf, hus⟩ := kindsOf_eq_cons.mp hus
  obtain ⟨colon, us, rfl, hcolon, hus⟩ := kindsOf_eq_cons.mp hus
  obtain ⟨ts, cs, rfl, hts, hcs⟩ := kindsOf_eq_append.mp hus
  obtain ⟨c, rfl, hc⟩ := kindsOf_eq_singleton.mp hcs
  exact ⟨k, x, o, f, colon, ts, c, s, hs, hk, hx, ho, hf, hcolon, hts, hc⟩

/-- A type with no mark behind a mark is read again. -/
theorem ofString_typed (h : IsName type.baseName) (hp : type.IsProper) :
    ofString (textOfField type.render) = ⟨[.object ⟨"X", none, [⟨"f", none, type, []⟩]⟩], []⟩ := by
  obtain ⟨k, x, o, f, colon, ts, c, s, hs, hk, hx, ho, hf, hcolon, hts, hc⟩ := textOfField_scans h
  have hfield : Grammar.Field (f :: colon :: (ts ++ [])) ⟨"f", none, type, []⟩ :=
    @Grammar.Field.mk [] [] ts [] f colon none "f" [] type .none hf .none hcolon hts hp .nil
  have hblock : Block Grammar.Field (o :: ((f :: colon :: (ts ++ []) ++ []) ++ [c]))
      [⟨"f", none, type, []⟩] := .members ho (.cons hfield .nil) hc
  rw [List.append_nil, List.append_nil] at hblock
  have hbody := @type_reads k.line [] [] _ [] none "X" x _ hx (.inl rfl) .nil hblock
    atDefinition_nil
  have hdef := @definition_reads 0 _ [] none [] k _ _ _ .none hk rfl hbody
  rw [ofString_of_scans hs]
  exact ofTokens_single (List.cons_ne_nil _ _) hdef

/-- A type with a mark behind a mark is not read without a warning. -/
theorem ofString_mistyped (h : IsName type.baseName) (hp : ¬ type.IsProper) :
    (ofString (textOfField type.render)).warnings ≠ [] := by
  intro hw
  obtain ⟨k, x, o, f, colon, ts, c, s, hs, hk, hx, ho, hf, hcolon, hts, hc⟩ := textOfField_scans h
  rw [ofString_of_scans hs] at hw
  obtain ⟨ws, d, ds, hds⟩ := answers_definitions ⟨0, k :: x :: o :: f :: colon :: (ts ++ [c])⟩
  rw [ofTokens_eq hds] at hw
  subst hw
  -- its definition would be read without warnings, and so would its block be
  obtain ⟨e, a, as, he, -⟩ := definitions_cons hds (List.cons_ne_nil _ _)
  have hdef := definition_of_entry he
  replace hdef := (definition_of_keyword .none hk rfl).symm.trans hdef
  have hbrace : BehindName (o :: f :: colon :: (ts ++ [c])) :=
    .inr ⟨o, _, rfl, _, by decide, ho⟩
  have himplements : Reads interfaces x.line [] (o :: f :: colon :: (ts ++ [c])) () :=
    implements_reads .none hbrace
  have hdirectives : Reads directives x.line [] (o :: f :: colon :: (ts ++ [c])) () :=
    directives_reads .nil (avoids_of_kind ho (by decide))
  have hbody : body none .type ⟨k.line, x :: o :: f :: colon :: (ts ++ [c])⟩ =
      (do
        let fields ← block "X" (field "X")
        return (some (.object ⟨"X", none, fields⟩), none) : Parse _)
        ⟨x.line, o :: f :: colon :: (ts ++ [c])⟩ :=
    (Reads.followed (name_reads hx)).trans
      ((Reads.followed himplements).trans (Reads.followed hdirectives))
  rw [hbody, bind_eq_nil] at hdef
  obtain ⟨e, fields, hblock, -⟩ := hdef
  have hmembers := (Reads.followed (accept_reads ho)).symm.trans hblock
  obtain ⟨e, fields, hloop, -⟩ := bind_eq_nil.mp hmembers
  refine fields_of_leavesMark ?_ (by simp [hf]) (field_leavesMark hf hcolon hp hts) hloop
  exact continuesBlock_of_next .none hf (by simp [Token.isName, Token.name?, hcolon])

/-- The type that a text stands for. -/
def typeIn? (text : String) : Option TypeRef :=
  match ofString (textOfField text) with
  | ⟨[.object ⟨_, _, [f]⟩], []⟩ => some f.type
  | _ => none

theorem typeIn?_render (h : IsName type.baseName) (hp : type.IsProper) :
    typeIn? type.render = some type := by
  rw [typeIn?, ofString_typed h hp]

/-- Different types have different texts. -/
theorem render_injective {other : TypeRef} (h : type.Proper) (h' : other.Proper)
    (he : type.render = other.render) : type = other := by
  have hread := typeIn?_render h.isName_baseName h.isProper
  rw [he, typeIn?_render h'.isName_baseName h'.isProper] at hread
  exact (Option.some.inj hread).symm

end Document

end GraphClient
