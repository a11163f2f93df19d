import GraphClient.Proofs.Document.Parts

/-!
# Readings of members and blocks

Arguments, fields and enum values are read whole in front of anything that cannot go on with
them. A block is read member by member, as long as no member looks like the definition that
would interrupt it (`interruptsBlock`): fields never do, since no name follows theirs, and
names that are no keywords never do.
-/

namespace GraphClient

section Tokens

variable {line : Nat} {ts : List Token} {t : Token}

theorem Token.string?_of_name {n : String} (h : t.kind = .name n) : t.string? = none := by
  simp [Token.string?, h]

theorem Parse.continuesUntil_of_head {p : Punctuator} (h : t.is p = false) :
    Parse.continuesUntil p ⟨line, t :: ts⟩ = true := by
  simp [Parse.continuesUntil, Parse.nextIs, h]

theorem Parse.continuesUntil_closing {p : Punctuator} (h : t.kind = .punctuator p) :
    Parse.continuesUntil p ⟨line, t :: ts⟩ = false := by
  simp [Parse.continuesUntil, Parse.nextIs_cons h]

end Tokens

/-! ## Shapes of members -/

namespace Grammar

open Parse

variable {α : Type} {line : Nat} {ts rest : List Token}

theorem Default.avoids {ps : List Punctuator} {v : Option String} (h : Default ts v)
    (hr : Avoids ps rest) (hp : .equals ∉ ps) : Avoids ps (ts ++ rest) := by
  cases h with
  | none => exact hr
  | value he _ => exact avoids_of_kind he hp

/-- What a member begins with. -/
theorem Description.head {d : Option String} {t : Token} {n : String} (h : Description ts d)
    (ht : t.kind = .name n) : ∃ u vs, ts ++ t :: rest = u :: vs ∧
      (∀ ps, Avoids ps (u :: vs)) ∧ ∀ p, u.is p = false := by
  cases h with
  | none =>
    exact ⟨t, rest, rfl, fun _ => avoids_of_name ht, fun p => Token.is_eq_false (by simp [ht])⟩
  | @string u s hs =>
    refine ⟨u, t :: rest, rfl, fun _ => avoids_of_string hs, fun p => Token.is_eq_false fun e => ?_⟩
    simp [Token.string?, e] at hs

theorem Description.avoids {ps : List Punctuator} {d : Option String} {t : Token} {n : String}
    (h : Description ts d) (ht : t.kind = .name n) : Avoids ps (ts ++ t :: rest) := by
  obtain ⟨u, vs, e, ha, _⟩ := h.head ht
  rw [e]
  exact ha ps

theorem Description.continues {p : Punctuator} {d : Option String} {t : Token} {n : String}
    (h : Description ts d) (ht : t.kind = .name n) :
    continuesUntil p ⟨line, ts ++ t :: rest⟩ = true := by
  obtain ⟨u, vs, e, _, hi⟩ := h.head ht
  rw [e]
  exact continuesUntil_of_head (hi p)

theorem afterDescription_describes {d : Option String} {t : Token} {n : String}
    (h : Description ts d) (ht : t.kind = .name n) :
    afterDescription (ts ++ t :: rest) = t :: rest := by
  cases h with
  | none => simp [afterDescription, Token.isString, Token.string?_of_name ht]
  | string hs => simp [afterDescription, Token.isString, hs]

/-- Tokens begin with a description, if there is one. -/
theorem exists_description (ts : List Token) :
    ∃ ds d, Description ds d ∧ ts = ds ++ afterDescription ts := by
  cases ts with
  | nil => exact ⟨[], none, .none, rfl⟩
  | cons t ts =>
    rw [afterDescription, Token.isString]
    cases hs : t.string? with
    | none => exact ⟨[], none, .none, rfl⟩
    | some s => exact ⟨[t], _, .string hs, rfl⟩

theorem Many.map {P Q : List Token → α → Prop} {as : List α} (h : Many P ts as)
    (hf : ∀ us a, P us a → Q us a) : Many Q ts as := by
  induction h with
  | nil => exact .nil
  | cons ha _ ih => exact .cons (hf _ _ ha) ih

theorem Block.map {P Q : List Token → α → Prop} {as : List α} (h : Block P ts as)
    (hf : ∀ us a, P us a → Q us a) : Block Q ts as := by
  cases h with
  | none => exact .none
  | members ho hm hc => exact .members ho (hm.map hf) hc

theorem InputValue.free {v : InputValueDef} (h : InputValue ts v) : Free.InputValue ts v := by
  obtain ⟨hd, ht, hc, htys, hp, hv, hdirs⟩ := h
  exact .mk hd ht hc htys hp hv hdirs.free

theorem Arguments.free {args : List InputValueDef} (h : Arguments ts args) :
    Free.Arguments ts args := by
  cases h with
  | none => exact .none
  | list ho hm hc => exact .list ho (hm.map fun _ _ => InputValue.free) hc

theorem Field.free {f : FieldDef} (h : Field ts f) : Free.Field ts f := by
  obtain ⟨hd, ht, ha, hc, htys, hp, hdirs⟩ := h
  exact .mk hd ht ha.free hc htys hp hdirs.free

theorem EnumValue.free {v : EnumValueDef} (h : EnumValue ts v) : Free.EnumValue ts v := by
  obtain ⟨hd, ht, hn, hdirs⟩ := h
  exact .mk hd ht hn hdirs.free

/-- The tokens of an input value, with the name in view. -/
theorem Free.InputValue.shape {v : InputValueDef} (h : Free.InputValue ts v) :
    ∃ ds t colon vs, ts = ds ++ t :: colon :: vs ∧ Description ds v.description ∧
      t.kind = .name v.name ∧ colon.kind = .punctuator .colon := by
  obtain ⟨hd, ht, hc, -, -, -, -⟩ := h
  exact ⟨_, _, _, _, rfl, hd, ht, hc⟩

theorem Free.Field.shape {f : FieldDef} (h : Free.Field ts f) :
    ∃ ds t u vs, ts = ds ++ t :: u :: vs ∧ Description ds f.description ∧ t.kind = .name f.name ∧
      u.isName = false := by
  obtain ⟨hd, ht, ha, hc, -, -, -⟩ := h
  cases ha with
  | none => exact ⟨_, _, _, _, rfl, hd, ht, by simp [Token.isName, Token.name?, hc]⟩
  | list ho _ _ => exact ⟨_, _, _, _, rfl, hd, ht, by simp [Token.isName, Token.name?, ho]⟩

theorem Free.EnumValue.shape {v : EnumValueDef} (h : Free.EnumValue ts v) : ∃ ds t dirs,
    ts = ds ++ t :: dirs ∧ Description ds v.description ∧ t.kind = .name v.name ∧
      Plain v.name ∧ Free.Directives (kindsOf dirs) := by
  obtain ⟨hd, ht, hn, hdirs⟩ := h
  exact ⟨_, _, _, rfl, hd, ht, hn, hdirs⟩

theorem Block.avoids {P : List Token → α → Prop} {ps : List Punctuator} {as : List α}
    (h : Block P ts as) (hr : Avoids ps rest) (hp : .braceL ∉ ps) : Avoids ps (ts ++ rest) := by
  cases h with
  | none => exact hr
  | members ho _ _ => exact avoids_of_kind ho hp

/-- Parts of one form, of which each may stand before the next, are the members of a loop. -/
theorem Many.members {P : List Token → α → Prop} {continues : Cursor → Bool}
    {step : Parse (Option α)} {as : List α} (next : List Token → Prop) (h : Many P ts as)
    (hrest : next rest) (hstop : ∀ line, continues ⟨line, rest⟩ = false)
    (hne : ∀ us a, P us a → us ≠ [])
    (hnext : ∀ us a vs, P us a → next (us ++ vs))
    (hcont : ∀ line us a vs, P us a → continues ⟨line, us ++ vs⟩ = true)
    (hstep : ∀ line us a vs, P us a → next vs → Reads step line us vs (some a)) :
    Members continues step rest line ts as := by
  induction h generalizing line with
  | nil => exact .done (hstop line)
  | @cons us vs a as ha hm ih =>
    have hv : next (vs ++ rest) := by
      cases hm with
      | nil => exact hrest
      | cons hb _ => rw [List.append_assoc]; exact hnext _ _ _ hb
    exact .more (hcont _ _ _ _ ha) (hne _ _ ha) (hstep _ _ _ _ ha hv) ih

end Grammar

namespace Parse

open Grammar

variable {α : Type} {line : Nat} {ts us rest : List Token}

/-! ## Members -/

theorem describes_reads {d : Option String} (h : Description ts d)
    (hr : ∀ t ∈ rest.head?, t.string? = none) : Reads description line ts rest d := by
  cases h with
  | none => exact description_passes hr
  | string hs => exact description_reads hs

theorem describes_name {d : Option String} {t : Token} {n : String} (h : Description ts d)
    (ht : t.kind = .name n) : Reads description line ts (t :: rest) d := by
  refine describes_reads h fun u hu => ?_
  cases hu
  exact Token.string?_of_name ht

theorem inputValue_reads {element : String → String} {v : InputValueDef}
    (h : Free.InputValue ts v) (hr : Avoids [.bang, .equals, .atSign, .parenL] rest) :
    Reads (inputValue element) line ts rest v := by
  obtain ⟨hd, ht, hc, htys, hp, hv, hdirs⟩ := h
  rename_i ds tys vs dirs t colon d v n type
  have h1 : Avoids [.equals] (dirs ++ rest) :=
    hdirs.avoids (hr.subset (by decide)) (by decide)
  have h2 : Avoids [.bang] (vs ++ (dirs ++ rest)) :=
    hv.avoids (hdirs.avoids (hr.subset (by decide)) (by decide)) (by decide)
  refine Reads.bind (describes_name hd ht) (Reads.bind (name_reads ht) ?_)
  rw [← List.cons_append]
  apply Reads.bind (typeAnnotation_reads hc hp htys (by simpa using h2))
  apply Reads.bind (defaultValue_reads hv h1)
  exact Reads.last (directives_reads hdirs (hr.subset (by decide))) Reads.pure

theorem arguments_reads {owner : String} {args : List InputValueDef} (h : Free.Arguments ts args)
    (hr : Avoids [.parenL] rest) : Reads (arguments owner) line ts rest args := by
  cases h with
  | none => exact Reads.after (accept_passes hr) Reads.pure
  | @list o c ts args ho hm hc =>
    apply Reads.bind (accept_reads ho)
    rw [if_pos rfl]
    refine Reads.bind (Members.reads ?_) (Reads.last (expect_reads hc) Reads.pure)
    refine hm.members (Avoids [.bang, .equals, .atSign, .parenL])
      (avoids_of_kind hc (by decide)) (fun _ => continuesUntil_closing hc) ?_ ?_ ?_ ?_
    · rintro us v hv rfl
      obtain ⟨ds, t, colon, vs, e, -⟩ := hv.shape
      simp at e
    · intro us v vs hv
      obtain ⟨ds, t, colon, ws, rfl, hd, ht, -⟩ := hv.shape
      rw [List.append_assoc]
      exact hd.avoids ht
    · intro line us v vs hv
      obtain ⟨ds, t, colon, ws, rfl, hd, ht, -⟩ := hv.shape
      rw [List.append_assoc]
      exact hd.continues ht
    · intro line us v vs hv hn
      exact Reads.last (inputValue_reads hv hn) Reads.pure

theorem field_reads {owner : String} {f : FieldDef} (h : Free.Field ts f)
    (hr : Avoids [.bang, .atSign, .parenL] rest) : Reads (field owner) line ts rest f := by
  obtain ⟨hd, ht, ha, hc, htys, hp, hdirs⟩ := h
  rename_i ds us tys dirs t colon d n args type
  have h1 : Avoids [.bang] (dirs ++ rest) :=
    hdirs.avoids (hr.subset (by decide)) (by decide)
  refine Reads.bind (describes_name hd ht) (Reads.bind (name_reads ht) ?_)
  apply Reads.bind (arguments_reads ha (avoids_of_kind hc (by decide)))
  rw [← List.cons_append]
  apply Reads.bind (typeAnnotation_reads hc hp htys h1)
  exact Reads.last (directives_reads hdirs (hr.subset (by decide))) Reads.pure

theorem enumValue_reads {ds dirs : List Token} {d : Option String} {t : Token} {n : String}
    (hd : Description ds d) (ht : t.kind = .name n) (hdirs : Free.Directives (kindsOf dirs))
    (hr : Avoids [.atSign, .parenL] rest) :
    Reads enumValue line (ds ++ t :: dirs) rest ⟨n, d⟩ :=
  Reads.bind (describes_name hd ht)
    (Reads.bind (name_reads ht) (Reads.last (directives_reads hdirs hr) Reads.pure))

/-! ## Blocks -/

theorem member_reads {owner : String} {p : Parse α} {a : α} (h : Reads p line ts rest a) :
    Reads (member owner p) line ts rest (some a) := by
  unfold Reads at h ⊢
  simp only [member, h]

theorem block_passes {owner : String} {p : Parse α} (h : Avoids [.braceL] rest) :
    Reads (block owner p) line [] rest [] :=
  Reads.after (accept_passes h) Reads.pure

theorem block_reads {owner : String} {p : Parse α} {o c : Token} {as : List α}
    (ho : o.kind = .punctuator .braceL)
    (hm : Members continuesBlock (member owner p) (c :: rest) o.line ts as)
    (hc : c.kind = .punctuator .braceR) :
    Reads (block owner p) line (o :: (ts ++ [c])) rest as := by
  apply Reads.bind (accept_reads ho)
  rw [if_pos rfl]
  exact Reads.bind hm.reads (Reads.last (accept_reads hc) Reads.pure)

theorem interruptsBlock_eq_false {c : Cursor}
    (h : ∀ k n us, afterDescription c.rest = k :: n :: us →
      k.keyword? = none ∨ n.isName = false ∨ n.line ≠ k.line) :
    interruptsBlock c = false := by
  unfold interruptsBlock
  split
  · rfl
  · rw [Bool.and_eq_false_imp]
    intro _
    split
    · rename_i k n us e
      rcases h k n us e with hk | hn | hl
      · simp [hk]
      · simp [hn]
      · simp [hl]
    · rfl

/-- What is no name behind the name of a member keeps the block going. -/
theorem continuesBlock_of_next {d : Option String} {t u : Token} {n : String}
    (h : Description ts d) (ht : t.kind = .name n) (hu : u.isName = false) :
    continuesBlock ⟨line, ts ++ t :: u :: rest⟩ = true := by
  have hi : interruptsBlock ⟨line, ts ++ t :: u :: rest⟩ = false := by
    refine interruptsBlock_eq_false fun k m us e => .inr (.inl ?_)
    rw [afterDescription_describes h ht] at e
    cases e
    exact hu
  rw [continuesBlock, hi, h.continues ht]
  rfl

/-- A name that is no keyword keeps the block going. -/
theorem continuesBlock_of_plain {d : Option String} {t : Token} {n : String}
    (h : Description ts d) (ht : t.kind = .name n) (hn : Plain n) :
    continuesBlock ⟨line, ts ++ t :: rest⟩ = true := by
  have hi : interruptsBlock ⟨line, ts ++ t :: rest⟩ = false := by
    refine interruptsBlock_eq_false fun k m us e => .inl ?_
    rw [afterDescription_describes h ht] at e
    cases e
    simp only [Token.keyword?, Token.name?_eq_some.mpr ht, Option.bind_some]
    exact hn
  rw [continuesBlock, hi, h.continues ht]
  rfl

theorem continuesBlock_closing {t : Token} (h : t.kind = .punctuator .braceR) :
    continuesBlock ⟨line, t :: ts⟩ = false := by
  rw [continuesBlock, continuesUntil_closing h, Bool.false_and]

/-- A block of one member. -/
theorem block_reads_one {owner : String} {p : Parse α} {o c : Token} {a : α}
    (ho : o.kind = .punctuator .braceL) (hcont : continuesBlock ⟨o.line, ts ++ c :: rest⟩ = true)
    (hne : ts ≠ []) (ha : Reads p o.line ts (c :: rest) a) (hc : c.kind = .punctuator .braceR) :
    Reads (block owner p) line (o :: (ts ++ [c])) rest [a] := by
  have hm : Members continuesBlock (member owner p) (c :: rest) o.line (ts ++ []) [a] :=
    .more hcont hne (member_reads ha) (.done (continuesBlock_closing hc))
  rw [List.append_nil] at hm
  exact block_reads ho hm hc

/-- Members of one form, of which each keeps a block going and is read whole in front of what
cannot go on with it. -/
structure MemberForm (p : Parse α) (P : List Token → α → Prop) : Prop where
  shape : ∀ {us a}, P us a → ∃ ds d t n vs, us = ds ++ t :: vs ∧ Description ds d ∧
    t.kind = .name n
  continues : ∀ {line us a vs}, P us a → continuesBlock ⟨line, us ++ vs⟩ = true
  reads : ∀ {line us a vs}, P us a → Avoids [.bang, .equals, .atSign, .parenL] vs →
    Reads p line us vs a

namespace MemberForm

variable {p : Parse α} {P : List Token → α → Prop} {a : α} {as : List α}

theorem ne_nil (hf : MemberForm p P) (h : P ts a) : ts ≠ [] := by
  rintro rfl
  obtain ⟨ds, d, t, n, vs, e, -⟩ := hf.shape h
  simp at e

theorem avoids {ps : List Punctuator} (hf : MemberForm p P) (h : P ts a) :
    Avoids ps (ts ++ rest) := by
  obtain ⟨ds, d, t, n, ws, rfl, hd, ht⟩ := hf.shape h
  rw [List.append_assoc]
  exact hd.avoids ht

/-- Members up to where their block stops are the members of its loop. -/
theorem members {owner : String} (hf : MemberForm p P) (h : Many P ts as)
    (hr : Avoids [.bang, .equals, .atSign, .parenL] rest)
    (hstop : ∀ line, continuesBlock ⟨line, rest⟩ = false) :
    Members continuesBlock (member owner p) rest line ts as :=
  h.members (Avoids [.bang, .equals, .atSign, .parenL]) hr hstop (fun _ _ => hf.ne_nil)
    (fun _ _ _ => hf.avoids) (fun _ _ _ _ => hf.continues)
    fun _ _ _ _ ha hn => member_reads (hf.reads ha hn)

/-- A block of one form. -/
theorem block_reads {owner : String} (hf : MemberForm p P) (h : Block P ts as)
    (hr : Avoids [.braceL] rest) : Reads (block owner p) line ts rest as := by
  cases h with
  | none => exact block_passes hr
  | members ho hm hc =>
    exact Parse.block_reads ho (hf.members hm (avoids_of_kind hc (by decide))
      fun _ => continuesBlock_closing hc) hc

end MemberForm

theorem fieldForm (owner : String) : MemberForm (field owner) Free.Field where
  shape hf := by
    obtain ⟨ds, t, u, vs, e, hd, ht, -⟩ := hf.shape
    exact ⟨ds, _, t, _, _, e, hd, ht⟩
  continues hf := by
    obtain ⟨ds, t, u, ws, rfl, hd, ht, hu⟩ := hf.shape
    rw [List.append_assoc]
    exact continuesBlock_of_next hd ht hu
  reads hf hn := field_reads hf (hn.subset (by decide))

theorem inputFieldForm (owner : String) : MemberForm (inputField owner) Free.InputValue where
  shape hf := by
    obtain ⟨ds, t, colon, vs, e, hd, ht, -⟩ := hf.shape
    exact ⟨ds, _, t, _, _, e, hd, ht⟩
  continues hf := by
    obtain ⟨ds, t, colon, ws, rfl, hd, ht, hc⟩ := hf.shape
    rw [List.append_assoc]
    exact continuesBlock_of_next hd ht (by simp [Token.isName, Token.name?, hc])
  reads hf hn := inputValue_reads hf hn

theorem enumValueForm : MemberForm enumValue Free.EnumValue where
  shape hv := by
    obtain ⟨ds, t, dirs, e, hd, ht, -⟩ := hv.shape
    exact ⟨ds, _, t, _, _, e, hd, ht⟩
  continues hv := by
    obtain ⟨ds, t, dirs, rfl, hd, ht, hn, -⟩ := hv.shape
    rw [List.append_assoc]
    exact continuesBlock_of_plain hd ht hn
  reads hv hn := by
    obtain ⟨ds, t, dirs, rfl, hd, ht, -, hdirs⟩ := hv.shape
    exact enumValue_reads hd ht hdirs (hn.subset (by decide))

theorem fields_reads {owner : String} {fields : List FieldDef} (h : Block Field ts fields)
    (hr : Avoids [.braceL] rest) : Reads (block owner (field owner)) line ts rest fields :=
  (fieldForm owner).block_reads (h.map fun _ _ => Field.free) hr

theorem inputFields_reads {owner : String} {fields : List InputValueDef}
    (h : Block InputValue ts fields) (hr : Avoids [.braceL] rest) :
    Reads (block owner (inputField owner)) line ts rest fields :=
  (inputFieldForm owner).block_reads (h.map fun _ _ => InputValue.free) hr

theorem enumValues_reads {owner : String} {values : List EnumValueDef}
    (h : Block EnumValue ts values) (hr : Avoids [.braceL] rest) :
    Reads (block owner enumValue) line ts rest values :=
  enumValueForm.block_reads (h.map fun _ _ => EnumValue.free) hr

end Parse

end GraphClient
