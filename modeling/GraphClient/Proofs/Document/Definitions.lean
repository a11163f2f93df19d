import GraphClient.Proofs.Document.Members

/-!
# Readings of definitions

A definition is read whole when the document ends behind it or the next definition starts
there (`AtDefinition`). Tokens are passed over up to that place if no definition starts among them
outside of brackets (`Unstarted`), as in an extension (`Inert`).
-/

namespace GraphClient

/-- What may follow a definition: the end, or the start of the next definition. -/
def AtDefinition (ts : List Token) : Prop := ts ≠ [] → startsDefinition ts = true

theorem atDefinition_nil : AtDefinition [] := fun h => absurd rfl h

/-- A definition starts with a description or with a keyword. -/
theorem startsDefinition_head {t : Token} {ts : List Token}
    (h : startsDefinition (t :: ts) = true) :
    t.isString = true ∨ t.keyword?.isSome = true := by
  cases hs : t.isString with
  | true => exact .inl rfl
  | false =>
    refine .inr ?_
    simp only [startsDefinition, afterDescription, hs, Bool.false_eq_true, if_false] at h
    split at h
    · rename_i e
      cases e
      simp only [Bool.and_eq_true] at h
      exact h.1
    · contradiction

/-- What a token must be to start no definition, whatever follows. -/
theorem startsDefinition_eq_false {t : Token} {ts : List Token} (hs : t.isString = false)
    (hk : t.keyword? = none) : startsDefinition (t :: ts) = false := by
  cases h : startsDefinition (t :: ts) with
  | false => rfl
  | true => rcases startsDefinition_head h with h | h <;> simp_all

theorem Token.not_string_of_punctuator {t : Token} {p : Punctuator} (h : t.kind = .punctuator p) :
    t.isString = false ∧ t.keyword? = none := by
  simp [Token.isString, Token.string?, Token.keyword?, Token.name?, h]

theorem AtDefinition.avoids {ps : List Punctuator} {ts : List Token} (h : AtDefinition ts) :
    Avoids ps ts := by
  cases ts with
  | nil => exact avoids_nil ps
  | cons t ts =>
    rw [avoids_cons]
    intro p _ e
    obtain ⟨hs, hk⟩ := Token.not_string_of_punctuator e
    have hf : startsDefinition (t :: ts) = false := startsDefinition_eq_false hs hk
    rw [h (by simp)] at hf
    cases hf

/-- What may follow the name of an object or interface: a directive, a block, or what may
follow a definition. -/
def BehindName (ts : List Token) : Prop :=
  AtDefinition ts ∨
    ∃ t us, ts = t :: us ∧ ∃ p ∈ [Punctuator.atSign, .braceL], t.kind = .punctuator p

theorem BehindName.endsInterfaces {ts : List Token} (h : BehindName ts) :
    Parse.EndsInterfaces ts := by
  rcases h with h | ⟨t, us, rfl, p, hp, ht⟩
  · exact ⟨h.avoids, fun t ht _ => h (by rintro rfl; cases ht)⟩
  · have hne : p ≠ .amp := by rintro rfl; revert hp; decide
    refine ⟨avoids_of_kind ht (by simpa using hne), fun u hu hn => ?_⟩
    cases hu
    simp [Token.isName, Token.name?, ht] at hn

theorem BehindName.not_implements {ts : List Token} (h : BehindName ts) :
    ∀ t ∈ ts.head?, t.kind ≠ .name "implements" := by
  intro t ht e
  rcases h with h | ⟨u, us, rfl, p, -, hu⟩
  · have hf : startsDefinition ts = false := by
      cases ts with
      | nil => cases ht
      | cons u us =>
        cases ht
        apply startsDefinition_eq_false (by simp [Token.isString, Token.string?, e])
        simp only [Token.keyword?, Token.name?, e, Option.bind_some]
        decide
    rw [h (by rintro rfl; cases ht)] at hf
    cases hf
  · cases ht
    rw [hu] at e
    cases e

/-! ## Balanced members -/

section Balance

variable {ks ls : List TokenKind}

theorem Balanced.append (h : Balanced ks) (h' : Balanced ls) : Balanced (ks ++ ls) := by
  induction h with
  | nil => exact h'
  | token hb _ ih => exact .token hb ih
  | group ho hk _ _ ih =>
    rw [List.cons_append, List.append_assoc, List.cons_append]
    exact .group ho hk ih

theorem Balanced.single {k : TokenKind} (h : k.isBracket = false) : Balanced [k] := .token h .nil

theorem Balanced.enclosed {o c : Punctuator} (ho : o.Encloses c) (h : Balanced ks) :
    Balanced (.punctuator o :: (ks ++ [.punctuator c])) := .group ho h .nil

theorem TypeRef.balanced (type : TypeRef) : Balanced type.kinds := by
  induction type with
  | named n => exact .single rfl
  | list element ih => exact .enclosed .brackets ih
  | nonNull inner ih => exact ih.append (.single rfl)

end Balance

namespace Grammar

theorem Free.Directives.balanced {ks : List TokenKind} (h : Free.Directives ks) : Balanced ks := by
  induction h with
  | nil => exact .nil
  | bare _ _ ih => exact .token rfl (.token rfl ih)
  | withArguments _ hk _ ih => exact .token rfl (.token rfl (.group .parens hk ih))

theorem Literal.balanced {ks : List TokenKind} (h : Literal ks) : Balanced ks := by
  cases h with
  | name | int | float | string | blockString => exact .single rfl
  | dollar n => exact .token rfl (.single rfl)
  | list hb => exact .enclosed .brackets hb
  | object hb => exact .enclosed .braces hb

variable {α : Type} {ts : List Token}

theorem Description.balanced {d : Option String} (h : Description ts d) :
    Balanced (kindsOf ts) := by
  cases h with
  | none => exact .nil
  | @string t s hs =>
    refine .single ?_
    show t.kind.isBracket = false
    cases hk : t.kind <;> first | rfl | simp [Token.string?, hk] at hs

theorem Default.balanced {v : Option String} (h : Default ts v) : Balanced (kindsOf ts) := by
  cases h with
  | none => exact .nil
  | value he hv =>
    rw [kindsOf, List.map_cons, he]
    exact .token rfl hv.balanced

theorem Many.balanced {P : List Token → α → Prop} {as : List α} (h : Many P ts as)
    (hP : ∀ us a, P us a → Balanced (kindsOf us)) : Balanced (kindsOf ts) := by
  induction h with
  | nil => exact .nil
  | cons ha _ ih =>
    rw [kindsOf_append]
    exact (hP _ _ ha).append ih

theorem Free.InputValue.balanced {v : InputValueDef} (h : Free.InputValue ts v) :
    Balanced (kindsOf ts) := by
  obtain ⟨hd, ht, hc, htys, -, hv, hdirs⟩ := h
  simp only [kindsOf, List.map_append, List.map_cons, ht, hc] at htys ⊢
  rw [htys]
  refine hd.balanced.append (.token rfl (.token rfl ?_))
  exact (TypeRef.balanced _).append (hv.balanced.append hdirs.balanced)

theorem InputValue.balanced {v : InputValueDef} (h : InputValue ts v) : Balanced (kindsOf ts) :=
  h.free.balanced

theorem Free.Arguments.balanced {args : List InputValueDef} (h : Free.Arguments ts args) :
    Balanced (kindsOf ts) := by
  cases h with
  | none => exact .nil
  | list ho hm hc =>
    simp only [kindsOf, List.map_cons, List.map_append, List.map_nil, ho, hc]
    exact .enclosed .parens (hm.balanced fun _ _ => Free.InputValue.balanced)

theorem Free.Field.balanced {f : FieldDef} (h : Free.Field ts f) : Balanced (kindsOf ts) := by
  obtain ⟨hd, ht, ha, hc, htys, -, hdirs⟩ := h
  simp only [kindsOf, List.map_append, List.map_cons, ht, hc] at htys ⊢
  rw [htys]
  refine hd.balanced.append (.token rfl (ha.balanced.append (.token rfl ?_)))
  exact (TypeRef.balanced _).append hdirs.balanced

theorem Field.balanced {f : FieldDef} (h : Field ts f) : Balanced (kindsOf ts) := h.free.balanced

theorem EnumValue.balanced {v : EnumValueDef} (h : EnumValue ts v) : Balanced (kindsOf ts) := by
  obtain ⟨hd, ht, -, hdirs⟩ := h
  rw [kindsOf, List.map_append, List.map_cons, ht]
  exact hd.balanced.append (.token rfl hdirs.free.balanced)

/-- A block of balanced members is a group in braces. -/
theorem Block.group {P : List Token → α → Prop} {as : List α} (h : Block P ts as)
    (hP : ∀ us a, P us a → Balanced (kindsOf us)) : Group .braceL .braceR (kindsOf ts) := by
  cases h with
  | none => exact .none
  | members ho hm hc =>
    simp only [kindsOf, List.map_cons, List.map_append, List.map_nil, ho, hc]
    exact .some (hm.balanced hP)

theorem Group.avoids {o c : Punctuator} {ps : List Punctuator} {rest : List Token}
    (h : Group o c (kindsOf ts)) (hr : Avoids ps rest) (hp : o ∉ ps) : Avoids ps (ts ++ rest) := by
  rcases h.nil_or_cons with rfl | ⟨t, us, rfl, ht⟩
  · exact hr
  · exact avoids_of_kind ht hp

theorem Group.behindName {rest : List Token} (h : Group .braceL .braceR (kindsOf ts))
    (hr : AtDefinition rest) : BehindName (ts ++ rest) := by
  rcases h.nil_or_cons with rfl | ⟨t, us, rfl, ht⟩
  · exact .inl hr
  · exact .inr ⟨t, us ++ rest, rfl, _, by decide, ht⟩

theorem Free.Directives.behindName {rest : List Token} (h : Free.Directives (kindsOf ts))
    (hr : BehindName rest) : BehindName (ts ++ rest) := by
  rcases h.nil_or_cons with rfl | ⟨a, us, rfl, ha⟩
  · exact hr
  · exact .inr ⟨a, us ++ rest, rfl, _, by decide, ha⟩

/-! ## Passing to the next definition -/

/-- Kinds among which nothing starts a definition outside of brackets. -/
inductive Inert : List TokenKind → Prop where
  | nil : Inert []
  | token {k : TokenKind} {ks : List TokenKind} : k.isBracket = false →
      (∀ n, k = .name n → Plain n) → (∀ s, k ≠ .string s) → (∀ s, k ≠ .blockString s) →
      Inert ks → Inert (k :: ks)
  | group {o c : Punctuator} {ks ls : List TokenKind} : o.Encloses c → Balanced ks → Inert ls →
      Inert (.punctuator o :: (ks ++ .punctuator c :: ls))

section Inert

variable {n : String} {p : Punctuator} {ks ls : List TokenKind}

theorem Inert.append (h : Inert ks) (h' : Inert ls) : Inert (ks ++ ls) := by
  induction h with
  | nil => exact h'
  | token hb hn hs ht _ ih => exact .token hb hn hs ht ih
  | group ho hk _ ih =>
    rw [List.cons_append, List.append_assoc, List.cons_append]
    exact .group ho hk ih

theorem Inert.balanced (h : Inert ks) : Balanced ks := by
  induction h with
  | nil => exact .nil
  | token hb _ _ _ _ ih => exact .token hb ih
  | group ho hk _ ih => exact .group ho hk ih

theorem Inert.name (hn : Plain n) (h : Inert ks) : Inert (.name n :: ks) :=
  .token rfl (fun m e => by cases e; exact hn) (by simp) (by simp) h

theorem Inert.punctuator (hp : (TokenKind.punctuator p).isBracket = false) (h : Inert ks) :
    Inert (.punctuator p :: ks) :=
  .token hp (by simp) (by simp) (by simp) h

theorem Directives.inert (h : Directives ks) : Inert ks := by
  induction h with
  | nil => exact .nil
  | bare hn _ ih => exact .punctuator rfl (.name hn ih)
  | withArguments hn hk _ ih => exact .punctuator rfl (.name hn (.group .parens hk ih))

theorem inert_separated (hp : (TokenKind.punctuator p).isBracket = false) {ns : List String}
    (h : ∀ m ∈ n :: ns, Plain m) : Inert (separated p (n :: ns)) := by
  refine .name (h n (by simp)) ?_
  induction ns with
  | nil => exact .nil
  | cons m ns ih =>
    have hm : ∀ l ∈ n :: ns, Plain l := fun l hl => h l <| by
      rcases List.mem_cons.mp hl with rfl | hl
      · exact List.mem_cons_self
      · exact List.mem_cons_of_mem _ (List.mem_cons_of_mem _ hl)
    exact .punctuator hp (.name (h m (by simp)) (ih hm))

theorem Listed.inert (hp : (TokenKind.punctuator p).isBracket = false) (h : Listed p ks) :
    Inert ks := by
  cases h with
  | plain hn => exact inert_separated hp hn
  | led hn => exact .punctuator hp (inert_separated hp hn)

theorem Interfaces.inert (h : Interfaces ks) : Inert ks := by
  cases h with
  | none => exact .nil
  | list hl => exact .name rfl (hl.inert rfl)

theorem Alternatives.inert (h : Alternatives ks) : Inert ks := by
  cases h with
  | none => exact .nil
  | list hl => exact .punctuator rfl (hl.inert rfl)

theorem Group.inert {o c : Punctuator} (ho : o.Encloses c) (h : Group o c ks) : Inert ks := by
  cases h with
  | none => exact .nil
  | some hk => exact .group ho hk .nil

/-- Behind its second word, an extension holds nothing that starts a definition. -/
theorem Extension.inert (h : Extension ks) : ∃ w ls, ks = .name w :: ls ∧ Inert ls := by
  cases h with
  | scalar hn hd => exact ⟨_, _, rfl, .name hn hd.inert⟩
  | enum hn hd hg => exact ⟨_, _, rfl, .name hn (hd.inert.append (hg.inert .braces))⟩
  | type hn hi hd hg =>
    exact ⟨_, _, rfl, .name hn (hi.inert.append (hd.inert.append (hg.inert .braces)))⟩
  | input hn hd hg => exact ⟨_, _, rfl, .name hn (hd.inert.append (hg.inert .braces))⟩
  | interface hn hi hd hg =>
    exact ⟨_, _, rfl, .name hn (hi.inert.append (hd.inert.append (hg.inert .braces)))⟩
  | union hn hd ha => exact ⟨_, _, rfl, .name hn (hd.inert.append ha.inert)⟩
  | schema hd hg => exact ⟨_, _, rfl, hd.inert.append (hg.inert .braces)⟩

end Inert

/-- Tokens with properly nested brackets in front of `rest`, among which no definition starts
outside of brackets. -/
inductive Unstarted (rest : List Token) : List Token → Prop where
  | nil : Unstarted rest []
  | token {t : Token} {ts : List Token} : t.kind.isBracket = false →
      startsDefinition (t :: (ts ++ rest)) = false → Unstarted rest ts → Unstarted rest (t :: ts)
  | group {o c : Punctuator} {t u : Token} {ts us : List Token} : o.Encloses c →
      t.kind = .punctuator o → Balanced (kindsOf ts) → u.kind = .punctuator c →
      Unstarted rest us → Unstarted rest (t :: (ts ++ u :: us))

theorem keyword?_of_plain {t : Token} (h : ∀ n, t.kind = .name n → Plain n) :
    t.keyword? = none := by
  cases hn : t.name? with
  | none => rw [Token.keyword?, hn, Option.bind_none]
  | some n =>
    rw [Token.keyword?, hn, Option.bind_some]
    exact h n (Token.name?_eq_some.mp hn)

theorem Inert.unstarted {ts rest : List Token} (h : Inert (kindsOf ts)) : Unstarted rest ts := by
  generalize hk : kindsOf ts = ks at h
  induction h generalizing ts with
  | nil =>
    rw [kindsOf_eq_nil.mp hk]
    exact .nil
  | token hb hn hs hbs _ ih =>
    obtain ⟨t, us, rfl, rfl, hus⟩ := kindsOf_eq_cons.mp hk
    have hstr : t.isString = false := by
      cases e : t.kind <;> simp_all [Token.isString, Token.string?]
    exact .token hb (startsDefinition_eq_false hstr (keyword?_of_plain hn)) (ih hus)
  | group ho hks _ ih =>
    obtain ⟨t, us, rfl, ht, hus⟩ := kindsOf_eq_cons.mp hk
    obtain ⟨vs, ws, rfl, rfl, hws⟩ := kindsOf_eq_append.mp hus
    obtain ⟨u, xs, rfl, hu, hxs⟩ := kindsOf_eq_cons.mp hws
    exact .group ho ht hks hu (ih hxs)

end Grammar

namespace Token

variable {t : Token} {depth : Nat}

theorem nest_opening {o c : Punctuator} (h : o.Encloses c) (ht : t.kind = .punctuator o) :
    t.nest depth = depth + 1 := by
  cases h <;> simp [nest, Token.is, ht]

theorem nest_closing {o c : Punctuator} (h : o.Encloses c) (ht : t.kind = .punctuator c) :
    t.nest depth = depth - 1 := by
  cases h <;> simp [nest, Token.is, ht]

theorem nest_other (h : t.kind.isBracket = false) : t.nest depth = depth := by
  have hn : ∀ p, (TokenKind.punctuator p).isBracket = true → t.is p = false := fun p hp =>
    Token.is_eq_false fun e => by rw [e, hp] at h; cases h
  simp [nest, hn .braceL rfl, hn .bracketL rfl, hn .parenL rfl, hn .braceR rfl, hn .bracketR rfl,
    hn .parenR rfl]

end Token

namespace Cursor

open Grammar

variable {depth line : Nat} {ts rest : List Token}

theorem seekDefinition_inside {t : Token} (hd : 1 ≤ depth) :
    seekDefinition depth line (t :: ts) = seekDefinition (t.nest depth) t.line ts := by
  rw [seekDefinition, if_neg (by omega)]

/-- Nothing inside of brackets is taken for a definition. -/
theorem seekDefinition_balanced {ks : List TokenKind} (h : Balanced ks) (hk : kindsOf ts = ks)
    (hd : 1 ≤ depth) :
    seekDefinition depth line (ts ++ rest) = seekDefinition depth (lastLine line ts) rest := by
  induction h generalizing ts depth line rest with
  | nil => rw [kindsOf_eq_nil.mp hk]; rfl
  | token hb _ ih =>
    obtain ⟨t, us, rfl, rfl, hus⟩ := kindsOf_eq_cons.mp hk
    rw [List.cons_append, seekDefinition_inside hd, Token.nest_other hb, ih hus hd, lastLine_cons]
  | group ho _ _ ihk ihl =>
    obtain ⟨t, us, rfl, ht, hus⟩ := kindsOf_eq_cons.mp hk
    obtain ⟨vs, ws, rfl, hvs, hws⟩ := kindsOf_eq_append.mp hus
    obtain ⟨u, xs, rfl, hu, hxs⟩ := kindsOf_eq_cons.mp hws
    simp only [List.cons_append, List.append_assoc, lastLine_cons, lastLine_append]
    rw [seekDefinition_inside hd, Token.nest_opening ho ht, ihk hvs (by omega),
      seekDefinition_inside (by omega), Token.nest_closing ho hu, Nat.add_sub_cancel, ihl hxs hd]

/-- Tokens among which nothing starts are passed over. -/
theorem seekDefinition_unstarted (h : Unstarted rest ts) :
    seekDefinition 0 line (ts ++ rest) = seekDefinition 0 (lastLine line ts) rest := by
  induction h generalizing line with
  | nil => rfl
  | token hb hs _ ih =>
    rw [List.cons_append, seekDefinition, hs, if_neg (by simp), Token.nest_other hb, ih,
      lastLine_cons]
  | group ho ht hts hu _ ih =>
    obtain ⟨hstr, hkey⟩ := Token.not_string_of_punctuator ht
    simp only [List.cons_append, List.append_assoc, lastLine_cons, lastLine_append]
    rw [seekDefinition, startsDefinition_eq_false hstr hkey, if_neg (by simp),
      Token.nest_opening ho ht, seekDefinition_balanced hts rfl (by omega),
      seekDefinition_inside (by omega), Token.nest_closing ho hu, Nat.add_sub_cancel, ih]

theorem seekDefinition_at (h : AtDefinition rest) : seekDefinition 0 line rest = ⟨line, rest⟩ := by
  cases rest with
  | nil => rfl
  | cons t ts => rw [seekDefinition, if_pos ⟨rfl, h (by simp)⟩]

end Cursor

end GraphClient
