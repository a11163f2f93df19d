import GraphClient.Proofs.Document.Followed
import GraphClient.Proofs.Document.Payment
import GraphClient.Proofs.Token.Charges

/-!
# Reading always goes on

No reader of a document goes back (`OnlyForward`), and each round of a loop over definitions,
members or arguments reads a token at least, or an issue ends the loop (`Advances`): the token at
which a member or a definition fails is passed before reading goes on. So the loops end of
themselves (`loop_iterates`), and each warning is paid for with a token of its own. The tokens
are charged to units of the text, so a document has no more warnings than its text has units
(`Document.reading_progresses`).
-/

namespace GraphClient

namespace Parse

variable {α : Type} {c : Cursor} {k n : Nat}

/-! ## Loops -/

/-- Each round of a loop reads a token at least, or an issue ends the loop. -/
def Advances (continues : Cursor → Bool) (step : Parse (Option α)) : Prop :=
  ∀ c, continues c = true → (step c).cursor.rest.length < c.rest.length ∨
    ∃ i, (step c).result = .error i

/-- A loop that goes on as long as it may and ends with an issue, with nothing that makes sure
that it ends otherwise. A round that is followed by another reads a token at least. -/
inductive Iterates (continues : Cursor → Bool) (step : Parse (Option α)) :
    Cursor → Outcome (List α) → Prop where
  | stop {c : Cursor} : continues c = false → Iterates continues step c ⟨[], c, .ok []⟩
  | issue {c d : Cursor} {ws : List Warning} {i : Issue} : continues c = true →
    step c = ⟨ws, d, .error i⟩ → Iterates continues step c ⟨ws, d, .error i⟩
  | next {c d : Cursor} {ws : List Warning} {a : Option α} {o : Outcome (List α)} :
    continues c = true → step c = ⟨ws, d, .ok a⟩ → d.rest.length < c.rest.length →
    Iterates continues step d o → Iterates continues step c
      ((o.andThen fun as => pure (a.toList ++ as)).withEarlier ws)

theorem loop_iterates {continues : Cursor → Bool} {step : Parse (Option α)}
    (h : Advances continues step) (c : Cursor) :
    Iterates continues step c (loop continues step c) := by
  induction hn : c.rest.length using Nat.strongRecOn generalizing c with
  | _ n ih =>
    cases hc : continues c with
    | false =>
      rw [loop_stop hc]
      exact .stop hc
    | true =>
      have hstep := h c hc
      rcases hs : step c with ⟨ws, d, i | a⟩
      · rw [loop_error hc hs]
        exact .issue hc hs
      · rw [hs] at hstep
        have hlt : d.rest.length < c.rest.length := hstep.resolve_right nofun
        rw [loop_step hc hs hlt]
        exact .next hc hs hlt (ih _ (hn ▸ hlt) d rfl)

/-! ## Members -/

/-- From `c` a reader reads a token at least, pays for its warnings, and meets no issue. -/
structure Passing (p : Parse α) (c : Cursor) : Prop where
  shorter : (p c).cursor.rest.length < c.rest.length
  result : ∃ a, (p c).result = .ok a
  pays : ∀ k n, PaysAt k p k n c

theorem passing_of_ok {p : Parse α} {ws : List Warning} {d : Cursor} {a : α}
    (h : p c = ⟨ws, d, .ok a⟩) (hd : d.rest.length < c.rest.length)
    (hw : ws.length + d.rest.length ≤ c.rest.length) : Passing p c := by
  refine ⟨by rw [h]; exact hd, ⟨a, by rw [h]⟩, fun k n => ?_⟩
  rw [paysAt_ok h]
  omega

/-- Behind an issue that no brace raised, its token is passed. -/
theorem toMember_shorter {t : Token} {ts : List Token} {line : Nat}
    (h : t.is .braceR = false) :
    (Cursor.toMember t.line ⟨line, t :: ts⟩).rest.length < (t :: ts).length := by
  have hp := (@seekMember_passes ts (t.nest 0) t.line t.line).suffix.length_le
  rw [Cursor.toMember, Cursor.seekMember, if_neg (by simp [h])]
  exact Nat.lt_succ_of_le hp

theorem length_afterDescription_le (ts : List Token) :
    (afterDescription ts).length ≤ ts.length := by
  cases ts with
  | nil => exact Nat.le_refl _
  | cons t ts =>
    rw [afterDescription]
    split
    · exact Nat.le_succ _
    · exact Nat.le_refl _

/-- Where a member has no name, the token in its place is passed, or its description is. -/
theorem toMember_unnamed {line : Nat} (hc : c.rest ≠ []) (hb : nextIs .braceR c = false) :
    (Cursor.toMember (Issue.line ⟨(afterDescription c.rest).head?.map (·.toOccurrence), .name⟩)
      ⟨line, afterDescription c.rest⟩).rest.length < c.rest.length := by
  obtain ⟨t, ts, ht⟩ := List.exists_cons_of_ne_nil hc
  rw [nextIs, ht, List.head?_cons, Option.any_some] at hb
  rw [ht, afterDescription]
  split
  · exact Nat.lt_succ_of_le seekMember_passes.suffix.length_le
  · exact toMember_shorter hb

/-- A member behind its name is passed, or what its issue leaves of it. -/
theorem passing_named {p q : Parse α} {d : Cursor} (hq : PaidByName q) (h : p c = q d)
    (hd : d.rest.length < c.rest.length) (owner : String) : Passing (member owner p) c := by
  have hpass : (q d).cursor.rest.length ≤ d.rest.length :=
    (hq.isLocal d).passes.suffix.length_le
  have hpay := hq.pays 0 d
  rcases hr : q d with ⟨ws, e, i | a⟩ <;> rw [hr] at h <;> simp only [hr] at hpass
  · have hseek : (e.toMember i.line).rest.length ≤ e.rest.length :=
      seekMember_passes.suffix.length_le
    rw [paysAt_error hr] at hpay
    refine passing_of_ok (member_error h) (by omega) ?_
    rw [List.length_append, List.length_singleton]
    omega
  · rw [paysAt_ok hr] at hpay
    exact passing_of_ok (member_ok h) (by omega) (by omega)

/-- A member of a block, or what stands in its place, is passed. -/
theorem PaidMember.passing {p : Parse α} (hp : PaidMember p) (owner : String)
    (hc : continuesBlock c = true) : Passing (member owner p) c := by
  obtain ⟨behind, rfl, hpaid⟩ := hp
  obtain ⟨hcont, -⟩ := (Bool.and_eq_true _ _).mp hc
  obtain ⟨hne, hb⟩ := (Bool.and_eq_true _ _).mp hcont
  have hne : c.rest ≠ [] := by simpa using hne
  have hb : nextIs .braceR c = false := by simpa using hb
  obtain ⟨a, line, hd⟩ := description_apply c
  have hle := length_afterDescription_le c.rest
  cases hn : (afterDescription c.rest).head?.bind Token.name? with
  | none =>
    have h : (do
        let d ← description
        let n ← name
        behind d n) c = ⟨[], ⟨line, afterDescription c.rest⟩,
          .error ⟨(afterDescription c.rest).head?.map (·.toOccurrence), .name⟩⟩ := by
      rw [bind_apply, hd, Outcome.andThen_ok, bind_apply,
        name_of_none (c := ⟨line, afterDescription c.rest⟩) hn]
      rfl
    have hlt := @toMember_unnamed c line hne hb
    exact passing_of_ok (member_error h) hlt (by rw [List.nil_append, List.length_singleton]; omega)
  | some text =>
    have h : (do
        let d ← description
        let n ← name
        behind d n) c = behind a text (Cursor.advance ⟨line, afterDescription c.rest⟩) := by
      rw [bind_apply, hd, Outcome.andThen_ok, bind_apply,
        name_of_some (c := ⟨line, afterDescription c.rest⟩) hn]
      rfl
    obtain ⟨t, ht, -⟩ := Option.bind_eq_some_iff.mp hn
    obtain ⟨ts, hts⟩ := List.head?_eq_some_iff.mp ht
    refine passing_named (hpaid a text) h ?_ owner
    rw [hts, List.length_cons] at hle
    rw [Cursor.advance, hts]
    exact hle

/-! ## Definitions -/

theorem pays_block {owner : String} {p : Parse α} (hp : PaidMember p) :
    Pays k (block owner p) k n := by
  refine Pays.accept ?_ (pays_pure _)
  refine Pays.bind (pays_loop fun c hc => (hp.passing owner hc).pays _ n) (fun as => ?_)
    (Nat.le_refl n)
  refine Pays.bind (pays_accept (n := n) _) (fun b => ?_) (Nat.le_refl n)
  cases b
  · exact Pays.bind (pays_warn (n := n) _) (fun _ => pays_pure _) (Nat.le_refl n)
  · exact (pays_pure _).less (Nat.le_succ k)

theorem pays_tentative {p : Parse Unit} (hp : Pays k p k k) : Pays k (tentative p) k n := by
  intro c
  have h := hp c
  rcases hr : p c with ⟨ws, d, i | u⟩
  · rw [paysAt_error hr] at h
    rwa [paysAt_ok (show tentative p c = ⟨ws, d, .ok (some i)⟩ by rw [tentative, hr])]
  · rw [paysAt_ok hr] at h
    rwa [paysAt_ok (show tentative p c = ⟨ws, d, .ok none⟩ by rw [tentative, hr])]

/-- A name and what the form of a definition has behind it. -/
theorem pays_naming {p : String → Parse α} (h : ∀ text, Pays (k + 1) (p text) k k) :
    Pays k (name >>= p) k k := Pays.bind pays_name h (Nat.le_refl k)

theorem pays_body (d : Option String) (keyword : Keyword) : Pays k (body d keyword) k k := by
  have hle : k ≤ k + 1 := Nat.le_succ k
  have hl : k ≤ k + 1 + 1 := Nat.le_succ_of_le hle
  cases keyword with
  | scalar =>
    exact pays_naming fun _ => Pays.bind pays_directives (fun _ => (pays_pure _).less hle) hl
  | enum =>
    exact pays_naming fun _ => Pays.bind pays_directives (fun _ => Pays.bind
      (pays_block paid_enumValue) (fun _ => (pays_pure _).less hle) (Nat.le_refl k)) hl
  | type =>
    exact pays_naming fun _ => Pays.bind pays_interfaces (fun _ => Pays.bind pays_directives
      (fun _ => Pays.bind (pays_block (paid_field _)) (fun _ => (pays_pure _).less hle)
        (Nat.le_refl k)) hl) hle
  | input =>
    exact pays_naming fun _ => Pays.bind pays_directives (fun _ => Pays.bind
      (pays_block (paid_inputValue _)) (fun _ => (pays_pure _).less hle) (Nat.le_refl k)) hl
  | interface =>
    refine pays_naming fun _ => Pays.bind (pays_tentative (n := k) ?_)
      (fun _ => (pays_pure _).less hle) (Nat.le_refl k)
    exact Pays.bind pays_interfaces (fun _ => Pays.bind pays_directives (fun _ => pays_braces)
      (Nat.le_succ _)) (Nat.le_refl _)
  | union =>
    refine pays_naming fun _ => Pays.bind (pays_tentative (n := k) ?_)
      (fun _ => (pays_pure _).less hle) (Nat.le_refl k)
    refine Pays.bind pays_directives (fun _ => Pays.accept ?_ (pays_pure _)) (Nat.le_succ _)
    exact pays_alternatives.weaken (Nat.le_succ _) (Nat.le_succ _)
  | schema =>
    exact Pays.bind pays_directives (fun _ => Pays.bind pays_braces (fun _ => pays_pure _)
      (Nat.le_refl k)) hle
  | directive =>
    exact Pays.bind pays_directiveDefinition (fun _ => pays_pure _) (Nat.le_refl k)
  | extend =>
    exact Pays.bind (pays_advance (n := k)) (fun _ => Pays.bind
      (pays_move (n := k) fun c => (local_toDefinition c).passes) (fun _ => pays_pure _)
      (Nat.le_refl k)) (Nat.le_refl k)

/-- Where reading goes on behind an issue, something is passed. -/
theorem resume_shorter {d : Cursor} {x : Nat} (hx : 0 < x) (hd : d.rest.length ≤ x) :
    (resume x d).rest.length < x := by
  rw [resume]
  split
  · rename_i he
    have hseek : (Cursor.toDefinition d.advance).rest.length ≤ d.advance.rest.length :=
      seekDefinition_passes.suffix.length_le
    have hadv : d.advance.rest.length < d.rest.length := by
      obtain ⟨t, ts, ht⟩ := List.exists_cons_of_ne_nil (List.ne_nil_of_length_pos (he ▸ hx))
      rw [Cursor.advance, ht]
      exact Nat.lt_succ_self _
    omega
  · have hseek : (Cursor.toDefinition d).rest.length ≤ d.rest.length :=
      seekDefinition_passes.suffix.length_le
    omega

theorem resume_le (x : Nat) (d : Cursor) : (resume x d).rest.length ≤ d.rest.length :=
  (resume_passes x d).suffix.length_le

/-- A definition is passed that leaves a token in hand for the warning of its issue. -/
theorem passing_of_definition {ws : List Warning} {e : Cursor}
    {r : Except Issue (Option GraphClient.Definition × Option Issue)}
    (h : definition c = ⟨ws, e, r⟩) (hp : 1 + ws.length + e.rest.length ≤ c.rest.length) :
    Passing entry c := by
  have hres := resume_le c.rest.length e
  rcases r with i | ⟨x, _ | i⟩
  · refine passing_of_ok (entry_recovers (.inr ⟨h, rfl⟩)) (by omega) ?_
    rw [List.length_append, List.length_singleton]
    omega
  · exact passing_of_ok (entry_ok h) (by omega) (by omega)
  · refine passing_of_ok (entry_recovers (.inl h)) (by omega) ?_
    rw [List.length_append, List.length_singleton]
    omega

/-- A definition, or what stands in its place, is passed. -/
theorem entry_passing (hc : c.rest ≠ []) : Passing entry c := by
  have hle := length_afterDescription_le c.rest
  obtain ⟨a, line, hd⟩ := description_apply c
  have hdef := definition_apply hd
  cases hk : (afterDescription c.rest).head?.bind Token.keyword? with
  | none =>
    rw [hk] at hdef
    have hlt := resume_shorter (d := ⟨line, afterDescription c.rest⟩)
      (List.length_pos_of_ne_nil hc) hle
    refine passing_of_ok (entry_recovers (.inr ⟨hdef, rfl⟩)) hlt ?_
    rw [List.nil_append, List.length_singleton]
    omega
  | some keyword =>
    rw [hk] at hdef
    obtain ⟨t, ht, -⟩ := Option.bind_eq_some_iff.mp hk
    have hne : afterDescription c.rest ≠ [] := List.ne_nil_of_mem (List.mem_of_mem_head? ht)
    -- the keyword is in hand behind the definition, whether or not an issue stops it
    have hpay : PaysAt 0 (described a (some keyword)) 1 1 ⟨line, afterDescription c.rest⟩ :=
      (paysAt_advance hne).bind (fun _ _ => pays_body a keyword _) (Nat.le_refl 1)
    rcases hr : described a (some keyword) ⟨line, afterDescription c.rest⟩ with ⟨ws, e, r⟩
    rw [hr] at hdef
    refine passing_of_definition hdef ?_
    rw [PaysAt, hr, Nat.zero_add] at hpay
    exact Nat.le_trans (by cases r <;> exact hpay) hle

theorem pays_definitions : Pays k definitions k n :=
  pays_loop fun _ hc => (entry_passing (by simpa using hc)).pays k n

/-! ## Every reader goes forward -/

/-- A reader ends behind tokens that it reads or passes, or where it began. -/
def Forward (p : Parse α) : Prop := ∀ c : Cursor, c.Passes (p c).cursor

theorem Local.forward {p : Parse α} (h : Local p) : Forward p := fun c => (h c).passes

/-- No reader of a document goes back. -/
structure OnlyForward : Prop where
  advance : Forward advance
  accept : ∀ p, Forward (accept p)
  expect : ∀ p, Forward (expect p)
  name : Forward name
  description : Forward description
  group : ∀ opening closing, Forward (group opening closing)
  directives : Forward directives
  alternatives : Forward alternatives
  interfaces : Forward interfaces
  directiveDefinition : Forward directiveDefinition
  typeRef : Forward typeRef
  elementType : ∀ element, Forward ( typeAnnotation element)
  anyValue : Forward anyValue
  defaultValue : Forward defaultValue
  inputValue : ∀ element, Forward (inputValue element)
  arguments : ∀ owner, Forward (arguments owner)
  field : ∀ owner, Forward (field owner)
  enumValue : Forward enumValue
  toMember : ∀ line, Forward (move (Cursor.toMember line))
  toDefinition : Forward (move Cursor.toDefinition)
  fields : ∀ owner, Forward (block owner (Parse.field owner))
  inputFields : ∀ owner, Forward (block owner (inputField owner))
  values : ∀ owner, Forward (block owner Parse.enumValue)
  definition : Forward definition
  recover : ∀ count issue, Forward (recover count issue)
  entry : Forward entry
  definitions : Forward definitions

theorem onlyForward : OnlyForward where
  advance := local_advance.forward
  accept p := (local_accept p).forward
  expect p := (local_expect p).forward
  name := local_name.forward
  description := local_description.forward
  group opening closing := (local_group opening closing).forward
  directives := local_directives.forward
  alternatives := local_alternatives.forward
  interfaces := local_interfaces.forward
  directiveDefinition := local_directiveDefinition.forward
  typeRef := local_typeRef.forward
  elementType element := (local_elementType element).forward
  anyValue := local_anyValue.forward
  defaultValue := local_defaultValue.forward
  inputValue element := (local_inputValue element).forward
  arguments owner := (local_arguments owner).forward
  field owner := (local_field owner).forward
  enumValue := local_enumValue.forward
  toMember _ _ := seekMember_passes
  toDefinition := local_toDefinition.forward
  fields owner := (local_block (local_field owner)).forward
  inputFields owner := (local_block (local_inputField owner)).forward
  values _ := (local_block local_enumValue).forward
  definition c := (local_definition c).passes
  recover count _ c := resume_passes count c
  entry := local_entry.forward
  definitions := local_definitions.forward

/-! ## The loops -/

/-- The reader of an argument in parentheses. -/
def argument (owner : String) : Parse (Option InputValueDef) := do
  return some (← inputValue fun name => owner ++ "(" ++ name ++ ")")

/-- Arguments are read by the loop over this reader, between their parentheses. -/
theorem arguments_eq (owner : String) : arguments owner = (do
    if ← accept .parenL then
      let args ← loop (continuesUntil .parenR) (argument owner)
      expect .parenR
      return args
    else return []) := rfl

/-- A member that is read takes its name at least. -/
theorem PaidMember.shorter {p : Parse α} (hp : PaidMember p) {ws : List Warning} {d : Cursor}
    {a : α} (h : p c = ⟨ws, d, .ok a⟩) : d.rest.length < c.rest.length := by
  obtain ⟨behind, rfl, hpaid⟩ := hp
  obtain ⟨us, e, b, vs, hdescription, h, -⟩ := bind_eq_ok h
  obtain ⟨us, f, text, vs, hname, hbehind, -⟩ := bind_eq_ok h
  have hd := (local_description c).passes.suffix.length_le
  have hn := @pays_name 0 e
  have hb := ((hpaid b text).isLocal f).passes.suffix.length_le
  rw [hdescription] at hd
  rw [paysAt_ok hname] at hn
  rw [hbehind] at hb
  simp only at hd hb
  omega

theorem argument_advances (owner : String) :
    Advances (continuesUntil .parenR) (argument owner) := by
  intro c _
  rcases hr : argument owner c with ⟨ws, d, i | a⟩
  · exact .inr ⟨i, rfl⟩
  · obtain ⟨us, e, v, vs, hv, hpure, -⟩ := bind_eq_ok hr
    cases hpure
    exact .inl ((paid_inputValue _).shorter hv)

/-- Each round of a loop passes something and pays for its warnings, also one with an issue. -/
def Persists (continues : Cursor → Bool) (step : Parse (Option α)) : Prop :=
  ∀ c, continues c = true → Passing step c

theorem Persists.iterates {continues : Cursor → Bool} {step : Parse (Option α)}
    (h : Persists continues step) (c : Cursor) :
    Iterates continues step c (loop continues step c) :=
  loop_iterates (fun c hc => .inl (h c hc).shorter) c

theorem persists_member {p : Parse α} (hp : PaidMember p) (owner : String) :
    Persists continuesBlock (member owner p) := fun _ hc => hp.passing owner hc

/-- The loops over definitions, over the members of the three kinds of blocks and over arguments:
a round passes something, or else an issue ends the list of arguments. -/
structure LoopsAdvance : Prop where
  definitions : Persists (fun c => !c.rest.isEmpty) entry
  fields : ∀ owner, Persists continuesBlock (member owner (field owner))
  inputFields : ∀ owner, Persists continuesBlock (member owner (inputField owner))
  values : ∀ owner, Persists continuesBlock (member owner enumValue)
  arguments : ∀ owner, Advances (continuesUntil .parenR) (argument owner)

theorem loopsAdvance : LoopsAdvance where
  definitions _ hc := entry_passing (by simpa using hc)
  fields owner := persists_member (paid_field owner) owner
  inputFields owner := persists_member (paid_inputValue _) owner
  values := persists_member paid_enumValue
  arguments := argument_advances

/-- The same loops end of themselves. -/
structure LoopsEnd : Prop where
  definitions : ∀ c, Iterates (fun c => !c.rest.isEmpty) entry c (definitions c)
  fields : ∀ owner c, Iterates continuesBlock (member owner (field owner)) c
    (loop continuesBlock (member owner (field owner)) c)
  inputFields : ∀ owner c, Iterates continuesBlock (member owner (inputField owner)) c
    (loop continuesBlock (member owner (inputField owner)) c)
  values : ∀ owner c, Iterates continuesBlock (member owner enumValue) c
    (loop continuesBlock (member owner enumValue) c)
  arguments : ∀ owner c, Iterates (continuesUntil .parenR) (argument owner) c
    (loop (continuesUntil .parenR) (argument owner) c)

theorem LoopsAdvance.ends (h : LoopsAdvance) : LoopsEnd where
  definitions := h.definitions.iterates
  fields owner := (h.fields owner).iterates
  inputFields owner := (h.inputFields owner).iterates
  values owner := (h.values owner).iterates
  arguments owner := loop_iterates (h.arguments owner)

end Parse

namespace Document

theorem ofTokens_warnings_le (ts : List Token) : (ofTokens ts).warnings.length ≤ ts.length := by
  have hp := @Parse.pays_definitions 0 0 ⟨0, ts⟩
  obtain ⟨ws, d, ds, hd⟩ := Parse.answers_definitions ⟨0, ts⟩
  rw [Parse.paysAt_ok hd] at hp
  rw [ofTokens_eq hd]
  simp only at hp ⊢
  omega

/-- Reading a text only goes forward, and each round of its loops passes a token or leaves its
loop, so the loops end of themselves. A text has at most as many faults and tokens as units, and
a fault and a token give one warning each at most. -/
theorem reading_progresses (s : String) :
    Parse.OnlyForward ∧ Parse.LoopsAdvance ∧ Parse.LoopsEnd ∧
      let t := tokenize (Source.ofString s)
      t.faults.length + t.tokens.length ≤ (Text.units s).length ∧
        (ofTokens t.tokens).warnings.length ≤ t.tokens.length ∧
        (ofString s).warnings.length ≤ (Text.units s).length := by
  refine ⟨Parse.onlyForward, Parse.loopsAdvance, Parse.loopsAdvance.ends, ?_⟩
  intro t
  have hunits : t.faults.length + t.tokens.length ≤ (Text.units s).length := by
    rw [← Source.width_ofString]
    exact (charged_tokenize _).trans (Source.solid_le_width _)
  have hw := ofTokens_warnings_le t.tokens
  refine ⟨hunits, hw, ?_⟩
  have hall : (ofString s).warnings.length =
      t.faults.length + (ofTokens t.tokens).warnings.length := by
    rw [ofString, List.length_append, List.length_map]
  omega

/-- A text whose units are all charged: the minus, the letter behind it that is blanked. -/
example : (ofString "-x").warnings.length = (Text.units "-x").length := by cbv

end Document

end GraphClient
