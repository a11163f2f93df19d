import GraphClient.Proofs.Document.LocalDefinitions

/-!
# Readers at a closing brace

Tokens that end with a closing brace may be read to their end by a block or a group in braces
only. Every other reader keeps the brace, or finds an issue at the end (`Keeps`). So a
definition that is read without warnings up to the brace does not look behind it
(`definition_closes`), unless it is an extension, which goes on to the next definition.
-/

namespace GraphClient.Parse

variable {α β : Type} {c d : Cursor}

/-! ## Keeping the brace -/

/-- A reader that answers only in front of a closing brace at the end of its tokens. -/
def Keeps (p : Parse α) : Prop :=
  ∀ c ws d a, p c = ⟨ws, d, .ok a⟩ → Ends c.rest → d.rest ≠ []

/-- A reader that answers nothing at the end of its tokens. -/
def Fails (p : Parse α) : Prop := ∀ c ws d a, c.rest = [] → p c ≠ ⟨ws, d, .ok a⟩

theorem bind_eq_ok {p : Parse α} {f : α → Parse β} {ws : List Warning} {b : β}
    (h : (p >>= f) c = ⟨ws, d, .ok b⟩) :
    ∃ us e a vs, p c = ⟨us, e, .ok a⟩ ∧ f a e = ⟨vs, d, .ok b⟩ ∧ ws = us ++ vs := by
  rw [bind_apply] at h
  rcases hp : p c with ⟨us, e, i | a⟩ <;> rw [hp] at h
  · cases h
  · rcases hf : f a e with ⟨vs, g, r⟩
    rw [Outcome.andThen_ok, hf] at h
    cases h
    exact ⟨us, e, a, vs, rfl, hf, rfl⟩

/-- Two readers that read without warnings do so one after the other. -/
theorem bind_eq_nil {p : Parse α} {f : α → Parse β} {b : β} :
    (p >>= f) c = ⟨[], d, .ok b⟩ ↔ ∃ e a, p c = ⟨[], e, .ok a⟩ ∧ f a e = ⟨[], d, .ok b⟩ := by
  constructor
  · intro h
    obtain ⟨us, e, a, vs, hp, hf, hws⟩ := bind_eq_ok h
    obtain ⟨rfl, rfl⟩ := List.append_eq_nil_iff.mp hws.symm
    exact ⟨e, a, hp, hf⟩
  · rintro ⟨e, a, hp, hf⟩
    rw [bind_apply, hp, Outcome.andThen_ok, hf]
    rfl

/-- A local reader that keeps the brace leaves tokens that end with it. -/
theorem Keeps.ends {p : Parse α} {ws : List Warning} {a : α} (hk : Keeps p) (hp : Local p)
    (h : p c = ⟨ws, d, .ok a⟩) (he : Ends c.rest) : Ends d.rest := by
  have hs := (hp c).passes.suffix
  rw [h] at hs
  exact he.of_suffix hs (hk c ws d a h he)

theorem Keeps.bind {p : Parse α} {f : α → Parse β} (hp : Local p) (hk : Keeps p)
    (hf : ∀ a, Keeps (f a)) : Keeps (p >>= f) := by
  intro c ws d b h he
  obtain ⟨us, e, a, vs, hpc, hfe, -⟩ := bind_eq_ok h
  exact hf a e vs d b hfe (hk.ends hp hpc he)

theorem Fails.bind {p : Parse α} {f : α → Parse β} (h : Fails p) : Fails (p >>= f) := by
  intro c ws d b hn hb
  obtain ⟨us, e, a, vs, hpc, -⟩ := bind_eq_ok hb
  exact h c us e a hn hpc

theorem Fails.after {p : Parse α} {f : α → Parse β} (hp : Local p) (h : ∀ a, Fails (f a)) :
    Fails (p >>= f) := by
  intro c ws d b hn hb
  obtain ⟨us, e, a, vs, hpc, hfe, -⟩ := bind_eq_ok hb
  have hs := (hp c).passes.suffix
  rw [hpc, hn, List.suffix_nil] at hs
  exact h a e vs d b hs hfe

/-- The brace may be passed if what follows fails behind it. -/
theorem Keeps.advance {p : Parse α} (hk : Keeps p) (hf : Fails p) :
    Keeps (do advance; p) := by
  intro c ws d a h he
  obtain ⟨us, e, u, vs, hc, hp, -⟩ := bind_eq_ok h
  cases hc
  by_cases hn : c.advance.rest = []
  · exact absurd hp (hf _ _ _ _ hn)
  · exact hk _ _ _ _ hp (he.of_suffix c.advance_suffix hn)

theorem keeps_pure (a : α) : Keeps (pure a : Parse α) := by
  intro c ws d b h he
  cases h
  exact he.ne_nil

theorem keeps_fail (e : Expectation) : Keeps (fail e : Parse α) := by
  intro c ws d b h
  cases h

theorem fails_fail (e : Expectation) : Fails (fail e : Parse α) := by
  intro c ws d b _ h
  cases h

/-- Behind a token that is no closing brace, tokens are left. -/
theorem advance_ne_nil {t : Token} (he : Ends c.rest) (ht : c.rest.head? = some t)
    (hk : t.kind ≠ .punctuator .braceR) : c.advance.rest ≠ [] := by
  rcases c with ⟨line, _ | ⟨u, ts⟩⟩
  · cases ht
  · cases ht
    exact (he.cons.resolve_left hk).ne_nil

theorem keeps_accept {p : Punctuator} (hp : p ≠ .braceR) : Keeps (accept p) := by
  intro c ws d b h he
  cases hn : nextIs p c with
  | true =>
    rw [accept_of_nextIs hn] at h
    cases h
    rw [nextIs, Option.any_eq_true] at hn
    obtain ⟨t, ht, hk⟩ := hn
    rw [Token.is_iff] at hk
    apply advance_ne_nil he ht
    rw [hk]
    exact fun e => hp (TokenKind.punctuator.inj e)
  | false =>
    rw [accept_of_not_nextIs hn] at h
    cases h
    exact he.ne_nil

theorem keeps_expect {p : Punctuator} (hp : p ≠ .braceR) : Keeps (expect p) := by
  refine Keeps.bind (local_accept p) (keeps_accept hp) fun b => ?_
  cases b
  · exact keeps_fail _
  · exact keeps_pure _

theorem peekName_apply (c : Cursor) : peekName c = ⟨[], c, .ok (c.rest.head?.bind Token.name?)⟩ :=
  rfl

theorem name_of_some {n : String} (h : c.rest.head?.bind Token.name? = some n) :
    name c = ⟨[], c.advance, .ok n⟩ := by
  rw [name, bind_apply, peekName_apply, h]
  rfl

theorem name_of_none (h : c.rest.head?.bind Token.name? = none) :
    name c = fail .name c := by
  rw [name, bind_apply, peekName_apply, h]
  rfl

theorem keeps_peekName : Keeps peekName := by
  intro c ws d b h he
  cases h
  exact he.ne_nil

theorem keeps_name : Keeps name := by
  intro c ws d b h he
  cases hn : c.rest.head?.bind Token.name? with
  | none =>
    rw [name_of_none hn] at h
    cases h
  | some n =>
    rw [name_of_some hn] at h
    cases h
    obtain ⟨t, ht, hk⟩ := Option.bind_eq_some_iff.mp hn
    apply advance_ne_nil he ht
    rw [Token.name?_eq_some.mp hk]
    exact nofun

theorem fails_name : Fails name := by
  intro c ws d b hn h
  rw [name_of_none (by rw [hn]; rfl)] at h
  cases h

/-- A group in other brackets ends with its own bracket. -/
theorem leaveGroup_ne_nil {opening closing : Punctuator} {ts : List Token} {depth line : Nat}
    (hc : closing ≠ .braceR) (he : Ends ts)
    (h : (leaveGroup opening closing depth line ts).result = .ok ()) :
    (leaveGroup opening closing depth line ts).cursor.rest ≠ [] := by
  induction ts generalizing depth line with
  | nil => exact absurd rfl he.ne_nil
  | cons t ts ih =>
    have hts : t.is closing = true ∨ ts ≠ [] → Ends ts := by
      rintro (ht | hn)
      · refine he.cons.resolve_left fun hk => hc ?_
        rw [Token.is_iff, hk] at ht
        exact (TokenKind.punctuator.inj ht).symm
      · exact he.of_suffix (List.suffix_cons t ts) hn
    have hrest : ∀ depth, (leaveGroup opening closing depth t.line ts).result = .ok () →
        (leaveGroup opening closing depth t.line ts).cursor.rest ≠ [] := by
      intro depth hr
      refine ih (hts (.inr ?_)) hr
      rintro rfl
      cases hr
    rw [leaveGroup] at h ⊢
    split
    · rename_i ho
      rw [if_pos ho] at h
      exact hrest _ h
    rename_i ho
    rw [if_neg ho] at h
    split
    · rename_i ht
      rw [if_pos ht] at h
      split
      · exact (hts (.inl ht)).ne_nil
      · rename_i hd
        rw [if_neg hd] at h
        exact hrest _ h
    · rename_i ht
      rw [if_neg ht] at h
      exact hrest _ h

theorem keeps_parens : Keeps parens := by
  intro c ws d u h he
  cases hn : nextIs .parenL c with
  | true =>
    rw [parens, group_of_nextIs hn] at h
    have hl := @leaveGroup_ne_nil .parenL .parenR c.rest 0 c.line (by decide) he (by rw [h])
    rw [h] at hl
    exact hl
  | false =>
    rw [parens, group_of_not_nextIs hn] at h
    cases h
    exact he.ne_nil

theorem keeps_loop {continues : Cursor → Bool} {step : Parse (Option α)} (hs : Local step)
    (hk : Keeps step) : Keeps (loop continues step) := by
  intro c
  induction hn : c.rest.length using Nat.strongRecOn generalizing c with
  | _ n ih =>
    intro ws d as h he
    cases hcont : continues c with
    | false =>
      rw [loop_stop hcont] at h
      cases h
      exact he.ne_nil
    | true =>
      rcases hc : step c with ⟨us, e, i | a⟩
      · rw [loop_error hcont hc] at h
        cases h
      · have hee : Ends e.rest := hk.ends hs hc he
        by_cases hlt : e.rest.length < c.rest.length
        · rw [loop_step hcont hc hlt] at h
          rcases hl : loop continues step e with ⟨vs, f, i | bs⟩ <;> rw [hl] at h
          · cases h
          · cases h
            exact ih _ (hn ▸ hlt) e rfl vs f bs hl hee
        · rw [loop_last hcont hc hlt] at h
          cases h
          exact hee.ne_nil

theorem keeps_skipLoop {continues : Cursor → Bool} {step : Parse Unit} (hs : Local step)
    (hk : Keeps step) (hc : Steady continues) : Keeps (skipLoop continues step) := by
  have hl : Local (do step; return none : Parse (Option Unit)) :=
    LocalTo.bind hs fun _ => local_pure fun _ => rfl
  exact Keeps.bind (local_loop hc hl) (keeps_loop hl (Keeps.bind hs hk fun _ => keeps_pure _))
    fun _ => keeps_pure _

theorem keeps_directives : Keeps directives := by
  refine keeps_skipLoop ?_ ?_ (steady_nextIs _)
  · exact LocalTo.bind local_advance fun _ => LocalTo.bind local_name fun _ => local_parens
  · exact Keeps.advance (Keeps.bind local_name keeps_name fun _ => keeps_parens)
      fails_name.bind

theorem keeps_alternatives : Keeps alternatives := by
  refine Keeps.bind (local_accept _) (keeps_accept (by decide)) fun _ =>
    Keeps.bind local_name keeps_name fun _ => keeps_skipLoop ?_ ?_ (steady_nextIs _)
  · exact LocalTo.bind local_advance fun _ => LocalTo.bind local_name fun _ =>
      local_pure fun _ => rfl
  · exact Keeps.advance (Keeps.bind local_name keeps_name fun _ => keeps_pure _) fails_name.bind

theorem fails_alternatives : Fails alternatives :=
  Fails.after (local_accept _) fun _ => fails_name.bind

theorem keeps_interfaces : Keeps interfaces := by
  refine Keeps.bind local_peekName keeps_peekName fun x => ?_
  split
  · refine Keeps.advance ?_ (Fails.after (local_accept _) fun _ => fails_name.bind)
    refine Keeps.bind (local_accept _) (keeps_accept (by decide)) fun _ =>
      Keeps.bind local_name keeps_name fun _ => keeps_skipLoop ?_ ?_ steady_continuesInterfaces
    · exact LocalTo.bind (local_accept _) fun _ => LocalTo.bind local_name fun _ =>
        local_pure fun _ => rfl
    · exact Keeps.bind (local_accept _) (keeps_accept (by decide)) fun _ =>
        Keeps.bind local_name keeps_name fun _ => keeps_pure _
  · exact keeps_pure _

theorem keeps_places : Keeps places := by
  refine Keeps.bind local_peekName keeps_peekName fun x => ?_
  split
  · exact Keeps.advance keeps_alternatives fails_alternatives
  · exact keeps_fail _

theorem fails_places : Fails places := by
  refine Fails.after local_peekName fun x => ?_
  split
  · exact Fails.after local_advance fun _ => fails_alternatives
  · exact fails_fail _

theorem keeps_directiveDefinition : Keeps directiveDefinition := by
  rw [directiveDefinition_eq]
  refine Keeps.bind (local_expect _) (keeps_expect (by decide)) fun _ =>
    Keeps.bind local_name keeps_name fun _ => Keeps.bind local_parens keeps_parens fun _ =>
      Keeps.bind local_peekName keeps_peekName fun x => ?_
  split
  · exact Keeps.advance keeps_places fails_places
  · exact keeps_places

/-! ## Ending with the brace -/

/-- A reader whose answers, as far as `good`, are the same further down if it reads without
warnings, even if it reads up to the end. -/
def Closes (good : α → Prop) (p : Parse α) : Prop :=
  ∀ c d a, p c = ⟨[], d, .ok a⟩ → good a → Ends c.rest → ∀ o us c', c.Mirrors o us c' →
    ∃ d', p c' = ⟨[], d', .ok a⟩ ∧ d.Mirrors o us d'

theorem LocalAt.of_ends {p : Parse α} {a : α} {o : Offset} {us : List Token} {c' : Cursor}
    (hp : LocalAt (fun _ a => a) p c) (h : p c = ⟨[], d, .ok a⟩) (hd : Ends d.rest)
    (hm : c.Mirrors o us c') : ∃ d', p c' = ⟨[], d', .ok a⟩ ∧ d.Mirrors o us d' := by
  have hmir := hp.mirrors hm (by rw [h]; exact .inr hd)
  rw [h] at hmir
  exact hmir.of_ok

theorem closes_of_keeps {good : α → Prop} {p : Parse α} (hp : Local p) (hk : Keeps p) :
    Closes good p := fun _ _ _ h _ he _ _ _ hm => (hp _).of_ends h (hk.ends hp h he) hm

theorem closes_pure {good : α → Prop} (a : α) : Closes good (pure a) :=
  closes_of_keeps (local_pure fun _ => rfl) (keeps_pure a)

theorem Closes.bind {good : β → Prop} {p : Parse α} {f : α → Parse β} (hp : Local p)
    (hk : Keeps p) (hf : ∀ a, Closes good (f a)) : Closes good (p >>= f) := by
  intro c d b h hg he o us c' hm
  obtain ⟨e, a, hpc, hfe⟩ := bind_eq_nil.mp h
  have hee : Ends e.rest := hk.ends hp hpc he
  obtain ⟨e', he', hm'⟩ := (hp c).of_ends hpc hee hm
  obtain ⟨d', hd', hmd⟩ := hf a e d b hfe hg hee o us e' hm'
  exact ⟨d', bind_eq_nil.mpr ⟨e', a, he', hd'⟩, hmd⟩

/-- What is answered behind the brace depends on nothing more. -/
theorem Closes.map {good : β → Prop} {p : Parse α} (hp : Closes (fun _ => True) p) (f : α → β) :
    Closes good (p >>= fun a => pure (f a)) := by
  intro c d b h _ he o us c' hm
  obtain ⟨e, a, hpc, hfe⟩ := bind_eq_nil.mp h
  cases hfe
  obtain ⟨d', hd', hm'⟩ := hp c _ a hpc trivial he o us c' hm
  exact ⟨d', bind_eq_nil.mpr ⟨d', a, hd', rfl⟩, hm'⟩

theorem closes_tentative {p : Parse Unit} (hp : Closes (fun _ => True) p) (a : α) :
    Closes (fun r : α × Option Issue => r.2 = none) (do return (a, ← tentative p)) := by
  intro c d r h hg he o us c' hm
  rcases hc : p c with ⟨ws, e, i | u⟩
  · rw [tentative_error hc] at h
    cases h
    cases hg
  · rw [tentative_ok hc] at h
    cases h
    obtain ⟨d', hd', hm'⟩ := hp c _ u hc trivial he o us c' hm
    exact ⟨d', tentative_ok hd' a, hm'⟩

/-- A group in braces that is closed ends with its brace. -/
theorem closes_braces {good : Unit → Prop} : Closes good braces := by
  intro c d u h _ he o us c' hm
  cases hn : nextIs .braceL c with
  | true =>
    rw [braces, group_of_nextIs hn] at h
    have hl := @leaveGroup_mirrors o us .braceL .braceR c.rest c'.rest 0 c.line c'.line hm.rest
      (.inr (by rw [h]))
    rw [h] at hl
    rw [braces, group_of_nextIs ((nextIs_mirrors hm (.inr he)).trans hn)]
    exact hl.of_ok
  | false =>
    rw [braces, group_of_not_nextIs hn] at h
    cases h
    rw [braces, group_of_not_nextIs ((nextIs_mirrors hm (.inr he)).trans hn)]
    exact ⟨c', rfl, hm⟩

/-- A block that is closed ends with its brace. -/
theorem closes_block {good : List α → Prop} {owner : String} {p : Parse α} (hp : Local p) :
    Closes good (block owner p) := by
  refine Closes.bind (local_accept _) (keeps_accept (by decide)) fun b => ?_
  cases b
  · exact closes_pure _
  · have hmembers : Local (loop continuesBlock (member owner p)) :=
      local_loop steady_continuesBlock (local_member hp)
    intro c d as h _ he o us c' hm
    obtain ⟨e, bs, hl, hrest⟩ := bind_eq_nil.mp h
    obtain ⟨f, b, ha, hend⟩ := bind_eq_nil.mp hrest
    cases hn : nextIs .braceR e with
    | true =>
      have hee : Ends e.rest := by
        have hs := (hmembers c).passes.suffix
        rw [hl] at hs
        refine he.of_suffix hs fun h => ?_
        rw [nextIs, h] at hn
        cases hn
      rw [accept_of_nextIs hn] at ha
      cases ha
      cases hend
      obtain ⟨e', he', hm'⟩ := (hmembers c).of_ends hl hee hm
      have ha' := accept_of_nextIs ((nextIs_mirrors hm' (.inr hee)).trans hn)
      exact ⟨e'.advance, bind_eq_nil.mpr ⟨e', _, he', bind_eq_nil.mpr ⟨_, true, ha', rfl⟩⟩,
        hm'.advance (.inr hee)⟩
    | false =>
      -- a block that is not closed is warned of
      rw [accept_of_not_nextIs hn] at ha
      cases ha
      exact absurd (congrArg Outcome.warnings hend : [Warning.unclosed owner] = [])
        (List.cons_ne_nil _ _)

/-- A definition that is no extension ends with the brace, if no issue cuts it short. -/
theorem closes_body (d : Option String) {keyword : Keyword} (hk : keyword ≠ .extend) :
    Closes (fun r => r.2 = none) (body d keyword) := by
  cases keyword with
  | scalar =>
    exact Closes.bind local_name keeps_name fun _ =>
      Closes.bind local_directives keeps_directives fun _ => closes_pure _
  | enum =>
    exact Closes.bind local_name keeps_name fun _ =>
      Closes.bind local_directives keeps_directives fun _ =>
        (closes_block local_enumValue).map _
  | type =>
    exact Closes.bind local_name keeps_name fun _ =>
      Closes.bind local_interfaces keeps_interfaces fun _ =>
        Closes.bind local_directives keeps_directives fun _ => (closes_block (local_field _)).map _
  | input =>
    exact Closes.bind local_name keeps_name fun _ =>
      Closes.bind local_directives keeps_directives fun _ =>
        (closes_block (local_inputField _)).map _
  | interface =>
    refine Closes.bind local_name keeps_name fun _ => closes_tentative ?_ _
    exact Closes.bind local_interfaces keeps_interfaces fun _ =>
      Closes.bind local_directives keeps_directives fun _ => closes_braces
  | union =>
    refine Closes.bind local_name keeps_name fun _ => closes_tentative ?_ _
    refine Closes.bind local_directives keeps_directives fun _ =>
      Closes.bind (local_accept _) (keeps_accept (by decide)) fun b => ?_
    cases b
    · exact closes_pure _
    · exact closes_of_keeps local_alternatives keeps_alternatives
  | schema =>
    exact Closes.bind local_directives keeps_directives fun _ => closes_braces.map _
  | directive =>
    exact Closes.bind local_directiveDefinition keeps_directiveDefinition fun _ => closes_pure _
  | extend => exact absurd rfl hk

/-- The keyword that a definition starts with, behind its description. -/
def startKeyword? (ts : List Token) : Option Keyword :=
  (afterDescription ts).head?.bind Token.keyword?

theorem description_apply (c : Cursor) :
    ∃ a line, description c = ⟨[], ⟨line, afterDescription c.rest⟩, .ok a⟩ := by
  rcases c with ⟨line, _ | ⟨t, ts⟩⟩
  · exact ⟨_, _, rfl⟩
  · rw [afterDescription, Token.isString, description, peek_bind]
    simp only [List.head?_cons, Option.bind_some]
    cases t.string? with
    | none => exact ⟨none, line, rfl⟩
    | some text => exact ⟨if text = "" then none else some text, t.line, rfl⟩

/-- A definition behind its description. -/
def described (d : Option String) :
    Option Keyword → Parse (Option GraphClient.Definition × Option Issue)
  | none => fail .definition
  | some k => do
    advance
    body d k

theorem definition_apply {a : Option String} (h : description c = ⟨[], d, .ok a⟩) :
    definition c = described a (d.rest.head?.bind Token.keyword?) d := by
  rw [definition_eq, bind_apply, h]
  show Outcome.withEarlier [] (Outcome.withEarlier [] ((match d.rest.head?.bind Token.keyword? with
    | none => fail .definition
    | some k => do
      advance
      body a k : Parse _) d)) = _
  cases d.rest.head?.bind Token.keyword? <;> rfl

/-- What is read as a definition has a keyword behind its description, and goes on with the body
of the keyword. -/
theorem definition_eq_ok {ws : List Warning} {x : Option GraphClient.Definition × Option Issue}
    (h : definition c = ⟨ws, d, .ok x⟩) : ∃ a k ts keyword, afterDescription c.rest = k :: ts ∧
      k :: ts <:+ c.rest ∧ k.keyword? = some keyword ∧
        body a keyword ⟨k.line, ts⟩ = ⟨ws, d, .ok x⟩ := by
  obtain ⟨a, line, hd⟩ := description_apply c
  have hs := (local_description c).passes.suffix
  rw [hd] at hs
  rw [definition_apply hd] at h
  cases hk : (afterDescription c.rest).head?.bind Token.keyword? with
  | none =>
    rw [hk] at h
    cases h
  | some keyword =>
    rw [hk] at h
    obtain ⟨_, e, _, _, hadvance, hbody, rfl⟩ := bind_eq_ok h
    cases hadvance
    obtain ⟨k, hhead, hkey⟩ := Option.bind_eq_some_iff.mp hk
    obtain ⟨ts, hts⟩ := List.head?_eq_some_iff.mp hhead
    rw [hts] at hs hbody
    exact ⟨a, k, ts, keyword, hts, hs, hkey, hbody⟩

/-- A definition that is no extension ends with the brace, if it is read without warnings. -/
theorem definition_closes {x : Option GraphClient.Definition} {o : Offset} {us : List Token}
    {c' : Cursor} (h : definition c = ⟨[], d, .ok (x, none)⟩)
    (hk : startKeyword? c.rest ≠ some .extend) (he : Ends c.rest) (hm : c.Mirrors o us c') :
    ∃ d', definition c' = ⟨[], d', .ok (x, none)⟩ ∧ d.Mirrors o us d' := by
  obtain ⟨a, line, hd⟩ := description_apply c
  have hee : Ends (afterDescription c.rest) := ends_afterDescription he
  obtain ⟨e', hd', hme⟩ := (local_description c).of_ends hd hee hm
  have hkey : e'.rest.head?.bind Token.keyword? = startKeyword? c.rest := by
    rcases hme.cases (.inr hee) with ⟨hn, -⟩ | ⟨t, t', ts, ht, ht', hc⟩
    · exact absurd hn hee.ne_nil
    · have ht : afterDescription c.rest = t :: ts := ht
      rw [startKeyword?, ht, ht']
      exact copy_keyword? hc
  rw [definition_apply hd] at h
  rw [definition_apply hd', hkey]
  have hx : (afterDescription c.rest).head?.bind Token.keyword? = startKeyword? c.rest := rfl
  rw [hx] at h
  cases hs : startKeyword? c.rest with
  | none =>
    rw [hs] at h
    cases h
  | some k =>
    rw [hs] at h
    obtain ⟨f, u, hadv, hbody⟩ := bind_eq_nil.mp h
    cases hadv
    obtain ⟨t, ht, htk⟩ := Option.bind_eq_some_iff.mp hs
    have hne := @advance_ne_nil ⟨line, afterDescription c.rest⟩ t hee ht fun hbrace => by
      rw [Token.keyword?, Token.name?, hbrace] at htk
      cases htk
    obtain ⟨d', hb', hm'⟩ := closes_body a (fun e => hk (by rw [hs, e])) _ d _ hbody rfl
      (hee.of_suffix (Cursor.advance_suffix _) hne) o us e'.advance (hme.advance (.inr hee))
    exact ⟨d', bind_eq_nil.mpr ⟨e'.advance, (), rfl, hb'⟩, hm'⟩

end GraphClient.Parse
