import GraphClient.Proofs.Document.Mirror

/-!
# Readers are local

Every reader of a document is local: `local_definitions`, from the readers of single tokens up.
Where it looks ahead, at the start of a definition (`startsDefinition_copies`) or at what
interrupts a block (`interruptsBlock_mirrors`), a closing brace decides before the look goes
past it.
-/

namespace GraphClient.Parse

variable {α β : Type} {o : Offset} {us : List Token} {c c' : Cursor}

/-! ## Single tokens -/

theorem local_expect (p : Punctuator) : Local (expect p) := by
  refine LocalTo.bind (local_accept p) fun b => ?_
  cases b
  · exact local_fail _
  · exact local_pure fun _ => rfl

theorem name?_of_kind {t t' : Token} (h : t'.kind = t.kind) : t'.name? = t.name? := by
  unfold Token.name?
  rw [h]

theorem string?_of_kind {t t' : Token} (h : t'.kind = t.kind) : t'.string? = t.string? := by
  unfold Token.string?
  rw [h]

theorem bind_of_kind {f : Token → Option α} (hf : ∀ t u : Token, t.kind = u.kind → f t = f u)
    {x y : Option Token} (h : x.map (·.kind) = y.map (·.kind)) : x.bind f = y.bind f := by
  cases x with
  | none =>
    rw [Option.map_eq_none_iff.mp h.symm]
  | some t =>
    obtain ⟨u, rfl, hu⟩ := Option.map_eq_some_iff.mp h.symm
    exact hf t u hu.symm

theorem local_peekName : Local peekName := by
  refine local_peek (fun x => local_pure fun _ => rfl) fun x y h => ?_
  rw [bind_of_kind (fun _ _ => name?_of_kind) h]

theorem local_name : Local name := by
  refine LocalTo.bind local_peekName fun x => ?_
  cases x with
  | none => exact local_fail _
  | some text => exact LocalTo.bind local_advance fun _ => local_pure fun _ => rfl

theorem local_description : Local description := by
  refine local_peek (fun x => ?_) fun x y h => ?_
  · split
    · exact LocalTo.bind local_advance fun _ => local_pure fun _ => rfl
    · exact local_pure fun _ => rfl
  · rw [bind_of_kind (fun _ _ => string?_of_kind) h]

/-! ## Loops -/

/-- A reader that raises no issue. -/
def Answers (p : Parse α) : Prop := ∀ c, ∃ ws d a, p c = ⟨ws, d, .ok a⟩

theorem answers_pure (a : α) : Answers (pure a : Parse α) := fun _ => ⟨_, _, _, rfl⟩

theorem answers_accept (p : Punctuator) : Answers (accept p) := by
  intro c
  rw [accept]
  split <;> exact ⟨_, _, _, rfl⟩

theorem Answers.bind {p : Parse α} {f : α → Parse β} (hp : Answers p) (hf : ∀ a, Answers (f a)) :
    Answers (p >>= f) := by
  intro c
  obtain ⟨ws, d, a, h⟩ := hp c
  obtain ⟨vs, e, b, h'⟩ := hf a d
  rw [bind_apply, h, Outcome.andThen_ok, h']
  exact ⟨_, _, _, rfl⟩

/-- A condition that mirrors share. -/
def Steady (continues : Cursor → Bool) : Prop := ∀ {o us c c'}, Cursor.Mirrors o us c c' →
  Bounded us c.rest → continues c' = continues c

theorem steady_nextIs (p : Punctuator) : Steady (nextIs p) := fun hm hb => nextIs_mirrors hm hb

section Loops

variable {continues : Cursor → Bool} {step : Parse (Option α)}

theorem loop_error {ws : List Warning} {i : Issue} (hc : continues c = true)
    (hs : step c = ⟨ws, c', .error i⟩) : loop continues step c = ⟨ws, c', .error i⟩ := by
  rw [loop, if_pos hc, hs]
  rfl

/-- A step that takes nothing is the last one of a loop. -/
theorem loop_last {ws : List Warning} {a : Option α} (hc : continues c = true)
    (hs : step c = ⟨ws, c', .ok a⟩) (hl : ¬ c'.rest.length < c.rest.length) :
    loop continues step c = ⟨ws, c', .ok a.toList⟩ := by
  rw [loop, if_pos hc, hs]
  apply (congrArg (Outcome.withEarlier ws) (if_neg hl)).trans
  rw [Outcome.withEarlier, List.append_nil]

/-- A loop raises no issue if its step raises none. -/
theorem answers_loop (hs : Answers step) : Answers (loop continues step) := by
  intro c
  induction hn : c.rest.length using Nat.strongRecOn generalizing c with
  | _ n ih =>
    obtain ⟨ws, e, a, he⟩ := hs c
    cases hcont : continues c with
    | false => exact ⟨_, _, _, loop_stop hcont⟩
    | true =>
      by_cases hl : e.rest.length < c.rest.length
      · obtain ⟨vs, d, as, hd⟩ := ih _ (hn ▸ hl) e rfl
        rw [loop_step hcont he hl, hd]
        exact ⟨_, _, _, rfl⟩
      · exact ⟨_, _, _, loop_last hcont he hl⟩

theorem local_loop (hc : Steady continues) (hs : Local step) : Local (loop continues step) := by
  intro c
  induction hn : c.rest.length using Nat.strongRecOn generalizing c with
  | _ n ih =>
    cases hcont : continues c with
    | false =>
      refine (localAt_ok (loop_stop hcont)).mpr ⟨c.passes_self, fun o us c' hm hb => ?_⟩
      exact ⟨c', loop_stop ((hc hm hb).trans hcont), hm⟩
    | true =>
      rcases h : step c with ⟨ws, d, i | a⟩
      · obtain ⟨hpass, hend, hmir⟩ := (localAt_error h).mp (hs c)
        refine (localAt_error (loop_error hcont h)).mpr ⟨hpass, hend, fun o us c' hm hb => ?_⟩
        obtain ⟨d', hd, hm'⟩ := hmir o us c' hm hb
        exact ⟨d', loop_error ((hc hm (hpass.bounded hb)).trans hcont) hd, hm'⟩
      obtain ⟨hpass, hmir⟩ := (localAt_ok h).mp (hs c)
      by_cases hlt : d.rest.length < c.rest.length
      · have hl := loop_step hcont h hlt
        have hd : LocalAt (fun _ as => as)
            ((loop continues step : Parse (List α)) >>= fun as => pure (a.toList ++ as)) d :=
          (ih _ (hn ▸ hlt) d rfl).bind fun as _ => local_pure (fun _ => rfl) _
        refine ⟨?_, ?_, fun {o us c'} hm hb => ?_⟩ <;> rw [hl] at *
        · exact hpass.trans hd.passes
        · exact hd.ended
        · have hbd : Bounded us d.rest := hd.passes.bounded hb
          obtain ⟨d', hd', hm'⟩ := hmir o us c' hm hbd
          rw [loop_step ((hc hm (hpass.bounded hbd)).trans hcont) hd' ((hm.shorter hm').mpr hlt)]
          exact (hd.mirrors hm' hb).withEarlier ws
      · refine (localAt_ok (loop_last hcont h hlt)).mpr ⟨hpass, fun o us c' hm hb => ?_⟩
        obtain ⟨d', hd, hm'⟩ := hmir o us c' hm hb
        exact ⟨d', loop_last ((hc hm (hpass.bounded hb)).trans hcont) hd
          (mt (hm.shorter hm').mp hlt), hm'⟩

theorem local_skipLoop {step : Parse Unit} (hc : Steady continues) (hs : Local step) :
    Local (skipLoop continues step) :=
  LocalTo.bind (local_loop hc (LocalTo.bind hs fun _ => local_pure fun _ => rfl)) fun _ =>
    local_pure fun _ => rfl

end Loops

/-! ## Groups -/

section Groups

variable {opening closing : Punctuator} {ts ts' : List Token} {depth line line' : Nat}

/-- A group is left behind its closing bracket, or else at the end. -/
theorem leaveGroup_passes :
    Cursor.Passes ⟨line, ts⟩ (leaveGroup opening closing depth line ts).cursor ∧
    ∀ i, (leaveGroup opening closing depth line ts).result = .error i →
      (leaveGroup opening closing depth line ts).cursor.rest = [] := by
  induction ts generalizing depth line with
  | nil => exact ⟨Cursor.passes_self _, fun _ _ => rfl⟩
  | cons t ts ih =>
    have hp : Cursor.Passes ⟨line, t :: ts⟩ ⟨t.line, ts⟩ := Cursor.passes_cons
    rw [leaveGroup]
    split
    · exact ⟨hp.trans ih.1, ih.2⟩
    split
    · split
      · exact ⟨hp, nofun⟩
      · exact ⟨hp.trans ih.1, ih.2⟩
    · exact ⟨hp.trans ih.1, ih.2⟩

/-- A group that is closed is left the same further down, whatever stands behind. -/
theorem leaveGroup_mirrors (hc : Copies o us ts ts')
    (hr : us = [] ∨ (leaveGroup opening closing depth line ts).result = .ok ()) :
    (leaveGroup opening closing depth line ts).Mirrors o us (fun a => a)
      (leaveGroup opening closing depth line' ts') := by
  induction ts generalizing depth line line' ts' with
  | nil =>
    cases hc
    rcases hr with rfl | hr
    · exact Outcome.mirrors_error ⟨.nil, nofun⟩
    · cases hr
  | cons t ts ih =>
    cases hc with
    | @cons _ t' _ hc =>
      have his : ∀ p, t'.is p = t.is p := fun p => by rw [Token.is, Token.is, hc.kind]
      rw [leaveGroup] at hr ⊢
      rw [leaveGroup, his, his]
      split
      · rename_i h
        rw [if_pos h] at hr
        exact ih (copies_map ts) hr
      rename_i h
      rw [if_neg h] at hr
      split
      · rename_i h'
        rw [if_pos h'] at hr
        split
        · exact Outcome.mirrors_ok (Cursor.mirrors_behind hc)
        · rename_i hd
          rw [if_neg hd] at hr
          exact ih (copies_map ts) hr
      · rename_i h'
        rw [if_neg h'] at hr
        exact ih (copies_map ts) hr

theorem local_group (opening closing : Punctuator) : Local (group opening closing) := by
  intro c
  cases hn : nextIs opening c with
  | true =>
    obtain ⟨hp, he⟩ := @leaveGroup_passes opening closing c.rest 0 c.line
    refine ⟨?_, ?_, fun {o us c'} hm hb => ?_⟩ <;> rw [group_of_nextIs hn] at *
    · exact hp
    · exact fun i hi _ => he i hi
    · rw [group_of_nextIs ((nextIs_mirrors hm (hp.bounded hb)).trans hn)]
      apply leaveGroup_mirrors hm.rest
      cases hr : (leaveGroup opening closing 0 c.line c.rest).result with
      | error i => rw [he i hr] at hb; exact .inl hb.nil
      | ok u => exact .inr rfl
  | false =>
    refine (localAt_ok (group_of_not_nextIs hn)).mpr ⟨c.passes_self, fun o us c' hm hb => ?_⟩
    exact ⟨c', group_of_not_nextIs ((nextIs_mirrors hm hb).trans hn), hm⟩

theorem local_parens : Local parens := local_group _ _

theorem local_braces : Local braces := local_group _ _

theorem local_directives : Local directives :=
  local_skipLoop (steady_nextIs _) (LocalTo.bind local_advance fun _ =>
    LocalTo.bind local_name fun _ => local_parens)

theorem local_alternatives : Local alternatives :=
  LocalTo.bind (local_accept _) fun _ => LocalTo.bind local_name fun _ =>
    local_skipLoop (steady_nextIs _) (LocalTo.bind local_advance fun _ =>
      LocalTo.bind local_name fun _ => local_pure fun _ => rfl)

end Groups

/-! ## Lookahead -/

section Lookahead

variable {ts ts' : List Token} {t t' : Token}

theorem copy_is (h : t.Copy o t') (p : Punctuator) : t'.is p = t.is p := by
  unfold Token.is
  rw [h.kind]

theorem copy_name? (h : t.Copy o t') : t'.name? = t.name? := name?_of_kind h.kind

theorem copy_isName (h : t.Copy o t') : t'.isName = t.isName := by
  unfold Token.isName
  rw [copy_name? h]

theorem copy_keyword? (h : t.Copy o t') : t'.keyword? = t.keyword? := by
  unfold Token.keyword?
  rw [copy_name? h]

theorem copy_isString (h : t.Copy o t') : t'.isString = t.isString := by
  unfold Token.isString
  rw [string?_of_kind h.kind]

theorem copy_nest (h : t.Copy o t') (depth : Nat) : t'.nest depth = t.nest depth := by
  simp only [Token.nest, copy_is h]

theorem copies_afterDescription (h : Copies o us ts ts') (hb : Bounded us ts) :
    Copies o us (afterDescription ts) (afterDescription ts') := by
  cases h with
  | nil =>
    rw [hb.nil]
    exact .nil
  | cons hc =>
    rw [afterDescription, afterDescription, copy_isString hc]
    split
    · exact copies_map _
    · exact .cons hc

theorem ends_afterDescription (h : Ends ts) : Ends (afterDescription ts) := by
  cases ts with
  | nil => exact h
  | cons t ts =>
    rw [afterDescription]
    split
    · rename_i hs
      refine h.cons.resolve_left fun hk => ?_
      rw [Token.isString, Token.string?, hk] at hs
      cases hs
    · exact h

theorem bounded_afterDescription (hb : Bounded us ts) : Bounded us (afterDescription ts) :=
  hb.imp_right ends_afterDescription

/-- A closing brace starts nothing and is no name. -/
theorem closing_inert (h : t.kind = .punctuator .braceR) :
    t.isName = false ∧ t.is .atSign = false ∧ t.is .braceL = false ∧ t.keyword?.isSome = false := by
  simp [Token.isName, Token.keyword?, Token.name?, Token.is, h]

/-- Whether a definition starts is the same for copies. -/
theorem startsDefinition_copies (h : Copies o us ts ts') (hb : Bounded us ts) :
    startsDefinition ts' = startsDefinition ts := by
  unfold startsDefinition
  have ha := copies_afterDescription h hb
  have hab := bounded_afterDescription hb
  generalize afterDescription ts = vs at ha hab
  generalize afterDescription ts' = vs' at ha
  cases ha with
  | nil => rw [hab.nil]
  | @cons t t' vs hc =>
    cases vs with
    | nil =>
      rcases hab.cons with hk | hn
      · -- the brace is no keyword, whatever stands behind it
        have hi := (closing_inert hk).2.2.2
        rw [← copy_keyword? hc] at hi
        cases us with
        | nil => rfl
        | cons u us => simp [hi]
      · rw [hn.nil]
        rfl
    | cons v vs =>
      have hd := v.copy_down (o := o)
      simp only [List.map_cons, List.cons_append, copy_keyword? hc, copy_isName hd, copy_is hd]

theorem interruptsBlock_mirrors (hm : c.Mirrors o us c') (hb : Bounded us c.rest) :
    interruptsBlock c' = interruptsBlock c := by
  have ha := copies_afterDescription hm.rest hb
  have hab := bounded_afterDescription hb
  rcases hm.cases hb with ⟨hn, hn'⟩ | ⟨t, t', ts, ht, ht', hc⟩
  · unfold interruptsBlock
    rw [hn, hn']
  · have hl : (c'.line < t'.line) = (c.line < t.line) := by
      rw [hc.line]
      exact propext (hm.line t (by rw [ht]; rfl)).symm
    unfold interruptsBlock
    rw [ht, ht'] at ha ⊢
    rw [ht] at hab
    simp only [hl]
    congr 1
    generalize afterDescription (t :: ts) = vs at ha hab
    generalize afterDescription (t' :: _) = vs' at ha
    cases ha with
    | nil => rw [hab.nil]
    | @cons k k' vs hk =>
      cases vs with
      | nil =>
        rcases hab.cons with hx | hn
        · have hi := (closing_inert hx).2.2.2
          rw [← copy_keyword? hk] at hi
          cases us with
          | nil => rfl
          | cons u us => simp [hi]
        · rw [hn.nil]
          rfl
      | cons n vs =>
        have hd := n.copy_down (o := o)
        have hline : ((n.down o).line == k'.line) = (n.line == k.line) := by
          rw [hd.line, hk.line, Bool.eq_iff_iff]
          simp
        simp only [List.map_cons, List.cons_append, copy_keyword? hk, copy_isName hd, hline]
        cases vs with
        | cons v vs =>
          have hv := v.copy_down (o := o)
          simp only [List.map_cons, List.cons_append, List.head?_cons, followsDefinitionName,
            copy_is hv, copy_name? hv]
        | nil =>
          rcases hab.cons with hx | hb'
          · simp [(closing_inert hx).2.2.2]
          · rcases hb'.cons with hx | hn
            · rw [(closing_inert hx).1]
              simp
            · rw [hn.nil]
              rfl

end Lookahead

/-! ## Names -/

theorem steady_continuesInterfaces : Steady continuesInterfaces := by
  intro o us c c' hm hb
  have hn : c'.rest.head?.any Token.isName = c.rest.head?.any Token.isName := by
    rcases hm.cases hb with ⟨hn, hn'⟩ | ⟨t, t', ts, ht, ht', hc⟩
    · rw [hn, hn']
    · rw [ht, ht']
      exact copy_isName hc
  rw [continuesInterfaces, continuesInterfaces, nextIs_mirrors hm hb, hn,
    startsDefinition_copies hm.rest hb]

theorem local_interfaces : Local interfaces := by
  refine LocalTo.bind local_peekName fun x => ?_
  split
  · refine LocalTo.bind local_advance fun _ => LocalTo.bind (local_accept _) fun _ =>
      LocalTo.bind local_name fun _ => local_skipLoop steady_continuesInterfaces ?_
    exact LocalTo.bind (local_accept _) fun _ => LocalTo.bind local_name fun _ =>
      local_pure fun _ => rfl
  · exact local_pure fun _ => rfl

/-- The places of a directive, behind its name and its arguments. -/
def places : Parse Unit := do
  if (← peekName) = some "on" then
    advance
    alternatives
  else fail (.text "on")

theorem local_places : Local places := by
  refine LocalTo.bind local_peekName fun x => ?_
  split
  · exact LocalTo.bind local_advance fun _ => local_alternatives
  · exact local_fail _

theorem directiveDefinition_eq : directiveDefinition = (do
    expect .atSign
    let _ ← name
    parens
    if (← peekName) = some "repeatable" then advance
    places) := rfl

theorem local_directiveDefinition : Local directiveDefinition := by
  rw [directiveDefinition_eq]
  refine LocalTo.bind (local_expect _) fun _ => LocalTo.bind local_name fun _ =>
    LocalTo.bind local_parens fun _ => LocalTo.bind local_peekName fun x => ?_
  split
  · exact LocalTo.bind local_advance fun _ => local_places
  · exact local_places

/-! ## Going on elsewhere -/

section Seeking

variable {ts ts' : List Token} {depth line line' failed : Nat}

theorem seekDefinition_passes : Cursor.Passes ⟨line, ts⟩ (Cursor.seekDefinition depth line ts) := by
  induction ts generalizing depth line with
  | nil => exact Cursor.passes_self _
  | cons t ts ih =>
    rw [Cursor.seekDefinition]
    split
    · exact Cursor.passes_self _
    · exact Cursor.passes_cons.trans ih

theorem seekDefinition_mirrors (hm : Cursor.Mirrors o us ⟨line, ts⟩ ⟨line', ts'⟩)
    (hb : Bounded us (Cursor.seekDefinition depth line ts).rest) :
    (Cursor.seekDefinition depth line ts).Mirrors o us
      (Cursor.seekDefinition depth line' ts') := by
  induction ts generalizing depth line line' ts' with
  | nil =>
    obtain rfl : us = [] := hb.nil
    cases hm.rest
    exact ⟨.nil, nofun⟩
  | cons t ts ih =>
    have hb' : Bounded us (t :: ts) := seekDefinition_passes.bounded hb
    have hs := startsDefinition_copies hm.rest hb'
    rcases hm.cases hb' with ⟨hn, -⟩ | ⟨u, t', us, hu, ht', hc⟩
    · cases hn
    · cases hu
      cases ht'
      rw [Cursor.seekDefinition] at hb ⊢
      rw [Cursor.seekDefinition, hs]
      split
      · exact hm
      · rename_i h
        rw [if_neg h] at hb
        rw [copy_nest hc]
        exact ih (Cursor.mirrors_behind hc) hb

theorem seekMember_passes :
    Cursor.Passes ⟨line, ts⟩ (Cursor.seekMember failed depth line ts) := by
  induction ts generalizing depth line with
  | nil => exact Cursor.passes_self _
  | cons t ts ih =>
    rw [Cursor.seekMember]
    split
    · exact Cursor.passes_self _
    · exact Cursor.passes_cons.trans ih

theorem seekMember_mirrors (hm : Cursor.Mirrors o us ⟨line, ts⟩ ⟨line', ts'⟩)
    (hb : Bounded us (Cursor.seekMember failed depth line ts).rest) :
    (Cursor.seekMember failed depth line ts).Mirrors o us
      (Cursor.seekMember (failed + o.lines) depth line' ts') := by
  induction ts generalizing depth line line' ts' with
  | nil =>
    obtain rfl : us = [] := hb.nil
    cases hm.rest
    exact ⟨.nil, nofun⟩
  | cons t ts ih =>
    have hb' : Bounded us (t :: ts) := seekMember_passes.bounded hb
    rcases hm.cases hb' with ⟨hn, -⟩ | ⟨u, t', us, hu, ht', hc⟩
    · cases hn
    · cases hu
      cases ht'
      have hl : (failed + o.lines < t'.line) = (failed < t.line) := by
        rw [hc.line]
        exact propext Nat.add_lt_add_iff_right
      rw [Cursor.seekMember] at hb ⊢
      rw [Cursor.seekMember]
      simp only [copy_is hc, copy_isName hc, copy_isString hc, hl]
      split
      · exact hm
      · rename_i h
        rw [if_neg h] at hb
        rw [copy_nest hc]
        exact ih (Cursor.mirrors_behind hc) hb

end Seeking

/-! ## Types and values -/

/-- Tokens of one kind, or none. -/
theorem kind_cases {x y : Option Token} (h : x.map (·.kind) = y.map (·.kind)) :
    x = none ∧ y = none ∨ ∃ t u, x = some t ∧ y = some u ∧ t.kind = u.kind := by
  rcases x with _ | t <;> rcases y with _ | u
  · exact .inl ⟨rfl, rfl⟩
  · cases h
  · cases h
  · exact .inr ⟨t, u, rfl, rfl, Option.some.inj h⟩

theorem local_marked (t : TypeRef) : Local (marked t) := by
  refine LocalTo.bind (local_accept _) fun b => ?_
  cases b <;> exact local_pure fun _ => rfl

/-- What a type is, by its first token. -/
def typeRefAt : Option Token → Parse TypeRef
  | none => fail .name
  | some t =>
    if t.is .bracketL then do
      advance
      let element ← typeRef
      expect .bracketR
      marked (.list element)
    else
      match t.name? with
      | some text => do
        advance
        marked (.named text)
      | none => fail .name

theorem typeRef_eq : typeRef = peek >>= typeRefAt := by
  funext c
  rcases c with ⟨line, _ | ⟨t, ts⟩⟩
  · rfl
  · show typeRefFrom line (t :: ts) = typeRefAt (some t) ⟨line, t :: ts⟩
    rw [typeRefFrom, typeRefAt]
    split
    · rfl
    · cases t.name? <;> rfl

theorem local_typeRef : Local typeRef := by
  intro c
  induction hn : c.rest.length using Nat.strongRecOn generalizing c with
  | _ n ih =>
    rw [typeRef_eq]
    refine LocalAt.peek ?_ fun x y h => ?_
    · rcases c with ⟨line, _ | ⟨t, ts⟩⟩
      · exact local_fail _ _
      · rw [List.head?_cons, typeRefAt]
        split
        · refine (local_advance _).bind fun _ _ => (ih ts.length ?_ _ rfl).bind fun element _ => ?_
          · rw [← hn, List.length_cons]
            exact Nat.lt_succ_self _
          · exact LocalTo.bind (local_expect _) (fun _ => local_marked _) _
        · split
          · exact LocalTo.bind local_advance (fun _ => local_marked _) _
          · exact local_fail _ _
    · rcases kind_cases h with ⟨rfl, rfl⟩ | ⟨t, u, rfl, rfl, hk⟩
      · rfl
      · rw [typeRefAt, typeRefAt, Token.is, Token.is, Token.name?, Token.name?, hk]

theorem local_elementType (element : String) : Local ( typeAnnotation element) := by
  refine LocalTo.bind (local_accept _) fun b => ?_
  cases b
  · exact LocalTo.bind (local_warn fun _ => rfl) fun _ => local_pure fun _ => rfl
  · exact local_typeRef

theorem local_anyValue : Local anyValue := by
  refine local_peek (fun x => ?_) fun x y h => ?_
  · split
    · exact local_fail _
    · split
      · exact local_group _ _
      · exact local_braces
      · exact LocalTo.bind local_advance fun _ => LocalTo.bind local_name fun _ =>
          local_pure fun _ => rfl
      · exact local_fail _
      · exact local_advance
  · rcases kind_cases h with ⟨rfl, rfl⟩ | ⟨t, u, rfl, rfl, hk⟩
    · rfl
    · simp only [hk]

/-- The text of tokens is the same further down. -/
theorem spanText_copies {ts ts' : List Token} {n : Nat} (h : Copies o us ts ts')
    (hn : n ≤ ts.length) : spanText (ts'.take n) = spanText (ts.take n) := by
  have hs : ∀ vs : List Token, (vs.map (Token.down o)).flatMap (fun t => t.gap ++ t.lexeme) =
      vs.flatMap fun t => t.gap ++ t.lexeme := fun vs => by
    rw [List.flatMap_map]
    rfl
  cases h with
  | nil =>
    rw [Nat.le_zero.mp hn]
    rfl
  | @cons t t' ts hc =>
    cases n with
    | zero => rfl
    | succ n =>
      have hl : n ≤ (ts.map (Token.down o)).length := by
        rw [List.length_map]
        exact Nat.le_of_succ_le_succ hn
      rw [List.take_succ_cons, List.take_succ_cons, List.take_append_of_le_length hl,
        ← List.map_take, spanText, spanText, hs, hc.lexeme]

/-- A value behind its equals sign, as its text. -/
def defaultText : Parse (Option String) := fun c =>
  if c.rest.isEmpty then fail .defaultValue c
  else
    match anyValue c with
    | ⟨ws, d, .ok _⟩ =>
      ⟨ws, d, .ok (some (spanText (c.rest.take (c.rest.length - d.rest.length))))⟩
    | ⟨ws, d, .error i⟩ => ⟨ws, d, .error i⟩

theorem defaultValue_eq : defaultValue = (do
    if ← accept .equals then defaultText else return none) := by
  funext c
  rw [defaultValue]
  refine congrFun (congrArg (accept .equals >>= ·) (funext fun b => ?_)) c
  cases b
  · rfl
  · funext d
    show (if d.rest.isEmpty then fail .defaultValue else do
      anyValue
      let after ← tokens
      return some (spanText (d.rest.take (d.rest.length - after.length))) : Parse _) d =
        defaultText d
    by_cases he : d.rest.isEmpty = true
    · rw [if_pos he, defaultText, if_pos he]
    · rw [if_neg he, defaultText, if_neg he, bind_apply]
      rcases anyValue d with ⟨ws, e, i | u⟩
      · rfl
      · show Outcome.mk (ws ++ []) _ _ = Outcome.mk ws _ _
        rw [List.append_nil]
        rfl

theorem local_defaultText : Local defaultText := by
  intro c
  cases he : c.rest.isEmpty with
  | true =>
    have hd : ∀ d : Cursor, d.rest.isEmpty = true → defaultText d = fail .defaultValue d :=
      fun _ h => if_pos h
    obtain ⟨hpass, hend, hmir⟩ :=
      (local_fail .defaultValue : Local (fail .defaultValue : Parse (Option String))) c
    refine ⟨?_, ?_, fun {o us c'} hm hb => ?_⟩ <;> rw [hd c he] at *
    · exact hpass
    · exact hend
    · rw [hd c' ((hm.isEmpty (hpass.bounded hb)).trans he)]
      exact hmir hm hb
  | false =>
    rcases h : anyValue c with ⟨ws, d, i | u⟩
    · have hd : ∀ c ws d i, c.rest.isEmpty = false → anyValue c = ⟨ws, d, .error i⟩ →
          defaultText c = ⟨ws, d, .error i⟩ := fun c ws d i he h => by
        rw [defaultText, he, h]
        rfl
      obtain ⟨hpass, hend, hmir⟩ := (localAt_error h).mp (local_anyValue c)
      refine (localAt_error (hd c ws d i he h)).mpr ⟨hpass, hend, fun o us c' hm hb => ?_⟩
      obtain ⟨d', hd', hm'⟩ := hmir o us c' hm hb
      exact ⟨d', hd c' _ d' _ ((hm.isEmpty (hpass.bounded hb)).trans he) hd', hm'⟩
    · have hd : ∀ c ws d, c.rest.isEmpty = false → anyValue c = ⟨ws, d, .ok ()⟩ →
          defaultText c = ⟨ws, d,
            .ok (some (spanText (c.rest.take (c.rest.length - d.rest.length))))⟩ :=
        fun c ws d he h => by
          rw [defaultText, he, h]
          rfl
      obtain ⟨hpass, hmir⟩ := (localAt_ok h).mp (local_anyValue c)
      refine (localAt_ok (hd c ws d he h)).mpr ⟨hpass, fun o us c' hm hb => ?_⟩
      obtain ⟨d', hd', hm'⟩ := hmir o us c' hm hb
      refine ⟨d', ?_, hm'⟩
      have hlen : c'.rest.length - d'.rest.length = c.rest.length - d.rest.length := by
        rw [hm.rest.length, hm'.rest.length, Nat.add_sub_add_right]
      rw [hd c' _ d' ((hm.isEmpty (hpass.bounded hb)).trans he) hd', hlen,
        spanText_copies hm.rest (Nat.sub_le _ _)]

theorem local_defaultValue : Local defaultValue := by
  rw [defaultValue_eq]
  refine LocalTo.bind (local_accept _) fun b => ?_
  cases b
  · exact local_pure fun _ => rfl
  · exact local_defaultText

theorem local_inputValue (element : String → String) : Local (inputValue element) :=
  LocalTo.bind local_description fun _ => LocalTo.bind local_name fun _ =>
    LocalTo.bind (local_elementType _) fun _ => LocalTo.bind local_defaultValue fun _ =>
      LocalTo.bind local_directives fun _ => local_pure fun _ => rfl

theorem steady_continuesUntil (closing : Punctuator) : Steady (continuesUntil closing) := by
  intro o us c c' hm hb
  unfold continuesUntil
  rw [hm.isEmpty hb, nextIs_mirrors hm hb]

theorem local_arguments (owner : String) : Local (arguments owner) := by
  refine LocalTo.bind (local_accept _) fun b => ?_
  cases b
  · exact local_pure fun _ => rfl
  · refine LocalTo.bind (local_loop (steady_continuesUntil _) ?_) fun _ =>
      LocalTo.bind (local_expect _) fun _ => local_pure fun _ => rfl
    exact LocalTo.bind (local_inputValue _) fun _ => local_pure fun _ => rfl

theorem local_field (owner : String) : Local (field owner) :=
  LocalTo.bind local_description fun _ => LocalTo.bind local_name fun _ =>
    LocalTo.bind (local_arguments _) fun _ => LocalTo.bind (local_elementType _) fun _ =>
      LocalTo.bind local_directives fun _ => local_pure fun _ => rfl

theorem local_inputField (owner : String) : Local (inputField owner) := local_inputValue _

theorem local_enumValue : Local enumValue :=
  LocalTo.bind local_description fun _ => LocalTo.bind local_name fun _ =>
    LocalTo.bind local_directives fun _ => local_pure fun _ => rfl

/-! ## Blocks -/

theorem steady_continuesBlock : Steady continuesBlock := by
  intro o us c c' hm hb
  unfold continuesBlock
  rw [steady_continuesUntil _ hm hb, interruptsBlock_mirrors hm hb]

/-- Going on at the next member behind an issue, which is none at the end. -/
theorem toMember_mirrors {i : Issue} (hm : c.Mirrors o us c') (he : i.found = none → c.rest = [])
    (hb : Bounded us (c.toMember i.line).rest) :
    (c.toMember i.line).Mirrors o us (c'.toMember (i.down o).line) := by
  rcases hf : i.found with _ | x
  · have hn := he hf
    rcases c with ⟨line, rest⟩
    rcases c' with ⟨line', rest'⟩
    obtain rfl : rest = [] := hn
    obtain rfl : us = [] := hb.nil
    cases hm.rest
    exact ⟨.nil, nofun⟩
  · have hl : (i.down o).line = i.line + o.lines := by
      unfold Issue.line
      rw [Issue.down, hf]
      rfl
    rw [hl]
    exact seekMember_mirrors hm hb

theorem member_error {owner : String} {p : Parse α} {ws : List Warning} {i : Issue}
    (h : p c = ⟨ws, c', .error i⟩) : member owner p c =
      ⟨ws ++ [.malformed (some owner) i], c'.toMember i.line, .ok none⟩ := by
  rw [member, h]

theorem member_ok {owner : String} {p : Parse α} {ws : List Warning} {a : α}
    (h : p c = ⟨ws, c', .ok a⟩) : member owner p c = ⟨ws, c', .ok (some a)⟩ := by
  rw [member, h]

theorem local_member {owner : String} {p : Parse α} (hp : Local p) : Local (member owner p) := by
  intro c
  rcases h : p c with ⟨ws, d, i | a⟩
  · obtain ⟨hpass, hend, hmir⟩ := (localAt_error h).mp (hp c)
    have hseek : d.Passes (d.toMember i.line) := seekMember_passes
    refine (localAt_ok (member_error h)).mpr ⟨hpass.trans hseek, fun o us c' hm hb => ?_⟩
    obtain ⟨d', hd, hm'⟩ := hmir o us c' hm (hseek.bounded hb)
    refine ⟨_, ?_, toMember_mirrors hm' hend hb⟩
    rw [member_error hd, Warning.down_malformed]
  · obtain ⟨hpass, hmir⟩ := (localAt_ok h).mp (hp c)
    refine (localAt_ok (member_ok h)).mpr ⟨hpass, fun o us c' hm hb => ?_⟩
    obtain ⟨d', hd, hm'⟩ := hmir o us c' hm hb
    exact ⟨d', member_ok hd, hm'⟩

/-- No block raises an issue: those of its members are warned of. -/
theorem answers_block (owner : String) (p : Parse α) : Answers (block owner p) := by
  have hmember : Answers (member owner p) := by
    intro c
    rcases h : p c with ⟨ws, d, i | a⟩
    · exact ⟨_, _, _, member_error h⟩
    · exact ⟨_, _, _, member_ok h⟩
  refine (answers_accept _).bind fun b => ?_
  cases b with
  | false => exact answers_pure _
  | true =>
    refine (answers_loop hmember).bind fun as => (answers_accept _).bind fun closed => ?_
    cases closed with
    | false => exact Answers.bind (fun _ => ⟨_, _, _, rfl⟩) fun _ => answers_pure as
    | true => exact answers_pure as

theorem local_block {owner : String} {p : Parse α} (hp : Local p) : Local (block owner p) := by
  refine LocalTo.bind (local_accept _) fun b => ?_
  cases b
  · exact local_pure fun _ => rfl
  · refine LocalTo.bind (local_loop steady_continuesBlock (local_member hp)) fun _ =>
      LocalTo.bind (local_accept _) fun b => ?_
    cases b
    · exact LocalTo.bind (local_warn fun _ => rfl) fun _ => local_pure fun _ => rfl
    · exact local_pure fun _ => rfl

end GraphClient.Parse
