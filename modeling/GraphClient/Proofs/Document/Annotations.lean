import GraphClient.Proofs.Document.Payment

/-!
# What the readers of members report

The only warnings that the reader of a member gives by itself are about missing annotations, and
an issue is found at the token where it stops. `Reports b rest W p`: as long as `p` reads nothing
behind the tokens `b`, which stand in front of `rest`, its warnings are `W`. A member names what
has no annotation by names that it reads, so by names among `b` (`Unannotated`).
-/

namespace GraphClient.Parse

variable {α β : Type} {b rest : List Token} {V W : Warning → Prop} {c : Cursor}

/-- A reader goes forward, finds an issue where it stops, and on the tokens `b` in front of `rest`
it warns of nothing else. -/
structure ReportsAt (b rest : List Token) (W : Warning → Prop) (p : Parse α) (c : Cursor) :
    Prop where
  passes : c.Passes (p c).cursor
  found : ∀ i, (p c).result = .error i →
    i.found = (p c).cursor.rest.head?.map Token.toOccurrence
  warns : c.rest <:+ b ++ rest → rest <:+ (p c).cursor.rest → ∀ w ∈ (p c).warnings, W w

def Reports (b rest : List Token) (W : Warning → Prop) (p : Parse α) : Prop :=
  ∀ c, ReportsAt b rest W p c

theorem reportsAt_ok {p : Parse α} {ws : List Warning} {d : Cursor} {a : α}
    (h : p c = ⟨ws, d, .ok a⟩) : ReportsAt b rest W p c ↔
      c.Passes d ∧ (c.rest <:+ b ++ rest → rest <:+ d.rest → ∀ w ∈ ws, W w) := by
  constructor
  · rintro ⟨hpass, -, hw⟩
    rw [h] at hpass hw
    exact ⟨hpass, hw⟩
  · rintro ⟨hpass, hw⟩
    refine ⟨by rw [h]; exact hpass, fun i hi => ?_, by rw [h]; exact hw⟩
    rw [h] at hi
    cases hi

theorem reportsAt_error {p : Parse α} {ws : List Warning} {d : Cursor} {i : Issue}
    (h : p c = ⟨ws, d, .error i⟩) : ReportsAt b rest W p c ↔
      c.Passes d ∧ i.found = d.rest.head?.map Token.toOccurrence ∧
        (c.rest <:+ b ++ rest → rest <:+ d.rest → ∀ w ∈ ws, W w) := by
  constructor
  · rintro ⟨hpass, hfound, hw⟩
    rw [h] at hpass hfound hw
    exact ⟨hpass, hfound i rfl, hw⟩
  · rintro ⟨hpass, hfound, hw⟩
    refine ⟨by rw [h]; exact hpass, fun j hj => ?_, by rw [h]; exact hw⟩
    rw [h] at hj ⊢
    cases hj
    exact hfound

theorem reportsAt_congr {p q : Parse α} (h : p c = q c) :
    ReportsAt b rest W p c ↔ ReportsAt b rest W q c := by
  constructor
  · rintro ⟨hpass, hfound, hw⟩
    exact ⟨h ▸ hpass, h ▸ hfound, h ▸ hw⟩
  · rintro ⟨hpass, hfound, hw⟩
    exact ⟨h ▸ hpass, h ▸ hfound, h ▸ hw⟩

theorem Reports.mono {p : Parse α} (h : Reports b rest V p) (hw : ∀ w, V w → W w) :
    Reports b rest W p :=
  fun c => ⟨(h c).passes, (h c).found, fun hin hout w hmem => hw w ((h c).warns hin hout w hmem)⟩

theorem ReportsAt.bind {p : Parse α} {f : α → Parse β} (hp : ReportsAt b rest W p c)
    (hf : ∀ a, ReportsAt b rest W (f a) (p c).cursor) : ReportsAt b rest W (p >>= f) c := by
  rcases h : p c with ⟨ws, d, i | a⟩
  · have hstop : (p >>= f) c = ⟨ws, d, .error i⟩ := by
      rw [bind_apply, h]
      rfl
    exact (reportsAt_error hstop).mpr ((reportsAt_error h).mp hp)
  · obtain ⟨hpass, hw⟩ := (reportsAt_ok h).mp hp
    rw [h] at hf
    obtain ⟨hpass', hfound, hw'⟩ := hf a
    have hgo : (p >>= f) c = (f a d).withEarlier ws := by
      rw [bind_apply, h]
      rfl
    refine ⟨?_, ?_, ?_⟩ <;> rw [hgo]
    · exact hpass.trans hpass'
    · exact hfound
    · intro hin hout w hmem
      rcases List.mem_append.mp hmem with hmem | hmem
      · exact hw hin (hout.trans hpass'.suffix) w hmem
      · exact hw' (hpass.suffix.trans hin) hout w hmem

theorem Reports.bind {p : Parse α} {f : α → Parse β} (hp : Reports b rest W p)
    (hf : ∀ a, Reports b rest W (f a)) : Reports b rest W (p >>= f) :=
  fun c => (hp c).bind fun a => hf a _

/-! ## Single tokens -/

/-- A reader that goes forward and reports nothing. -/
theorem reports_nothing {p : Parse α} {d : Cursor} {a : α} (hd : c.Passes d)
    (h : p c = ⟨[], d, .ok a⟩) : ReportsAt b rest W p c :=
  (reportsAt_ok h).mpr ⟨hd, fun _ _ w hw => by cases hw⟩

theorem reports_pure (a : α) : Reports b rest W (pure a) := fun c =>
  reports_nothing c.passes_self rfl

theorem reports_fail (e : Expectation) : Reports b rest W (fail e : Parse α) := fun c =>
  (reportsAt_error rfl).mpr ⟨c.passes_self, rfl, fun _ _ w hw => by cases hw⟩

theorem reports_warn {w : Warning} (h : W w) : Reports b rest W (warn w) := by
  refine fun c => (reportsAt_ok rfl).mpr ⟨c.passes_self, fun _ _ v hv => ?_⟩
  rw [List.mem_singleton.mp hv]
  exact h

theorem reports_advance : Reports b rest W advance := fun c =>
  reports_nothing c.passes_advance rfl

theorem reportsAt_peek {f : Option Token → Parse β} :
    ReportsAt b rest W (peek >>= f) c ↔ ReportsAt b rest W (f c.rest.head?) c :=
  reportsAt_congr rfl

theorem reports_peek {f : Option Token → Parse β} (hf : ∀ o, Reports b rest W (f o)) :
    Reports b rest W (peek >>= f) := fun c => reportsAt_peek.mpr (hf c.rest.head? c)

theorem reports_accept (p : Punctuator) : Reports b rest W (accept p) := by
  intro c
  cases h : nextIs p c with
  | false => exact reports_nothing c.passes_self (accept_of_not_nextIs h)
  | true => exact reports_nothing c.passes_advance (accept_of_nextIs h)

theorem reports_expect (p : Punctuator) : Reports b rest W (expect p) := by
  refine Reports.bind (reports_accept p) fun x => ?_
  cases x
  · exact reports_fail _
  · exact reports_pure ()

theorem reports_description : Reports b rest W description := by
  refine reports_peek fun o => ?_
  split
  · exact Reports.bind reports_advance fun _ => reports_pure _
  · exact reports_pure none

/-- A name among some tokens. -/
def Named (b : List Token) (n : String) : Prop := ∃ t ∈ b, t.kind = .name n

/-- A name that is read is one of the tokens. -/
theorem Reports.name {V : String → Warning → Prop} {f : String → Parse β}
    (hf : ∀ n, Reports b rest (V n) (f n)) (hV : ∀ n w, Named b n → V n w → W w) :
    Reports b rest W (name >>= f) := by
  intro c
  cases h : c.rest.head?.bind Token.name? with
  | none =>
    have hfail : (Parse.name >>= f) c = (fail .name : Parse β) c := by
      rw [bind_apply, name_of_none h]
      rfl
    exact (reportsAt_congr hfail).mpr (reports_fail _ c)
  | some n =>
    have hgo : (Parse.name >>= f) c = f n c.advance := by
      rw [bind_apply, name_of_some h]
      rfl
    obtain ⟨t, ht, hn⟩ := Option.bind_eq_some_iff.mp h
    obtain ⟨ts, hts⟩ := List.head?_eq_some_iff.mp ht
    have hadv : c.advance.rest = ts := by rw [Cursor.advance, hts]
    obtain ⟨hpass, hfound, hw⟩ := hf n c.advance
    refine ⟨hgo ▸ c.passes_advance.trans hpass, hgo ▸ hfound, ?_⟩
    rw [hgo]
    intro hin hout w hmem
    -- what is left behind the name holds `rest`, so the name stands within `b`
    have hrest : rest <:+ ts := hadv ▸ hout.trans hpass.suffix
    obtain ⟨xs, hxs⟩ := hin
    obtain ⟨ys, rfl⟩ := hrest
    have hb : b = xs ++ t :: ys := by
      rw [hts, ← List.cons_append, ← List.append_assoc] at hxs
      exact (List.append_cancel_right hxs).symm
    refine hV n w ⟨t, by rw [hb]; simp, Token.name?_eq_some.mp hn⟩ (hw ?_ hout w hmem)
    rw [hadv, hb]
    exact ⟨xs ++ [t], by simp⟩

theorem reports_name : Reports b rest W name := by
  intro c
  cases h : c.rest.head?.bind Token.name? with
  | none => exact (reportsAt_congr (name_of_none h)).mpr (reports_fail _ c)
  | some n => exact reports_nothing c.passes_advance (name_of_some h)

/-! ## Loops and groups -/

theorem reports_loop {continues : Cursor → Bool} {step : Parse (Option α)}
    (hs : Reports b rest W step) : Reports b rest W (loop continues step) := by
  intro c
  induction hl : c.rest.length using Nat.strongRecOn generalizing c with
  | _ x ih =>
    cases hc : continues c with
    | false => exact reports_nothing c.passes_self (loop_stop hc)
    | true =>
      have hstep := hs c
      rcases h : step c with ⟨ws, d, e | a⟩
      · exact (reportsAt_error (loop_error hc h)).mpr ((reportsAt_error h).mp hstep)
      by_cases hlt : d.rest.length < c.rest.length
      · have hl' : loop continues step c =
            (step >>= fun a => loop continues step >>= fun as => pure (a.toList ++ as)) c := by
          rw [loop_step hc h hlt, bind_apply, h]
          rfl
        rw [reportsAt_congr hl']
        refine hstep.bind fun a => ?_
        rw [h]
        exact (ih _ (hl ▸ hlt) d rfl).bind fun _ => reports_pure _ _
      · exact (reportsAt_ok (loop_last hc h hlt)).mpr ((reportsAt_ok h).mp hstep)

theorem reports_skipLoop {continues : Cursor → Bool} {step : Parse Unit}
    (hs : Reports b rest W step) : Reports b rest W (skipLoop continues step) :=
  Reports.bind (reports_loop (Reports.bind hs fun _ => reports_pure _)) fun _ => reports_pure ()

/-- A group that is not closed ends with the tokens. -/
theorem leaveGroup_found {opening closing : Punctuator} {depth line : Nat} {ts : List Token}
    {i : Issue} (h : (leaveGroup opening closing depth line ts).result = .error i) :
    i.found = none := by
  induction ts generalizing depth line with
  | nil =>
    cases h
    rfl
  | cons t ts ih =>
    rw [leaveGroup] at h
    repeat' split at h
    all_goals first | exact ih h | cases h

theorem reports_group (opening closing : Punctuator) :
    Reports b rest W (group opening closing) := by
  intro c
  cases h : nextIs opening c with
  | false => exact reports_nothing c.passes_self (group_of_not_nextIs h)
  | true =>
    obtain ⟨hpass, hend⟩ := @leaveGroup_passes opening closing c.rest 0 c.line
    refine ⟨?_, fun i hi => ?_, fun _ _ w hw => ?_⟩ <;> rw [group_of_nextIs h] at *
    · exact hpass
    · rw [leaveGroup_found hi, hend i hi]
      rfl
    · rw [leaveGroup_warnings] at hw
      cases hw

theorem reports_directives : Reports b rest W directives :=
  reports_skipLoop (Reports.bind reports_advance fun _ => Reports.bind reports_name fun _ =>
    reports_group _ _)

/-! ## Types and values -/

theorem reports_marked (t : TypeRef) : Reports b rest W (marked t) := by
  refine Reports.bind (reports_accept _) fun x => ?_
  cases x <;> exact reports_pure _

theorem reports_typeRef : Reports b rest W typeRef := by
  intro c
  induction hl : c.rest.length using Nat.strongRecOn generalizing c with
  | _ x ih =>
    rw [typeRef_eq, reportsAt_peek]
    rcases c with ⟨line, _ | ⟨t, ts⟩⟩
    · exact reports_fail _ _
    · rw [List.head?_cons, typeRefAt]
      split
      · refine (reports_advance _).bind fun _ => ?_
        refine (ih ts.length ?_ _ rfl).bind fun _ => ?_
        · rw [← hl, List.length_cons]
          exact Nat.lt_succ_self _
        · exact Reports.bind (reports_expect _) (fun _ => reports_marked _) _
      · split
        · exact Reports.bind reports_advance (fun _ => reports_marked _) _
        · exact reports_fail _ _

theorem reports_elementType {element : String} (h : W (.untyped element)) :
    Reports b rest W ( typeAnnotation element) := by
  refine Reports.bind (reports_accept _) fun x => ?_
  cases x
  · exact Reports.bind (reports_warn h) fun _ => reports_pure _
  · exact reports_typeRef

theorem reports_anyValue : Reports b rest W anyValue := by
  refine reports_peek fun o => ?_
  split
  · exact reports_fail _
  · split
    · exact reports_group _ _
    · exact reports_group _ _
    · exact Reports.bind reports_advance fun _ => Reports.bind reports_name fun _ =>
        reports_pure ()
    · exact reports_fail _
    · exact reports_advance

theorem reports_defaultValue : Reports b rest W defaultValue := by
  refine Reports.bind (reports_accept _) fun x => ?_
  cases x
  · exact reports_pure none
  · refine Reports.bind (fun c => reports_nothing c.passes_self rfl) fun before => ?_
    split
    · exact reports_fail _
    · exact Reports.bind reports_anyValue fun _ =>
        Reports.bind (fun c => reports_nothing c.passes_self rfl) fun _ => reports_pure _

/-! ## Members -/

theorem reports_inputValue (element : String → String) :
    Reports b rest (fun w => ∃ n, Named b n ∧ w = .untyped (element n)) (inputValue element) := by
  refine Reports.bind reports_description fun _ =>
    Reports.name (V := fun n w => w = .untyped (element n))
    (fun n => ?_) fun n w hn hw => ⟨n, hn, hw⟩
  exact Reports.bind (reports_elementType rfl) fun _ =>
    Reports.bind reports_defaultValue fun _ =>
    Reports.bind reports_directives fun _ => reports_pure _

theorem reports_arguments (owner : String) :
    Reports b rest (fun w => ∃ a, Named b a ∧ w = .untyped (owner ++ "(" ++ a ++ ")"))
      (arguments owner) := by
  refine Reports.bind (reports_accept _) fun x => ?_
  cases x
  · exact reports_pure []
  · refine Reports.bind (reports_loop (Reports.bind (reports_inputValue _) fun _ => ?_)) fun _ => ?_
    · exact reports_pure _
    · exact Reports.bind (reports_expect _) fun _ => reports_pure _

/-- A warning that a member of `owner`, or an argument of it, has no annotation. Their names are
among the tokens. -/
def Unannotated (owner : String) (b : List Token) (w : Warning) : Prop :=
  ∃ n, Named b n ∧ (w = .untyped (owner ++ "." ++ n) ∨
    ∃ a, Named b a ∧ w = .untyped (owner ++ "." ++ n ++ "(" ++ a ++ ")"))

theorem reports_field (owner : String) :
    Reports b rest (Unannotated owner b) (field owner) := by
  refine Reports.bind reports_description fun _ => Reports.name
    (V := fun n w => w = .untyped (owner ++ "." ++ n) ∨
      ∃ a, Named b a ∧ w = .untyped (owner ++ "." ++ n ++ "(" ++ a ++ ")"))
    (fun n => ?_) fun n w hn hw => ⟨n, hn, hw⟩
  refine Reports.bind ((reports_arguments _).mono fun w hw => .inr hw) fun _ => ?_
  exact Reports.bind (reports_elementType (.inl rfl)) fun _ =>
    Reports.bind reports_directives fun _ => reports_pure _

theorem reports_inputField (owner : String) :
    Reports b rest (Unannotated owner b) (inputField owner) :=
  (reports_inputValue _).mono fun _ ⟨n, hn, hw⟩ => ⟨n, hn, .inl hw⟩

theorem reports_enumValue : Reports b rest W enumValue :=
  Reports.bind reports_description fun _ => Reports.bind reports_name fun _ =>
    Reports.bind reports_directives fun _ => reports_pure _

end GraphClient.Parse
