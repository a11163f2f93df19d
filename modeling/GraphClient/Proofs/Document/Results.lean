import GraphClient.Proofs.Document.LocalDefinitions

/-!
# What a reader answers

`Parse.Gives P p Q`: from tokens with the property `P`, the reader `p` answers only what has the
property `Q`. If a rest of the tokens inherits `P` from the whole, readers in sequence have it in
front of them, because each is local; so has each round of a loop. What a member gives, a block
of members gives, and what a definition gives, a document gives, whatever else cannot be read.
-/

namespace GraphClient

namespace Parse

variable {α β : Type} {P : List Token → Prop} {Q : α → Prop} {R : β → Prop}

/-- A rest of tokens has a property if the whole has it. -/
def Inherits (P : List Token → Prop) : Prop := ∀ ⦃ts us : List Token⦄, us <:+ ts → P ts → P us

def Gives (P : List Token → Prop) (p : Parse α) (Q : α → Prop) : Prop :=
  ∀ c : Cursor, P c.rest → ∀ a, (p c).result = .ok a → Q a

theorem result_andThen {o : Outcome α} {f : α → Parse β} {b : β} :
    (o.andThen f).result = .ok b ↔ ∃ a, o.result = .ok a ∧ (f a o.cursor).result = .ok b := by
  rcases o with ⟨ws, c, i | a⟩
  · simp
  · simp [Outcome.withEarlier]

theorem Inherits.behind (hP : Inherits P) {p : Parse α} (hp : Local p) {c : Cursor}
    (h : P c.rest) : P (p c).cursor.rest := hP (hp c).passes.suffix h

section Sequence

theorem Gives.bind (hP : Inherits P) {p : Parse α} {f : α → Parse β} (hl : Local p)
    (hp : Gives P p Q) (hf : ∀ a, Q a → Gives P (f a) R) : Gives P (p >>= f) R := by
  intro c hc b hb
  obtain ⟨a, ha, hb⟩ := result_andThen.mp hb
  exact hf a (hp c hc a ha) _ (hP.behind hl hc) b hb

/-- A reader in front whose result does not matter. -/
theorem Gives.after (hP : Inherits P) {p : Parse α} {f : α → Parse β} (hl : Local p)
    (hf : ∀ a, Gives P (f a) R) : Gives P (p >>= f) R :=
  Gives.bind (Q := fun _ => True) hP hl (fun _ _ _ _ => trivial) fun a _ => hf a

theorem gives_pure {a : α} (h : Q a) : Gives P (pure a) Q := by
  intro c _ b hb
  cases hb
  exact h

theorem gives_fail (e : Expectation) : Gives P (fail e) Q := fun _ _ _ h => by cases h

/-- A reader that looks at the next token first. -/
theorem gives_peek {f : Option Token → Parse α} (h : ∀ o, Gives P (f o) Q) :
    Gives P (peek >>= f) Q := fun c hc a ha => h c.rest.head? c hc a ha

end Sequence

/-! ## Members -/

theorem gives_loop (hP : Inherits P) {continues : Cursor → Bool} {step : Parse (Option α)}
    (hl : Local step) (hs : Gives P step fun o => ∀ a ∈ o, Q a) :
    Gives P (loop continues step) fun as => ∀ a ∈ as, Q a := by
  intro c hc as h
  induction hn : c.rest.length using Nat.strongRecOn generalizing c as with
  | _ n ih =>
    rw [loop] at h
    split at h
    · obtain ⟨o, ho, h⟩ := result_andThen.mp h
      have hq : ∀ a ∈ o.toList, Q a := fun a ha => hs c hc o ho a (Option.mem_toList.mp ha)
      split at h
      · rename_i hlt
        obtain ⟨more, hmore, h⟩ := result_andThen.mp h
        cases h
        intro a ha
        rcases List.mem_append.mp ha with ha | ha
        · exact hq a ha
        · exact ih _ (hn ▸ hlt) _ (hP.behind hl hc) more hmore rfl a ha
      · cases h
        exact hq
    · cases h
      exact List.forall_mem_nil _

theorem gives_arguments (hP : Inherits P) {V : InputValueDef → Prop}
    (hv : ∀ element, Gives P (inputValue element) V) (owner : String) :
    Gives P (arguments owner) fun as => ∀ a ∈ as, V a := by
  refine Gives.after hP (local_accept _) fun b => ?_
  cases b
  · exact gives_pure nofun
  · refine Gives.bind hP (local_loop (steady_continuesUntil _) ?_)
      (gives_loop (Q := V) hP ?_ ?_) fun as has =>
        Gives.after hP (local_expect _) fun _ => gives_pure has
    · exact LocalTo.bind (local_inputValue _) fun _ => local_pure fun _ => rfl
    · exact LocalTo.bind (local_inputValue _) fun _ => local_pure fun _ => rfl
    · refine Gives.bind hP (local_inputValue _) (hv _) fun v hv => gives_pure ?_
      rintro a ⟨⟩
      exact hv

theorem gives_member {owner : String} {p : Parse α} (hp : Gives P p Q) :
    Gives P (member owner p) fun o => ∀ a ∈ o, Q a := by
  intro c hc o ho
  rcases h : p c with ⟨ws, d, i | a⟩
  · rw [member_error h] at ho
    cases ho
    exact nofun
  · rw [member_ok h] at ho
    cases ho
    rintro b ⟨⟩
    exact hp c hc a (by rw [h])

theorem gives_block (hP : Inherits P) {owner : String} {p : Parse α} (hl : Local p)
    (hp : Gives P p Q) : Gives P (block owner p) fun as => ∀ a ∈ as, Q a := by
  refine Gives.after hP (local_accept _) fun b => ?_
  cases b
  · exact gives_pure nofun
  · refine Gives.bind hP (local_loop steady_continuesBlock (local_member hl))
      (gives_loop hP (local_member hl) (gives_member hp)) fun as has =>
        Gives.after hP (local_accept _) fun b => ?_
    cases b
    · exact Gives.after hP (local_warn fun _ => rfl) fun _ => gives_pure has
    · exact gives_pure has

/-! ## Definitions -/

variable {D : GraphClient.Definition → Prop}

/-- A definition that is read, if one is, has the property `D`. -/
abbrev Recorded (D : GraphClient.Definition → Prop)
    (r : Option GraphClient.Definition × Option Issue) : Prop := ∀ d ∈ r.1, D d

theorem recorded_some {d : GraphClient.Definition} {i : Option Issue} (h : D d) :
    Recorded D (some d, i) := by
  rintro e ⟨⟩
  exact h

/-- A reader whose issue becomes a part of what is read. -/
theorem gives_tentative {p : Parse Unit} {d : GraphClient.Definition} (h : D d) :
    Gives P (do return (some d, ← tentative p)) (Recorded D) := by
  intro c _ r hr
  obtain ⟨i, -, hr⟩ := result_andThen.mp hr
  cases hr
  exact recorded_some h

/-- The property `D` of a definition follows from properties of its name, its description, its
enum values, its fields and its input fields. -/
structure Composes (N : String → Prop) (T : Option String → Prop) (E : EnumValueDef → Prop)
    (F : FieldDef → Prop) (V : InputValueDef → Prop) (D : GraphClient.Definition → Prop) :
    Prop where
  scalar {n : String} {d : Option String} : N n → T d → D (.scalar ⟨n, d⟩)
  enum {n : String} {d : Option String} {values : List EnumValueDef} :
    N n → T d → (∀ v ∈ values, E v) → D (.enum ⟨n, d, values⟩)
  object {n : String} {d : Option String} {fields : List FieldDef} :
    N n → T d → (∀ f ∈ fields, F f) → D (.object ⟨n, d, fields⟩)
  input {n : String} {d : Option String} {fields : List InputValueDef} :
    N n → T d → (∀ f ∈ fields, V f) → D (.input ⟨n, d, fields⟩)
  interface {n : String} : N n → D (.interface n)
  union {n : String} : N n → D (.union n)

section Composed

variable {N : String → Prop} {T : Option String → Prop} {E : EnumValueDef → Prop}
  {F : FieldDef → Prop} {V : InputValueDef → Prop}

theorem gives_body (hP : Inherits P) (hc : Composes N T E F V D) (hn : Gives P name N)
    (he : Gives P enumValue E) (hf : ∀ owner, Gives P (field owner) F)
    (hv : ∀ element, Gives P (inputValue element) V) {d : Option String} (hd : T d)
    (keyword : Keyword) : Gives P (body d keyword) (Recorded D) := by
  cases keyword with
  | scalar =>
    exact Gives.bind hP local_name hn fun _ hname => Gives.after hP local_directives fun _ =>
      gives_pure (recorded_some (hc.scalar hname hd))
  | enum =>
    exact Gives.bind hP local_name hn fun _ hname => Gives.after hP local_directives fun _ =>
      Gives.bind hP (local_block local_enumValue) (gives_block hP local_enumValue he)
        fun _ hvalues => gives_pure (recorded_some (hc.enum hname hd hvalues))
  | type =>
    exact Gives.bind hP local_name hn fun _ hname => Gives.after hP local_interfaces fun _ =>
      Gives.after hP local_directives fun _ => Gives.bind hP (local_block (local_field _))
        (gives_block hP (local_field _) (hf _))
        fun _ hfields => gives_pure (recorded_some (hc.object hname hd hfields))
  | input =>
    exact Gives.bind hP local_name hn fun _ hname => Gives.after hP local_directives fun _ =>
      Gives.bind hP (local_block (local_inputField _))
        (gives_block hP (local_inputField _) (hv _))
        fun _ hfields => gives_pure (recorded_some (hc.input hname hd hfields))
  | interface =>
    exact Gives.bind hP local_name hn fun _ hname => gives_tentative (hc.interface hname)
  | union =>
    exact Gives.bind hP local_name hn fun _ hname => gives_tentative (hc.union hname)
  | schema =>
    exact Gives.after hP local_directives fun _ => Gives.after hP local_braces fun _ =>
      gives_pure nofun
  | directive => exact Gives.after hP local_directiveDefinition fun _ => gives_pure nofun
  | extend =>
    exact Gives.after hP local_advance fun _ => Gives.after hP local_toDefinition fun _ =>
      gives_pure nofun

theorem gives_definition (hP : Inherits P) (hc : Composes N T E F V D) (hn : Gives P name N)
    (hd : Gives P description T) (he : Gives P enumValue E)
    (hf : ∀ owner, Gives P (field owner) F) (hv : ∀ element, Gives P (inputValue element) V) :
    Gives P definition (Recorded D) := by
  rw [definition_eq]
  refine Gives.bind hP local_description hd fun d ht => gives_peek fun o => ?_
  cases o.bind Token.keyword? with
  | none => exact gives_fail _
  | some k => exact Gives.after hP local_advance fun _ => gives_body hP hc hn he hf hv ht k

end Composed

theorem gives_entry (h : Gives P definition (Recorded D)) :
    Gives P entry fun o => ∀ d ∈ o, D d := by
  intro c hc o ho
  rcases hdef : definition c with ⟨ws, d, i | ⟨x, _ | i⟩⟩
  · rw [entry_recovers (.inr ⟨hdef, rfl⟩)] at ho
    cases ho
    exact nofun
  · rw [entry_ok hdef] at ho
    cases ho
    exact h c hc (o, none) (by rw [hdef])
  · rw [entry_recovers (.inl hdef)] at ho
    cases ho
    exact h c hc (o, some i) (by rw [hdef])

theorem gives_definitions (hP : Inherits P) (h : Gives P definition (Recorded D)) :
    Gives P definitions fun ds => ∀ d ∈ ds, D d :=
  gives_loop hP local_entry (gives_entry h)

end Parse

namespace Document

open Parse

/-- The definitions of a document are those that its tokens give. -/
theorem ofTokens_gives {P : List Token → Prop} {D : Definition → Prop} {ts : List Token}
    (hP : Inherits P) (h : Gives P definition (Recorded D)) (hts : P ts) :
    ∀ d ∈ (ofTokens ts).definitions, D d := by
  rw [ofTokens]
  rcases hd : Parse.definitions ⟨0, ts⟩ with ⟨ws, c, i | ds⟩
  · exact nofun
  · exact gives_definitions hP h ⟨0, ts⟩ hts ds (by rw [hd])

end Document

end GraphClient
