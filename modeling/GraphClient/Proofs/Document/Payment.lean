import GraphClient.Proofs.Document.Closing

/-!
# Warnings are paid with tokens

A reader that gives a warning pays for it with a token that was read before: `Pays k p m n` says
that `p`, with `k` such tokens in hand, has `m` in hand behind what it reads, or `n` where an
issue stops it. Only a missing type costs more than it brings, and the name in front pays for
it; so a member leaves a token for the warning of its issue (`pays_field` and its siblings), and
so does what follows the keyword of a definition (`pays_body`).
-/

namespace GraphClient.Parse

variable {α β : Type} {c : Cursor} {k l m n i j : Nat}

/-- With `k` tokens in hand, all warnings that a reader gives from `c` on are paid for with these
and with the tokens that it reads, and `m` are left over, or `n` if an issue stops it. -/
def PaysAt (k : Nat) (p : Parse α) (m n : Nat) (c : Cursor) : Prop :=
  (match (p c).result with
    | .ok _ => m
    | .error _ => n) + (p c).warnings.length + (p c).cursor.rest.length ≤ k + c.rest.length

def Pays (k : Nat) (p : Parse α) (m n : Nat) : Prop := ∀ c, PaysAt k p m n c

theorem paysAt_ok {p : Parse α} {ws : List Warning} {d : Cursor} {a : α}
    (h : p c = ⟨ws, d, .ok a⟩) :
    PaysAt k p m n c ↔ m + ws.length + d.rest.length ≤ k + c.rest.length := by
  rw [PaysAt, h]

theorem paysAt_error {p : Parse α} {ws : List Warning} {d : Cursor} {e : Issue}
    (h : p c = ⟨ws, d, .error e⟩) :
    PaysAt k p m n c ↔ n + ws.length + d.rest.length ≤ k + c.rest.length := by
  rw [PaysAt, h]

theorem PaysAt.weaken {p : Parse α} (h : PaysAt k p m n c) (hm : i ≤ m) (hn : j ≤ n) :
    PaysAt k p i j c := by
  rcases hp : p c with ⟨ws, d, e | a⟩
  · rw [paysAt_error hp] at h ⊢
    omega
  · rw [paysAt_ok hp] at h ⊢
    omega

theorem Pays.weaken {p : Parse α} (h : Pays k p m n) (hm : i ≤ m) (hn : j ≤ n) :
    Pays k p i j := fun c => (h c).weaken hm hn

theorem Pays.less {p : Parse α} (h : Pays k p m n) (hm : i ≤ m) : Pays k p i n :=
  h.weaken hm (Nat.le_refl n)

theorem PaysAt.bind {p : Parse α} {f : α → Parse β} (hp : PaysAt k p l j c)
    (hf : ∀ a, (p c).result = .ok a → PaysAt l (f a) m n (p c).cursor) (hj : n ≤ j) :
    PaysAt k (p >>= f) m n c := by
  rcases h : p c with ⟨ws, d, e | a⟩
  · have hb : (p >>= f) c = ⟨ws, d, .error e⟩ := by
      rw [bind_apply, h]
      rfl
    rw [paysAt_error h] at hp
    rw [paysAt_error hb]
    omega
  · have hfa := hf a (by rw [h])
    rw [h] at hfa
    rw [paysAt_ok h] at hp
    rcases hd : f a d with ⟨vs, e, x | b⟩
    · have hb : (p >>= f) c = ⟨ws ++ vs, e, .error x⟩ := by
        rw [bind_apply, h, Outcome.andThen_ok, hd]
        rfl
      rw [paysAt_error hd] at hfa
      rw [paysAt_error hb, List.length_append]
      omega
    · have hb : (p >>= f) c = ⟨ws ++ vs, e, .ok b⟩ := by
        rw [bind_apply, h, Outcome.andThen_ok, hd]
        rfl
      rw [paysAt_ok hd] at hfa
      rw [paysAt_ok hb, List.length_append]
      omega

theorem Pays.bind {p : Parse α} {f : α → Parse β} (hp : Pays k p l j)
    (hf : ∀ a, Pays l (f a) m n) (hj : n ≤ j) : Pays k (p >>= f) m n :=
  fun c => (hp c).bind (fun a _ => hf a _) hj

theorem pays_pure (a : α) : Pays k (pure a) k n := fun _ => Nat.le_refl _

theorem pays_fail (e : Expectation) : Pays k (fail e : Parse α) m k := fun _ => Nat.le_refl _

theorem pays_warn (w : Warning) : Pays (k + 1) (warn w) k n := fun _ => Nat.le_refl _

theorem pays_peek {f : Option Token → Parse β} (hf : ∀ o, Pays k (f o) m n) :
    Pays k (peek >>= f) m n := fun c => hf c.rest.head? c

/-- A reader that gives no warnings and only goes forward. -/
theorem pays_move {f : Cursor → Cursor} (h : ∀ c : Cursor, c.Passes (f c)) :
    Pays k (move f) k n :=
  fun c => Nat.add_le_add_left (h c).suffix.length_le k

theorem pays_advance : Pays k advance k n := fun c =>
  Nat.add_le_add_left c.advance_suffix.length_le k

/-- The next token, which is read, is in hand. -/
theorem paysAt_advance (h : c.rest ≠ []) : PaysAt k advance (k + 1) n c := by
  obtain ⟨t, ts, ht⟩ := List.exists_cons_of_ne_nil h
  have ha : advance c = ⟨[], ⟨t.line, ts⟩, .ok ()⟩ := by rw [advance, Cursor.advance, ht]
  rw [paysAt_ok ha, ht, List.length_cons, List.length_nil]
  exact Nat.le_of_eq (Nat.add_right_comm k 1 ts.length)

theorem ne_nil_of_nextIs {p : Punctuator} (h : nextIs p c = true) : c.rest ≠ [] := by
  rintro hn
  rw [nextIs, hn] at h
  cases h

/-- A punctuator is in hand where it is read. -/
theorem Pays.accept {p : Punctuator} {f : Bool → Parse β} (ht : Pays (k + 1) (f true) m n)
    (hf : Pays k (f false) m n) : Pays k (accept p >>= f) m n := by
  intro c
  cases h : nextIs p c with
  | true =>
    have ha := accept_of_nextIs h
    have hp : PaysAt k advance (k + 1) n c := paysAt_advance (ne_nil_of_nextIs h)
    refine PaysAt.bind (l := k + 1) (j := n) ?_ (fun b hb => ?_) (Nat.le_refl n)
    · rw [paysAt_ok ha]
      exact hp
    · rw [ha] at hb
      cases hb
      exact ht _
  | false =>
    have ha := accept_of_not_nextIs h
    refine PaysAt.bind (l := k) (j := n) ?_ (fun b hb => ?_) (Nat.le_refl n)
    · rw [paysAt_ok ha]
      exact Nat.le_refl _
    · rw [ha] at hb
      cases hb
      exact hf _

theorem pays_accept (p : Punctuator) : Pays k (accept p) k n := by
  intro c
  cases h : nextIs p c with
  | true =>
    rw [paysAt_ok (accept_of_nextIs h)]
    exact pays_advance (n := n) c
  | false =>
    rw [paysAt_ok (accept_of_not_nextIs h)]
    exact Nat.le_refl _

theorem pays_expect (p : Punctuator) : Pays k (expect p) (k + 1) k :=
  Pays.accept (pays_pure ()) (pays_fail _)

theorem pays_name : Pays k name (k + 1) k := by
  intro c
  cases h : c.rest.head?.bind Token.name? with
  | none =>
    rw [PaysAt, name_of_none h]
    exact pays_fail (m := k + 1) _ c
  | some text =>
    obtain ⟨t, ht, -⟩ := Option.bind_eq_some_iff.mp h
    rw [paysAt_ok (name_of_some h)]
    exact paysAt_advance (n := k) (List.ne_nil_of_mem (List.mem_of_mem_head? ht))

theorem pays_description : Pays k description k n := by
  refine pays_peek fun o => ?_
  cases o.bind Token.string? with
  | none => exact pays_pure _
  | some text => exact Pays.bind pays_advance (fun _ => pays_pure _) (Nat.le_refl n)

theorem pays_peekName : Pays k peekName k n := pays_peek fun _ => pays_pure _

/-! ## Loops and groups -/

section Loops

variable {continues : Cursor → Bool}

theorem paysAt_congr {p q : Parse α} (h : p c = q c) : PaysAt k p m n c ↔ PaysAt k q m n c := by
  rw [PaysAt, PaysAt, h]

/-- A loop pays if each step does. -/
theorem pays_loop {step : Parse (Option α)}
    (hs : ∀ c, continues c = true → PaysAt k step k n c) : Pays k (loop continues step) k n := by
  intro c
  induction hl : c.rest.length using Nat.strongRecOn generalizing c with
  | _ x ih =>
    cases hc : continues c with
    | false =>
      rw [paysAt_ok (loop_stop hc)]
      exact Nat.le_refl _
    | true =>
      have hstep := hs c hc
      rcases h : step c with ⟨ws, d, e | a⟩
      · rw [paysAt_error h] at hstep
        rwa [paysAt_error (loop_error hc h)]
      by_cases hlt : d.rest.length < c.rest.length
      · have hl' : loop continues step c =
            (step >>= fun a => loop continues step >>= fun as => pure (a.toList ++ as)) c := by
          rw [loop_step hc h hlt, bind_apply, h]
          rfl
        rw [paysAt_congr hl']
        refine hstep.bind (fun b _ => ?_) (Nat.le_refl n)
        rw [h]
        exact (ih _ (hl ▸ hlt) d rfl).bind (fun _ _ => pays_pure _ _) (Nat.le_refl n)
      · rw [paysAt_ok h] at hstep
        rwa [paysAt_ok (loop_last hc h hlt)]

theorem pays_skipLoop {step : Parse Unit} (hs : ∀ c, continues c = true → PaysAt k step k n c) :
    Pays k (skipLoop continues step) k n := by
  refine Pays.bind (pays_loop fun c hc => ?_) (fun _ => pays_pure _) (Nat.le_refl n)
  exact (hs c hc).bind (fun _ _ => pays_pure _ _) (Nat.le_refl n)

end Loops

section Groups

variable {opening closing : Punctuator}

theorem leaveGroup_warnings (depth line : Nat) (ts : List Token) :
    (leaveGroup opening closing depth line ts).warnings = [] := by
  induction ts generalizing depth line with
  | nil => rfl
  | cons t ts ih =>
    rw [leaveGroup]
    repeat' split
    all_goals first | rfl | exact ih _ _

theorem pays_group (opening closing : Punctuator) : Pays k (group opening closing) k k := by
  intro c
  cases h : nextIs opening c with
  | false => rw [paysAt_ok (group_of_not_nextIs h)]; exact Nat.le_refl _
  | true =>
    have hs := (@leaveGroup_passes opening closing c.rest 0 c.line).1.suffix.length_le
    have hw := @leaveGroup_warnings opening closing 0 c.line c.rest
    rw [PaysAt, group_of_nextIs h, hw, List.length_nil]
    split <;> exact Nat.add_le_add_left hs k

theorem pays_parens : Pays k parens k k := pays_group _ _

theorem pays_braces : Pays k braces k k := pays_group _ _

/-- An issue in a directive leaves the at sign in hand. -/
theorem pays_directives : Pays k directives k (k + 1) := by
  refine pays_skipLoop fun c hc => ?_
  refine (paysAt_advance (ne_nil_of_nextIs hc)).bind (j := k + 1) (fun _ _ => ?_) (Nat.le_refl _)
  exact Pays.bind pays_name (fun _ => pays_parens.weaken (by omega) (by omega)) (Nat.le_refl _) _

theorem pays_alternatives : Pays k alternatives k k := by
  refine Pays.bind (pays_accept _) (fun _ => Pays.bind pays_name (fun _ => ?_) (Nat.le_refl k))
    (Nat.le_refl k)
  refine (pays_skipLoop fun c hc => ?_).less (Nat.le_succ k)
  refine (paysAt_advance (ne_nil_of_nextIs hc)).bind (j := k) (fun _ _ => ?_) (Nat.le_refl k)
  exact Pays.bind pays_name (fun _ => (pays_pure _).less (by omega)) (by omega) _

theorem pays_interfaces : Pays k interfaces k k := by
  refine Pays.bind pays_peekName (j := k) (fun o => ?_) (Nat.le_refl k)
  split
  · refine Pays.bind (pays_advance (n := k)) (fun _ => ?_) (Nat.le_refl k)
    refine Pays.bind (pays_accept (n := k) _)
      (fun _ => Pays.bind pays_name (fun _ => ?_) (Nat.le_refl k)) (Nat.le_refl k)
    refine (pays_skipLoop fun c _ => ?_).less (Nat.le_succ k)
    refine Pays.bind (pays_accept (n := k) _) (fun _ => ?_) (Nat.le_refl k) c
    exact Pays.bind pays_name (fun _ => (pays_pure _).less (by omega)) (by omega)
  · exact pays_pure _

theorem pays_places : Pays k places k k := by
  refine Pays.bind pays_peekName (j := k) (fun o => ?_) (Nat.le_refl k)
  split
  · exact Pays.bind (pays_advance (n := k)) (fun _ => pays_alternatives) (Nat.le_refl k)
  · exact pays_fail _

theorem pays_directiveDefinition : Pays k directiveDefinition k k := by
  rw [directiveDefinition_eq]
  refine Pays.bind (pays_expect _) (fun _ => Pays.bind pays_name (fun _ => Pays.bind pays_parens
    (fun _ => Pays.bind (pays_peekName (n := k)) (fun o => ?_) ?_) ?_) ?_) (Nat.le_refl k)
  · split
    · exact Pays.bind (pays_advance (n := k)) (fun _ => pays_places.weaken (by omega) (by omega))
        (Nat.le_refl k)
    · exact pays_places.weaken (by omega) (by omega)
  all_goals omega

end Groups

/-! ## Types and values -/

theorem pays_marked (t : TypeRef) : Pays k (marked t) k n := by
  refine Pays.bind (pays_accept (n := n) _) (fun b => ?_) (Nat.le_refl n)
  cases b <;> exact pays_pure _

theorem pays_typeRef : Pays k typeRef k k := by
  intro c
  induction hl : c.rest.length using Nat.strongRecOn generalizing c with
  | _ x ih =>
    rw [typeRef_eq]
    rcases c with ⟨line, _ | ⟨t, ts⟩⟩
    · exact pays_fail (m := k) (k := k) _ _
    · show PaysAt k (typeRefAt (some t)) k k _
      rw [typeRefAt]
      split
      · refine (pays_advance (n := k) _).bind (fun _ _ => ?_) (Nat.le_refl k)
        refine (ih ts.length ?_ _ rfl).bind (fun _ _ => ?_) (Nat.le_refl k)
        · rw [← hl, List.length_cons]
          exact Nat.lt_succ_self _
        · exact Pays.bind (pays_expect _) (fun _ => (pays_marked _).less (Nat.le_succ k))
            (Nat.le_refl k) _
      · split
        · exact Pays.bind (pays_advance (n := k)) (fun _ => pays_marked _) (Nat.le_refl k) _
        · exact pays_fail _ _

/-- A missing type costs a token, and an issue in a type leaves its colon in hand. -/
theorem pays_elementType (element : String) : Pays (k + 1) ( typeAnnotation element) k (k + 1) := by
  refine Pays.accept ?_ ?_
  · exact pays_typeRef.weaken (by omega) (by omega)
  · exact Pays.bind (pays_warn (n := k + 1) _) (fun _ => pays_pure _) (Nat.le_refl _)

theorem pays_anyValue : Pays k anyValue k k := by
  refine pays_peek fun o => ?_
  split
  · exact pays_fail _
  · split
    · exact pays_group _ _
    · exact pays_braces
    · refine Pays.bind (pays_advance (n := k)) (fun _ => ?_) (Nat.le_refl k)
      exact Pays.bind pays_name (fun _ => (pays_pure _).less (Nat.le_succ k)) (Nat.le_refl k)
    · exact pays_fail _
    · exact pays_advance

theorem pays_defaultText : Pays k defaultText k k := by
  intro c
  by_cases he : c.rest.isEmpty = true
  · rw [PaysAt, defaultText, if_pos he]
    exact pays_fail (m := k) _ c
  · have hv := @pays_anyValue k c
    rcases h : anyValue c with ⟨ws, d, e | u⟩
    · have hd : defaultText c = ⟨ws, d, .error e⟩ := by rw [defaultText, if_neg he, h]
      rwa [paysAt_error hd, ← paysAt_error h]
    · obtain ⟨text, hd⟩ : ∃ text, defaultText c = ⟨ws, d, .ok text⟩ :=
        ⟨_, by rw [defaultText, if_neg he, h]⟩
      rwa [paysAt_ok hd, ← paysAt_ok h]

/-- An issue in a value leaves its equals sign in hand. -/
theorem pays_defaultValue : Pays k defaultValue k (k + 1) := by
  rw [defaultValue_eq]
  refine Pays.accept ?_ ?_
  · exact pays_defaultText.less (Nat.le_succ k)
  · exact pays_pure _

/-! ## Members -/

/-- What stands behind the name of a member costs that name, but an issue leaves it in hand. -/
structure PaidByName (p : Parse α) : Prop where
  isLocal : Local p
  pays : ∀ k, Pays (k + 1) p k (k + 1)

/-- A member starts with a description and a name. -/
def PaidMember (p : Parse α) : Prop :=
  ∃ behind : Option String → String → Parse α,
    p = (do
      let d ← description
      let n ← name
      behind d n) ∧ ∀ d n, PaidByName (behind d n)

theorem paid_inputValue (element : String → String) : PaidMember (inputValue element) := by
  refine ⟨_, rfl, fun d n => ⟨?_, fun k => ?_⟩⟩
  · exact LocalTo.bind (local_elementType _) fun _ => LocalTo.bind local_defaultValue fun _ =>
      LocalTo.bind local_directives fun _ => local_pure fun _ => rfl
  · refine Pays.bind (pays_elementType _) (fun _ => ?_) (Nat.le_refl _)
    exact Pays.bind pays_defaultValue (fun _ => Pays.bind pays_directives (fun _ => pays_pure _)
      (Nat.le_refl _)) (Nat.le_refl _)

theorem paid_enumValue : PaidMember enumValue := by
  refine ⟨_, rfl, fun d n => ⟨?_, fun k => ?_⟩⟩
  · exact LocalTo.bind local_directives fun _ => local_pure fun _ => rfl
  · exact Pays.bind pays_directives (fun _ => (pays_pure _).less (Nat.le_succ k)) (Nat.le_succ _)

/-- A member on the whole costs nothing. -/
theorem PaidMember.pays {p : Parse α} (h : PaidMember p) : Pays k p k k := by
  obtain ⟨behind, rfl, hb⟩ := h
  exact Pays.bind (pays_description (n := k))
    (fun d => Pays.bind pays_name
      (fun n => ((hb d n).pays k).weaken (Nat.le_refl k) (Nat.le_succ k)) (Nat.le_refl k))
    (Nat.le_refl k)

theorem pays_arguments (owner : String) : Pays k (arguments owner) k k := by
  refine Pays.accept ?_ (pays_pure _)
  refine Pays.bind (pays_loop fun c _ => ?_) (fun _ => ?_) (Nat.le_refl k)
  · exact Pays.bind ((paid_inputValue _).pays.weaken (Nat.le_refl _) (Nat.le_succ k))
      (fun _ => pays_pure _) (Nat.le_refl k) c
  · exact Pays.bind (pays_expect _) (fun _ => (pays_pure _).less (by omega)) (Nat.le_succ k)

theorem paid_field (owner : String) : PaidMember (field owner) := by
  refine ⟨_, rfl, fun d n => ⟨?_, fun k => ?_⟩⟩
  · exact LocalTo.bind (local_arguments _) fun _ => LocalTo.bind (local_elementType _) fun _ =>
      LocalTo.bind local_directives fun _ => local_pure fun _ => rfl
  · refine Pays.bind (pays_arguments _) (fun _ => ?_) (Nat.le_refl _)
    exact Pays.bind (pays_elementType _) (fun _ => Pays.bind pays_directives (fun _ => pays_pure _)
      (Nat.le_refl _)) (Nat.le_refl _)

end GraphClient.Parse
