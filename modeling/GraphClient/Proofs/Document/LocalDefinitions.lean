import GraphClient.Proofs.Document.Bodies
import GraphClient.Proofs.Document.Locality

/-!
# Definitions are local

The readers of definitions are local too, with the issues that cut them short
(`local_definition`) and with the way on behind an issue (`local_entry`), and so is the reader of
all definitions up to the end (`local_definitions`).
-/

namespace GraphClient.Parse

variable {α : Type} {o : Offset} {us : List Token} {c c' : Cursor}

/-- A definition further down: its issue moves. -/
def issueDown (o : Offset) (r : α × Option Issue) : α × Option Issue :=
  (r.1, r.2.map (Issue.down o))

section Tentative

variable {p : Parse Unit} {ws : List Warning}

theorem tentative_error {i : Issue} (h : p c = ⟨ws, c', .error i⟩) (a : α) :
    (do return (a, ← tentative p) : Parse _) c = ⟨ws, c', .ok (a, some i)⟩ := by
  rw [bind_apply, tentative, h]
  show Outcome.mk (ws ++ []) _ _ = _
  rw [List.append_nil]
  rfl

theorem tentative_ok (h : p c = ⟨ws, c', .ok ()⟩) (a : α) :
    (do return (a, ← tentative p) : Parse _) c = ⟨ws, c', .ok (a, none)⟩ := by
  rw [bind_apply, tentative, h]
  show Outcome.mk (ws ++ []) _ _ = _
  rw [List.append_nil]
  rfl

/-- A reader whose issue becomes a part of what is read. -/
theorem local_tentative (hp : Local p) (a : α) :
    LocalTo issueDown (do return (a, ← tentative p)) := by
  intro c
  rcases h : p c with ⟨ws, d, i | u⟩
  · obtain ⟨hpass, -, hmir⟩ := (localAt_error h).mp (hp c)
    refine (localAt_ok (tentative_error h a)).mpr ⟨hpass, fun o us c' hm hb => ?_⟩
    obtain ⟨d', hd, hm'⟩ := hmir o us c' hm hb
    exact ⟨d', tentative_error hd a, hm'⟩
  · obtain ⟨hpass, hmir⟩ := (localAt_ok h).mp (hp c)
    refine (localAt_ok (tentative_ok h a)).mpr ⟨hpass, fun o us c' hm hb => ?_⟩
    obtain ⟨d', hd, hm'⟩ := hmir o us c' hm hb
    exact ⟨d', tentative_ok hd a, hm'⟩

end Tentative

theorem local_toDefinition : Local (move Cursor.toDefinition) := fun _ =>
  (localAt_ok rfl).mpr ⟨seekDefinition_passes, fun _ _ c' hm hb =>
    ⟨c'.toDefinition, rfl, seekDefinition_mirrors hm hb⟩⟩

theorem local_body (d : Option String) (keyword : Keyword) :
    LocalTo issueDown (body d keyword) := by
  cases keyword with
  | scalar =>
    exact LocalTo.bind local_name fun _ => LocalTo.bind local_directives fun _ =>
      local_pure fun _ => rfl
  | enum =>
    exact LocalTo.bind local_name fun _ => LocalTo.bind local_directives fun _ =>
      LocalTo.bind (local_block local_enumValue) fun _ => local_pure fun _ => rfl
  | type =>
    exact LocalTo.bind local_name fun _ => LocalTo.bind local_interfaces fun _ =>
      LocalTo.bind local_directives fun _ => LocalTo.bind (local_block (local_field _)) fun _ =>
        local_pure fun _ => rfl
  | input =>
    exact LocalTo.bind local_name fun _ => LocalTo.bind local_directives fun _ =>
      LocalTo.bind (local_block (local_inputField _)) fun _ => local_pure fun _ => rfl
  | interface =>
    refine LocalTo.bind local_name fun _ => local_tentative ?_ _
    exact LocalTo.bind local_interfaces fun _ => LocalTo.bind local_directives fun _ => local_braces
  | union =>
    refine LocalTo.bind local_name fun _ => local_tentative ?_ _
    refine LocalTo.bind local_directives fun _ => LocalTo.bind (local_accept _) fun b => ?_
    cases b
    · exact local_pure fun _ => rfl
    · exact local_alternatives
  | schema =>
    exact LocalTo.bind local_directives fun _ => LocalTo.bind local_braces fun _ =>
      local_pure fun _ => rfl
  | directive =>
    exact LocalTo.bind local_directiveDefinition fun _ => local_pure fun _ => rfl
  | extend =>
    exact LocalTo.bind local_advance fun _ => LocalTo.bind local_toDefinition fun _ =>
      local_pure fun _ => rfl

theorem local_definition : LocalTo issueDown definition := by
  rw [definition_eq]
  refine LocalTo.bind local_description fun d => local_peek (fun x => ?_) fun x y h => ?_
  · cases x.bind Token.keyword? with
    | none => exact local_fail _
    | some k => exact LocalTo.bind local_advance fun _ => local_body d k
  · have hk : x.bind Token.keyword? = y.bind Token.keyword? := by
      rcases kind_cases h with ⟨rfl, rfl⟩ | ⟨t, u, rfl, rfl, hk⟩
      · rfl
      · rw [Option.bind_some, Option.bind_some, Token.keyword?, Token.keyword?, Token.name?,
          Token.name?, hk]
    rw [hk]

/-! ## Behind an issue -/

/-- Where reading goes on behind an issue, when `n` tokens were left before the definition. -/
def resume (n : Nat) (c : Cursor) : Cursor :=
  (if c.rest.length = n then c.advance else c).toDefinition

theorem resume_passes (n : Nat) (c : Cursor) : c.Passes (resume n c) := by
  rw [resume]
  split
  · exact c.passes_advance.trans seekDefinition_passes
  · exact seekDefinition_passes

theorem resume_mirrors {n : Nat} (hm : c.Mirrors o us c') (hb : Bounded us (resume n c).rest) :
    (resume n c).Mirrors o us (resume (n + us.length) c') := by
  have hl : (c'.rest.length = n + us.length) = (c.rest.length = n) := by
    rw [hm.rest.length]
    exact propext Nat.add_right_cancel_iff
  have hbc : Bounded us c.rest := (resume_passes n c).bounded hb
  rw [resume] at hb ⊢
  rw [resume]
  simp only [hl]
  split
  · rename_i h
    rw [if_pos h] at hb
    exact seekDefinition_mirrors (hm.advance hbc) hb
  · rename_i h
    rw [if_neg h] at hb
    exact seekDefinition_mirrors hm hb

theorem entry_ok {ws : List Warning} {d : Option GraphClient.Definition}
    (h : definition c = ⟨ws, c', .ok (d, none)⟩) : entry c = ⟨ws, c', .ok d⟩ := by
  rw [entry, h]

/-- An issue is warned of, and reading goes on behind it. -/
theorem entry_recovers {ws : List Warning} {d : Option GraphClient.Definition} {i : Issue}
    (h : definition c = ⟨ws, c', .ok (d, some i)⟩ ∨
      definition c = ⟨ws, c', .error i⟩ ∧ d = none) :
    entry c = ⟨ws ++ [.malformed none i], resume c.rest.length c', .ok d⟩ := by
  rcases h with h | ⟨h, rfl⟩ <;> rw [entry, h] <;> rfl

/-- What is read as an entry is a definition, or what an issue leaves of one. -/
theorem entry_eq_ok {ws : List Warning} {a : Option GraphClient.Definition}
    (h : entry c = ⟨ws, d, .ok a⟩) : definition c = ⟨ws, d, .ok (a, none)⟩ ∨
      ∃ vs e i, ws = vs ++ [.malformed none i] ∧ d = resume c.rest.length e ∧
        (definition c = ⟨vs, e, .ok (a, some i)⟩ ∨
          definition c = ⟨vs, e, .error i⟩ ∧ a = none) := by
  rcases hd : definition c with ⟨vs, e, i | ⟨x, _ | i⟩⟩
  · rw [entry_recovers (.inr ⟨hd, rfl⟩)] at h
    cases h
    exact .inr ⟨vs, e, i, rfl, rfl, .inr ⟨rfl, rfl⟩⟩
  · rw [entry_ok hd] at h
    cases h
    exact .inl rfl
  · rw [entry_recovers (.inl hd)] at h
    cases h
    exact .inr ⟨vs, e, i, rfl, rfl, .inl rfl⟩

theorem local_entry : Local entry := by
  intro c
  rcases h : definition c with ⟨ws, d, i | ⟨x, _ | i⟩⟩
  · obtain ⟨hpass, -, hmir⟩ := (localAt_error h).mp (local_definition c)
    have hres := resume_passes c.rest.length d
    refine (localAt_ok (entry_recovers (.inr ⟨h, rfl⟩))).mpr
      ⟨hpass.trans hres, fun o us c' hm hb => ?_⟩
    obtain ⟨d', hd, hm'⟩ := hmir o us c' hm (hres.bounded hb)
    refine ⟨_, ?_, resume_mirrors hm' hb⟩
    rw [entry_recovers (.inr ⟨hd, rfl⟩), hm.rest.length, Warning.down_malformed]
  · obtain ⟨hpass, hmir⟩ := (localAt_ok h).mp (local_definition c)
    refine (localAt_ok (entry_ok h)).mpr ⟨hpass, fun o us c' hm hb => ?_⟩
    obtain ⟨d', hd, hm'⟩ := hmir o us c' hm hb
    exact ⟨d', entry_ok hd, hm'⟩
  · obtain ⟨hpass, hmir⟩ := (localAt_ok h).mp (local_definition c)
    have hres := resume_passes c.rest.length d
    refine (localAt_ok (entry_recovers (.inl h))).mpr
      ⟨hpass.trans hres, fun o us c' hm hb => ?_⟩
    obtain ⟨d', hd, hm'⟩ := hmir o us c' hm (hres.bounded hb)
    refine ⟨_, ?_, resume_mirrors hm' hb⟩
    rw [entry_recovers (.inl hd), hm.rest.length, Warning.down_malformed]

theorem local_definitions : Local definitions :=
  local_loop (fun hm hb => by rw [hm.isEmpty hb]) local_entry

end GraphClient.Parse
