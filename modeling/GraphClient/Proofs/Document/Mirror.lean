import GraphClient.Proofs.Document.Reads
import GraphClient.Proofs.Token.Offset

/-!
# Reading further down

A cursor mirrors another one if its tokens are copies further down, with other tokens behind
them or none (`Cursor.Mirrors`). A reader is local (`Parse.Local`) if it reads the same from a
cursor that mirrors another one, further down, as long as the tokens that it leaves are bounded:
they end with a closing brace, or nothing stands behind them. So it looks at no lines but in
relation to each other, and at no tokens behind the brace.
-/

namespace GraphClient

def Issue.down (o : Offset) (i : Issue) : Issue := ⟨i.found.map (Occurrence.down o), i.expected⟩

def Warning.down (o : Offset) : Warning → Warning
  | lexical fault => lexical (fault.down o)
  | malformed owner issue => malformed owner (issue.down o)
  | untyped element => untyped element
  | unclosed owner => unclosed owner

theorem Warning.down_zero (w : Warning) : w.down ⟨0, 0⟩ = w := by
  rcases w with f | ⟨owner, _ | i, e⟩ | s | s <;> rfl

/-- The warning of an issue moves with it. -/
theorem Warning.down_malformed (o : Offset) (ws : List Warning) (owner : Option String)
    (i : Issue) : ws.map (Warning.down o) ++ [malformed owner (i.down o)] =
      (ws ++ [malformed owner i]).map (Warning.down o) := by
  rw [List.map_append]
  rfl

/-- Tokens that end with a closing brace. -/
def Ends (ts : List Token) : Prop := ∃ us t, ts = us ++ [t] ∧ t.kind = .punctuator .braceR

/-- Tokens that end with a closing brace, unless nothing stands behind them. -/
def Bounded (us ts : List Token) : Prop := us = [] ∨ Ends ts

section Bounds

variable {us ts vs : List Token} {t : Token}

theorem ends_iff : Ends ts ↔ ts.getLast?.any (·.is .braceR) = true := by
  simp only [Ends, Option.any_eq_true, List.getLast?_eq_some_iff, Token.is_iff]
  exact ⟨fun ⟨us, t, h, ht⟩ => ⟨t, ⟨us, h⟩, ht⟩, fun ⟨t, ⟨us, h⟩, ht⟩ => ⟨us, t, h, ht⟩⟩

theorem Ends.ne_nil (h : Ends ts) : ts ≠ [] := by
  obtain ⟨us, t, rfl, -⟩ := h
  simp

theorem Ends.of_suffix (h : Ends ts) (hs : vs <:+ ts) (hv : vs ≠ []) : Ends vs := by
  obtain ⟨us, t, rfl, ht⟩ := h
  obtain ⟨ws, e⟩ := hs
  obtain ⟨xs, x, rfl⟩ := (List.eq_nil_or_concat vs).resolve_left hv
  rw [List.concat_eq_append, ← List.append_assoc] at e
  obtain ⟨-, e⟩ := List.append_inj' e rfl
  exact ⟨xs, x, List.concat_eq_append, by rw [List.singleton_inj.mp e]; exact ht⟩

theorem Ends.append (h : Ends ts) (vs : List Token) : Ends (vs ++ ts) := by
  obtain ⟨us, t, rfl, ht⟩ := h
  exact ⟨vs ++ us, t, by rw [List.append_assoc], ht⟩

theorem Ends.cons (h : Ends (t :: ts)) : t.kind = .punctuator .braceR ∨ Ends ts := by
  obtain ⟨us, u, e, hu⟩ := h
  cases us with
  | nil => cases e; exact .inl hu
  | cons v us => cases e; exact .inr ⟨us, u, rfl, hu⟩

theorem Bounded.nil (h : Bounded us []) : us = [] := h.resolve_right fun he => he.ne_nil rfl

theorem Bounded.of_suffix (h : Bounded us vs) (hs : vs <:+ ts) : Bounded us ts := by
  rcases h with h | h
  · exact .inl h
  · obtain ⟨ws, rfl⟩ := hs
    exact .inr (h.append ws)

theorem Bounded.cons (h : Bounded us (t :: ts)) :
    t.kind = .punctuator .braceR ∨ Bounded us ts := by
  rcases h with h | h
  · exact .inr (.inl h)
  · exact h.cons.imp_right .inr

end Bounds

/-! ## Cursors -/

/-- A cursor further down, perhaps before other tokens. -/
structure Cursor.Mirrors (o : Offset) (us : List Token) (c c' : Cursor) : Prop where
  rest : Copies o us c.rest c'.rest
  line : ∀ t ∈ c.rest.head?, c.line < t.line ↔ c'.line < t.line + o.lines

/-- A cursor behind tokens that are read from another one. -/
def Cursor.Passes (c c' : Cursor) : Prop :=
  ∃ ts, c.rest = ts ++ c'.rest ∧ c'.line = lastLine c.line ts

namespace Cursor

variable {o : Offset} {us ts : List Token} {t t' : Token} {c c' d : Cursor} {line : Nat}

theorem passes_self (c : Cursor) : c.Passes c := ⟨[], rfl, rfl⟩

theorem passes_cons : Passes ⟨line, t :: ts⟩ ⟨t.line, ts⟩ := ⟨[t], rfl, rfl⟩

theorem Passes.trans (h : c.Passes c') (h' : c'.Passes d) : c.Passes d := by
  obtain ⟨ts, ht, hl⟩ := h
  obtain ⟨us, hu, hl'⟩ := h'
  exact ⟨ts ++ us, by rw [ht, hu, List.append_assoc], by rw [hl', hl, lastLine_append]⟩

theorem Passes.suffix (h : c.Passes c') : c'.rest <:+ c.rest := by
  obtain ⟨ts, ht, -⟩ := h
  exact ⟨ts, ht.symm⟩

theorem Passes.bounded (h : c.Passes c') (hb : Bounded us c'.rest) : Bounded us c.rest :=
  hb.of_suffix h.suffix

theorem passes_advance (c : Cursor) : c.Passes c.advance := by
  rcases c with ⟨line, _ | ⟨t, ts⟩⟩
  · exact passes_self _
  · exact passes_cons

/-- A mirror has a copy of the next token, if one is left. -/
theorem Mirrors.cases (h : c.Mirrors o us c') (hb : Bounded us c.rest) :
    c.rest = [] ∧ c'.rest = [] ∨ ∃ t t' ts, c.rest = t :: ts ∧
      c'.rest = t' :: (ts.map (Token.down o) ++ us) ∧ t.Copy o t' := by
  rcases c with ⟨line, rest⟩
  rcases c' with ⟨line', rest'⟩
  cases h.rest with
  | nil => exact .inl ⟨rfl, hb.nil⟩
  | cons hc => exact .inr ⟨_, _, _, rfl, rfl, hc⟩

theorem mirrors_behind (h : t.Copy o t') :
    Mirrors o us ⟨t.line, ts⟩ ⟨t'.line, ts.map (Token.down o) ++ us⟩ where
  rest := copies_map ts
  line u _ := by rw [h.line]; exact (Nat.add_lt_add_iff_right).symm

theorem Mirrors.advance (h : c.Mirrors o us c') (hb : Bounded us c.rest) :
    c.advance.Mirrors o us c'.advance := by
  rcases h.cases hb with ⟨hn, hn'⟩ | ⟨t, t', ts, ht, ht', hc⟩
  · simpa only [Cursor.advance, hn, hn'] using h
  · simp only [Cursor.advance, ht, ht']
    exact mirrors_behind hc

/-- The next token of a mirror is the same but for its place. -/
theorem Mirrors.occurrence (h : c.Mirrors o us c') (hb : Bounded us c.rest) :
    c'.rest.head?.map (·.toOccurrence) =
      (c.rest.head?.map (·.toOccurrence)).map (Occurrence.down o) := by
  rcases h.cases hb with ⟨hn, hn'⟩ | ⟨t, t', ts, ht, ht', hc⟩
  · rw [hn, hn']
    rfl
  · rw [ht, ht', List.head?_cons, List.head?_cons, Option.map_some, hc.occurrence]
    rfl

theorem Mirrors.kind (h : c.Mirrors o us c') (hb : Bounded us c.rest) :
    c'.rest.head?.map (·.kind) = c.rest.head?.map (·.kind) := by
  rcases h.cases hb with ⟨hn, hn'⟩ | ⟨t, t', ts, ht, ht', hc⟩
  · rw [hn, hn']
  · rw [ht, ht', List.head?_cons, List.head?_cons, Option.map_some, hc.kind]
    rfl

theorem Mirrors.isEmpty (h : c.Mirrors o us c') (hb : Bounded us c.rest) :
    c'.rest.isEmpty = c.rest.isEmpty := by
  rcases h.cases hb with ⟨hn, hn'⟩ | ⟨t, t', ts, ht, ht', hc⟩
  · rw [hn, hn']
  · rw [ht, ht']
    rfl

/-- Mirrors have as many tokens more than their cursors as stand behind. -/
theorem Mirrors.shorter {d' : Cursor} (h : c.Mirrors o us c') (h' : d.Mirrors o us d') :
    d'.rest.length < c'.rest.length ↔ d.rest.length < c.rest.length := by
  rw [h.rest.length, h'.rest.length]
  exact Nat.add_lt_add_iff_right

end Cursor

/-! ## Outcomes -/

/-- An outcome further down. -/
inductive Outcome.Mirrors {α : Type} (o : Offset) (us : List Token) (f : α → α) :
    Outcome α → Outcome α → Prop where
  | ok {ws : List Warning} {c c' : Cursor} {a : α} :
    c.Mirrors o us c' → Mirrors o us f ⟨ws, c, .ok a⟩ ⟨ws.map (Warning.down o), c', .ok (f a)⟩
  | error {ws : List Warning} {c c' : Cursor} {i : Issue} :
    c.Mirrors o us c' →
      Mirrors o us f ⟨ws, c, .error i⟩ ⟨ws.map (Warning.down o), c', .error (i.down o)⟩

namespace Outcome

variable {α β : Type} {o : Offset} {us : List Token} {f : α → α} {g : β → β}

theorem mirrors_ok {c c' : Cursor} {a : α} (h : c.Mirrors o us c') :
    Mirrors o us f ⟨[], c, .ok a⟩ ⟨[], c', .ok (f a)⟩ := @Mirrors.ok _ _ _ _ [] _ _ _ h

theorem mirrors_error {c c' : Cursor} {i : Issue} (h : c.Mirrors o us c') :
    Mirrors o us f ⟨[], c, .error i⟩ ⟨[], c', .error (i.down o)⟩ :=
  @Mirrors.error _ _ _ _ [] _ _ _ h

theorem Mirrors.of_ok {ws : List Warning} {c : Cursor} {a : α} {r' : Outcome α}
    (h : Mirrors o us f ⟨ws, c, .ok a⟩ r') :
    ∃ c', r' = ⟨ws.map (Warning.down o), c', .ok (f a)⟩ ∧ c.Mirrors o us c' := by
  cases h with
  | ok h => exact ⟨_, rfl, h⟩

theorem Mirrors.of_error {ws : List Warning} {c : Cursor} {i : Issue} {r' : Outcome α}
    (h : Mirrors o us f ⟨ws, c, .error i⟩ r') :
    ∃ c', r' = ⟨ws.map (Warning.down o), c', .error (i.down o)⟩ ∧ c.Mirrors o us c' := by
  cases h with
  | error h => exact ⟨_, rfl, h⟩

theorem Mirrors.withEarlier {r r' : Outcome α} (h : r.Mirrors o us f r') (ws : List Warning) :
    (r.withEarlier ws).Mirrors o us f (r'.withEarlier (ws.map (Warning.down o))) := by
  cases h with
  | ok h =>
    unfold Outcome.withEarlier
    rw [← List.map_append]
    exact .ok h
  | error h =>
    unfold Outcome.withEarlier
    rw [← List.map_append]
    exact .error h

end Outcome

/-! ## Readers -/

namespace Parse

/-- A reader that reads the same from mirrors of a cursor; `down` moves what it reads. -/
structure LocalAt {α : Type} (down : Offset → α → α) (p : Parse α) (c : Cursor) : Prop where
  passes : c.Passes (p c).cursor
  ended : ∀ i, (p c).result = .error i → i.found = none → (p c).cursor.rest = []
  mirrors : ∀ {o us c'}, c.Mirrors o us c' → Bounded us (p c).cursor.rest →
    (p c).Mirrors o us (down o) (p c')

def LocalTo {α : Type} (down : Offset → α → α) (p : Parse α) : Prop := ∀ c, LocalAt down p c

/-- A reader of what has no place. -/
abbrev Local {α : Type} (p : Parse α) : Prop := LocalTo (fun _ a => a) p

variable {α β : Type} {down : Offset → β → β} {c : Cursor}

/-- A reader that reads something is local if it reads the same from every mirror. -/
theorem localAt_ok {p : Parse β} {d : Cursor} {ws : List Warning} {b : β}
    (h : p c = ⟨ws, d, .ok b⟩) :
    LocalAt down p c ↔ c.Passes d ∧ ∀ o us c', c.Mirrors o us c' → Bounded us d.rest →
      ∃ d', p c' = ⟨ws.map (Warning.down o), d', .ok (down o b)⟩ ∧ d.Mirrors o us d' := by
  constructor
  · rintro ⟨hpass, -, hmir⟩
    rw [h] at hpass hmir
    exact ⟨hpass, fun o us c' hm hb => (hmir hm hb).of_ok⟩
  · rintro ⟨hpass, hmir⟩
    refine ⟨by rw [h]; exact hpass, fun i hi => ?_, fun {o us c'} hm hb => ?_⟩
    · rw [h] at hi
      cases hi
    · rw [h] at hb ⊢
      obtain ⟨d', hd, hm'⟩ := hmir o us c' hm hb
      rw [hd]
      exact .ok hm'

theorem localAt_error {p : Parse β} {d : Cursor} {ws : List Warning} {i : Issue}
    (h : p c = ⟨ws, d, .error i⟩) :
    LocalAt down p c ↔ c.Passes d ∧ (i.found = none → d.rest = []) ∧
      ∀ o us c', c.Mirrors o us c' → Bounded us d.rest →
        ∃ d', p c' = ⟨ws.map (Warning.down o), d', .error (i.down o)⟩ ∧ d.Mirrors o us d' := by
  constructor
  · rintro ⟨hpass, hend, hmir⟩
    rw [h] at hpass hend hmir
    exact ⟨hpass, hend i rfl, fun o us c' hm hb => (hmir hm hb).of_error⟩
  · rintro ⟨hpass, hend, hmir⟩
    refine ⟨by rw [h]; exact hpass, fun j hj => ?_, fun {o us c'} hm hb => ?_⟩
    · rw [h] at hj ⊢
      cases hj
      exact hend
    · rw [h] at hb ⊢
      obtain ⟨d', hd, hm'⟩ := hmir o us c' hm hb
      rw [hd]
      exact .error hm'

theorem LocalAt.bind {p : Parse α} {f : α → Parse β} (hp : LocalAt (fun _ a => a) p c)
    (hf : ∀ a, (p c).result = .ok a → LocalAt down (f a) (p c).cursor) :
    LocalAt down (p >>= f) c := by
  rcases h : p c with ⟨ws, d, i | a⟩
  · obtain ⟨hpass, hend, hmir⟩ := (localAt_error h).mp hp
    have hr : ∀ c' ws d i, p c' = ⟨ws, d, .error i⟩ → (p >>= f) c' = ⟨ws, d, .error i⟩ := by
      intro c' ws d i h
      rw [bind_apply, h]
      rfl
    refine (localAt_error (hr c ws d i h)).mpr ⟨hpass, hend, fun o us c' hm hb => ?_⟩
    obtain ⟨d', hd, hm'⟩ := hmir o us c' hm hb
    exact ⟨d', hr c' _ d' _ hd, hm'⟩
  · obtain ⟨hpass, hmir⟩ := (localAt_ok h).mp hp
    have hr : ∀ c' ws d, p c' = ⟨ws, d, .ok a⟩ → (p >>= f) c' = (f a d).withEarlier ws := by
      intro c' ws d h
      rw [bind_apply, h]
      rfl
    rw [h] at hf
    obtain ⟨fpass, fend, fmir⟩ := hf a rfl
    have hc := hr c ws d h
    refine ⟨?_, ?_, fun {o us c'} hm hb => ?_⟩
    · rw [hc]
      exact hpass.trans fpass
    · rw [hc]
      exact fend
    · rw [hc] at hb ⊢
      obtain ⟨d', hd, hm'⟩ := hmir o us c' hm (fpass.bounded hb)
      rw [hr c' _ d' hd]
      exact (fmir hm' hb).withEarlier ws

theorem LocalTo.bind {p : Parse α} {f : α → Parse β} (hp : Local p)
    (hf : ∀ a, LocalTo down (f a)) : LocalTo down (p >>= f) :=
  fun c => (hp c).bind fun a _ => hf a _

theorem local_pure {b : β} (h : ∀ o, down o b = b) : LocalTo down (pure b) := fun c =>
  (localAt_ok rfl).mpr ⟨c.passes_self, fun o _ c' hm _ => ⟨c', by rw [h]; rfl, hm⟩⟩

theorem local_fail (e : Expectation) : LocalTo down (fail e) := by
  refine fun c => (localAt_error rfl).mpr ⟨c.passes_self, fun hn => ?_, fun o us c' hm hb => ?_⟩
  · exact List.head?_eq_none_iff.mp (Option.map_eq_none_iff.mp hn)
  · refine ⟨c', ?_, hm⟩
    rw [fail, hm.occurrence hb]
    rfl

theorem local_warn {w : Warning} (h : ∀ o, w.down o = w) : Local (warn w) := fun c =>
  (localAt_ok rfl).mpr ⟨c.passes_self, fun o _ c' hm _ =>
    ⟨c', by rw [List.map_singleton, h]; rfl, hm⟩⟩

theorem local_advance : Local advance := fun c =>
  (localAt_ok rfl).mpr ⟨c.passes_advance, fun _ _ c' hm hb =>
    ⟨c'.advance, rfl, hm.advance (c.passes_advance.bounded hb)⟩⟩

theorem nextIs_mirrors {p : Punctuator} {o : Offset} {us : List Token} {c c' : Cursor}
    (hm : c.Mirrors o us c') (hb : Bounded us c.rest) : nextIs p c' = nextIs p c := by
  have hk : ∀ d : Cursor, nextIs p d = (d.rest.head?.map (·.kind)).any (· == .punctuator p) :=
    fun d => by rw [nextIs, Option.any_map]; rfl
  rw [hk, hk, hm.kind hb]

theorem local_accept (p : Punctuator) : Local (accept p) := by
  intro c
  cases hn : nextIs p c with
  | true =>
    refine (localAt_ok (accept_of_nextIs hn)).mpr ⟨c.passes_advance, fun o us c' hm hb => ?_⟩
    have hb : Bounded us c.rest := c.passes_advance.bounded hb
    exact ⟨c'.advance, accept_of_nextIs ((nextIs_mirrors hm hb).trans hn), hm.advance hb⟩
  | false =>
    refine (localAt_ok (accept_of_not_nextIs hn)).mpr ⟨c.passes_self, fun o us c' hm hb => ?_⟩
    exact ⟨c', accept_of_not_nextIs ((nextIs_mirrors hm hb).trans hn), hm⟩

theorem peek_bind (f : Option Token → Parse β) (c : Cursor) :
    (peek >>= f) c = f c.rest.head? c := rfl

/-- A reader that depends on the kind of the next token. -/
theorem LocalAt.peek {f : Option Token → Parse β} (hf : LocalAt down (f c.rest.head?) c)
    (hk : ∀ x y : Option Token, x.map (·.kind) = y.map (·.kind) → f x = f y) :
    LocalAt down (peek >>= f) c := by
  obtain ⟨hpass, hend, hmir⟩ := hf
  refine ⟨?_, ?_, fun {o us c'} hm hb => ?_⟩
  · rw [peek_bind]
    exact hpass
  · rw [peek_bind]
    exact hend
  · rw [peek_bind] at hb ⊢
    rw [peek_bind, hk _ _ (hm.kind (hpass.bounded hb))]
    exact hmir hm hb

theorem local_peek {f : Option Token → Parse β} (hf : ∀ x, LocalTo down (f x))
    (hk : ∀ x y : Option Token, x.map (·.kind) = y.map (·.kind) → f x = f y) :
    LocalTo down (peek >>= f) := fun c => LocalAt.peek (hf _ c) hk

end Parse

end GraphClient
