import GraphClient.Document

/-!
# What a reader reads

`Reads p line ts rest a`: behind `line`, the reader `p` takes exactly the tokens `ts` in front
of `rest`, warns of nothing and answers `a`. Readings in sequence append their tokens
(`Reads.bind`), and a loop reads its members one after the other (`Members`). What may not
follow is said by `Avoids`, by the punctuators that would make a reader go on.
-/

namespace GraphClient

/-- The line of the last of some tokens, or the line before them. -/
def lastLine (line : Nat) : List Token → Nat
  | [] => line
  | t :: ts => lastLine t.line ts

@[simp] theorem lastLine_nil (line : Nat) : lastLine line [] = line := rfl

@[simp] theorem lastLine_cons (line : Nat) (t : Token) (ts : List Token) :
    lastLine line (t :: ts) = lastLine t.line ts := rfl

theorem lastLine_append (line : Nat) (ts us : List Token) :
    lastLine line (ts ++ us) = lastLine (lastLine line ts) us := by
  induction ts generalizing line with
  | nil => rfl
  | cons t ts ih => exact ih t.line

/-- Of the line before some tokens, nothing is left behind them. -/
theorem lastLine_irrel {ts : List Token} (h : ts ≠ []) (line line' : Nat) :
    lastLine line ts = lastLine line' ts := by
  cases ts with
  | nil => exact absurd rfl h
  | cons t ts => rfl

/-- The first token is none of some punctuators. -/
def Avoids (ps : List Punctuator) (ts : List Token) : Prop :=
  ∀ t ∈ ts.head?, ∀ p ∈ ps, t.kind ≠ .punctuator p

theorem Avoids.subset {ps qs : List Punctuator} {ts : List Token} (h : Avoids ps ts)
    (hs : qs ⊆ ps) : Avoids qs ts := fun t ht p hp => h t ht p (hs hp)

@[simp] theorem avoids_nil (ps : List Punctuator) : Avoids ps [] := by simp [Avoids]

@[simp] theorem avoids_cons (ps : List Punctuator) (t : Token) (ts : List Token) :
    Avoids ps (t :: ts) ↔ ∀ p ∈ ps, t.kind ≠ .punctuator p := by simp [Avoids]

theorem Token.is_iff {t : Token} {p : Punctuator} : t.is p = true ↔ t.kind = .punctuator p := by
  simp [Token.is]

theorem Token.is_eq_false {t : Token} {p : Punctuator} (h : t.kind ≠ .punctuator p) :
    t.is p = false := by
  simpa [Token.is] using h

theorem Token.name?_eq_some {t : Token} {n : String} : t.name? = some n ↔ t.kind = .name n := by
  cases h : t.kind <;> simp [Token.name?, h]

namespace Parse

variable {α β : Type}

theorem nextIs_of_avoids {p : Punctuator} {line : Nat} {ts : List Token} (h : Avoids [p] ts) :
    nextIs p ⟨line, ts⟩ = false := by
  cases ts with
  | nil => rfl
  | cons t ts =>
    simp only [avoids_cons, List.mem_singleton, forall_eq] at h
    simpa [nextIs] using Token.is_eq_false h

theorem nextIs_cons {p : Punctuator} {line : Nat} {t : Token} {ts : List Token}
    (h : t.kind = .punctuator p) : nextIs p ⟨line, t :: ts⟩ = true := by
  simpa [nextIs] using Token.is_iff.mpr h

/-- Behind `line`, `p` takes the tokens `ts` in front of `rest` and answers `a`. -/
def Reads (p : Parse α) (line : Nat) (ts rest : List Token) (a : α) : Prop :=
  p ⟨line, ts ++ rest⟩ = ⟨[], ⟨lastLine line ts, rest⟩, .ok a⟩

section Sequence

variable {line : Nat} {ts us rest : List Token} {a : α} {b : β}

theorem Reads.pure : Reads (pure a) line [] rest a := rfl

theorem Reads.bind {p : Parse α} {f : α → Parse β} (hp : Reads p line ts (us ++ rest) a)
    (hf : Reads (f a) (lastLine line ts) us rest b) : Reads (p >>= f) line (ts ++ us) rest b := by
  unfold Reads at hp hf ⊢
  rw [List.append_assoc, bind_apply, hp, Outcome.andThen_ok, hf, lastLine_append]
  rfl

/-- A reading before which nothing is taken. -/
theorem Reads.after {p : Parse α} {f : α → Parse β} (hp : Reads p line [] (us ++ rest) a)
    (hf : Reads (f a) line us rest b) : Reads (p >>= f) line us rest b := by
  have h : Reads (p >>= f) line ([] ++ us) rest b := Reads.bind hp hf
  exact h

/-- A reading after which nothing more is taken. -/
theorem Reads.last {p : Parse α} {f : α → Parse β} (hp : Reads p line ts rest a)
    (hf : Reads (f a) (lastLine line ts) [] rest b) : Reads (p >>= f) line ts rest b := by
  have h : Reads (p >>= f) line (ts ++ []) rest b := Reads.bind hp hf
  simpa using h

/-- What goes on behind a reading. -/
theorem Reads.followed {p : Parse α} {f : α → Parse β} (hp : Reads p line ts rest a) :
    (p >>= f) ⟨line, ts ++ rest⟩ = f a ⟨lastLine line ts, rest⟩ := by
  rw [bind_apply, hp, Outcome.andThen_ok]
  rfl

theorem Reads.tentative {p : Parse Unit} (h : Reads p line ts rest ()) :
    Reads (tentative p) line ts rest none := by
  unfold Reads at h ⊢
  simp only [Parse.tentative, h]

end Sequence

/-! ## Single tokens -/

section Tokens

variable {line : Nat} {t : Token} {ts rest : List Token}

theorem advance_reads : Reads advance line [t] rest () := rfl

theorem peek_reads : Reads peek line [] rest rest.head? := rfl

theorem tokens_reads : Reads tokens line [] rest rest := rfl

theorem peekName_reads : Reads peekName line [] rest (rest.head?.bind Token.name?) := rfl

theorem accept_of_nextIs {p : Punctuator} {c : Cursor} (h : nextIs p c = true) :
    accept p c = ⟨[], c.advance, .ok true⟩ := by
  rw [accept, if_pos h]

theorem accept_of_not_nextIs {p : Punctuator} {c : Cursor} (h : nextIs p c = false) :
    accept p c = ⟨[], c, .ok false⟩ := by
  rw [accept, if_neg (Bool.eq_false_iff.mp h)]

theorem accept_reads {p : Punctuator} (h : t.kind = .punctuator p) :
    Reads (accept p) line [t] rest true := accept_of_nextIs (nextIs_cons h)

theorem accept_passes {p : Punctuator} (h : Avoids [p] rest) :
    Reads (accept p) line [] rest false := accept_of_not_nextIs (nextIs_of_avoids h)

theorem expect_reads {p : Punctuator} (h : t.kind = .punctuator p) :
    Reads (expect p) line [t] rest () :=
  Reads.last (accept_reads h) Reads.pure

theorem peekName_of_name {n : String} (h : t.kind = .name n) :
    Reads peekName line [] (t :: rest) (some n) := by
  simpa [Token.name?_eq_some.mpr h] using @peekName_reads line (t :: rest)

theorem name_reads {n : String} (h : t.kind = .name n) : Reads name line [t] rest n :=
  Reads.after (peekName_of_name h) (Reads.last advance_reads Reads.pure)

theorem description_reads {s : String} (h : t.string? = some s) :
    Reads description line [t] rest (if s = "" then none else some s) := by
  unfold Reads description
  simp only [bind_apply, peek, List.singleton_append, List.head?_cons, Outcome.andThen_ok,
    Option.bind_some, h]
  split <;> rfl

theorem description_passes (h : ∀ t ∈ rest.head?, t.string? = none) :
    Reads description line [] rest none := by
  unfold Reads description
  have hn : rest.head?.bind Token.string? = none := by
    cases rest with
    | nil => rfl
    | cons t ts => exact h t rfl
  simp only [bind_apply, peek, List.nil_append, Outcome.andThen_ok, hn]
  rfl

theorem group_of_nextIs {o c : Punctuator} {d : Cursor} (h : nextIs o d = true) :
    group o c d = leaveGroup o c 0 d.line d.rest := by
  rw [group, if_pos h]

theorem group_of_not_nextIs {o c : Punctuator} {d : Cursor} (h : nextIs o d = false) :
    group o c d = ⟨[], d, .ok ()⟩ := by
  rw [group, if_neg (Bool.eq_false_iff.mp h)]

end Tokens

/-! ## Loops -/

/-- From `line`, a loop takes the members that make up `ts` in front of `rest`, and stops. -/
inductive Members (continues : Cursor → Bool) (step : Parse (Option α)) (rest : List Token) :
    Nat → List Token → List α → Prop where
  | done {line : Nat} : continues ⟨line, rest⟩ = false → Members continues step rest line [] []
  | more {line : Nat} {ts us : List Token} {o : Option α} {as : List α} :
      continues ⟨line, ts ++ (us ++ rest)⟩ = true → ts ≠ [] → Reads step line ts (us ++ rest) o →
      Members continues step rest (lastLine line ts) us as →
      Members continues step rest line (ts ++ us) (o.toList ++ as)

/-- A loop whose step takes tokens goes on behind it. -/
theorem loop_step {continues : Cursor → Bool} {step : Parse (Option α)} {c c' : Cursor}
    {ws : List Warning} {o : Option α} (hc : continues c = true)
    (hs : step c = ⟨ws, c', .ok o⟩) (hlt : c'.rest.length < c.rest.length) :
    loop continues step c =
      ((loop continues step c').andThen fun as => pure (o.toList ++ as)).withEarlier ws := by
  rw [loop, if_pos hc, hs]
  exact congrArg (Outcome.withEarlier ws) (if_pos hlt)

theorem loop_stop {continues : Cursor → Bool} {step : Parse (Option α)} {c : Cursor}
    (hc : continues c = false) : loop continues step c = ⟨[], c, .ok []⟩ := by
  rw [loop, if_neg (by rw [hc]; decide)]

theorem length_lt_append {ts : List Token} (h : ts ≠ []) (rest : List Token) :
    rest.length < (ts ++ rest).length := by
  have := List.length_pos_iff.mpr h
  rw [List.length_append]
  omega

theorem Members.reads {continues : Cursor → Bool} {step : Parse (Option α)} {rest : List Token}
    {line : Nat} {ts : List Token} {as : List α} (h : Members continues step rest line ts as) :
    Reads (loop continues step) line ts rest as := by
  induction h with
  | done hc => exact loop_stop hc
  | @more line ts us o as hc hne hs _ ih =>
    have hlt := length_lt_append hne (us ++ rest)
    unfold Reads at ih ⊢
    rw [List.append_assoc, loop_step hc hs hlt, ih, lastLine_append]
    rfl

/-- What a loop skips, one part after the other. -/
theorem skipLoop_reads {continues : Cursor → Bool} {step : Parse Unit} {rest : List Token}
    {line : Nat} {ts : List Token} {as : List Unit}
    (h : Members continues (do step; return none) rest line ts as) :
    Reads (skipLoop continues step) line ts rest () :=
  Reads.last h.reads Reads.pure

/-- A part that a loop skips. -/
theorem skip_reads {step : Parse Unit} {line : Nat} {ts rest : List Token}
    (h : Reads step line ts rest ()) :
    Reads (do step; return none) line ts rest (none : Option Unit) :=
  Reads.last h Reads.pure

end Parse

end GraphClient
