import GraphClient.Proofs.Document.Grammar
import GraphClient.Proofs.Document.Reads

/-!
# Readings of the parts of a document

For each reader of a part, the tokens it takes: groups in brackets, directives, lists of names,
types, values, and members. Conditions on what follows are those that the reader checks itself.
-/

namespace GraphClient

/-! ## Kinds of tokens -/

section Kinds

variable {ts : List Token} {k : TokenKind} {ks ls : List TokenKind}

theorem kindsOf_append (ts us : List Token) : kindsOf (ts ++ us) = kindsOf ts ++ kindsOf us :=
  List.map_append

theorem kindsOf_eq_nil : kindsOf ts = [] ↔ ts = [] := List.map_eq_nil_iff

theorem kindsOf_eq_cons : kindsOf ts = k :: ks ↔
    ∃ t us, ts = t :: us ∧ t.kind = k ∧ kindsOf us = ks := List.map_eq_cons_iff

theorem kindsOf_eq_append : kindsOf ts = ks ++ ls ↔
    ∃ us vs, ts = us ++ vs ∧ kindsOf us = ks ∧ kindsOf vs = ls := List.map_eq_append_iff

theorem kindsOf_eq_singleton : kindsOf ts = [k] ↔ ∃ t, ts = [t] ∧ t.kind = k := by
  simp

theorem avoids_of_kind {ps : List Punctuator} {t : Token} {q : Punctuator}
    (h : t.kind = .punctuator q) (hq : q ∉ ps) : Avoids ps (t :: ts) := by
  rw [avoids_cons]
  rintro p hp e
  rw [h] at e
  cases e
  exact hq hp

theorem avoids_of_name {ps : List Punctuator} {t : Token} {n : String} (h : t.kind = .name n) :
    Avoids ps (t :: ts) := by
  simp [h]

theorem avoids_of_string {ps : List Punctuator} {t : Token} {s : String} (h : t.string? = some s) :
    Avoids ps (t :: ts) := by
  rw [avoids_cons]
  rintro p - e
  simp [Token.string?, e] at h

end Kinds

namespace Punctuator.Encloses

variable {o c : Punctuator}

theorem isBracket (h : o.Encloses c) :
    (TokenKind.punctuator o).isBracket = true ∧ (TokenKind.punctuator c).isBracket = true := by
  cases h <;> exact ⟨rfl, rfl⟩

theorem ne (h : o.Encloses c) : o ≠ c := by
  cases h <;> decide

/-- Two pairs of brackets are the same or have no bracket in common. -/
theorem same_or_apart {o' c' : Punctuator} (h : o.Encloses c) (h' : o'.Encloses c') :
    (o' = o ∧ c' = c) ∨ (o' ≠ o ∧ o' ≠ c ∧ c' ≠ o ∧ c' ≠ c) := by
  cases h <;> cases h' <;> decide

end Punctuator.Encloses

namespace Grammar

theorem Directives.free {ks : List TokenKind} (h : Directives ks) : Free.Directives ks := by
  induction h with
  | nil => exact .nil
  | bare _ _ ih => exact .bare _ ih
  | withArguments _ hks _ ih => exact .withArguments _ hks ih

/-- Directives begin with an at sign, if there are any. -/
theorem Free.Directives.nil_or_cons {ts : List Token} (h : Free.Directives (kindsOf ts)) :
    ts = [] ∨ ∃ a us, ts = a :: us ∧ a.kind = .punctuator .atSign := by
  have lead : ∀ ls, kindsOf ts = .punctuator .atSign :: ls →
      ∃ a us, ts = a :: us ∧ a.kind = .punctuator .atSign := by
    intro ls hls
    obtain ⟨a, us, rfl, ha, -⟩ := kindsOf_eq_cons.mp hls
    exact ⟨a, us, rfl, ha⟩
  generalize hk : kindsOf ts = ks at h lead
  cases h with
  | nil => exact .inl (kindsOf_eq_nil.mp hk)
  | bare _ _ => exact .inr (lead _ rfl)
  | withArguments _ _ _ => exact .inr (lead _ rfl)

theorem Free.Directives.avoids {ps : List Punctuator} {ts rest : List Token}
    (h : Free.Directives (kindsOf ts)) (hr : Avoids ps rest) (hp : .atSign ∉ ps) :
    Avoids ps (ts ++ rest) := by
  rcases h.nil_or_cons with rfl | ⟨a, us, rfl, ha⟩
  · exact hr
  · exact avoids_of_kind ha hp

/-- A group begins with its opening bracket, if there is one. -/
theorem Group.nil_or_cons {o c : Punctuator} {ts : List Token} (h : Group o c (kindsOf ts)) :
    ts = [] ∨ ∃ t us, ts = t :: us ∧ t.kind = .punctuator o := by
  generalize hk : kindsOf ts = ks at h
  cases h with
  | none => exact .inl (kindsOf_eq_nil.mp hk)
  | some _ =>
    obtain ⟨t, us, rfl, ht, -⟩ := kindsOf_eq_cons.mp hk
    exact .inr ⟨t, us, rfl, ht⟩

theorem Literal.ne_nil {ks : List TokenKind} (h : Literal ks) : ks ≠ [] := by
  cases h <;> simp

/-- Some names with a punctuator between them, and perhaps one before the first. -/
def NamesBetween (p : Punctuator) (ks : List TokenKind) : Prop :=
  ∃ n ns, ks = separated p (n :: ns) ∨ ks = .punctuator p :: separated p (n :: ns)

theorem NamesBetween.of_listed {p : Punctuator} {ks : List TokenKind} (h : Listed p ks) :
    NamesBetween p ks := by
  cases h with
  | plain _ => exact ⟨_, _, .inl rfl⟩
  | led _ => exact ⟨_, _, .inr rfl⟩

/-- A list of names behind an opening token, or nothing. -/
def NamesBehind (k : TokenKind) (p : Punctuator) (ks : List TokenKind) : Prop :=
  ks = [] ∨ ∃ ls, ks = k :: ls ∧ NamesBetween p ls

theorem moreInterfaces_of_separated {ns : List String} :
    Free.MoreInterfaces (ns.flatMap fun m => [.punctuator .amp, .name m]) := by
  induction ns with
  | nil => exact .nil
  | cons n _ ih => exact .amp n ih

/-- Interfaces that are separated by ampersands. -/
theorem NamesBehind.interfaces {ks : List TokenKind}
    (h : NamesBehind (.name "implements") .amp ks) : Free.Interfaces ks := by
  rcases h with rfl | ⟨ls, rfl, n, ns, rfl | rfl⟩
  · exact .none
  · exact .list n moreInterfaces_of_separated
  · exact .led n moreInterfaces_of_separated

theorem Interfaces.namesBehind {ks : List TokenKind} (h : Interfaces ks) :
    NamesBehind (.name "implements") .amp ks := by
  cases h with
  | none => exact .inl rfl
  | list hl => exact .inr ⟨_, rfl, .of_listed hl⟩

theorem Alternatives.namesBehind {ks : List TokenKind} (h : Alternatives ks) :
    NamesBehind (.punctuator .equals) .pipe ks := by
  cases h with
  | none => exact .inl rfl
  | list hl => exact .inr ⟨_, rfl, .of_listed hl⟩

end Grammar

namespace Parse

open Grammar

/-! ## Groups in brackets -/

section Groups

variable {o c : Punctuator} {depth line : Nat} {t : Token} {ts rest : List Token}

theorem leaveGroup_open (h : t.kind = .punctuator o) :
    leaveGroup o c depth line (t :: ts) = leaveGroup o c (depth + 1) t.line ts := by
  rw [leaveGroup, if_pos (Token.is_iff.mpr h)]

theorem leaveGroup_other (ho : t.kind ≠ .punctuator o) (hc : t.kind ≠ .punctuator c) :
    leaveGroup o c depth line (t :: ts) = leaveGroup o c depth t.line ts := by
  rw [leaveGroup, if_neg (by simp [Token.is_eq_false ho]), if_neg (by simp [Token.is_eq_false hc])]

theorem leaveGroup_inner (ho : o ≠ c) (h : t.kind = .punctuator c) (hd : 1 < depth) :
    leaveGroup o c depth line (t :: ts) = leaveGroup o c (depth - 1) t.line ts := by
  have hn : t.kind ≠ .punctuator o := by rw [h]; simpa using ho.symm
  rw [leaveGroup, if_neg (by simp [Token.is_eq_false hn]), if_pos (Token.is_iff.mpr h),
    if_neg (by omega)]

theorem leaveGroup_last (ho : o ≠ c) (h : t.kind = .punctuator c) (hd : depth ≤ 1) :
    leaveGroup o c depth line (t :: ts) = ⟨[], ⟨t.line, ts⟩, .ok ()⟩ := by
  have hn : t.kind ≠ .punctuator o := by rw [h]; simpa using ho.symm
  rw [leaveGroup, if_neg (by simp [Token.is_eq_false hn]), if_pos (Token.is_iff.mpr h), if_pos hd]

/-- Nested brackets leave the depth of a group as it is. -/
theorem leaveGroup_balanced (hoc : o.Encloses c) {ks : List TokenKind} (h : Balanced ks)
    (hk : kindsOf ts = ks) (hd : 1 ≤ depth) :
    leaveGroup o c depth line (ts ++ rest) = leaveGroup o c depth (lastLine line ts) rest := by
  induction h generalizing ts depth line rest with
  | nil => rw [kindsOf_eq_nil.mp hk]; rfl
  | token hb _ ih =>
    obtain ⟨t, us, rfl, rfl, hus⟩ := kindsOf_eq_cons.mp hk
    have ho : t.kind ≠ .punctuator o := fun e => by
      rw [e, (hoc.isBracket).1] at hb; cases hb
    have hc : t.kind ≠ .punctuator c := fun e => by
      rw [e, (hoc.isBracket).2] at hb; cases hb
    rw [List.cons_append, leaveGroup_other ho hc, ih hus hd, lastLine_cons]
  | group hoc' _ _ ihk ihl =>
    obtain ⟨t, us, rfl, ht, hus⟩ := kindsOf_eq_cons.mp hk
    obtain ⟨vs, ws, rfl, hvs, hws⟩ := kindsOf_eq_append.mp hus
    obtain ⟨u, xs, rfl, hu, hxs⟩ := kindsOf_eq_cons.mp hws
    simp only [List.cons_append, List.append_assoc, lastLine_cons, lastLine_append]
    rcases hoc.same_or_apart hoc' with ⟨rfl, rfl⟩ | ⟨h1, h2, h3, h4⟩
    · rw [leaveGroup_open ht, ihk hvs (by omega),
        leaveGroup_inner (hoc.ne) hu (by omega), Nat.add_sub_cancel, ihl hxs hd]
    · rw [leaveGroup_other (by simpa [ht] using h1) (by simpa [ht] using h2), ihk hvs hd,
        leaveGroup_other (by simpa [hu] using h3) (by simpa [hu] using h4), ihl hxs hd]

theorem group_reads (hoc : o.Encloses c) {u : Token} (ht : t.kind = .punctuator o)
    (hts : Balanced (kindsOf ts)) (hu : u.kind = .punctuator c) :
    Reads (group o c) line (t :: (ts ++ [u])) rest () := by
  unfold Reads
  rw [List.cons_append, List.append_assoc, List.singleton_append, group_of_nextIs (nextIs_cons ht),
    leaveGroup_open ht, leaveGroup_balanced hoc hts rfl (by omega),
    leaveGroup_last (hoc.ne) hu (by omega)]
  simp [lastLine_append]

theorem group_passes (h : Avoids [o] rest) : Reads (group o c) line [] rest () :=
  group_of_not_nextIs (nextIs_of_avoids h)

/-- A group that may be missing. -/
theorem group_reads_of (hoc : o.Encloses c) (h : Group o c (kindsOf ts)) (hr : Avoids [o] rest) :
    Reads (group o c) line ts rest () := by
  generalize hk : kindsOf ts = ks at h
  cases h with
  | none => rw [kindsOf_eq_nil.mp hk]; exact group_passes hr
  | some hb =>
    obtain ⟨t, us, rfl, ht, hus⟩ := kindsOf_eq_cons.mp hk
    obtain ⟨vs, ws, rfl, rfl, hws⟩ := kindsOf_eq_append.mp hus
    obtain ⟨u, rfl, hu⟩ := kindsOf_eq_singleton.mp hws
    exact group_reads hoc ht hb hu

end Groups

/-! ## Directives and lists of names -/

section Lists

variable {line : Nat} {ts us rest : List Token}

/-- One directive after the other is skipped. -/
theorem directives_members (h : Free.Directives (kindsOf ts))
    (hr : Avoids [.atSign, .parenL] rest) :
    Members (α := Unit) (nextIs .atSign)
      (do (do advance; let _ ← name; parens); return none) rest line ts [] := by
  generalize hk : kindsOf ts = ks at h
  induction h generalizing ts line with
  | nil =>
    rw [kindsOf_eq_nil.mp hk]
    exact .done (nextIs_of_avoids (hr.subset (by decide)))
  | @bare ks n hks ih =>
    obtain ⟨a, us, rfl, ha, hus⟩ := kindsOf_eq_cons.mp hk
    obtain ⟨t, vs, rfl, ht, hvs⟩ := kindsOf_eq_cons.mp hus
    subst hvs
    have hv : Avoids [.parenL] (vs ++ rest) :=
      hks.avoids (hr.subset (by decide)) (by decide)
    have hs : Reads (do advance; let _ ← name; parens) line ([a] ++ ([t] ++ [])) (vs ++ rest) () :=
      Reads.bind advance_reads (Reads.bind (name_reads ht) (group_passes hv))
    exact .more (nextIs_cons ha) (by simp) (skip_reads hs) (ih rfl)
  | @withArguments ks ls n hks hls ih =>
    obtain ⟨a, us, rfl, ha, hus⟩ := kindsOf_eq_cons.mp hk
    obtain ⟨t, vs, rfl, ht, hvs⟩ := kindsOf_eq_cons.mp hus
    obtain ⟨o, ws, rfl, ho, hws⟩ := kindsOf_eq_cons.mp hvs
    obtain ⟨xs, ys, rfl, rfl, hys⟩ := kindsOf_eq_append.mp hws
    obtain ⟨c, zs, rfl, hc, rfl⟩ := kindsOf_eq_cons.mp hys
    have hs : Reads (do advance; let _ ← name; parens) line
        ([a] ++ ([t] ++ o :: (xs ++ [c]))) (zs ++ rest) () :=
      Reads.bind advance_reads (Reads.bind (name_reads ht) (group_reads .parens ho hks hc))
    have hm := Members.more (nextIs_cons ha) (by simp) (skip_reads hs) (ih rfl)
    simpa using hm

theorem directives_reads (h : Free.Directives (kindsOf ts)) (hr : Avoids [.atSign, .parenL] rest) :
    Reads directives line ts rest () :=
  skipLoop_reads (directives_members h hr)

/-- Names behind occurrences of a punctuator are skipped, two tokens at a time. -/
theorem separated_members {p : Punctuator} {continues : Cursor → Bool} {step : Parse Unit}
    (hc : ∀ line t us, t.kind = .punctuator p → continues ⟨line, t :: us⟩ = true)
    (hs : ∀ line t u us n, t.kind = .punctuator p → u.kind = .name n → Reads step line [t, u] us ())
    (hr : ∀ line, continues ⟨line, rest⟩ = false) {ns : List String}
    (h : kindsOf ts = ns.flatMap fun m => [.punctuator p, .name m]) :
    Members (α := Unit) continues (do step; return none) rest line ts [] := by
  induction ns generalizing ts line with
  | nil => rw [kindsOf_eq_nil.mp h]; exact .done (hr line)
  | cons n ns ih =>
    obtain ⟨t, us, rfl, ht, hus⟩ := kindsOf_eq_cons.mp h
    obtain ⟨u, vs, rfl, hu, hvs⟩ := kindsOf_eq_cons.mp hus
    exact .more (hc _ _ _ ht) (by simp) (skip_reads (hs line t u (vs ++ rest) n ht hu)) (ih hvs)

/-- A list of names begins with an accepted punctuator or a name. -/
theorem namesBetween_reads {p : Punctuator} {q : Parse Unit} (h : NamesBetween p (kindsOf ts))
    (hq : ∀ (ns : List String) line us,
      (kindsOf us = ns.flatMap fun m => [.punctuator p, .name m]) → Reads q line us rest ()) :
    Reads (do let _ ← accept p; let _ ← name; q) line ts rest () := by
  obtain ⟨n, ns, hk | hk⟩ := h
  · obtain ⟨t, us, rfl, ht, hus⟩ := kindsOf_eq_cons.mp hk
    have hp : Reads (accept p) line [] (t :: (us ++ rest)) false :=
      accept_passes (avoids_of_name ht)
    exact Reads.after hp (Reads.bind (name_reads ht) (hq ns _ us hus))
  · obtain ⟨a, us, rfl, ha, hus⟩ := kindsOf_eq_cons.mp hk
    obtain ⟨t, vs, rfl, ht, hvs⟩ := kindsOf_eq_cons.mp hus
    exact Reads.bind (accept_reads ha) (Reads.bind (name_reads ht) (hq ns _ vs hvs))

theorem alternatives_reads (h : NamesBetween .pipe (kindsOf ts)) (hr : Avoids [.pipe] rest) :
    Reads alternatives line ts rest () :=
  namesBetween_reads h fun _ _ _ hus =>
    skipLoop_reads (separated_members (fun _ _ _ ht => nextIs_cons ht)
      (fun _ _ _ _ _ _ hu => Reads.bind advance_reads (Reads.last (name_reads hu) Reads.pure))
      (fun _ => nextIs_of_avoids hr) hus)

theorem continuesInterfaces_amp {t : Token} (h : t.kind = .punctuator .amp) :
    continuesInterfaces ⟨line, t :: ts⟩ = true := by
  simp [continuesInterfaces, nextIs_cons h]

theorem continuesInterfaces_bare {t : Token} {n : String} (h : t.kind = .name n) (hn : Plain n) :
    continuesInterfaces ⟨line, t :: ts⟩ = true := by
  have hk : t.keyword? = none := by
    simp only [Token.keyword?, Token.name?_eq_some.mpr h, Option.bind_some]
    exact hn
  have hs : startsDefinition (t :: ts) = false := by
    cases ts <;> simp [startsDefinition, afterDescription, Token.isString, Token.string?, h, hk]
  simp [continuesInterfaces, hs, Token.isName, Token.name?, h]

/-- What may follow a list of interfaces: no ampersand, and a name only if it starts a
definition. -/
def EndsInterfaces (ts : List Token) : Prop :=
  Avoids [.amp] ts ∧ ∀ t ∈ ts.head?, t.isName = true → startsDefinition ts = true

theorem continuesInterfaces_stops (h : EndsInterfaces rest) :
    continuesInterfaces ⟨line, rest⟩ = false := by
  obtain ⟨ha, hn⟩ := h
  rw [continuesInterfaces, nextIs_of_avoids ha, Bool.false_or]
  cases rest with
  | nil => rfl
  | cons t ts =>
    rw [List.head?_cons, Option.any_some]
    cases ht : t.isName with
    | false => rfl
    | true => simp [hn t rfl ht]

/-- One interface after the other is skipped. -/
theorem moreInterfaces_members (h : Free.MoreInterfaces (kindsOf ts)) (hr : EndsInterfaces rest) :
    Members (α := Unit) continuesInterfaces
      (do (do let _ ← accept .amp; let _ ← name); return none) rest line ts [] := by
  generalize hk : kindsOf ts = ks at h
  induction h generalizing ts line with
  | nil =>
    rw [kindsOf_eq_nil.mp hk]
    exact .done (continuesInterfaces_stops hr)
  | @amp ks n hks ih =>
    obtain ⟨a, us, rfl, ha, hus⟩ := kindsOf_eq_cons.mp hk
    obtain ⟨t, vs, rfl, ht, hvs⟩ := kindsOf_eq_cons.mp hus
    have hs : Reads (do let _ ← accept .amp; let _ ← name) line ([a] ++ [t]) (vs ++ rest) () :=
      Reads.bind (accept_reads ha) (Reads.last (name_reads ht) Reads.pure)
    exact .more (continuesInterfaces_amp ha) (by simp) (skip_reads hs) (ih hvs)
  | @bare n ks hn hks ih =>
    obtain ⟨t, vs, rfl, ht, hvs⟩ := kindsOf_eq_cons.mp hk
    have hp : Reads (accept .amp) line [] ([t] ++ (vs ++ rest)) false :=
      accept_passes (avoids_of_name ht)
    have hs : Reads (do let _ ← accept .amp; let _ ← name) line [t] (vs ++ rest) () :=
      Reads.after hp (Reads.last (name_reads ht) Reads.pure)
    exact .more (continuesInterfaces_bare ht hn) (by simp) (skip_reads hs) (ih hvs)

theorem interfaces_passes (h : ∀ t ∈ rest.head?, t.kind ≠ .name "implements") :
    Reads interfaces line [] rest () := by
  have hn : rest.head?.bind Token.name? ≠ some "implements" := by
    cases rest with
    | nil => simp
    | cons t ts => simpa [Token.name?_eq_some] using h t rfl
  have hp : Reads peekName line [] ([] ++ rest) (rest.head?.bind Token.name?) := peekName_reads
  apply Reads.after hp
  rw [if_neg hn]
  exact Reads.pure

theorem interfaces_reads (h : Free.Interfaces (kindsOf ts)) (hr : EndsInterfaces rest)
    (hn : ∀ t ∈ rest.head?, t.kind ≠ .name "implements") : Reads interfaces line ts rest () := by
  generalize hk : kindsOf ts = ks at h
  cases h with
  | none =>
    rw [kindsOf_eq_nil.mp hk]
    exact interfaces_passes hn
  | list n hks =>
    obtain ⟨t, us, rfl, ht, hus⟩ := kindsOf_eq_cons.mp hk
    obtain ⟨u, vs, rfl, hu, rfl⟩ := kindsOf_eq_cons.mp hus
    apply Reads.after (peekName_of_name ht)
    rw [if_pos rfl]
    have hp : ∀ line, Reads (accept .amp) line [] (u :: (vs ++ rest)) false := fun _ =>
      accept_passes (avoids_of_name hu)
    refine Reads.bind advance_reads (Reads.after (hp _) (Reads.bind (name_reads hu) ?_))
    exact skipLoop_reads (moreInterfaces_members hks hr)
  | led n hks =>
    obtain ⟨t, us, rfl, ht, hus⟩ := kindsOf_eq_cons.mp hk
    obtain ⟨a, vs, rfl, ha, hvs⟩ := kindsOf_eq_cons.mp hus
    obtain ⟨u, ws, rfl, hu, rfl⟩ := kindsOf_eq_cons.mp hvs
    apply Reads.after (peekName_of_name ht)
    rw [if_pos rfl]
    refine Reads.bind advance_reads (Reads.bind (accept_reads ha) (Reads.bind (name_reads hu) ?_))
    exact skipLoop_reads (moreInterfaces_members hks hr)

end Lists

/-! ## Types and values -/

section Types

variable {line : Nat} {ts us rest : List Token}

theorem marked_passes {type : TypeRef} (h : Avoids [.bang] rest) :
    Reads (marked type) line [] rest type :=
  Reads.after (accept_passes h) Reads.pure

theorem marked_reads {type : TypeRef} {t : Token} (h : t.kind = .punctuator .bang) :
    Reads (marked type) line [t] rest (.nonNull type) :=
  Reads.last (accept_reads h) Reads.pure

theorem typeRefFrom_name {t : Token} {n : String} (h : t.kind = .name n) :
    typeRefFrom line (t :: ts) = marked (.named n) ⟨t.line, ts⟩ := by
  have hb : t.is .bracketL = false := Token.is_eq_false (by simp [h])
  rw [typeRefFrom, if_neg (by simp [hb]), Token.name?_eq_some.mpr h]

theorem typeRefFrom_list {o c : Token} {element : TypeRef} (ho : o.kind = .punctuator .bracketL)
    (he : typeRefFrom o.line (us ++ c :: rest) =
      ⟨[], ⟨lastLine o.line us, c :: rest⟩, .ok element⟩)
    (hc : c.kind = .punctuator .bracketR) :
    typeRefFrom line (o :: (us ++ c :: rest)) = marked (.list element) ⟨c.line, rest⟩ := by
  have hx : expect .bracketR ⟨lastLine o.line us, c :: rest⟩ = ⟨[], ⟨c.line, rest⟩, .ok ()⟩ :=
    @expect_reads (lastLine o.line us) c rest .bracketR hc
  rw [typeRefFrom, if_pos (Token.is_iff.mpr ho), he, Outcome.andThen_ok, bind_apply, hx]
  rfl

/-- A type is read whole. A type without a mark is read up to where its mark may stand. -/
theorem typeRefFrom_kinds (type : TypeRef) : ∀ {line : Nat} {ts rest : List Token},
    type.IsProper → kindsOf ts = type.kinds →
      (type.isNonNull = false →
        typeRefFrom line (ts ++ rest) = marked type ⟨lastLine line ts, rest⟩) ∧
      (Avoids [.bang] rest →
        typeRefFrom line (ts ++ rest) = ⟨[], ⟨lastLine line ts, rest⟩, .ok type⟩) := by
  induction type with
  | named n =>
    intro line ts rest _ hk
    obtain ⟨t, rfl, ht⟩ := kindsOf_eq_singleton.mp hk
    refine ⟨fun _ => typeRefFrom_name ht, fun hr => ?_⟩
    exact (typeRefFrom_name ht).trans (marked_passes hr)
  | list element ih =>
    intro line ts rest hp hk
    obtain ⟨o, us, rfl, ho, hus⟩ := kindsOf_eq_cons.mp hk
    obtain ⟨vs, ws, rfl, hvs, hws⟩ := kindsOf_eq_append.mp hus
    obtain ⟨c, rfl, hc⟩ := kindsOf_eq_singleton.mp hws
    have he : typeRefFrom line (o :: (vs ++ c :: rest)) = marked (.list element) ⟨c.line, rest⟩ :=
      typeRefFrom_list ho ((ih hp hvs).2 (avoids_of_kind hc (by decide))) hc
    have hl : lastLine line (o :: (vs ++ [c])) = c.line := by simp [lastLine_append]
    rw [hl, List.cons_append, List.append_assoc, List.singleton_append]
    exact ⟨fun _ => he, fun hr => he.trans (marked_passes hr)⟩
  | nonNull inner ih =>
    intro line ts rest hp hk
    obtain ⟨us, vs, rfl, hus, hvs⟩ := kindsOf_eq_append.mp hk
    obtain ⟨b, rfl, hb⟩ := kindsOf_eq_singleton.mp hvs
    refine ⟨nofun, fun _ => ?_⟩
    rw [List.append_assoc, (ih hp.2 hus).1 hp.1, lastLine_append]
    exact marked_reads hb

theorem typeRef_reads {type : TypeRef} (hp : type.IsProper) (hk : kindsOf ts = type.kinds)
    (hr : Avoids [.bang] rest) : Reads typeRef line ts rest type :=
  (typeRefFrom_kinds type hp hk).2 hr

theorem typeAnnotation_reads {type : TypeRef} {element : String} {colon : Token}
    (hc : colon.kind = .punctuator .colon) (hp : type.IsProper) (hk : kindsOf ts = type.kinds)
    (hr : Avoids [.bang] rest) : Reads ( typeAnnotation element) line (colon :: ts) rest type :=
  Reads.bind (accept_reads hc) (typeRef_reads hp hk hr)

theorem anyValue_reads (h : Literal (kindsOf ts)) : Reads anyValue line ts rest () := by
  generalize hk : kindsOf ts = ks at h
  have single : ∀ {k : TokenKind}, (∀ p, k ≠ .punctuator p) → kindsOf ts = [k] →
      Reads anyValue line ts rest () := by
    intro k hn hts
    obtain ⟨t, rfl, rfl⟩ := kindsOf_eq_singleton.mp hts
    apply Reads.after (@peek_reads line ([t] ++ rest))
    simp only [List.singleton_append, List.head?_cons]
    split <;> first | exact absurd ‹_› (hn _) | exact advance_reads
  cases h with
  | name n => exact single (by simp) hk
  | int => exact single (by simp) hk
  | float => exact single (by simp) hk
  | string s => exact single (by simp) hk
  | blockString s => exact single (by simp) hk
  | dollar n =>
    obtain ⟨t, us, rfl, ht, hus⟩ := kindsOf_eq_cons.mp hk
    obtain ⟨u, rfl, hu⟩ := kindsOf_eq_singleton.mp hus
    apply Reads.after (@peek_reads line ([t, u] ++ rest))
    simp only [List.cons_append, List.head?_cons, ht]
    exact Reads.bind advance_reads (Reads.last (name_reads hu) Reads.pure)
  | list hb =>
    obtain ⟨o, us, rfl, ho, hus⟩ := kindsOf_eq_cons.mp hk
    obtain ⟨vs, ws, rfl, rfl, hws⟩ := kindsOf_eq_append.mp hus
    obtain ⟨c, rfl, hc⟩ := kindsOf_eq_singleton.mp hws
    apply Reads.after (@peek_reads line (o :: (vs ++ [c]) ++ rest))
    simp only [List.cons_append, List.head?_cons, ho]
    exact group_reads .brackets ho hb hc
  | object hb =>
    obtain ⟨o, us, rfl, ho, hus⟩ := kindsOf_eq_cons.mp hk
    obtain ⟨vs, ws, rfl, rfl, hws⟩ := kindsOf_eq_append.mp hus
    obtain ⟨c, rfl, hc⟩ := kindsOf_eq_singleton.mp hws
    apply Reads.after (@peek_reads line (o :: (vs ++ [c]) ++ rest))
    simp only [List.cons_append, List.head?_cons, ho]
    exact group_reads .braces ho hb hc

/-- A value behind an equals sign is kept as the text of its tokens. -/
theorem equals_reads {e : Token} (he : e.kind = .punctuator .equals) (hne : ts ≠ [])
    (hv : Reads anyValue e.line ts rest ()) :
    Reads defaultValue line (e :: ts) rest (some (spanText ts)) := by
  apply Reads.bind (accept_reads he)
  rw [if_pos rfl]
  apply Reads.after tokens_reads
  have hnil : (ts ++ rest).isEmpty = false := by
    cases ts with
    | nil => exact absurd rfl hne
    | cons t us => rfl
  rw [hnil, if_neg (by decide)]
  have ht : (ts ++ rest).take ((ts ++ rest).length - rest.length) = ts := by simp
  refine Reads.last hv (Reads.last tokens_reads ?_)
  rw [ht]
  exact Reads.pure

theorem defaultValue_reads {v : Option String} (h : Default ts v) (hr : Avoids [.equals] rest) :
    Reads defaultValue line ts rest v := by
  cases h with
  | none => exact Reads.after (accept_passes hr) Reads.pure
  | value he hv =>
    exact equals_reads he (fun e => hv.ne_nil (congrArg kindsOf e)) (anyValue_reads hv)

end Types

end Parse

end GraphClient
