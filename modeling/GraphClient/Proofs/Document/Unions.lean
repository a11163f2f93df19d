import GraphClient.Proofs.Document.Accepts
import GraphClient.Proofs.Document.Progress
import GraphClient.Proofs.Schema.Recording

/-!
# Unions in a document

A union is read from its keyword and a name behind it. So the unions of a document are no more than
the pairs of such tokens that do not overlap (`unions_le`), however much of it cannot be read. A
union that names no member behind its equals sign takes the next name for one (`entry_swallows`):
in front of other unions that is a keyword, and of them one less is read (`definitions_swallow`).
-/

namespace GraphClient

open Grammar

/-- Whether two tokens are the keyword of a union and a name. -/
def namesUnion (k l : TokenKind) : Bool := k == .name "union" && (l matches .name _)

/-- The keywords of unions with a name behind them, taken one after the other. -/
def unionPairs : List TokenKind → Nat
  | k :: l :: ks => if namesUnion k l then unionPairs ks + 1 else unionPairs (l :: ks)
  | _ => 0

section Pairs

variable {k l : TokenKind} {ks ls : List TokenKind}

theorem unionPairs_nil : unionPairs [] = 0 := by rw [unionPairs]; simp

theorem unionPairs_single (k : TokenKind) : unionPairs [k] = 0 := by rw [unionPairs]; simp

theorem unionPairs_pair (h : namesUnion k l = true) :
    unionPairs (k :: l :: ks) = unionPairs ks + 1 := by
  rw [unionPairs, if_pos h]

theorem unionPairs_skip (h : namesUnion k l = false) :
    unionPairs (k :: l :: ks) = unionPairs (l :: ks) := by
  rw [unionPairs, if_neg (by simp [h])]

/-- One more token makes one more pair at most, and no pair less. -/
theorem unionPairs_cons (k : TokenKind) (ks : List TokenKind) :
    unionPairs ks ≤ unionPairs (k :: ks) ∧ unionPairs (k :: ks) ≤ unionPairs ks + 1 := by
  induction ks generalizing k with
  | nil =>
    rw [unionPairs_nil, unionPairs_single]
    omega
  | cons l ks ih =>
    cases h : namesUnion k l with
    | false =>
      rw [unionPairs_skip h]
      omega
    | true =>
      have hl := ih l
      rw [unionPairs_pair h]
      omega

theorem unionPairs_append (ms ks : List TokenKind) : unionPairs ks ≤ unionPairs (ms ++ ks) := by
  induction ms with
  | nil => exact Nat.le_refl _
  | cons m ms ih => exact Nat.le_trans ih (unionPairs_cons m _).1

theorem unionPairs_suffix {ts us : List Token} (h : ts <:+ us) :
    unionPairs (kindsOf ts) ≤ unionPairs (kindsOf us) := by
  obtain ⟨vs, rfl⟩ := h
  rw [kindsOf_append]
  exact unionPairs_append _ _

theorem unionPairs_two (k l : TokenKind) (ks : List TokenKind) :
    unionPairs (k :: l :: ks) ≤ unionPairs ks + 1 := by
  cases h : namesUnion k l with
  | false => exact unionPairs_skip h ▸ (unionPairs_cons l ks).2
  | true => exact Nat.le_of_eq (unionPairs_pair h)

theorem unionPairs_punctuator (p : Punctuator) (ks : List TokenKind) :
    unionPairs (.punctuator p :: ks) = unionPairs ks := by
  cases ks with
  | nil => rw [unionPairs_single, unionPairs_nil]
  | cons l ks => exact unionPairs_skip rfl

theorem unionPairs_beforePunctuator (k : TokenKind) (p : Punctuator) (ks : List TokenKind) :
    unionPairs (k :: .punctuator p :: ks) = unionPairs ks := by
  rw [unionPairs_skip (by simp [namesUnion]), unionPairs_punctuator]

/-- Of names between punctuators, only the last may pair with what follows. -/
theorem unionPairs_separated {count : Nat} (h : ∀ k, unionPairs (k :: ks) ≤ count)
    (p : Punctuator) (ns : List String) : unionPairs (separated p ns ++ ks) ≤ count := by
  cases ns with
  | nil => exact Nat.le_trans (unionPairs_cons (.punctuator p) ks).1 (h _)
  | cons n ns =>
    induction ns generalizing n with
    | nil => exact h _
    | cons m ns ih =>
      exact Nat.le_trans (Nat.le_of_eq (unionPairs_beforePunctuator _ _ _)) (ih m)

end Pairs

/-! ## Unions behind a keyword that was taken -/

/-- The tokens of a union behind its keyword, with members between bars if it has any. -/
def namedUnion (n : String) (ms : List String) : List TokenKind :=
  .name n :: .punctuator .equals :: separated .pipe ms

section Written

variable {α : Type} (n : α → String) (ms : α → List String)

/-- The tokens of unions one after the other. -/
def writtenUnions (as : List α) : List TokenKind :=
  as.flatMap fun a => .name "union" :: namedUnion (n a) (ms a)

/-- A pair that is made with the token before some unions costs the pair behind it. -/
theorem unionPairs_written (as : List α) (k : TokenKind) :
    unionPairs (k :: writtenUnions n ms as) ≤ as.length := by
  induction as generalizing k with
  | nil => exact Nat.le_of_eq (unionPairs_single k)
  | cons a as ih =>
    have hbehind := unionPairs_separated ih .pipe (ms a)
    have hname : unionPairs (namedUnion (n a) (ms a) ++ writtenUnions n ms as) =
        unionPairs (separated .pipe (ms a) ++ writtenUnions n ms as) :=
      unionPairs_beforePunctuator _ _ _
    have htwo : unionPairs (k :: writtenUnions n ms (a :: as)) ≤
        unionPairs (namedUnion (n a) (ms a) ++ writtenUnions n ms as) + 1 := unionPairs_two k _ _
    rw [List.length_cons]
    omega

/-- Where the keyword of the first union was taken, a union less is read. -/
theorem unionPairs_named (a : α) (as : List α) :
    unionPairs (namedUnion (n a) (ms a) ++ writtenUnions n ms as) ≤ as.length := by
  refine Nat.le_trans (Nat.le_of_eq (unionPairs_beforePunctuator _ _ _)) ?_
  exact unionPairs_separated (unionPairs_written n ms as) .pipe (ms a)

end Written

namespace Parse

variable {c d : Cursor} {ws : List Warning} {n : String} {a : Option GraphClient.Definition}

/-! ## Unions that are read -/

/-- Only behind the keyword of a union is a union read. -/
theorem body_union {description : Option String} {keyword : Keyword} {i : Option Issue}
    (h : body description keyword c = ⟨ws, d, .ok (some (.union n), i)⟩) : keyword = .union := by
  cases keyword with
  | scalar | schema =>
    obtain ⟨_, _, _, _, -, h, -⟩ := bind_eq_ok h
    obtain ⟨_, _, _, _, -, h, -⟩ := bind_eq_ok h
    cases h
  | enum | input =>
    obtain ⟨_, _, _, _, -, h, -⟩ := bind_eq_ok h
    obtain ⟨_, _, _, _, -, h, -⟩ := bind_eq_ok h
    obtain ⟨_, _, _, _, -, h, -⟩ := bind_eq_ok h
    cases h
  | type =>
    obtain ⟨_, _, _, _, -, h, -⟩ := bind_eq_ok h
    obtain ⟨_, _, _, _, -, h, -⟩ := bind_eq_ok h
    obtain ⟨_, _, _, _, -, h, -⟩ := bind_eq_ok h
    obtain ⟨_, _, _, _, -, h, -⟩ := bind_eq_ok h
    cases h
  | interface | extend =>
    obtain ⟨_, _, _, _, -, h, -⟩ := bind_eq_ok h
    obtain ⟨_, _, _, _, -, h, -⟩ := bind_eq_ok h
    cases h
  | directive =>
    obtain ⟨_, _, _, _, -, h, -⟩ := bind_eq_ok h
    cases h
  | union => rfl

/-- What a union reads behind its name. -/
def unionMembers : Parse Unit := do
  directives
  if ← accept .equals then alternatives

theorem local_unionMembers : Local unionMembers := by
  refine LocalTo.bind local_directives fun _ => LocalTo.bind (local_accept _) fun b => ?_
  cases b
  · exact local_pure fun _ => rfl
  · exact local_alternatives

theorem tentative_suffix {p : Parse Unit} {x y : Option GraphClient.Definition} {i : Option Issue}
    (hp : Local p) (h : (do return (x, ← tentative p) : Parse _) c = ⟨ws, d, .ok (y, i)⟩) :
    d.rest <:+ c.rest := by
  have hs := (local_tentative hp x c).passes.suffix
  rwa [h] at hs

theorem unionPairs_behind {k t : Token} {ts us vs : List Token} (hus : k :: t :: us <:+ ts)
    (hk : k.kind = .name "union") (ht : t.kind = .name n) (hvs : vs <:+ us) :
    unionPairs (kindsOf vs) + 1 ≤ unionPairs (kindsOf ts) := by
  have hpair : unionPairs (kindsOf (k :: t :: us)) = unionPairs (kindsOf us) + 1 :=
    unionPairs_pair (by simp [namesUnion, hk, ht])
  have hbehind := unionPairs_suffix hvs
  have hwhole := unionPairs_suffix hus
  omega

/-- A definition of a union takes its keyword and the name behind it. -/
theorem definition_union {i : Option Issue}
    (h : definition c = ⟨ws, d, .ok (some (.union n), i)⟩) :
    unionPairs (kindsOf d.rest) + 1 ≤ unionPairs (kindsOf c.rest) := by
  obtain ⟨a, k, us, keyword, -, hus, hkey, hbody⟩ := definition_eq_ok h
  obtain rfl := body_union hbody
  obtain ⟨w, hw, hkw⟩ := Option.bind_eq_some_iff.mp hkey
  rw [Token.name?_eq_some, Keyword.text_of_ofText? hkw] at hw
  obtain ⟨_, f, m, _, hname, hmembers, -⟩ := bind_eq_ok hbody
  have htext := Recorder.name_eq_ok hname
  obtain ⟨t, ht, htm⟩ := Option.bind_eq_some_iff.mp htext
  obtain ⟨vs, rfl⟩ := List.head?_eq_some_iff.mp ht
  rw [name_of_some htext] at hname
  cases hname
  exact unionPairs_behind hus hw (Token.name?_eq_some.mp htm)
    (tentative_suffix local_unionMembers hmembers)

/-- A union is read from its keyword and its name. -/
theorem entry_union (h : entry c = ⟨ws, d, .ok (some (.union n))⟩) :
    unionPairs (kindsOf d.rest) + 1 ≤ unionPairs (kindsOf c.rest) := by
  rcases entry_eq_ok h with h | ⟨vs, e, i, -, rfl, h | ⟨-, hnone⟩⟩
  · exact definition_union h
  · have hresume : unionPairs (kindsOf (resume c.rest.length e).rest) ≤
        unionPairs (kindsOf e.rest) :=
      unionPairs_suffix (resume_passes c.rest.length e).suffix
    exact Nat.le_trans (Nat.succ_le_succ hresume) (definition_union h)
  · cases hnone

/-- One more entry is one more union at most, and then a pair of tokens that names it is taken. -/
theorem entry_unions (h : entry c = ⟨ws, d, .ok a⟩) :
    (a.toList.filter (·.kind = .union)).length + unionPairs (kindsOf d.rest) ≤
      unionPairs (kindsOf c.rest) := by
  by_cases hx : ∃ n, a = some (.union n)
  · obtain ⟨n, rfl⟩ := hx
    exact Nat.add_comm _ _ ▸ entry_union h
  · have hnone : a.toList.filter (·.kind = .union) = [] := by
      refine List.filter_eq_nil_iff.mpr fun x hmem hkind => hx ?_
      obtain rfl := Option.mem_toList.mp hmem
      cases x with
      | union n => exact ⟨n, rfl⟩
      | _ => cases of_decide_eq_true hkind
    have hsuffix := (local_entry c).passes.suffix
    rw [h] at hsuffix
    rw [hnone, List.length_nil, Nat.zero_add]
    exact unionPairs_suffix hsuffix

/-- A document has no more unions than pairs of tokens that name one. -/
theorem unions_le {ds : List GraphClient.Definition} (h : definitions c = ⟨ws, d, .ok ds⟩) :
    (ds.filter (·.kind = .union)).length ≤ unionPairs (kindsOf c.rest) := by
  induction hn : c.rest.length using Nat.strongRecOn generalizing c ws ds with
  | _ n ih =>
    by_cases hc : c.rest = []
    · rw [definitions_stop hc] at h
      cases h
      exact Nat.zero_le _
    obtain ⟨us, e, a, hentry⟩ := answers_entry c
    obtain ⟨vs, f, as, hbehind⟩ := answers_definitions e
    have hlt := (entry_passing hc).shorter
    rw [hentry] at hlt
    rw [definitions_step hentry hlt, hbehind] at h
    cases h
    have hfirst := entry_unions hentry
    have hrest := ih _ (hn ▸ hlt) hbehind rfl
    rw [List.filter_append, List.length_append]
    omega

/-! ## Unions without members -/

section Memberless

variable {line : Nat} {k t e u : Token} {m : String} {rest : List Token}
  (hk : k.kind = .name "union") (ht : t.kind = .name n) (he : e.kind = .punctuator .equals)
include hk ht he

/-- A union without members takes the next name for its member, be it a keyword. -/
theorem entry_swallows (hu : u.kind = .name m)
    (hr : Avoids [.atSign, .parenL, .equals, .pipe] rest) :
    Reads entry line [k, t, e, u] rest (some (.union n)) := by
  have hmembers : NamesBehind (.punctuator .equals) .pipe (kindsOf [e, u]) :=
    .inr ⟨[.name m], by simp [he, hu], m, [], .inl rfl⟩
  have hbody : Reads (body none .union) k.line [t, e, u] rest (some (.union n), none) :=
    @union_reads _ [] [e, u] rest none n t ht .nil hmembers hr
  have hdefinition : Reads definition line [k, t, e, u] rest (some (.union n), none) :=
    definition_reads .none hk rfl hbody
  exact entry_reads hdefinition

/-- At the end, a union without members is kept with a warning. -/
theorem entry_memberless : ∃ w d, entry ⟨line, [k, t, e]⟩ = ⟨[w], d, .ok (some (.union n))⟩ ∧
    d.rest = [] := by
  have hdirectives : Reads directives t.line [] [e] () :=
    directives_reads .nil (avoids_of_kind he (by decide))
  have hequals : Reads (accept .equals) t.line [e] [] true := accept_reads he
  have hmembers : unionMembers ⟨t.line, [e]⟩ = ⟨[], ⟨e.line, []⟩, .error ⟨none, .name⟩⟩ :=
    hdirectives.followed.trans hequals.followed
  have hname : Reads name k.line [t] [e] n := name_reads ht
  have hbody : body none .union ⟨k.line, [t, e]⟩ =
      ⟨[], ⟨e.line, []⟩, .ok (some (.union n), some ⟨none, .name⟩)⟩ :=
    hname.followed.trans (tentative_error hmembers _)
  have hdefinition : definition ⟨line, [] ++ k :: [t, e]⟩ = _ :=
    (definition_of_keyword .none hk rfl).trans hbody
  refine ⟨_, _, entry_recovers (.inl hdefinition), ?_⟩
  exact List.suffix_nil.mp (resume_passes _ ⟨e.line, []⟩).suffix

end Memberless

section Documents

variable {line : Nat} {ts : List Token}

theorem atDefinition_union {ks : List TokenKind}
    (h : kindsOf ts = .name "union" :: .name n :: ks) : AtDefinition ts := by
  obtain ⟨k, us, rfl, hk, hus⟩ := kindsOf_eq_cons.mp h
  obtain ⟨t, vs, rfl, ht, -⟩ := kindsOf_eq_cons.mp hus
  exact fun _ => @startsDefinition_keyword [] vs none k t _ _ .none hk rfl (by
    simp [isName_of_name ht])

theorem kindsOf_memberless (h : kindsOf ts = .name "union" :: namedUnion n []) :
    ∃ k t e, ts = [k, t, e] ∧ k.kind = .name "union" ∧ t.kind = .name n ∧
      e.kind = .punctuator .equals := by
  obtain ⟨k, us, rfl, hk, hus⟩ := kindsOf_eq_cons.mp h
  obtain ⟨t, vs, rfl, ht, hvs⟩ := kindsOf_eq_cons.mp hus
  obtain ⟨e, rfl, he⟩ := kindsOf_eq_singleton.mp hvs
  exact ⟨k, t, e, rfl, hk, ht, he⟩

/-- A union without members that ends a document is read. -/
theorem definitions_memberless (h : kindsOf ts = .name "union" :: namedUnion n []) :
    ∃ ws d, definitions ⟨line, ts⟩ = ⟨ws, d, .ok [.union n]⟩ := by
  obtain ⟨k, t, e, rfl, hk, ht, he⟩ := kindsOf_memberless h
  obtain ⟨w, d, hentry, hd⟩ := @entry_memberless _ line _ _ _ hk ht he
  have hlt : d.rest.length < [k, t, e].length := by
    rw [hd]
    exact Nat.zero_lt_succ 2
  refine ⟨[w], d, ?_⟩
  rw [definitions_step hentry hlt, definitions_stop hd]
  rfl

/-- Of the unions behind one without members, one less is read. -/
theorem definitions_swallow {α : Type} {names : α → String} {members : α → List String} {a : α}
    {as : List α} {ds : List GraphClient.Definition}
    (h : kindsOf ts = (.name "union" :: namedUnion n []) ++ writtenUnions names members (a :: as))
    (hds : definitions ⟨line, ts⟩ = ⟨ws, d, .ok ds⟩) :
    ∃ es, ds = .union n :: es ∧ (es.filter (·.kind = .union)).length ≤ as.length := by
  obtain ⟨us, vs, rfl, hus, hvs⟩ := kindsOf_eq_append.mp h
  obtain ⟨k, t, e, rfl, hk, ht, he⟩ := kindsOf_memberless hus
  obtain ⟨u, xs, rfl, hu, hxs⟩ := kindsOf_eq_cons.mp hvs
  have havoids : Avoids [.atSign, .parenL, .equals, .pipe] xs := by
    obtain ⟨v, ys, rfl, hv, -⟩ := kindsOf_eq_cons.mp hxs
    exact avoids_of_name hv
  have hentry : entry ⟨line, [k, t, e, u] ++ xs⟩ = _ := entry_swallows hk ht he hu havoids
  obtain ⟨ys, f, es, hes⟩ := answers_definitions ⟨lastLine line [k, t, e, u], xs⟩
  have hlt : xs.length < ([k, t, e, u] ++ xs).length := length_lt_append (by simp) xs
  have hread : definitions ⟨line, [k, t, e, u] ++ xs⟩ = _ := definitions_step hentry hlt
  rw [hes] at hread
  have hds' := hds.symm.trans hread
  cases hds'
  refine ⟨es, rfl, Nat.le_trans (unions_le hes) ?_⟩
  show unionPairs (kindsOf xs) ≤ _
  rw [hxs]
  exact unionPairs_named names members a as

end Documents

end Parse

end GraphClient
