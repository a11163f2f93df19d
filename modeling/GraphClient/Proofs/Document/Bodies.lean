import GraphClient.Proofs.Document.Definitions

/-!
# Readings of bodies

`Parse.body d k` is what a definition reads behind its keyword `k`, when its description is `d`.
Each body is read whole in front of the next definition. Names may be keywords here, except in
an extension: only a reader that looks for the next definition can take one for another.
-/

namespace GraphClient.Parse

open Grammar

/-- A definition behind its description and its keyword. -/
def body (d : Option String) : Keyword → Parse (Option GraphClient.Definition × Option Issue)
  | .scalar => do
    let name ← name
    directives
    return (some (.scalar ⟨name, d⟩), none)
  | .enum => do
    let name ← name
    directives
    let values ← block name enumValue
    return (some (.enum ⟨name, d, values⟩), none)
  | .type => do
    let name ← name
    interfaces
    directives
    let fields ← block name (field name)
    return (some (.object ⟨name, d, fields⟩), none)
  | .input => do
    let name ← name
    directives
    let fields ← block name (inputField name)
    return (some (.input ⟨name, d, fields⟩), none)
  | .interface => do
    let name ← name
    let issue ← tentative do
      interfaces
      directives
      braces
    return (some (.interface name), issue)
  | .union => do
    let name ← name
    let issue ← tentative do
      directives
      if ← accept .equals then alternatives
    return (some (.union name), issue)
  | .schema => do
    directives
    braces
    return (none, none)
  | .directive => do
    directiveDefinition
    return (none, none)
  | .extend => do
    advance
    move Cursor.toDefinition
    return (none, none)

theorem definition_eq : definition = (do
    let d ← description
    match (← peek).bind Token.keyword? with
    | none => fail .definition
    | some k =>
      advance
      body d k) := by
  unfold definition
  refine congrArg (description >>= ·) (funext fun d => congrArg (peek >>= ·) (funext fun o => ?_))
  cases o.bind Token.keyword? with
  | none => rfl
  | some k => cases k <;> rfl

variable {line : Nat} {ts us vs rest : List Token} {d : Option String} {n : String} {t : Token}

/-- Behind its keyword, a definition goes on with its body. -/
theorem definition_of_keyword {k : Token} {w : String} {keyword : Keyword} (hd : Description ds d)
    (hk : k.kind = .name w) (hw : Keyword.ofText? w = some keyword) :
    definition ⟨line, ds ++ k :: ts⟩ = body d keyword ⟨k.line, ts⟩ := by
  have hkey : (k :: ts).head?.bind Token.keyword? = some keyword := by
    simpa [Token.keyword?, Token.name?_eq_some.mpr hk] using hw
  rw [definition_eq, Reads.followed (describes_name hd hk)]
  refine (Reads.followed (@peek_reads _ (k :: ts))).trans ?_
  rw [hkey]
  exact Reads.followed (@advance_reads _ k ts)

/-- A definition is read if its body is. -/
theorem definition_reads {k : Token} {w : String} {keyword : Keyword}
    {r : Option GraphClient.Definition × Option Issue} (hd : Description ds d)
    (hk : k.kind = .name w) (hw : Keyword.ofText? w = some keyword)
    (hb : Reads (body d keyword) k.line ts rest r) :
    Reads definition line (ds ++ k :: ts) rest r := by
  unfold Reads at hb ⊢
  rw [List.append_assoc, List.cons_append, definition_of_keyword hd hk hw, hb, lastLine_append,
    lastLine_cons]

/-! ## Bodies -/

theorem scalar_reads (ht : t.kind = .name n) (hdirs : Directives (kindsOf ts))
    (hr : AtDefinition rest) :
    Reads (body d .scalar) line (t :: ts) rest (some (.scalar ⟨n, d⟩), none) :=
  Reads.bind (name_reads ht) (Reads.last (directives_reads hdirs.free hr.avoids) Reads.pure)

theorem enum_reads {values : List EnumValueDef} (ht : t.kind = .name n)
    (hdirs : Directives (kindsOf ts)) (hr : Avoids [.atSign, .parenL] (us ++ rest))
    (hb : ∀ line, Reads (block n enumValue) line us rest values) :
    Reads (body d .enum) line (t :: (ts ++ us)) rest (some (.enum ⟨n, d, values⟩), none) :=
  Reads.bind (name_reads ht)
    (Reads.bind (directives_reads hdirs.free hr) (Reads.last (hb _) Reads.pure))

theorem input_reads {fields : List InputValueDef} (ht : t.kind = .name n)
    (hdirs : Directives (kindsOf ts)) (hb : Block InputValue us fields) (hr : AtDefinition rest) :
    Reads (body d .input) line (t :: (ts ++ us)) rest (some (.input ⟨n, d, fields⟩), none) := by
  refine Reads.bind (name_reads ht) ?_
  apply Reads.bind (directives_reads hdirs.free (hb.avoids hr.avoids (by decide)))
  exact Reads.last (inputFields_reads hb hr.avoids) Reads.pure

theorem implements_reads (h : Free.Interfaces (kindsOf ts)) (hr : BehindName rest) :
    Reads interfaces line ts rest () :=
  interfaces_reads h hr.endsInterfaces hr.not_implements

theorem type_reads {fields : List FieldDef} (ht : t.kind = .name n)
    (hi : NamesBehind (.name "implements") .amp (kindsOf us)) (hdirs : Directives (kindsOf ts))
    (hb : Block Field vs fields) (hr : AtDefinition rest) :
    Reads (body d .type) line (t :: (us ++ (ts ++ vs))) rest
      (some (.object ⟨n, d, fields⟩), none) := by
  have hv : BehindName (vs ++ rest) := (hb.group fun _ _ => Field.balanced).behindName hr
  have hts : BehindName ((ts ++ vs) ++ rest) := by
    rw [List.append_assoc]
    exact hdirs.free.behindName hv
  refine Reads.bind (name_reads ht) (Reads.bind (implements_reads hi.interfaces hts) ?_)
  apply Reads.bind (directives_reads hdirs.free (hb.avoids hr.avoids (by decide)))
  exact Reads.last (fields_reads hb hr.avoids) Reads.pure

theorem interface_reads (ht : t.kind = .name n)
    (hi : NamesBehind (.name "implements") .amp (kindsOf us)) (hdirs : Directives (kindsOf ts))
    (hb : Group .braceL .braceR (kindsOf vs)) (hr : AtDefinition rest) :
    Reads (body d .interface) line (t :: (us ++ (ts ++ vs))) rest (some (.interface n), none) := by
  have hv : BehindName (vs ++ rest) := hb.behindName hr
  have hts : BehindName ((ts ++ vs) ++ rest) := by
    rw [List.append_assoc]
    exact hdirs.free.behindName hv
  refine Reads.bind (name_reads ht) (Reads.last (Reads.tentative ?_) Reads.pure)
  apply Reads.bind (implements_reads hi.interfaces hts)
  apply Reads.bind (directives_reads hdirs.free (hb.avoids hr.avoids (by decide)))
  exact group_reads_of .braces hb hr.avoids

theorem union_reads (ht : t.kind = .name n) (hdirs : Directives (kindsOf ts))
    (ha : NamesBehind (.punctuator .equals) .pipe (kindsOf us))
    (hr : Avoids [.atSign, .parenL, .equals, .pipe] rest) :
    Reads (body d .union) line (t :: (ts ++ us)) rest (some (.union n), none) := by
  refine Reads.bind (name_reads ht) (Reads.last (Reads.tentative ?_) Reads.pure)
  rcases ha with ha | ⟨ks, hk, hn⟩
  · rw [kindsOf_eq_nil.mp ha]
    apply Reads.bind (directives_reads hdirs.free (hr.subset (by decide)))
    exact Reads.after (accept_passes (hr.subset (by decide))) Reads.pure
  · obtain ⟨e, ws, rfl, he, rfl⟩ := kindsOf_eq_cons.mp hk
    apply Reads.bind (directives_reads hdirs.free (avoids_of_kind he (by decide)))
    exact Reads.bind (accept_reads he) (alternatives_reads hn (hr.subset (by decide)))

theorem schema_reads {o c : Token} (hdirs : Directives (kindsOf ts))
    (ho : o.kind = .punctuator .braceL) (hb : Balanced (kindsOf us))
    (hc : c.kind = .punctuator .braceR) :
    Reads (body d .schema) line (ts ++ o :: (us ++ [c])) rest (none, none) :=
  Reads.bind (directives_reads hdirs.free (avoids_of_kind ho (by decide)))
    (Reads.last (group_reads .braces ho hb hc) Reads.pure)

theorem directiveDefinition_reads {a on : Token} (ha : a.kind = .punctuator .atSign)
    (ht : t.kind = .name n) (hg : Group .parenL .parenR (kindsOf ts))
    (hs : kindsOf us ∈ [[], [.name "repeatable"]]) (ho : on.kind = .name "on")
    (hl : NamesBetween .pipe (kindsOf vs)) (hr : AtDefinition rest) :
    Reads directiveDefinition line (a :: t :: (ts ++ (us ++ on :: vs))) rest () := by
  have hon : ∀ line, Reads (do
      if (← peekName) = some "on" then
        advance
        alternatives
      else fail (.text "on")) line (on :: vs) rest () := fun line => by
    apply Reads.after (peekName_of_name ho)
    exact Reads.bind (@advance_reads _ on (vs ++ rest)) (alternatives_reads hl hr.avoids)
  refine Reads.bind (expect_reads ha) (Reads.bind (name_reads ht) ?_)
  simp only [List.mem_cons, List.not_mem_nil, or_false] at hs
  rcases hs with hs | hs
  · rw [kindsOf_eq_nil.mp hs]
    apply Reads.bind (group_reads_of .parens hg (avoids_of_name ho))
    exact Reads.after (peekName_of_name ho) (hon _)
  · obtain ⟨r, rfl, hk⟩ := kindsOf_eq_singleton.mp hs
    apply Reads.bind (group_reads_of .parens hg (avoids_of_name hk))
    apply Reads.after (peekName_of_name hk)
    exact Reads.bind (@advance_reads _ r (on :: vs ++ rest)) (hon _)

theorem directive_reads {a on : Token} (ha : a.kind = .punctuator .atSign) (ht : t.kind = .name n)
    (hg : Group .parenL .parenR (kindsOf ts)) (hs : kindsOf us ∈ [[], [.name "repeatable"]])
    (ho : on.kind = .name "on") (hl : NamesBetween .pipe (kindsOf vs)) (hr : AtDefinition rest) :
    Reads (body d .directive) line (a :: t :: (ts ++ (us ++ on :: vs))) rest (none, none) :=
  Reads.last (directiveDefinition_reads ha ht hg hs ho hl hr) Reads.pure

theorem toDefinition_reads (h : Inert (kindsOf ts)) (hr : AtDefinition rest) :
    Reads (move Cursor.toDefinition) line ts rest () := by
  unfold Reads move Cursor.toDefinition
  rw [Cursor.seekDefinition_unstarted h.unstarted, Cursor.seekDefinition_at hr]

theorem extension_reads (h : Extension (kindsOf ts)) (hr : AtDefinition rest) :
    Reads (body d .extend) line ts rest (none, none) := by
  obtain ⟨w, ls, hk, hi⟩ := h.inert
  obtain ⟨t, us, rfl, -, rfl⟩ := kindsOf_eq_cons.mp hk
  exact Reads.bind (@advance_reads _ t (us ++ rest))
    (Reads.last (toDefinition_reads hi hr) Reads.pure)

end GraphClient.Parse
