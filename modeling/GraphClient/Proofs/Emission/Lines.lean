import GraphClient.Emission
import GraphClient.Proofs.Emission.Comments
import GraphClient.Proofs.Schema.WellFormed
import GraphClient.Proofs.Text.Quoted

/-!
# Lines of a generated module

No line of a generated module holds a line break (`OneLine`): names have none, and quoted texts
write theirs by an escape. And apart from those written for descriptions no line opens a comment
of several lines (`Comment.Plain`): behind its spaces it begins with something else than a slash
(`Starts`), or with two.
-/

namespace GraphClient

/-- No line break. -/
def OneLine (s : String) : Prop := '\n' ∉ s.toList

instance (s : String) : Decidable (OneLine s) := inferInstanceAs (Decidable (_ ∉ _))

theorem blank_empty : Blank "".toList := nofun

theorem blank_indent : Blank "  ".toList := by simp [Blank]

section OneLine

variable {a b : String}

theorem oneLine_append : OneLine (a ++ b) ↔ OneLine a ∧ OneLine b := by simp [OneLine]

theorem IsName.oneLine (h : IsName a) : OneLine a := fun hm => by
  have hc := h.continues _ hm
  revert hc
  decide

theorem oneLine_escape (h : OneLine a) : OneLine (Naming.escape a) := by
  unfold Naming.escape
  split
  · exact oneLine_append.mpr ⟨h, by decide⟩
  · exact h

theorem oneLine_intercalate {ls : List String} (ha : OneLine a) (h : ∀ l ∈ ls, OneLine l) :
    OneLine (a.intercalate ls) := by
  rw [OneLine, String.toList_intercalate]
  induction ls with
  | nil => simp [List.intercalate]
  | cons line ls ih =>
    have hl : '\n' ∉ line.toList := h line List.mem_cons_self
    have ha : '\n' ∉ a.toList := ha
    cases ls with
    | nil => simpa [List.intercalate] using hl
    | cons next ls =>
      have hi := ih fun l hl => h l (List.mem_cons_of_mem line hl)
      simp only [List.intercalate, List.map_cons, List.intersperse_cons_cons, List.flatten_cons,
        List.mem_append, hl, ha, false_or] at hi ⊢
      exact hi

theorem Text.hexDigit_ne {n : Nat} (h : n < 16) : hexDigit n ≠ '\n' := by
  revert n
  decide

theorem Text.not_mem_quoteChar (c : Char) : '\n' ∉ quoteChar c := by
  have h := written_quoteChar c
  generalize quoteChar c = cs at h
  cases h with
  | @letter l hu hl =>
    have hne : '\n' ≠ l := by
      rintro rfl
      exact absurd hl nofun
    simp [hne]
  | digits hc =>
    have hhigh : '\n' ≠ hexDigit (c.toNat / 16) := (hexDigit_ne (by omega)).symm
    have hlow : '\n' ≠ hexDigit (c.toNat % 16) := (hexDigit_ne (by omega)).symm
    simp [hhigh, hlow]
  | plain _ _ hc =>
    have hne : '\n' ≠ c := by
      rintro rfl
      exact absurd hc (by decide)
    simp [hne]

theorem oneLine_quote (s : String) : OneLine (Text.quote s) := by
  rw [OneLine, Text.toList_quote]
  simp [Text.quoteChars, Text.not_mem_quoteChar]

theorem oneLine_render (d : Descriptor) : OneLine d.render := by
  induction d with
  | named name =>
    rw [Descriptor.render, Descriptor.renderName]
    repeat' split
    all_goals first | decide | simp +decide only [oneLine_append, oneLine_quote]
  | optional inner ih => simp +decide only [Descriptor.render, oneLine_append, ih]
  | boxed inner ih => simp +decide only [Descriptor.render, oneLine_append, ih]
  | list inner ih => simp +decide only [Descriptor.render, oneLine_append, ih]

end OneLine

/-- A line that opens no comment. -/
structure Comment.Plain (line : String) : Prop where
  oneLine : '\n' ∉ line.toList
  unopened : ∀ tail, line.toList.dropWhile (· == ' ') ≠ '/' :: '*' :: tail

/-- Behind its spaces it begins with something else than a slash. -/
def Starts (s : String) : Prop := (s.toList.dropWhile (· == ' ')).head?.any (· != '/') = true

instance (s : String) : Decidable (Starts s) := inferInstanceAs (Decidable (_ = true))

namespace Starts

variable {a b : String}

theorem append (h : Starts a) : Starts (a ++ b) := by
  unfold Starts at *
  rw [String.toList_append, List.dropWhile_append]
  split
  · rename_i he
    rw [List.isEmpty_iff.mp he] at h
    cases h
  · rename_i he
    cases hd : a.toList.dropWhile (· == ' ') with
    | nil => exact absurd (by rw [hd]; rfl) he
    | cons c cs =>
      rw [hd] at h
      exact h

theorem behind_blank (ha : Blank a.toList) (h : Starts b) : Starts (a ++ b) := by
  rwa [Starts, String.toList_append, List.dropWhile_append_of_pos fun c hc => by simp [ha c hc]]

theorem plain (h : Starts a) (ho : OneLine a) : Comment.Plain a where
  oneLine := ho
  unopened tail ht := by
    rw [Starts, ht] at h
    cases h

end Starts

theorem IsName.starts {name : String} (h : IsName name) : Starts name := by
  obtain ⟨c, cs, hn, hc, -⟩ := h
  have hb : (c == ' ') = false := by
    by_contra hne
    simp only [Bool.not_eq_false, beq_iff_eq] at hne
    subst hne
    exact absurd hc (by decide)
  have hs : (c != '/') = true := by
    by_contra hne
    simp only [bne_iff_ne, ne_eq, not_not] at hne
    subst hne
    exact absurd hc (by decide)
  rw [Starts, hn, List.dropWhile_cons_of_neg (by simp [hb])]
  exact hs

namespace Schema

open Comment

variable {s : Schema}

theorem WellFormed.enum_name (h : s.WellFormed) : ∀ e ∈ s.enums, IsName e.name :=
  fun e hm => (h.listed (.enum e) hm).1.name

theorem WellFormed.object_names (h : s.WellFormed) :
    ∀ o ∈ s.objects, IsName o.name ∧ ∀ f ∈ o.fields, IsName f.name := by
  intro o hm
  have hp := (h.listed (.object o) hm).1
  exact ⟨hp.name, fun f hf => (hp.members f hf).name⟩

theorem projected_names (ho : ∀ o ∈ s.objects, IsName o.name ∧ ∀ f ∈ o.fields, IsName f.name) :
    ∀ p ∈ s.projected, IsName p.1.name ∧ ∀ f ∈ p.2, IsName f.name := by
  intro p hp
  obtain ⟨o, hm, rfl⟩ := List.mem_map.mp (List.mem_of_mem_filter hp)
  exact (ho o hm).imp_right fun h f hf => h f (List.mem_of_mem_filter hf)

theorem plain_empty : Plain "" := ⟨by decide, nofun⟩

/-- A comment that ends with its line is kept. -/
theorem plain_title {title : String} (h : OneLine title) :
    Plain ("// === " ++ title ++ " ===") where
  oneLine := oneLine_append.mpr ⟨oneLine_append.mpr ⟨by decide, h⟩, by decide⟩
  unopened tail := by simp

theorem plain_importLines (options : EmitOptions) :
    ∀ line ∈ s.importLines options, Plain line := by
  have hh : ∀ h ∈ s.helpers, OneLine h := by
    unfold helpers
    repeat' split
    all_goals decide
  unfold importLines
  split
  · exact nofun
  · refine List.forall_mem_cons.mpr ⟨?_, List.forall_mem_singleton.mpr plain_empty⟩
    have hs : Starts "import \x7b " := by decide
    refine hs.append.append.append.append.plain ?_
    simp +decide only [oneLine_append, oneLine_quote, oneLine_intercalate _ hh]

theorem plain_enumLines {e : EnumDef} (h : IsName e.name) :
    ∀ line ∈ enumLines { e with description := none }, Plain line := by
  have hvalues : OneLine (", ".intercalate (e.values.map fun v => Text.quote v.name)) := by
    refine oneLine_intercalate (by decide) fun l hl => ?_
    obtain ⟨v, -, rfl⟩ := List.mem_map.mp hl
    exact oneLine_quote _
  have hbinding := oneLine_escape h.oneLine
  have hconst : Starts "export const " := by decide
  have htype : Starts "export type " := by decide
  refine List.forall_mem_cons.mpr ⟨?_, List.forall_mem_cons.mpr ⟨?_,
    List.forall_mem_singleton.mpr plain_empty⟩⟩
  · refine hconst.append.append.append.append.plain ?_
    simp +decide only [oneLine_append, hbinding, hvalues]
  · refine htype.append.append.append.append.plain ?_
    simp +decide only [oneLine_append, hbinding]

theorem plain_fullFieldLine {timestamps : List String} {f : FieldDef} (h : IsName f.name) :
    Plain (s.fullFieldLine timestamps f) := by
  refine (Starts.behind_blank blank_indent h.starts).append.append.append.plain ?_
  simp +decide only [oneLine_append, h.oneLine, oneLine_render]

theorem plain_fullTypeLine {o : ObjectDef} (h : IsName o.name) :
    Plain ("export const " ++ Naming.escape (o.name ++ "Full") ++ " = fullType(" ++
      Text.quote o.name ++ ", \x7b") := by
  have hb : OneLine (Naming.escape (o.name ++ "Full")) :=
    oneLine_escape (oneLine_append.mpr ⟨h.oneLine, by decide⟩)
  have hconst : Starts "export const " := by decide
  refine hconst.append.append.append.append.plain ?_
  simp +decide only [oneLine_append, hb, oneLine_quote]

theorem plain_projectionLines {timestamps : List String} {o : ObjectDef} {fs : List FieldDef}
    (ho : IsName o.name) (hf : ∀ f ∈ fs, IsName f.name) :
    ∀ line ∈ s.projectionLines timestamps o fs, Plain line := by
  have hline : ∀ f ∈ fs, Plain (s.projectionFieldLine timestamps f) := by
    intro f hm
    have h := hf f hm
    refine (Starts.behind_blank (by simp [Blank]) h.starts).append.append.append.plain ?_
    simp +decide only [oneLine_append, h.oneLine, oneLine_render]
  have hconst : Starts "export const " := by decide
  have hname : Starts "  name: " := by decide
  simp only [projectionLines, List.forall_mem_append, List.forall_mem_cons, List.not_mem_nil,
    false_imp_iff, implies_true, and_true, List.forall_mem_map]
  refine ⟨⟨⟨?_, ?_, ?_⟩, hline⟩, ?_, ?_⟩
  · refine hconst.append.append.plain ?_
    simp +decide only [oneLine_append, oneLine_escape ho.oneLine]
  · refine hname.append.append.plain ?_
    simp +decide only [oneLine_append, oneLine_quote]
  all_goals exact Starts.plain (by decide) (by decide)

theorem plain_operationLines {binding : String} (h : OneLine binding) (fs : List FieldDef) :
    ∀ line ∈ operationLines binding fs, Plain line := by
  have hentry : ∀ a, OneLine (argumentEntry a) := fun a => by
    simp +decide only [argumentEntry, oneLine_append, oneLine_quote]
  have hline : ∀ f ∈ fs, Plain (operationLine f) := by
    intro f _
    have hs : Starts "  \x7b name: " := by decide
    have harguments : OneLine (", ".intercalate (f.arguments.map argumentEntry)) := by
      refine oneLine_intercalate (by decide) fun l hl => ?_
      obtain ⟨a, -, rfl⟩ := List.mem_map.mp hl
      exact hentry a
    refine hs.append.append.append.append.append.append.plain ?_
    simp +decide only [oneLine_append, oneLine_quote, harguments]
  have hconst : Starts "export const " := by decide
  unfold operationLines
  split
  · refine List.forall_mem_singleton.mpr (hconst.append.append.plain ?_)
    simp +decide only [oneLine_append, h]
  · simp only [List.forall_mem_append, List.forall_mem_cons, List.not_mem_nil,
      false_imp_iff, implies_true, and_true, List.forall_mem_map]
    refine ⟨⟨hconst.append.append.plain ?_, hline⟩, Starts.plain (by decide) (by decide)⟩
    simp +decide only [oneLine_append, h]

end Schema

end GraphClient
