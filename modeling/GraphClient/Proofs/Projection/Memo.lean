import GraphClient.Projection.Memo

/-!
# Remembered selections are the selections

While all that is remembered is true (`Memo.Agrees`), a lookup answers the selection and what it
remembers is true again (`answers_ask`). So it is after any earlier lookups
(`ask_remembered`).
-/

namespace GraphClient

variable {n : Nat} {α : Type}

/-- Every remembered text is the one at its position. -/
def Memo.Agrees (select : Nat → Option String) (memo : Memo) : Prop :=
  ∀ position text, memo.lookup position = some text → select position = some text

namespace Catalog

/-- As long as what is remembered is true, a lookup answers `a` and remembers nothing else. -/
def Lookup.Answers (select : Nat → Option String) (r : Lookup α) (a : α) : Prop :=
  ∀ memo : Memo, memo.Agrees select → (r memo).1 = a ∧ (r memo).2.Agrees select

variable {select : Nat → Option String}

theorem answers_sequence {β : Type} {es : List β} {r : β → Lookup String} {t : β → String}
    (h : ∀ e ∈ es, (r e).Answers select (t e)) :
    (Lookup.sequence (es.map r)).Answers select (es.map t) := by
  induction es with
  | nil => exact fun memo hm => ⟨rfl, hm⟩
  | cons e es ih =>
    intro memo hm
    obtain ⟨he, hm⟩ := h e List.mem_cons_self memo hm
    obtain ⟨hes, hm⟩ := ih (fun d hd => h d (List.mem_cons_of_mem e hd)) _ hm
    exact ⟨congr (congrArg _ he) hes, hm⟩

theorem answers_field {ask : Fin n → Lookup String} {sel : Fin n → String}
    (h : ∀ j, (ask j).Answers select (sel j)) (key : String) (f : ProjectionField n) :
    (askField ask key f).Answers select (selectField sel key f) := by
  cases f with
  | plain type => exact fun memo hm => ⟨rfl, hm⟩
  | nested target wrap =>
    intro memo hm
    obtain ⟨ht, hm⟩ := h target memo hm
    exact ⟨congrArg (fun text => Naming.wireName key ++ " \x7b " ++ text ++ " \x7d") ht, hm⟩

theorem ask_last (c : Catalog n) (p : Projection n) (memo : Memo) :
    (c.declare p).ask (Fin.last n) memo =
      match memo.lookup n with
      | some text => (text, memo)
      | none =>
        let (texts, memo) :=
          Lookup.sequence (p.fields.entries.map fun e => askField c.ask e.1 e.2) memo
        let text := " ".intercalate texts
        (text, (n, text) :: memo) :=
  congrFun (fold_last _ c p) memo

theorem ask_castSucc (c : Catalog n) (p : Projection n) (i : Fin n) :
    (c.declare p).ask i.castSucc = c.ask i := fold_castSucc _ c p i

theorem selection_last (c : Catalog n) (p : Projection n) :
    (c.declare p).selection (Fin.last n) =
      " ".intercalate (p.fields.entries.map fun e => selectField c.selection e.1 e.2) :=
  fold_last _ c p

theorem selection_castSucc (c : Catalog n) (p : Projection n) (i : Fin n) :
    (c.declare p).selection i.castSucc = c.selection i := fold_castSucc _ c p i

/-- A lookup answers the selection, and remembers nothing but selections. -/
theorem answers_ask {n : Nat} {c : Catalog n} (h : ∀ j : Fin n, select j = some (c.selection j))
    (i : Fin n) : (c.ask i).Answers select (c.selection i) := by
  induction c with
  | empty => exact i.elim0
  | @declare n earlier p ih =>
    have hearlier : ∀ j : Fin n, select j = some (earlier.selection j) := fun j =>
      (h j.castSucc).trans (congrArg some (selection_castSucc earlier p j))
    cases i using Fin.lastCases with
    | cast i =>
      rw [ask_castSucc, selection_castSucc]
      exact ih hearlier i
    | last =>
      have hlast := h (Fin.last n)
      rw [selection_last] at hlast ⊢
      intro memo hm
      rw [ask_last]
      split
      · rename_i text ht
        exact ⟨Option.some.inj ((hm _ _ ht).symm.trans hlast), hm⟩
      · obtain ⟨hts, hm⟩ := @answers_sequence _ _ p.fields.entries _ _
          (fun e _ => answers_field (ih hearlier) e.1 e.2) memo hm
        have htext := congrArg (" ".intercalate ·) hts
        refine ⟨htext, fun position text hl => ?_⟩
        rw [List.lookup_cons] at hl
        split at hl
        · rename_i he
          cases hl
          rw [htext, eq_of_beq he]
          exact hlast
        · exact hm position text hl

/-- The selection at a position. -/
def selection? (c : Catalog n) (position : Nat) : Option String :=
  if h : position < n then some (c.selection ⟨position, h⟩) else none

theorem answers_selection (c : Catalog n) (i : Fin n) :
    (c.ask i).Answers c.selection? (c.selection i) :=
  answers_ask (fun j => by simp [selection?]) i

theorem agrees_remembered (c : Catalog n) (asked : List (Fin n)) :
    (c.remembered asked).Agrees c.selection? := by
  have run : ∀ memo : Memo, memo.Agrees c.selection? →
      (asked.foldl (fun memo i => (c.ask i memo).2) memo).Agrees c.selection? := by
    induction asked with
    | nil => exact fun _ hm => hm
    | cons i asked ih => exact fun memo hm => ih _ (answers_selection c i memo hm).2
  exact run [] fun _ _ h => by cases h

/-- Whatever was asked before, a lookup answers the selection. -/
theorem ask_remembered (c : Catalog n) (asked : List (Fin n)) (i : Fin n) :
    (c.ask i (c.remembered asked)).1 = c.selection i :=
  (answers_selection c i _ (agrees_remembered c asked)).1

end Catalog

end GraphClient
