import GraphClient.Command.Arguments

/-!
# The grammar of options

The arguments of a command are its options one after the other, each spelled by a word with a value
behind it, or by the word alone if it is a flag (`OptionGrammar`). Arguments that begin with no
option `Offends` say why. Every list of arguments is some options and then nothing, or arguments
that offend (`exists_spelled`), and a reader that takes one option at a time answers as the grammar
says (`follows_of`): it accepts the lists of options among which none is missing, and refuses any
other list for the leftmost arguments that offend.
-/

namespace GraphClient

/-- How the options of a command are written, which one is missing among others, and what they
mean together. -/
structure OptionGrammar (α ω : Type) where
  spelling : α → List String
  /-- The words that have a value behind them. -/
  valued : List String
  flags : List String
  missing? : List α → Option UsageError
  Means : List α → ω → Prop

namespace OptionGrammar

variable {α ω : Type} (g : OptionGrammar α ω)

/-- The arguments that spell some options. -/
def spelled (given : List α) : List String := given.flatMap g.spelling

/-- Arguments that begin with no option: with no word of the grammar, with a word that lacks its
value, or with a header that has no colon. -/
inductive Offends : List String → UsageError → Prop where
  | unknown {word : String} {rest : List String} : word ∉ g.valued → word ∉ g.flags →
      Offends (word :: rest) (.unknownOption word)
  | valueless {word : String} : word ∈ g.valued → Offends [word] (.valueMissing word)
  | colonless {text : String} {rest : List String} : "--header" ∈ g.valued →
      ':' ∉ text.toList → Offends ("--header" :: text :: rest) (.headerWithoutColon text)

/-- What the grammar says of the answer to some arguments. -/
structure Follows (args : List String) (answer : Except UsageError ω) : Prop where
  accepts : (∃ o, answer = .ok o) ↔ ∃ given, args = g.spelled given ∧ g.missing? given = none
  means : ∀ o given, answer = .ok o → args = g.spelled given → g.Means given o
  refuses : ∀ e, answer = .error e ↔
    (∃ given, args = g.spelled given ∧ g.missing? given = some e) ∨
      ∃ given tail, args = g.spelled given ++ tail ∧ g.Offends tail e

/-- Whatever arguments begin with, it is an option or offends. -/
structure Covers : Prop where
  nonempty : ∀ a, g.spelling a ≠ []
  begins : ∀ args, args ≠ [] →
    (∃ a rest, args = g.spelling a ++ rest) ∨ ∃ e, g.Offends args e

variable {g}

theorem spelled_cons (a : α) (given : List α) :
    g.spelled (a :: given) = g.spelling a ++ g.spelled given := List.flatMap_cons

/-- Every list of arguments is some options in front of nothing or of arguments that offend. -/
theorem Covers.exists_spelled (h : g.Covers) (args : List String) :
    ∃ given tail, args = g.spelled given ++ tail ∧ (tail = [] ∨ ∃ e, g.Offends tail e) := by
  induction hn : args.length using Nat.strongRecOn generalizing args with
  | _ n ih =>
    by_cases hnil : args = []
    · exact ⟨[], [], hnil, .inl rfl⟩
    · rcases h.begins args hnil with ⟨a, rest, rfl⟩ | hoffends
      · have hpos := List.length_pos_iff.mpr (h.nonempty a)
        rw [List.length_append] at hn
        obtain ⟨given, tail, rfl, htail⟩ := ih rest.length (by omega) rest rfl
        refine ⟨a :: given, tail, ?_, htail⟩
        rw [spelled_cons, List.append_assoc]
      · exact ⟨[], args, rfl, .inr hoffends⟩

/-- A reader that takes one option at a time takes all of them in front of what follows. -/
theorem read_spelled {β : Type} {read : ω → List String → β} {apply : ω → α → ω}
    (h : ∀ o a rest, read o (g.spelling a ++ rest) = read (apply o a) rest) (o : ω)
    (given : List α) (tail : List String) :
    read o (g.spelled given ++ tail) = read (given.foldl apply o) tail := by
  induction given generalizing o with
  | nil => rfl
  | cons a given ih => rw [spelled_cons, List.append_assoc, h, ih, List.foldl_cons]

/-- An answer follows the grammar if it does so on options alone, and on options in front of
arguments that offend. -/
theorem Covers.follows_of (h : g.Covers) {answer : List String → Except UsageError ω}
    {meant : List α → ω}
    (hspelled : ∀ given, answer (g.spelled given) =
      match g.missing? given with
      | some e => .error e
      | none => .ok (meant given))
    (hoffends : ∀ given tail e, g.Offends tail e → answer (g.spelled given ++ tail) = .error e)
    (hmeans : ∀ given, g.Means given (meant given)) (args : List String) :
    g.Follows args (answer args) := by
  obtain ⟨given, tail, hargs, htail⟩ := h.exists_spelled args
  refine ⟨⟨?_, ?_⟩, ?_, fun e => ⟨?_, ?_⟩⟩
  · rintro ⟨o, ho⟩
    rcases htail with rfl | ⟨e, he⟩
    · rw [List.append_nil] at hargs
      rw [hargs, hspelled] at ho
      cases hm : g.missing? given with
      | none => exact ⟨given, hargs, hm⟩
      | some e =>
        rw [hm] at ho
        cases ho
    · rw [hargs, hoffends given tail e he] at ho
      cases ho
  · rintro ⟨given', rfl, hm⟩
    rw [hspelled, hm]
    exact ⟨_, rfl⟩
  · rintro o given' ho rfl
    rw [hspelled] at ho
    split at ho
    · cases ho
    · cases ho
      exact hmeans given'
  · intro he
    rcases htail with rfl | ⟨e', he'⟩
    · rw [List.append_nil] at hargs
      rw [hargs, hspelled] at he
      cases hm : g.missing? given with
      | none =>
        rw [hm] at he
        cases he
      | some e' =>
        rw [hm] at he
        cases he
        exact .inl ⟨given, hargs, hm⟩
    · rw [hargs, hoffends given tail e' he'] at he
      cases he
      exact .inr ⟨given, tail, hargs, he'⟩
  · rintro (⟨given', rfl, hm⟩ | ⟨given', tail', rfl, he⟩)
    · rw [hspelled, hm]
    · exact hoffends given' tail' e he

end OptionGrammar

end GraphClient
