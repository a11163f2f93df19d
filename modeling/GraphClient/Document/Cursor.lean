import GraphClient.Document.Warning

/-!
# Reading tokens

A `Cursor` holds the tokens that are left, with the line of the last token read. A `Parse`
reads from a cursor and answers an `Outcome`: the warnings it gave, the cursor where it
stopped, and its result, or the issue that stopped it. `loop` repeats a step; it ends
because a step that reads no token ends it.
-/

namespace GraphClient

/-- The tokens left to read; `line` is that of the last token read, or zero. -/
structure Cursor where
  line : Nat
  rest : List Token
  deriving DecidableEq, Repr

/-- The cursor behind the next token. -/
def Cursor.advance (c : Cursor) : Cursor :=
  match c.rest with
  | [] => c
  | t :: rest => ⟨t.line, rest⟩

/-- What reading gave, and where it stopped. -/
structure Outcome (α : Type) where
  warnings : List Warning
  cursor : Cursor
  result : Except Issue α

/-- A reader of tokens. -/
def Parse (α : Type) : Type := Cursor → Outcome α

/-- An outcome with warnings that were given before it. -/
def Outcome.withEarlier {α : Type} (earlier : List Warning) (o : Outcome α) : Outcome α :=
  { o with warnings := earlier ++ o.warnings }

/-- Goes on with a result where reading stopped; an issue stays where it arose. -/
def Outcome.andThen {α β : Type} (o : Outcome α) (f : α → Parse β) : Outcome β :=
  match o with
  | ⟨warnings, c, .ok a⟩ => (f a c).withEarlier warnings
  | ⟨warnings, c, .error issue⟩ => ⟨warnings, c, .error issue⟩

theorem Cursor.advance_suffix (c : Cursor) : c.advance.rest <:+ c.rest := by
  rcases c with ⟨line, _ | ⟨t, rest⟩⟩
  · exact List.suffix_refl _
  · exact List.suffix_cons t rest

@[simp] theorem Outcome.andThen_ok {α β : Type} (ws : List Warning) (c : Cursor) (a : α)
    (f : α → Parse β) : Outcome.andThen ⟨ws, c, .ok a⟩ f = (f a c).withEarlier ws := rfl

@[simp] theorem Outcome.andThen_error {α β : Type} (ws : List Warning) (c : Cursor) (i : Issue)
    (f : α → Parse β) : Outcome.andThen ⟨ws, c, .error i⟩ f = ⟨ws, c, .error i⟩ := rfl

theorem Outcome.withEarlier_nil {α : Type} (o : Outcome α) : o.withEarlier [] = o := rfl

theorem Outcome.withEarlier_append {α : Type} (ws vs : List Warning) (o : Outcome α) :
    (o.withEarlier vs).withEarlier ws = o.withEarlier (ws ++ vs) := by
  simp [withEarlier]

theorem Outcome.withEarlier_andThen {α β : Type} (ws : List Warning) (o : Outcome α)
    (f : α → Parse β) : (o.withEarlier ws).andThen f = (o.andThen f).withEarlier ws := by
  rcases o with ⟨vs, c, i | a⟩
  · rfl
  · exact (withEarlier_append ws vs (f a c)).symm

namespace Parse

variable {α β : Type}

instance : Monad Parse where
  pure a := fun c => ⟨[], c, .ok a⟩
  bind p f := fun c => (p c).andThen f

theorem bind_apply (p : Parse α) (f : α → Parse β) (c : Cursor) :
    (p >>= f) c = (p c).andThen f := rfl

/-- What follows two parts in sequence follows the second of them. -/
theorem andThen_andThen {γ : Type} (o : Outcome α) (f : α → Parse β) (g : β → Parse γ) :
    (o.andThen f).andThen g = o.andThen fun a => f a >>= g := by
  rcases o with ⟨ws, c, i | a⟩
  · rfl
  · exact Outcome.withEarlier_andThen ws (f a c) g

/-- Stops at the next token. -/
def fail (expected : Expectation) : Parse α := fun c =>
  ⟨[], c, .error ⟨c.rest.head?.map (·.toOccurrence), expected⟩⟩

def warn (w : Warning) : Parse Unit := fun c => ⟨[w], c, .ok ()⟩

/-- The tokens that are left. -/
def tokens : Parse (List Token) := fun c => ⟨[], c, .ok c.rest⟩

def peek : Parse (Option Token) := fun c => ⟨[], c, .ok c.rest.head?⟩

/-- Reads one token, if one is left. -/
def advance : Parse Unit := fun c => ⟨[], c.advance, .ok ()⟩

/-- Goes on elsewhere. -/
def move (f : Cursor → Cursor) : Parse Unit := fun c => ⟨[], f c, .ok ()⟩

/-- An issue as a result. -/
def tentative (p : Parse Unit) : Parse (Option Issue) := fun c =>
  match p c with
  | ⟨warnings, c, .ok _⟩ => ⟨warnings, c, .ok none⟩
  | ⟨warnings, c, .error issue⟩ => ⟨warnings, c, .ok (some issue)⟩

/-- Repeats a step while `continues` allows it and it reads tokens, and collects its results. -/
def loop (continues : Cursor → Bool) (step : Parse (Option α)) (c : Cursor) : Outcome (List α) :=
  if continues c then
    (step c).andThen fun a c' =>
      if c'.rest.length < c.rest.length then
        (loop continues step c').andThen fun as c'' => ⟨[], c'', .ok (a.toList ++ as)⟩
      else ⟨[], c', .ok a.toList⟩
  else ⟨[], c, .ok []⟩
termination_by c.rest.length

/-- Repeats a step for what it reads alone. -/
def skipLoop (continues : Cursor → Bool) (step : Parse Unit) : Parse Unit := do
  let _ ← loop (α := Unit) continues (do step; return none)

/-- Whether the next token is a punctuator. -/
def nextIs (p : Punctuator) (c : Cursor) : Bool := c.rest.head?.any (·.is p)

/-- Reads a punctuator if it is next. -/
def accept (p : Punctuator) : Parse Bool := fun c =>
  if nextIs p c then ⟨[], c.advance, .ok true⟩ else ⟨[], c, .ok false⟩

def expect (p : Punctuator) : Parse Unit := do
  if !(← accept p) then fail (.text p.text)

/-- The text of the next token, if it is a name. -/
def peekName : Parse (Option String) := do
  return (← peek).bind Token.name?

def name : Parse String := do
  match ← peekName with
  | some text =>
    advance
    return text
  | none => fail .name

/-- Reads a string that describes what follows it; an empty one describes nothing. -/
def description : Parse (Option String) := do
  match (← peek).bind Token.string? with
  | some text =>
    advance
    return if text = "" then none else some text
  | none => return none

end Parse

end GraphClient
