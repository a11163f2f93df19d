import GraphClient.Token

/-!
# The grammar of operations

The trees of the grammar of documents with operations and fragments, and the `terminals` that
each derives. A list of arguments or of selections that may be left out is left out when it is
empty; one that must be there has a first element.
-/

namespace GraphClient

/-- A token as the grammar takes it: a number with its text, a string with its value. -/
inductive Terminal where
  | punctuator (p : Punctuator)
  | name (text : String)
  | int (text : String)
  | float (text : String)
  | string (value : String)
  | blockString (value : String)
  deriving DecidableEq, Repr

/-- The terminal of a kind of token with a text. -/
def TokenKind.terminal (text : String) : TokenKind → Terminal
  | punctuator p => .punctuator p
  | name n => .name n
  | int => .int text
  | float => .float text
  | string value => .string value
  | blockString value => .blockString value

def Token.terminal (t : Token) : Terminal := t.kind.terminal t.lexeme.toString

namespace Executable

section Groups

variable {α : Type} (o c : Punctuator) (terminals : α → List Terminal)

/-- Elements between two brackets. -/
def bracketed (as : List α) : List Terminal :=
  .punctuator o :: (as.flatMap terminals ++ [.punctuator c])

/-- Elements between two brackets, or nothing. -/
def group (as : List α) : List Terminal := if as.isEmpty then [] else bracketed o c terminals as

variable {terminals} in
theorem group_eq {as : List α} (h : as ≠ []) :
    group o c terminals as = bracketed o c terminals as := by
  rw [group, if_neg (by simpa using h)]

theorem bracketed_map {β : Type} (f : β → α) (bs : List β) :
    bracketed o c terminals (bs.map f) = bracketed o c (fun b => terminals (f b)) bs := by
  rw [bracketed, List.flatMap_map, bracketed]

end Groups

/-! ## Values -/

/-- The names that are values of their own. -/
def valueWords : List String := ["true", "false", "null"]

inductive Literal where
  | var (name : String)
  | int (text : String)
  | float (text : String)
  | string (value : String)
  | blockString (value : String)
  | bool (value : Bool)
  | null
  | enum (name : { n : String // n ∉ valueWords })
  | list (items : List Literal)
  | object (fields : List (String × Literal))

namespace Literal

mutual

def terminals : Literal → List Terminal
  | var name => [.punctuator .dollar, .name name]
  | int text => [.int text]
  | float text => [.float text]
  | string value => [.string value]
  | blockString value => [.blockString value]
  | bool value => [.name (if value then "true" else "false")]
  | null => [.name "null"]
  | enum name => [.name name]
  | list items => .punctuator .bracketL :: (itemTerminals items ++ [.punctuator .bracketR])
  | object fields => .punctuator .braceL :: (fieldTerminals fields ++ [.punctuator .braceR])

def itemTerminals : List Literal → List Terminal
  | [] => []
  | v :: vs => terminals v ++ itemTerminals vs

def fieldTerminals : List (String × Literal) → List Terminal
  | [] => []
  | (name, v) :: rest => .name name :: .punctuator .colon :: (terminals v ++ fieldTerminals rest)

end

mutual

/-- Whether no variable occurs in a value. -/
def isConstant : Literal → Bool
  | var _ => false
  | list items => areConstant items
  | object fields => haveConstants fields
  | _ => true

def areConstant : List Literal → Bool
  | [] => true
  | v :: vs => isConstant v && areConstant vs

def haveConstants : List (String × Literal) → Bool
  | [] => true
  | (_, v) :: rest => isConstant v && haveConstants rest

end

end Literal

/-- The terminals of an argument, or of a field of an object. -/
def argumentTerminals (a : String × Literal) : List Terminal :=
  .name a.1 :: .punctuator .colon :: a.2.terminals

theorem Literal.terminals_list (items : List Literal) :
    (list items).terminals = bracketed .bracketL .bracketR terminals items := by
  have h : itemTerminals items = items.flatMap terminals := by
    induction items with
    | nil => rfl
    | cons v vs ih => rw [itemTerminals, ih, List.flatMap_cons]
  rw [terminals, h, bracketed]

theorem Literal.terminals_object (fields : List (String × Literal)) :
    (object fields).terminals = bracketed .braceL .braceR argumentTerminals fields := by
  have h : fieldTerminals fields = fields.flatMap argumentTerminals := by
    induction fields with
    | nil => rfl
    | cons f fields ih => rw [fieldTerminals, ih, List.flatMap_cons]; rfl
  rw [terminals, h, bracketed]

abbrev Arguments := List (String × Literal)

def Arguments.terminals (as : Arguments) : List Terminal :=
  group .parenL .parenR argumentTerminals as

structure Directive where
  name : String
  arguments : Arguments

def Directive.terminals (d : Directive) : List Terminal :=
  .punctuator .atSign :: .name d.name :: d.arguments.terminals

def directiveTerminals (ds : List Directive) : List Terminal := ds.flatMap Directive.terminals

/-! ## Selections -/

/-- The name of a fragment: any but the word before the condition of one. -/
abbrev FragmentName := { n : String // n ≠ "on" }

inductive Selection where
  | field (label : Option String) (name : String) (arguments : Arguments)
      (directives : List Directive) (selections : List Selection)
  | spread (fragment : FragmentName) (directives : List Directive)
  | inline (condition : Option String) (directives : List Directive) (first : Selection)
      (rest : List Selection)

/-- The name of a field, behind another name that it is given. -/
def labelTerminals (label : Option String) (name : String) : List Terminal :=
  match label with
  | none => [.name name]
  | some a => [.name a, .punctuator .colon, .name name]

/-- The type that a fragment is for. -/
def conditionTerminals : Option String → List Terminal
  | none => []
  | some type => [.name "on", .name type]

namespace Selection

mutual

def terminals : Selection → List Terminal
  | field label name arguments directives selections =>
    labelTerminals label name ++ (arguments.terminals ++ (directiveTerminals directives ++
      if selections.isEmpty then []
      else .punctuator .braceL :: (allTerminals selections ++ [.punctuator .braceR])))
  | spread fragment directives =>
    .punctuator .spread :: .name fragment :: directiveTerminals directives
  | inline condition directives first rest =>
    .punctuator .spread :: (conditionTerminals condition ++ (directiveTerminals directives ++
      .punctuator .braceL :: (terminals first ++ allTerminals rest ++ [.punctuator .braceR])))

def allTerminals : List Selection → List Terminal
  | [] => []
  | s :: rest => terminals s ++ allTerminals rest

end

theorem allTerminals_eq (ss : List Selection) : allTerminals ss = ss.flatMap terminals := by
  induction ss with
  | nil => rfl
  | cons s ss ih => rw [allTerminals, ih, List.flatMap_cons]

theorem terminals_field (label : Option String) (name : String) (arguments : Arguments)
    (directives : List Directive) (selections : List Selection) :
    (field label name arguments directives selections).terminals =
      labelTerminals label name ++ (arguments.terminals ++ (directiveTerminals directives ++
        group .braceL .braceR terminals selections)) := by
  rw [terminals, allTerminals_eq]
  rfl

theorem terminals_inline (condition : Option String) (directives : List Directive)
    (first : Selection) (rest : List Selection) :
    (inline condition directives first rest).terminals =
      .punctuator .spread :: (conditionTerminals condition ++ (directiveTerminals directives ++
        bracketed .braceL .braceR terminals (first :: rest))) := by
  rw [terminals, allTerminals_eq]
  rfl

end Selection

/-- A set of selections, which is not empty. -/
structure SelectionSet where
  first : Selection
  rest : List Selection

def SelectionSet.terminals (s : SelectionSet) : List Terminal :=
  bracketed .braceL .braceR Selection.terminals (s.first :: s.rest)

/-! ## Definitions -/

/-- A type of a variable; a required one admits no null. -/
inductive TypeExpression where
  | named (name : String) (required : Bool)
  | list (element : TypeExpression) (required : Bool)

/-- The mark of a required type. -/
def requiredTerminals (required : Bool) : List Terminal :=
  if required then [.punctuator .bang] else []

def TypeExpression.terminals : TypeExpression → List Terminal
  | named name required => .name name :: requiredTerminals required
  | list element required =>
    .punctuator .bracketL ::
      (element.terminals ++ .punctuator .bracketR :: requiredTerminals required)

def defaultTerminals : Option Literal → List Terminal
  | none => []
  | some v => .punctuator .equals :: v.terminals

/-- The definition of a variable; no other one occurs in it. -/
structure VariableDefinition where
  name : String
  type : TypeExpression
  default : Option Literal
  directives : List Directive
  constant : (∀ v ∈ default, v.isConstant = true) ∧
    ∀ d ∈ directives, ∀ a ∈ d.arguments, a.2.isConstant = true

def VariableDefinition.terminals (v : VariableDefinition) : List Terminal :=
  .punctuator .dollar :: .name v.name :: .punctuator .colon ::
    (v.type.terminals ++ (defaultTerminals v.default ++ directiveTerminals v.directives))

inductive OperationType where
  | query
  | mutation
  | subscription
  deriving DecidableEq, Repr

def OperationType.keyword : OperationType → String
  | query => "query"
  | mutation => "mutation"
  | subscription => "subscription"

def nameTerminals : Option String → List Terminal
  | none => []
  | some n => [.name n]

inductive Definition where
  | shorthand (selections : SelectionSet)
  | operation (type : OperationType) (name : Option String)
      (parameters : List VariableDefinition) (directives : List Directive)
      (selections : SelectionSet)
  | fragment (name : FragmentName) (condition : String) (directives : List Directive)
      (selections : SelectionSet)

def Definition.terminals : Definition → List Terminal
  | shorthand selections => selections.terminals
  | operation type name parameters directives selections =>
    .name type.keyword :: (nameTerminals name ++
      (group .parenL .parenR VariableDefinition.terminals parameters ++
        (directiveTerminals directives ++ selections.terminals)))
  | fragment name condition directives selections =>
    .name "fragment" :: .name name :: .name "on" :: .name condition ::
      (directiveTerminals directives ++ selections.terminals)

/-- Definitions, at least one. -/
structure Document where
  first : Definition
  rest : List Definition

def Document.terminals (d : Document) : List Terminal :=
  (d.first :: d.rest).flatMap Definition.terminals

end Executable

end GraphClient
