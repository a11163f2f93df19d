import GraphClient.Proofs.Command.OptionGrammar
import GraphClient.Proofs.Command.Strict
import GraphClient.Proofs.Schema.Records

/-!
# The options of both commands

`fetchGrammar` and `generateGrammar` are the grammars of the options. A header is cut at its first
colon (`splitHeader_cut`). Of each option the value that is given last counts, of the headers that
for each name; reading keeps this from one option to the next (`FetchOption.Mean.apply`,
`GenerateOption.Mean.apply`). Both commands read their arguments by these grammars, and refuse
others with a message about what offends (`options_follow_grammar`).
-/

namespace GraphClient

/-! ## Headers -/

section Headers

variable {before after text : String}

theorem splitHeader_cut (h : ':' ∉ before.toList) :
    splitHeader (before ++ ":" ++ after) = some (Text.trim before, Text.trim after) := by
  have hall : ∀ c ∈ before.toList, (c != ':') = true := fun c hc =>
    bne_iff_ne.mpr fun e => h (e ▸ hc)
  have hcs : (before ++ ":" ++ after).toList = before.toList ++ ':' :: after.toList := by
    simp
  have hmem : (before.toList ++ ':' :: after.toList).contains ':' = true := by simp
  unfold splitHeader
  simp only [hcs, hmem, if_true, List.takeWhile_append_of_pos hall,
    List.dropWhile_append_of_pos hall]
  simp

theorem splitHeader_of_not_mem (h : ':' ∉ text.toList) : splitHeader text = none := by
  unfold splitHeader
  simp [h]

/-- A text with a colon is cut at its first one. -/
theorem exists_cut (h : ':' ∈ text.toList) :
    ∃ before after, ':' ∉ before.toList ∧ text = before ++ ":" ++ after := by
  obtain ⟨front, back, hcs, hfront⟩ := List.eq_append_cons_of_mem h
  refine ⟨String.ofList front, String.ofList back, by rwa [String.toList_ofList], ?_⟩
  rw [← String.toList_inj, hcs]
  simp

namespace FetchOptions

variable (o : FetchOptions) (key value : String)

theorem endpoint_withHeader : (o.withHeader key value).endpoint = o.endpoint := by
  unfold withHeader
  split <;> rfl

theorem output_withHeader : (o.withHeader key value).output = o.output := by
  unfold withHeader
  split <;> rfl

theorem get?_withHeader (name : String) : (o.withHeader key value).headers.get? name =
    if key = name ∧ name ≠ reservedKey then some value else o.headers.get? name := by
  unfold withHeader
  split
  · rename_i hk
    rw [if_neg fun h => h.2 (h.1 ▸ hk)]
  · rename_i hk
    rw [Record.get?_insert]
    by_cases hn : name = key
    · subst hn
      rw [if_pos rfl, if_pos ⟨rfl, hk⟩]
    · rw [if_neg hn, if_neg fun h => hn h.1.symm]

end FetchOptions

end Headers

/-! ## The options of `fetch` -/

/-- An option of `fetch` with its value; that of a header is cut at its first colon. -/
inductive FetchOption where
  | endpoint (value : String)
  | header (before after : String) (first : ':' ∉ before.toList)
  | output (value : String)

namespace FetchOption

def spelling : FetchOption → List String
  | endpoint value => ["--endpoint", value]
  | header before after _ => ["--header", before ++ ":" ++ after]
  | output value => ["--output", value]

def endpoint? : FetchOption → Option String
  | endpoint value => some value
  | _ => none

def output? : FetchOption → Option String
  | output value => some value
  | _ => none

/-- The value that an option gives to the header of a name. No option names the reserved key. -/
def header? (name : String) : FetchOption → Option String
  | header before after _ =>
    if Text.trim before = name ∧ name ≠ reservedKey then some (Text.trim after) else none
  | _ => none

/-- The endpoint that is given last, or the empty text. -/
def lastEndpoint (given : List FetchOption) : String := (lastSome? endpoint? given).getD ""

/-- What options of `fetch` and a token mean together: of each option the last value counts, and
the token authorizes if it is not empty and no header does. -/
structure Mean (token : Option String) (given : List FetchOption) (o : FetchOptions) : Prop where
  endpoint : o.endpoint = lastEndpoint given
  output : o.output = (lastSome? output? given).getD "schema.graphql"
  headers : ∀ name, o.headers.get? name = (lastSome? (header? name) given).or
    (if name = "Authorization" then token.filter (· ≠ "") else none)

/-- The options of `fetch` after one more is read. -/
def apply (o : FetchOptions) : FetchOption → FetchOptions
  | endpoint value => { o with endpoint := value }
  | header before after _ => o.withHeader (Text.trim before) (Text.trim after)
  | output value => { o with output := value }

/-- What options without a token mean. -/
def collected (given : List FetchOption) : FetchOptions := given.foldl apply {}

variable {given : List FetchOption} {o : FetchOptions}

theorem read_spelling (o : FetchOptions) (a : FetchOption) (rest : List String) :
    FetchOptions.read o (a.spelling ++ rest) = FetchOptions.read (apply o a) rest := by
  cases a with
  | endpoint value => exact if_pos rfl
  | header before after first =>
    show FetchOptions.read o ("--header" :: (before ++ ":" ++ after) :: rest) = _
    rw [FetchOptions.read, if_neg (by decide), if_pos rfl, splitHeader_cut first]
    rfl
  | output value =>
    show FetchOptions.read o ("--output" :: value :: rest) = _
    rw [FetchOptions.read, if_neg (by decide), if_neg (by decide), if_pos rfl]
    rfl

theorem mean_nil : Mean none [] {} where
  endpoint := rfl
  output := rfl
  headers name := by
    rw [Option.filter_none, ite_self]
    rfl

/-- One more option takes the place of those before it that say the same. -/
theorem Mean.apply (h : Mean none given o) (a : FetchOption) :
    Mean none (given ++ [a]) (apply o a) where
  endpoint := by
    rw [lastEndpoint, lastSome?_concat, Option.getD_or, ← lastEndpoint, ← h.endpoint]
    cases a with
    | header before after first => exact FetchOptions.endpoint_withHeader o _ _
    | _ => rfl
  output := by
    rw [lastSome?_concat, Option.getD_or, ← h.output]
    cases a with
    | header before after first => exact FetchOptions.output_withHeader o _ _
    | _ => rfl
  headers name := by
    rw [lastSome?_concat, Option.or_assoc, ← h.headers]
    cases a with
    | header before after first =>
      rw [header?, FetchOption.apply, FetchOptions.get?_withHeader]
      split <;> rfl
    | _ => rfl

theorem mean_collected (given : List FetchOption) : Mean none given (collected given) := by
  have h : ∀ as : List FetchOption, Mean none as.reverse (collected as.reverse) := by
    intro as
    induction as with
    | nil => exact mean_nil
    | cons a as ih =>
      rw [List.reverse_cons, collected, List.foldl_append]
      exact ih.apply a
  simpa using h given.reverse

/-- A token authorizes where no header does. -/
theorem Mean.withToken (h : Mean none given o) (token : Option String) :
    Mean token given (o.withToken token) := by
  have hh : ∀ name, o.headers.get? name = lastSome? (header? name) given := fun name => by
    rw [h.headers, Option.filter_none, ite_self, Option.or_none]
  cases token with
  | none => exact h
  | some text =>
    rw [FetchOptions.withToken]
    split
    · -- the token is empty, or the options authorize themselves
      rename_i hne
      refine ⟨h.endpoint, h.output, fun name => ?_⟩
      rw [hh]
      by_cases hn : name = "Authorization"
      · subst hn
        rcases hne with rfl | hs
        · simp [Option.filter]
        · rw [hh] at hs
          obtain ⟨value, hv⟩ := Option.isSome_iff_exists.mp hs
          rw [FetchOptions.authorization] at hv
          rw [hv, Option.some_or]
      · rw [if_neg hn, Option.or_none]
    · rename_i hne
      obtain ⟨htext, hs⟩ := not_or.mp hne
      refine ⟨h.endpoint, h.output, fun name => ?_⟩
      show (o.headers.insert FetchOptions.authorization text).get? name = _
      rw [Record.get?_insert, FetchOptions.authorization]
      by_cases hn : name = "Authorization"
      · subst hn
        rw [hh, FetchOptions.authorization, Option.not_isSome_iff_eq_none] at hs
        simp [hs, htext, Option.filter]
      · rw [if_neg hn, if_neg hn, Option.or_none, hh]

end FetchOption

/-- The grammar of the options of `fetch`. -/
def fetchGrammar (token : Option String) : OptionGrammar FetchOption FetchOptions where
  spelling := FetchOption.spelling
  valued := ["--endpoint", "--header", "--output"]
  flags := []
  missing? given := if FetchOption.lastEndpoint given = "" then some .endpointMissing else none
  Means := FetchOption.Mean token

section Fetching

variable {token : Option String} {tail : List String} {e : UsageError}

theorem covers_fetchGrammar : (fetchGrammar token).Covers where
  nonempty a := by cases a <;> exact List.cons_ne_nil _ _
  begins args hne := by
    obtain ⟨word, rest, rfl⟩ := List.exists_cons_of_ne_nil hne
    by_cases hw : word ∈ (fetchGrammar token).valued
    · cases rest with
      | nil => exact .inr ⟨_, .valueless hw⟩
      | cons value rest =>
        have hwords := hw
        simp only [fetchGrammar, List.mem_cons, List.not_mem_nil, or_false] at hwords
        rcases hwords with rfl | rfl | rfl
        · exact .inl ⟨.endpoint value, rest, rfl⟩
        · by_cases hc : ':' ∈ value.toList
          · obtain ⟨before, after, first, rfl⟩ := exists_cut hc
            exact .inl ⟨.header before after first, rest, rfl⟩
          · exact .inr ⟨_, .colonless hw hc⟩
        · exact .inl ⟨.output value, rest, rfl⟩
    · exact .inr ⟨_, .unknown hw List.not_mem_nil⟩

theorem read_offends_fetch (o : FetchOptions) (h : (fetchGrammar token).Offends tail e) :
    FetchOptions.read o tail = .error e := by
  cases h with
  | @unknown word rest hw _ =>
    simp only [fetchGrammar, List.mem_cons, List.not_mem_nil, or_false, not_or] at hw
    obtain ⟨he, hh, ho⟩ := hw
    cases rest with
    | nil => simp [FetchOptions.read, he, hh, ho]
    | cons value rest => simp [FetchOptions.read, he, hh, ho]
  | valueless hw =>
    simp only [fetchGrammar, List.mem_cons, List.not_mem_nil, or_false] at hw
    rw [FetchOptions.read, if_pos hw]
  | colonless _ hc =>
    rw [FetchOptions.read, if_neg (by decide), if_pos rfl, splitHeader_of_not_mem hc]

theorem follows_fetch (token : Option String) (args : List String) :
    (fetchGrammar token).Follows args (FetchOptions.ofArguments token args) := by
  have hread : ∀ given tail,
      FetchOptions.read {} ((fetchGrammar token).spelled given ++ tail) =
        FetchOptions.read (FetchOption.collected given) tail :=
    fun given tail => OptionGrammar.read_spelled FetchOption.read_spelling _ given tail
  refine covers_fetchGrammar.follows_of (fun given => ?_) (fun given tail e h => ?_)
    (fun given => (FetchOption.mean_collected given).withToken token) args
  · have hnil := hread given []
    rw [List.append_nil] at hnil
    rw [FetchOptions.ofArguments, hnil]
    show (if (FetchOption.collected given).endpoint = "" then _ else _) = _
    rw [(FetchOption.mean_collected given).endpoint]
    unfold fetchGrammar
    dsimp only
    split <;> rfl
  · rw [FetchOptions.ofArguments, hread, read_offends_fetch _ h]
    rfl

end Fetching

/-! ## The options of `generate` -/

/-- An option of `generate`. -/
inductive GenerateOption where
  | schema (value : String)
  | output (value : String)
  | runtimeModule (value : String)
  | strict

namespace GenerateOption

def spelling : GenerateOption → List String
  | schema value => ["--schema", value]
  | output value => ["--output", value]
  | runtimeModule value => ["--runtime-module", value]
  | strict => ["--strict"]

def schema? : GenerateOption → Option String
  | schema value => some value
  | _ => none

def output? : GenerateOption → Option String
  | output value => some value
  | _ => none

def runtimeModule? : GenerateOption → Option String
  | runtimeModule value => some value
  | _ => none

/-- The schema that is given last, or the empty text. -/
def lastSchema (given : List GenerateOption) : String := (lastSome? schema? given).getD ""

/-- What options of `generate` mean together, with a schema to read where they name none. -/
structure Mean (fallback : String) (given : List GenerateOption) (o : GenerateOptions) : Prop where
  schema : o.schema = if lastSchema given = "" then fallback else lastSchema given
  output : o.output = (lastSome? output? given).getD "./generated/"
  runtimeModule : o.runtimeModule =
    (lastSome? runtimeModule? given).getD "graphql-lean-codegen"
  strict : o.strict = true ↔ .strict ∈ given

/-- The options of `generate` after one more is read. -/
def apply (o : GenerateOptions) : GenerateOption → GenerateOptions
  | schema value => { o with schema := value }
  | output value => { o with output := value }
  | runtimeModule value => { o with runtimeModule := value }
  | strict => { o with strict := true }

/-- What options without a default schema mean. -/
def collected (given : List GenerateOption) : GenerateOptions := given.foldl apply {}

variable {given : List GenerateOption} {o : GenerateOptions}

theorem read_spelling (o : GenerateOptions) (a : GenerateOption) (rest : List String) :
    GenerateOptions.read o (a.spelling ++ rest) = GenerateOptions.read (apply o a) rest := by
  cases a with
  | schema value =>
    show GenerateOptions.read o ("--schema" :: value :: rest) = _
    rw [GenerateOptions.read, if_neg (by decide), if_pos rfl]
    rfl
  | output value =>
    show GenerateOptions.read o ("--output" :: value :: rest) = _
    rw [GenerateOptions.read, if_neg (by decide), if_neg (by decide), if_pos rfl]
    rfl
  | runtimeModule value =>
    show GenerateOptions.read o ("--runtime-module" :: value :: rest) = _
    rw [GenerateOptions.read, if_neg (by decide), if_neg (by decide), if_neg (by decide),
      if_pos rfl]
    rfl
  | strict => exact GenerateOptions.read_strict_cons o rest

theorem Mean.lastSchema_eq (h : Mean "" given o) : o.schema = lastSchema given := by
  rw [h.schema]
  split
  · rename_i hs
    exact hs.symm
  · rfl

theorem mean_nil : Mean "" [] {} where
  schema := rfl
  output := rfl
  runtimeModule := rfl
  strict := by simp

/-- One more option takes the place of those before it that say the same. -/
theorem Mean.apply (h : Mean "" given o) (a : GenerateOption) :
    Mean "" (given ++ [a]) (apply o a) where
  schema := by
    have hlast : (GenerateOption.apply o a).schema = lastSchema (given ++ [a]) := by
      rw [lastSchema, lastSome?_concat, Option.getD_or, ← lastSchema, ← h.lastSchema_eq]
      cases a <;> rfl
    rw [hlast]
    split
    · rename_i hs
      exact hs
    · rfl
  output := by
    rw [lastSome?_concat, Option.getD_or, ← h.output]
    cases a <;> rfl
  runtimeModule := by
    rw [lastSome?_concat, Option.getD_or, ← h.runtimeModule]
    cases a <;> rfl
  strict := by
    rw [List.mem_append, List.mem_singleton, ← h.strict]
    cases a <;> simp [GenerateOption.apply]

theorem mean_collected (given : List GenerateOption) : Mean "" given (collected given) := by
  have h : ∀ as : List GenerateOption, Mean "" as.reverse (collected as.reverse) := by
    intro as
    induction as with
    | nil => exact mean_nil
    | cons a as ih =>
      rw [List.reverse_cons, collected, List.foldl_append]
      exact ih.apply a
  simpa using h given.reverse

/-- The default schema is read where the options name none. -/
theorem Mean.withDefault (h : Mean "" given o) : Mean GenerateOptions.defaultSchema given
    (if o.schema = "" then { o with schema := GenerateOptions.defaultSchema } else o) := by
  have hs := h.lastSchema_eq
  by_cases he : o.schema = ""
  · rw [if_pos he]
    exact ⟨by rw [← hs, if_pos he], h.output, h.runtimeModule, h.strict⟩
  · rw [if_neg he]
    exact ⟨by rw [← hs, if_neg he], h.output, h.runtimeModule, h.strict⟩

end GenerateOption

/-- The grammar of the options of `generate`, where the default schema may be there or not. -/
def generateGrammar (hasDefault : Bool) : OptionGrammar GenerateOption GenerateOptions where
  spelling := GenerateOption.spelling
  valued := ["--schema", "--output", "--runtime-module"]
  flags := ["--strict"]
  missing? given :=
    if GenerateOption.lastSchema given = "" ∧ hasDefault = false then some .schemaMissing else none
  Means := GenerateOption.Mean "schema.graphql"

section Generating

variable {hasDefault : Bool} {tail : List String} {e : UsageError}

theorem covers_generateGrammar : (generateGrammar hasDefault).Covers where
  nonempty a := by cases a <;> exact List.cons_ne_nil _ _
  begins args hne := by
    obtain ⟨word, rest, rfl⟩ := List.exists_cons_of_ne_nil hne
    by_cases hf : word ∈ (generateGrammar hasDefault).flags
    · obtain rfl := List.mem_singleton.mp hf
      exact .inl ⟨.strict, rest, rfl⟩
    · by_cases hw : word ∈ (generateGrammar hasDefault).valued
      · cases rest with
        | nil => exact .inr ⟨_, .valueless hw⟩
        | cons value rest =>
          simp only [generateGrammar, List.mem_cons, List.not_mem_nil, or_false] at hw
          rcases hw with rfl | rfl | rfl
          · exact .inl ⟨.schema value, rest, rfl⟩
          · exact .inl ⟨.output value, rest, rfl⟩
          · exact .inl ⟨.runtimeModule value, rest, rfl⟩
      · exact .inr ⟨_, .unknown hw hf⟩

theorem read_offends_generate (o : GenerateOptions)
    (h : (generateGrammar hasDefault).Offends tail e) :
    GenerateOptions.read o tail = .error e := by
  cases h with
  | @unknown word rest hw hf =>
    simp only [generateGrammar, List.mem_cons, List.not_mem_nil, or_false, not_or] at hw hf
    obtain ⟨hs, ho, hr⟩ := hw
    cases rest with
    | nil => simp [GenerateOptions.read, hf, hs, ho, hr]
    | cons value rest => simp [GenerateOptions.read, hf, hs, ho, hr]
  | @valueless word hw =>
    simp only [generateGrammar, List.mem_cons, List.not_mem_nil, or_false] at hw
    have hf : word ≠ "--strict" := by rcases hw with rfl | rfl | rfl <;> decide
    rw [GenerateOptions.read, if_neg hf, if_pos hw]
  | colonless hh _ => exact absurd hh (by simp [generateGrammar])

theorem follows_generate (hasDefault : Bool) (args : List String) :
    (generateGrammar hasDefault).Follows args (GenerateOptions.ofArguments hasDefault args) := by
  have hread : ∀ given tail,
      GenerateOptions.read {} ((generateGrammar hasDefault).spelled given ++ tail) =
        GenerateOptions.read (GenerateOption.collected given) tail :=
    fun given tail => OptionGrammar.read_spelled GenerateOption.read_spelling _ given tail
  refine covers_generateGrammar.follows_of (fun given => ?_) (fun given tail e h => ?_)
    (fun given => (GenerateOption.mean_collected given).withDefault) args
  · have hnil := hread given []
    rw [List.append_nil] at hnil
    have hs := (GenerateOption.mean_collected given).lastSchema_eq
    rw [GenerateOptions.ofArguments, hnil]
    show (if (GenerateOption.collected given).schema ≠ "" then _ else _) = _
    unfold generateGrammar
    dsimp only
    by_cases he : (GenerateOption.collected given).schema = ""
    · cases hasDefault <;> simp [he, ← hs]
    · simp [he, ← hs]
  · rw [GenerateOptions.ofArguments, hread, read_offends_generate _ h]
    rfl

end Generating

/-! ## Both commands -/

/-- What a message about arguments is about. -/
def UsageError.subject : UsageError → String
  | commandMissing => "a command"
  | unknownCommand text | unknownOption text | valueMissing text | headerWithoutColon text => text
  | endpointMissing => "--endpoint"
  | schemaMissing => "--schema"

theorem UsageError.subject_infix (e : UsageError) : e.subject.toList <:+: e.message.toList := by
  have hmid : ∀ before subject after : String,
      subject.toList <:+: (before ++ subject ++ after).toList := fun before subject after =>
    ⟨before.toList, after.toList, by simp⟩
  cases e with
  | commandMissing => exact hmid "Error: " _ " is required (\"fetch\" or \"generate\")"
  | unknownCommand text => exact hmid "Error: Unknown command: " text _
  | unknownOption text =>
    have h := hmid "Unknown option: " text ""
    rwa [String.append_empty] at h
  | valueMissing option => exact hmid "Error: " option _
  | headerWithoutColon text => exact hmid _ text "\""
  | endpointMissing => exact hmid "Error: " _ " is required"
  | schemaMissing =>
    exact hmid "Error: " _ " is required (no schema.graphql found in current directory)"

/-- A run of `fetch`, by the reading of its arguments. -/
theorem run_fetch (args : List String) (token : Option String) (transport : Transport)
    (files : FileTree) :
    run ("fetch" :: args) token transport files =
      match FetchOptions.ofArguments token args with
      | .error e => .failed files [] [e.message]
      | .ok o => o.run transport files := by
  simp only [run, Command.ofArguments, if_true]
  cases FetchOptions.ofArguments token args <;> rfl

/-- Both commands accept the arguments that their grammar accepts, and mean by them what it says;
other arguments end the run with one, and with a message about what offends. -/
theorem options_follow_grammar (args : List String) (token : Option String)
    (transport : Transport) (files : FileTree) :
    let hasDefault := files.has (Path.ofString "schema.graphql")
    let fetching := FetchOptions.ofArguments token args
    let generating := GenerateOptions.ofArguments hasDefault args
    (fetchGrammar token).Follows args fetching ∧
      (generateGrammar hasDefault).Follows args generating ∧
      (run ("fetch" :: args) token transport files =
        match fetching with
        | .error e => .failed files [] [e.message]
        | .ok o => o.run transport files) ∧
      (run ("generate" :: args) token transport files =
        match generating with
        | .error e => .failed files [] [e.message]
        | .ok o => o.run files) ∧
      ∀ e : UsageError, e.subject.toList <:+: e.message.toList :=
  ⟨follows_fetch token args, follows_generate _ args, run_fetch args token transport files,
    run_generate args token transport files, UsageError.subject_infix⟩

end GraphClient
