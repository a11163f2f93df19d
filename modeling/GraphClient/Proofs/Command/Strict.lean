import GraphClient.Command.Run

/-!
# Strictness only gates

`--strict` in front of other arguments changes how they are read in one field of the options
(`read_strictly`), and that field decides nothing but whether a module with warnings is
written. So a strict run either is the run without the flag or fails before it writes, with the
warnings of the stage that it stopped at (`strict_only_gates`).
-/

namespace GraphClient

namespace GenerateOptions

/-- The options with strictness turned on. -/
def strictly (o : GenerateOptions) : GenerateOptions := { o with strict := true }

/-- What is read behind `--strict` is what is read without it, and strictness. -/
theorem read_strictly (o : GenerateOptions) (args : List String) :
    read o.strictly args = (read o args).map strictly := by
  fun_induction GenerateOptions.read o args with
  | case1 o => rfl
  | case2 o => rfl
  | case3 o option hs hv => rw [read, if_neg hs, if_pos hv]; rfl
  | case4 o option hs hv => rw [read, if_neg hs, if_neg hv]; rfl
  | case5 o value rest ih => rw [read, if_pos rfl]; exact ih
  | case6 o value rest hs ih => rw [read, if_neg hs, if_pos rfl]; exact ih
  | case7 o value rest hs hv ih => rw [read, if_neg hs, if_neg hv, if_pos rfl]; exact ih
  | case8 o value rest hs hv ho ih =>
    rw [read, if_neg hs, if_neg hv, if_neg ho, if_pos rfl]; exact ih
  | case9 o option value rest hs hv ho hr =>
    rw [read, if_neg hs, if_neg hv, if_neg ho, if_neg hr]; rfl

theorem read_strict_cons (o : GenerateOptions) (args : List String) :
    read o ("--strict" :: args) = read o.strictly args := by
  cases args with
  | nil => rfl
  | cons value rest => rw [read, if_pos rfl]; rfl

/-- The flag in front of all other options changes the options that are accepted, not whether
they are, nor the error. -/
theorem ofArguments_strict (hasDefault : Bool) (args : List String) :
    ofArguments hasDefault ("--strict" :: args) =
      (ofArguments hasDefault args).map strictly := by
  simp only [ofArguments]
  rw [read_strict_cons, read_strictly]
  cases read {} args with
  | error e => rfl
  | ok o =>
    dsimp only [Except.map, bind, Except.bind, strictly]
    split
    · rfl
    · split <;> rfl

/-- The options and the schema text with which a run comes to emit a module: its arguments are
accepted and its schema file can be read. -/
def emits? (files : FileTree) (args : List String) : Option (GenerateOptions × String) :=
  match ofArguments (files.has (Path.ofString defaultSchema)) args with
  | .error _ => none
  | .ok o => (files.read? (Path.ofString o.schema)).map (o, ·)

end GenerateOptions

/-- The lines of a warned run that strictness stops: the warnings of the first stage that has
some, and how many they are. -/
def strictProblems (parsing : List Warning) (codegen : List LeftOut) : List String :=
  if parsing = [] then
    codegen.map (fun w => "Codegen warning: " ++ w.message) ++
      [strictError codegen.length "codegen"]
  else
    parsing.map (fun w => "Schema parse warning: " ++ w.message) ++
      [strictError parsing.length "schema parse"]

namespace GenerateOptions

variable (o : GenerateOptions) (text : String)

/-- Without warnings strictness makes no difference. -/
theorem generation_strictly_of_quiet (hp : (Document.ofString text).warnings = [])
    (hc : ((Document.ofString text).schema.emit
      { runtimeModule := o.runtimeModule }).leftOut = []) :
    o.strictly.generation text = o.generation text := by
  simp only [generation, strictly, hp, hc, List.map_nil, List.isEmpty_nil, Bool.not_true,
    Bool.and_false, Bool.false_eq_true, if_false]

/-- With warnings strictness leaves no module to write. -/
theorem generation_strictly_of_warned (h : ¬ ((Document.ofString text).warnings = [] ∧
    ((Document.ofString text).schema.emit { runtimeModule := o.runtimeModule }).leftOut = [])) :
    o.strictly.generation text = ⟨strictProblems (Document.ofString text).warnings
      ((Document.ofString text).schema.emit { runtimeModule := o.runtimeModule }).leftOut,
      none⟩ := by
  simp only [generation, strictly, strictProblems, List.isEmpty_map, List.length_map,
    Bool.true_and]
  cases hp : (Document.ofString text).warnings with
  | cons w ws => simp
  | nil =>
    cases hc : ((Document.ofString text).schema.emit
        { runtimeModule := o.runtimeModule }).leftOut with
    | nil => exact absurd ⟨hp, hc⟩ h
    | cons w ws => simp

/-- The file that is read does not depend on strictness. -/
theorem run_strictly_unread {files : FileTree} (h : files.read? (Path.ofString o.schema) = none) :
    o.strictly.run files = o.run files := by
  rw [GenerateOptions.run, GenerateOptions.run, strictly, h]

variable {text}

/-- A strict run writes what the run without the flag writes, or fails on its warnings. -/
theorem run_strictly {files : FileTree} (h : files.read? (Path.ofString o.schema) = some text) :
    o.strictly.run files =
      if (Document.ofString text).warnings = [] ∧ ((Document.ofString text).schema.emit
          { runtimeModule := o.runtimeModule }).leftOut = [] then o.run files
      else .failed files [] (strictProblems (Document.ofString text).warnings
        ((Document.ofString text).schema.emit { runtimeModule := o.runtimeModule }).leftOut) := by
  have hs : files.read? (Path.ofString o.strictly.schema) = some text := h
  by_cases hq : (Document.ofString text).warnings = [] ∧ ((Document.ofString text).schema.emit
      { runtimeModule := o.runtimeModule }).leftOut = []
  · rw [if_pos hq, GenerateOptions.run, GenerateOptions.run, hs, h]
    dsimp only
    rw [o.generation_strictly_of_quiet text hq.1 hq.2]
    rfl
  · rw [if_neg hq, GenerateOptions.run, hs]
    dsimp only
    rw [o.generation_strictly_of_warned text hq]

end GenerateOptions

/-- A run of `generate`, by the reading of its arguments. -/
theorem run_generate (args : List String) (token : Option String) (transport : Transport)
    (files : FileTree) :
    run ("generate" :: args) token transport files =
      match GenerateOptions.ofArguments
          (files.has (Path.ofString GenerateOptions.defaultSchema)) args with
      | .error e => .failed files [] [e.message]
      | .ok o => o.run files := by
  have hne : ¬ "generate" = "fetch" := by decide
  simp only [run, Command.ofArguments, if_neg hne, if_true]
  cases GenerateOptions.ofArguments _ args <;> rfl

/-- Where its arguments are refused or its schema file cannot be read, and where neither the text
nor the emission gives a warning, a strict run is the run without the flag, in every output and
every file. With a warning it ends with one, has nothing on its first output, changes no file,
and lists the warnings of the text, or of the emission if the text has none, and one error. -/
theorem strict_only_gates (rest : List String) (token : Option String) (transport : Transport)
    (files : FileTree) :
    let plain := run ("generate" :: rest) token transport files
    let strict := run ("generate" :: "--strict" :: rest) token transport files
    match GenerateOptions.emits? files rest with
    | none => strict = plain
    | some (o, text) =>
      let document := Document.ofString text
      let emission := document.schema.emit { runtimeModule := o.runtimeModule }
      if document.warnings = [] ∧ emission.leftOut = [] then strict = plain
      else strict = .failed files [] (strictProblems document.warnings emission.leftOut) := by
  simp only [run_generate, GenerateOptions.ofArguments_strict, GenerateOptions.emits?]
  cases GenerateOptions.ofArguments
      (files.has (Path.ofString GenerateOptions.defaultSchema)) rest with
  | error e => rfl
  | ok o =>
    cases hr : files.read? (Path.ofString o.schema) with
    | none =>
      simp only [Except.map, hr, Option.map_none]
      exact o.run_strictly_unread hr
    | some text =>
      simp only [Except.map, hr, Option.map_some]
      rw [o.run_strictly hr]
      split <;> rfl

end GraphClient
