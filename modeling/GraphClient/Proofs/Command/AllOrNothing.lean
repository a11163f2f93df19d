import GraphClient.Command.Run

/-!
# A run writes one file or none

Making directories changes no file (`makeSteps_files`), so only the last step of `save` writes
one: a run that fails leaves every file as it was, and one that succeeds changes the file that
it is for (`run_all_or_nothing`). What it is for is said by `Product`.
-/

namespace GraphClient

namespace FileTree

variable {t left saved : FileTree} {directory p : Path} {text : String}

/-- The tree that an attempt leaves, whether or not it succeeded. -/
def outcome : Except FileTree FileTree → FileTree
  | .ok t => t
  | .error t => t

/-- The text is at the path, and every other file is as before. -/
structure Written (before after : FileTree) (p : Path) (text : String) : Prop where
  located : ∃ l, after.locate p = some l ∧ after.files.lookup l = some text ∧
    ∀ m, m ≠ l → after.files.lookup m = before.files.lookup m

/-- Making directories changes no file. -/
theorem makeSteps_files (t : FileTree) (l : Location) (steps : List String) :
    (outcome (t.makeSteps l steps)).files = t.files := by
  fun_induction FileTree.makeSteps t l steps with
  | case1 t l => rfl
  | case2 t l step steps hi ih => exact ih
  | case3 t l steps hi ih => exact ih
  | case4 t l step steps hi hb hf => rfl
  | case5 t l step steps hi hb hf hd ih => exact ih
  | case6 t l step steps hi hb hf hd ih => exact ih

theorem makeDirectory_files (t : FileTree) (p : Path) :
    (outcome (t.makeDirectory p)).files = t.files := by
  rw [makeDirectory]
  split
  · rfl
  · exact makeSteps_files _ _ _

/-- Where a path leads depends on the directories alone. -/
theorem enter_of_directories {u : FileTree} (h : u.directories = t.directories) (l : Location)
    (steps : List String) : u.enter l steps = t.enter l steps := by
  have hd : ∀ m, u.isDirectory m = t.isDirectory m := fun m => by simp only [isDirectory, h]
  fun_induction FileTree.enter t l steps with
  | case1 l hl => rw [enter, hd, if_pos hl]
  | case2 l hl => rw [enter, hd, if_neg hl]
  | case3 l step steps hl => rw [enter, hd, if_pos hl]
  | case4 l step steps hl hi ih => rw [enter, hd, if_neg hl, if_pos hi, ih]
  | case5 l steps hl hi ih => rw [enter, hd, if_neg hl, if_neg hi, if_pos rfl, ih]
  | case6 l step steps hl hi hb ih => rw [enter, hd, if_neg hl, if_neg hi, if_neg hb, ih]

theorem locate_of_directories {u : FileTree} (h : u.directories = t.directories) (p : Path) :
    u.locate p = t.locate p := by
  simp only [locate, enter_of_directories h]

theorem write?_written (h : t.write? p text = some saved) : t.Written saved p text := by
  rw [write?] at h
  split at h
  · cases h
  · rename_i l hl
    split at h
    · cases h
    · cases h
      have hd := @locate_of_directories t { t with files := put l text t.files } rfl p
      refine ⟨l, hd.trans hl, ?_, fun m hm => ?_⟩
      · rw [lookup_put, if_pos rfl]
      · rw [lookup_put, if_neg hm]

theorem save_ok (h : t.save directory p text = .ok saved) : t.Written saved p text := by
  rw [save] at h
  split at h
  · cases h
  · rename_i made hm
    split at h
    · cases h
    · rename_i after hw
      cases h
      have hf : made.files = t.files := by
        have hf := makeDirectory_files t directory
        rwa [hm] at hf
      obtain ⟨l, hl, htext, hothers⟩ := write?_written hw
      exact ⟨l, hl, htext, fun m hne => by rw [hothers m hne, hf]⟩

theorem save_error (h : t.save directory p text = .error left) : left.files = t.files := by
  have hf := makeDirectory_files t directory
  rw [save] at h
  split at h
  · rename_i made hm
    cases h
    rwa [hm] at hf
  · rename_i made hm
    rw [hm] at hf
    split at h
    · cases h
      exact hf
    · cases h

end FileTree

/-! ## Products -/

section Products

/-- What a run may save: a directory to make, the path of a file, and its text. -/
abbrev Products := Path → Path → String → Prop

/-- The module of the schema file, unless strictness forbids it. -/
structure GenerateOptions.Makes (o : GenerateOptions) (files : FileTree) (directory path : Path)
    (text : String) : Prop where
  directory : directory = Path.ofString o.output
  path : path = Path.join (Path.ofString o.output) "schema.ts"
  text : ∃ source, files.read? (Path.ofString o.schema) = some source ∧
    text = ((Document.ofString source).schema.emit { runtimeModule := o.runtimeModule }).source ∧
    (o.strict = true → (Document.ofString source).warnings = [] ∧
      ((Document.ofString source).schema.emit { runtimeModule := o.runtimeModule }).leftOut = [])

/-- The definitions in the response of the server. -/
structure FetchOptions.Makes (o : FetchOptions) (transport : Transport) (directory path : Path)
    (text : String) : Prop where
  directory : directory = (Path.ofString o.output).parent
  path : path = Path.ofString o.output
  text : ∃ response body schema, transport (Fetch.request o.endpoint o.headers) = .ok response ∧
    response.ok = true ∧ response.body = .ok body ∧
    Introspection.schemaOf? body = some schema ∧ text = Introspection.sdl schema

theorem GenerateOptions.generation_module? {o : GenerateOptions} {source text : String} :
    (o.generation source).module? = some text ↔
      text = ((Document.ofString source).schema.emit { runtimeModule := o.runtimeModule }).source ∧
        (o.strict = true → (Document.ofString source).warnings = [] ∧
          ((Document.ofString source).schema.emit
            { runtimeModule := o.runtimeModule }).leftOut = []) := by
  unfold generation
  cases hs : o.strict with
  | false => simp [eq_comm (a := text)]
  | true =>
    by_cases hw : (Document.ofString source).warnings = []
    · by_cases hl : ((Document.ofString source).schema.emit
          { runtimeModule := o.runtimeModule }).leftOut = []
      · simp [hw, hl, eq_comm (a := text)]
      · simp [hw, hl]
    · simp [hw]

theorem Fetch.schema_ok {reply : Except Failure Response} {text : String} :
    Fetch.schema reply = .ok text ↔ ∃ response body schema, reply = .ok response ∧
      response.ok = true ∧ response.body = .ok body ∧
      Introspection.schemaOf? body = some schema ∧ text = Introspection.sdl schema := by
  rcases reply with failure | ⟨ok, status, statusText, failure | body⟩
  · simp [Fetch.schema]
  · cases ok <;> simp [Fetch.schema]
  · cases ok
    · simp [Fetch.schema]
    · cases h : Introspection.schemaOf? body <;>
        simp [Fetch.schema, Fetch.definitions, h, eq_comm (a := text)]

/-- The product of the command of a list of arguments, if they are accepted. -/
def Command.Makes (transport : Transport) (files : FileTree) :
    Except UsageError Command → Products
  | .error _ => fun _ _ _ => False
  | .ok (.fetch o) => o.Makes transport
  | .ok (.generate o) => o.Makes files

end Products

/-! ## Runs -/

/-- A run that saved one of its products, or changed no file and could save none of them. -/
def Run.AllOrNothing (files : FileTree) (makes : Products) (r : Run) : Prop :=
  (r.exitCode = 0 ∧ ∃ directory path text, makes directory path text ∧
    files.save directory path text = .ok r.files ∧ files.Written r.files path text) ∨
  (r.exitCode = 1 ∧ r.files.files = files.files ∧ ∀ directory path text saved,
    makes directory path text → files.save directory path text ≠ .ok saved)

section Runs

variable {files : FileTree} {makes : Products} {r : Run}

/-- A run that fails before it has anything to save. -/
theorem Run.allOrNothing_of_none (hc : r.exitCode = 1) (hf : r.files = files)
    (h : ∀ directory path text, ¬ makes directory path text) : r.AllOrNothing files makes :=
  .inr ⟨hc, by rw [hf], fun d p t _ hm => absurd hm (h d p t)⟩

/-- A run that ends with saving its only product. -/
theorem Run.allOrNothing_of_save {directory path : Path} {text : String}
    (hm : makes directory path text)
    (hu : ∀ d p t, makes d p t → d = directory ∧ p = path ∧ t = text)
    (hok : ∀ saved, files.save directory path text = .ok saved →
      r.exitCode = 0 ∧ r.files = saved)
    (herror : ∀ left, files.save directory path text = .error left →
      r.exitCode = 1 ∧ r.files = left) : r.AllOrNothing files makes := by
  cases h : files.save directory path text with
  | ok saved =>
    obtain ⟨hc, hf⟩ := hok saved h
    refine .inl ⟨hc, directory, path, text, hm, ?_, ?_⟩ <;> rw [hf]
    · exact h
    · exact FileTree.save_ok h
  | error left =>
    obtain ⟨hc, hf⟩ := herror left h
    refine .inr ⟨hc, by rw [hf, FileTree.save_error h], fun d p t saved hd => ?_⟩
    obtain ⟨rfl, rfl, rfl⟩ := hu d p t hd
    rw [h]
    exact nofun

theorem GenerateOptions.run_allOrNothing (o : GenerateOptions) (files : FileTree) :
    (o.run files).AllOrNothing files (o.Makes files) := by
  rw [GenerateOptions.run]
  cases hr : files.read? (Path.ofString o.schema) with
  | none =>
    refine Run.allOrNothing_of_none rfl rfl fun d p t hm => ?_
    obtain ⟨source, hs, -⟩ := hm.text
    rw [hr] at hs
    cases hs
  | some source =>
    have hg : ∀ d p t, o.Makes files d p t → (o.generation source).module? = some t := by
      intro d p t hm
      obtain ⟨source', hs, ht, hstrict⟩ := hm.text
      rw [hr] at hs
      cases hs
      exact generation_module?.mpr ⟨ht, hstrict⟩
    cases hmod : (o.generation source).module? with
    | none =>
      simp only [hmod]
      refine Run.allOrNothing_of_none rfl rfl fun d p t hm => ?_
      rw [hmod] at hg
      cases hg d p t hm
    | some text =>
      simp only [hmod]
      obtain ⟨ht, hstrict⟩ := generation_module?.mp hmod
      have hmakes : o.Makes files (Path.ofString o.output) o.modulePath text :=
        ⟨rfl, rfl, source, hr, ht, hstrict⟩
      refine Run.allOrNothing_of_save hmakes ?_ ?_ ?_
      · intro d p t hm
        have ht := hg d p t hm
        rw [hmod] at ht
        exact ⟨hm.directory, hm.path, (Option.some.inj ht).symm⟩
      · intro saved hs
        simp [hs]
      · intro left hs
        simp [hs, Run.stopped]

theorem FetchOptions.run_allOrNothing (o : FetchOptions) (transport : Transport)
    (files : FileTree) :
    (o.run transport files).AllOrNothing files (o.Makes transport) := by
  have hg : ∀ d p t, o.Makes transport d p t →
      Fetch.schema (transport (Fetch.request o.endpoint o.headers)) = .ok t :=
    fun d p t hm => Fetch.schema_ok.mpr hm.text
  rw [FetchOptions.run]
  cases hs : Fetch.schema (transport (Fetch.request o.endpoint o.headers)) with
  | error e =>
    refine Run.allOrNothing_of_none rfl rfl fun d p t hm => ?_
    rw [hs] at hg
    cases hg d p t hm
  | ok sdl =>
    have hmakes : o.Makes transport (Path.ofString o.output).parent (Path.ofString o.output) sdl :=
      ⟨rfl, rfl, Fetch.schema_ok.mp hs⟩
    refine Run.allOrNothing_of_save hmakes ?_ ?_ ?_
    · intro d p t hm
      have ht := hg d p t hm
      rw [hs] at ht
      exact ⟨hm.directory, hm.path, (Except.ok.inj ht).symm⟩
    · intro saved hx
      simp [hx]
    · intro left hx
      simp [hx, Run.stopped]

theorem FetchOptions.run_requests (o : FetchOptions) (transport : Transport) (files : FileTree) :
    (o.run transport files).requests = [Fetch.request o.endpoint o.headers] := by
  rw [FetchOptions.run]
  split
  · rfl
  · dsimp only
    split <;> rfl

theorem GenerateOptions.run_requests (o : GenerateOptions) (files : FileTree) :
    (o.run files).requests = [] := by
  rw [GenerateOptions.run]
  split
  · rfl
  · dsimp only
    split
    · rfl
    · split <;> rfl

/-- A run writes one file, the product of its command, and ends with zero, or it changes no file
and ends with one. It asks the server once if it is to fetch and its arguments are accepted, and
never else. -/
theorem run_all_or_nothing (args : List String) (token : Option String) (transport : Transport)
    (files : FileTree) :
    let command := Command.ofArguments token
      (files.has (Path.ofString GenerateOptions.defaultSchema)) args
    let r := run args token transport files
    r.AllOrNothing files (Command.Makes transport files command) ∧ r.requests.length ≤ 1 ∧
      ∀ q ∈ r.requests, ∃ o, command = .ok (.fetch o) ∧ q = Fetch.request o.endpoint o.headers := by
  intro command r
  have hr : r = match command with
    | .error e => .failed files [] [e.message]
    | .ok (.fetch o) => o.run transport files
    | .ok (.generate o) => o.run files := rfl
  rcases hc : command with e | o | o <;> rw [hc] at hr <;> dsimp only at hr <;> rw [hr]
  · exact ⟨Run.allOrNothing_of_none rfl rfl fun _ _ _ => id, Nat.zero_le 1, nofun⟩
  · rw [o.run_requests]
    refine ⟨o.run_allOrNothing transport files, Nat.le_refl 1, fun q hq => ⟨o, rfl, ?_⟩⟩
    exact List.mem_singleton.mp hq
  · rw [o.run_requests]
    exact ⟨o.run_allOrNothing files, Nat.zero_le 1, nofun⟩

end Runs

end GraphClient
