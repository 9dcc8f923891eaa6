import SiteQuery.Compilation.Project

/-!
What is kept of the schema does not show in the result of a pass.
-/

namespace SiteQuery

/-- Whether a file can be read with the same text, and was changed at the same time. -/
def FileSystem.keeps (before after : FileSystem) (path : Path) : Bool :=
  (before.readText path).toOption == (after.readText path).toOption &&
    (before.modified path).toOption == (after.modified path).toOption

namespace Compilation

open Graphql

/-- The schema kept is the one in the file, as long as its time tells no change. -/
def SchemaCache.Agrees (cache : SchemaCache) (system : FileSystem) : Prop :=
  ∀ time loaded, cache.cached? = some (time, loaded) → (system.modified cache.path).toOption = some (some time) →
    (Schema.load system cache.path).toOption = some loaded.schema

theorem toOption_load_eq_bind (system : FileSystem) (path : Path) :
    (Schema.load system path).toOption =
      (system.readText path).toOption.bind fun text => (Schema.parse text).toOption := by
  unfold Schema.load
  cases system.readText path <;> rfl

/-- Where there is nothing, there is no schema. -/
theorem load_of_modified {system : FileSystem} {path : Path} {error : FileError}
    (missing : system.modified path = .error error) :
    Schema.load system path = .error (.unreadable path.text error.message) := by
  unfold FileSystem.modified at missing
  unfold Schema.load FileSystem.readText
  cases found : system.entry path with
  | error cause =>
    rw [found] at missing
    cases missing
    rfl
  | ok entry => cases entry <;> simp [found, bind, Except.bind, pure, Except.pure] at missing

/-- A directory is no schema. -/
theorem load_of_directory {system : FileSystem} {path : Path} (isDirectory : system.modified path = .ok none) :
    ∃ error, Schema.load system path = .error error := by
  unfold FileSystem.modified at isDirectory
  unfold Schema.load FileSystem.readText
  cases found : system.entry path with
  | error cause => simp [found, bind, Except.bind] at isDirectory
  | ok entry =>
    cases entry with
    | file => simp [found, bind, Except.bind, pure, Except.pure] at isDirectory
    | directory => exact ⟨_, rfl⟩

namespace SchemaCache

variable {cache : SchemaCache} {system after : FileSystem}

/-- A load fails as reading the file does, gives what is kept for the time of the file, or reads the file anew. -/
theorem load_cases (cache : SchemaCache) (system : FileSystem) :
    (∃ error, Schema.load system cache.path = .error error ∧ cache.load system = (.error error, cache)) ∨
      (∃ time loaded, system.modified cache.path = .ok (some time) ∧ cache.cached? = some (time, loaded) ∧
        cache.load system = (.ok loaded, cache)) ∨
      ∃ time schema, system.modified cache.path = .ok (some time) ∧ (∀ loaded, cache.cached? ≠ some (time, loaded)) ∧
        Schema.load system cache.path = .ok schema ∧ cache.load system = (.ok ⟨schema, cache.loads⟩,
          { cache with cached? := some (time, ⟨schema, cache.loads⟩), loads := cache.loads + 1 }) := by
  cases changed : system.modified cache.path with
  | error error =>
    refine .inl ⟨_, load_of_modified changed, ?_⟩
    rw [load, changed]
  | ok modified? =>
    by_cases kept : ∃ time loaded, modified? = some time ∧ cache.cached? = some (time, loaded)
    · obtain ⟨time, loaded, rfl, isKept⟩ := kept
      refine .inr (.inl ⟨time, loaded, rfl, isKept, ?_⟩)
      simp only [load, changed, isKept, if_true]
    · have anew : cache.load system = cache.reload system modified? := by
        simp only [load, changed]
        split
        · rename_i time loaded isKept
          have moved : ¬ some time = modified? := fun same => kept ⟨time, loaded, same.symm, isKept⟩
          rw [if_neg moved]
        · rfl
      rw [anew, reload]
      cases read : Schema.load system cache.path with
      | error error => exact .inl ⟨error, rfl, rfl⟩
      | ok schema =>
        cases modified? with
        | none =>
          obtain ⟨error, failed⟩ := load_of_directory changed
          cases read.symm.trans failed
        | some time =>
          exact .inr (.inr ⟨time, schema, rfl, fun loaded isKept => kept ⟨time, loaded, rfl, isKept⟩, rfl, rfl⟩)

@[simp] theorem path_load (cache : SchemaCache) (system : FileSystem) : (cache.load system).2.path = cache.path := by
  rcases cache.load_cases system with ⟨_, -, gives⟩ | ⟨_, _, -, -, gives⟩ | ⟨_, _, -, -, -, gives⟩ <;> rw [gives]

/-- A load depends on the text of its file and on the time when that was changed. -/
theorem load_congr (sameText : after.readText cache.path = system.readText cache.path)
    (sameTime : after.modified cache.path = system.modified cache.path) : cache.load after = cache.load system := by
  unfold load reload Schema.load
  rw [sameText, sameTime]

/-- Loaded once more, a schema is the same. -/
theorem load_load (cache : SchemaCache) (system : FileSystem) : (cache.load system).2.load system = cache.load system := by
  rcases cache.load_cases system with ⟨_, -, gives⟩ | ⟨_, _, -, -, gives⟩ | ⟨time, schema, changed, -, -, gives⟩
  · simp only [gives]
  · simp only [gives]
  · rw [gives]
    simp only [load, changed, if_true]

/-- As long as times tell changes, a load gives what is in the file. -/
theorem load_eq (agrees : cache.Agrees system) :
    (cache.load system).1.map (·.schema) = Schema.load system cache.path := by
  rcases cache.load_cases system with ⟨error, failed, gives⟩ | ⟨time, loaded, changed, kept, gives⟩ |
    ⟨time, schema, -, -, read, gives⟩
  · rw [gives, failed]
    rfl
  · have known := agrees time loaded kept (by rw [changed]; rfl)
    cases read : Schema.load system cache.path with
    | error error =>
      rw [read] at known
      cases known
    | ok schema =>
      rw [read] at known
      cases known
      rw [gives]
      rfl
  · rw [gives, read]
    rfl

theorem toOption_load (agrees : cache.Agrees system) :
    (cache.load system).1.toOption.map (·.schema) = (Schema.load system cache.path).toOption := by
  rw [← load_eq agrees]
  cases (cache.load system).1 <;> rfl

theorem agrees_load (agrees : cache.Agrees system) : (cache.load system).2.Agrees system := by
  rcases cache.load_cases system with ⟨error, -, gives⟩ | ⟨time, loaded, -, -, gives⟩ | ⟨time, schema, -, -, read, gives⟩
  · rw [gives]
    exact agrees
  · rw [gives]
    exact agrees
  · rw [gives]
    intro other loaded isKept _
    cases isKept
    rw [read]
    rfl

theorem toOption_load_of_keeps (kept : system.keeps after cache.path = true) :
    (Schema.load after cache.path).toOption = (Schema.load system cache.path).toOption := by
  simp only [FileSystem.keeps, Bool.and_eq_true, beq_iff_eq] at kept
  rw [toOption_load_eq_bind, toOption_load_eq_bind, kept.1]

theorem Agrees.of_keeps (agrees : cache.Agrees system) (kept : system.keeps after cache.path = true) :
    cache.Agrees after := by
  intro time loaded isKept changed
  rw [toOption_load_of_keeps kept]
  apply agrees time loaded isKept
  simp only [FileSystem.keeps, Bool.and_eq_true, beq_iff_eq] at kept
  rwa [kept.2]

end SchemaCache

namespace QueryCompiler

variable {compiler : QueryCompiler} {system : FileSystem}

/-- What a pass gives if it succeeds, with nothing kept from the passes before. -/
def compiledAfresh? (compiler : QueryCompiler) (system : FileSystem) : Option CompiledQueries :=
  (Schema.load system compiler.schema.path).toOption.bind fun schema => (compiler.compileWith system schema).toOption

theorem loadSchema_eq (compiler : QueryCompiler) (system : FileSystem) :
    (compiler.loadSchema system).1.toOption = (compiler.schema.load system).1.toOption ∧
      (compiler.loadSchema system).2 = { compiler with schema := (compiler.schema.load system).2 } := by
  unfold loadSchema
  rcases compiler.schema.load system with ⟨_ | _, _⟩ <;> exact ⟨rfl, rfl⟩

theorem compileAll_eq (compiler : QueryCompiler) (system : FileSystem) :
    (compiler.compileAll system).1.toOption =
        (compiler.loadSchema system).1.toOption.bind (fun loaded =>
          (compiler.compileWith system loaded.schema).toOption) ∧
      (compiler.compileAll system).2 = (compiler.loadSchema system).2 := by
  have after := (compiler.loadSchema_eq system).2
  unfold compileAll
  rcases loaded : compiler.loadSchema system with ⟨_ | _, changed⟩
  · exact ⟨rfl, rfl⟩
  · rw [loaded] at after
    subst after
    exact ⟨rfl, rfl⟩

theorem compileAll_congr {after : FileSystem}
    (sameText : after.readText compiler.schema.path = system.readText compiler.schema.path)
    (sameTime : after.modified compiler.schema.path = system.modified compiler.schema.path)
    (sameSources : compiler.sourceDocuments after = compiler.sourceDocuments system) :
    compiler.compileAll after = compiler.compileAll system := by
  have sameSchema : compiler.loadSchema after = compiler.loadSchema system := by
    unfold loadSchema
    rw [SchemaCache.load_congr sameText sameTime]
  have sameResult (cache : SchemaCache) (schema : Schema) : { compiler with schema := cache }.compileWith after schema =
      { compiler with schema := cache }.compileWith system schema := by
    have same : { compiler with schema := cache }.sourceDocuments after =
        { compiler with schema := cache }.sourceDocuments system := sameSources
    unfold compileWith
    rw [same]
  have changed := (compiler.loadSchema_eq system).2
  unfold compileAll
  rw [sameSchema]
  rcases result : compiler.loadSchema system with ⟨_ | loaded, next⟩
  · rfl
  · rw [result] at changed
    subst changed
    exact Prod.ext (sameResult _ loaded.schema) rfl

/-- Run once more, a pass gives the same. -/
theorem compileAll_compileAll (compiler : QueryCompiler) (system : FileSystem) :
    (compiler.compileAll system).2.compileAll system = compiler.compileAll system := by
  have again := compiler.schema.load_load system
  unfold compileAll loadSchema
  rcases result : compiler.schema.load system with ⟨_ | _, cache⟩ <;>
    (rw [result] at again; dsimp only at again ⊢; rw [again])

theorem toOption_compileAll (agrees : compiler.schema.Agrees system) :
    (compiler.compileAll system).1.toOption = compiler.compiledAfresh? system := by
  rw [(compiler.compileAll_eq system).1, (compiler.loadSchema_eq system).1, compiledAfresh?,
    ← SchemaCache.toOption_load agrees, Option.bind_map]
  rfl

/-- The next pass finds the compiler as this one did, but for what is kept of the schema. -/
theorem compileAll_snd (agrees : compiler.schema.Agrees system) :
    (compiler.compileAll system).2.schema.Agrees system ∧
      (compiler.compileAll system).2.schema.path = compiler.schema.path ∧
      (compiler.compileAll system).2.compiledAfresh? = compiler.compiledAfresh? := by
  rw [(compiler.compileAll_eq system).2, (compiler.loadSchema_eq system).2]
  refine ⟨SchemaCache.agrees_load agrees, compiler.schema.path_load system, ?_⟩
  funext other
  unfold compiledAfresh?
  rw [SchemaCache.path_load]
  rfl

end QueryCompiler

end Compilation

end SiteQuery
