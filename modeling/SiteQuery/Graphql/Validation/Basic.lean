import SiteQuery.Graphql.Validation.Walk

/-!
Validation of a document against a schema.

Every definition is walked on its own; the variables of an operation are then checked where it uses them, also
through the fragments of the document that it reaches.
-/

namespace SiteQuery.Graphql

/-- The walked fragments of a document, by name. -/
abbrev WalkedFragments := List (String × Walk)

namespace WalkedFragments

def without (fragments : WalkedFragments) (name : String) : WalkedFragments :=
  fragments.filter (·.1 != name)

/-- The number of fragments with the spreads in them, each name once in a fragment. -/
def size : WalkedFragments → Nat
  | [] => 0
  | (_, walk) :: rest => walk.spreads.eraseDups.length + 1 + size rest

theorem size_cons (fragment : String × Walk) (rest : WalkedFragments) :
    size (fragment :: rest) = fragment.2.spreads.eraseDups.length + 1 + size rest := rfl

theorem without_cons (fragment : String × Walk) (rest : WalkedFragments) (name : String) :
    without (fragment :: rest) name = if fragment.1 = name then rest.without name else fragment :: rest.without name := by
  by_cases here : fragment.1 = name <;> simp [without, here]

theorem size_without_le (fragments : WalkedFragments) (name : String) :
    (fragments.without name).size ≤ fragments.size := by
  induction fragments with
  | nil => exact Nat.le_refl _
  | cons fragment rest ih =>
    rw [without_cons]
    by_cases here : fragment.1 = name
    · rw [if_pos here, size_cons]
      omega
    · rw [if_neg here, size_cons, size_cons]
      omega

theorem size_without_lt {fragments : WalkedFragments} {name : String} {found : String × Walk}
    (h : fragments.find? (·.1 == name) = some found) :
    (fragments.without name).size + found.2.spreads.eraseDups.length < fragments.size := by
  induction fragments with
  | nil => simp at h
  | cons fragment rest ih =>
    rw [without_cons, size_cons]
    by_cases here : fragment.1 = name
    · obtain rfl : fragment = found := by simpa [here] using h
      have := size_without_le rest name
      rw [if_pos here]
      omega
    · have := ih (by simpa [here] using h)
      rw [if_neg here, size_cons]
      omega

/-- The usages that are reached from the spreads of a stack, the last one first. A fragment is taken once. -/
def usages (fragments : WalkedFragments) (stack : List String) : List Usage :=
  match stack with
  | [] => []
  | name :: rest =>
    match _found : fragments.find? (·.1 == name) with
    | none => usages fragments rest
    | some (_, walk) =>
      walk.usages ++ usages (fragments.without name) (walk.spreads.eraseDups.reverse ++ rest)
termination_by fragments.size + stack.length
decreasing_by
  · simp
  · have := size_without_lt _found
    simp only [List.length_append, List.length_reverse, List.length_cons] at this ⊢
    omega

end WalkedFragments

namespace Walk

/-- All usages under an operation: its own, then those of the fragments that it reaches. -/
def allUsages (fragments : WalkedFragments) (walk : Walk) : List Usage :=
  walk.usages ++ fragments.usages walk.spreads.eraseDups.reverse

end Walk

/-- What has been found in the definitions so far. -/
structure Findings where
  violations : List Violation := []
  /-- The variables that each operation declares, and what was walked in it. -/
  operations : List (List Document.Variable × Walk) := []
  /-- Those that were walked last come first. -/
  fragments : WalkedFragments := []

namespace Validator

def visitAnonymous (validator : Validator) (walk : Walk) : Document.Definition → Walk
  | .operation operation =>
    if operation.name?.isNone then validator.report .anonymousOperation operation.position walk else walk
  | .fragment _ => walk

def visitDefinition (validator : Validator) (findings : Findings) : Document.Definition → Findings
  | .operation operation =>
    let walk := validator.visitOperation operation { violations := findings.violations }
    { findings with
      violations := walk.violations
      operations := findings.operations ++ [(operation.variableDefinitions, { walk with violations := [] })] }
  | .fragment fragment =>
    let walk := validator.visitFragment fragment { violations := findings.violations }
    { findings with
      violations := walk.violations
      fragments := (fragment.name, { walk with violations := [] }) :: findings.fragments }

def checkUsage (validator : Validator) (declared : List Document.Variable) (walk : Walk) (usage : Usage) : Walk :=
  match declared.find? (·.name == usage.name) with
  | none => walk
  | some definition =>
    let hasNonNullDefault := definition.default?.any (!·.value.isNull)
    if usage.expected.allows usage.hasLocationDefault definition.type hasNonNullDefault then walk
    else validator.report (.variablePosition usage.name definition.type usage.expected) usage.position walk

def checkOperation (validator : Validator) (fragments : WalkedFragments) (walk : Walk)
    (operation : List Document.Variable × Walk) : Walk :=
  (operation.2.allUsages fragments).foldl (validator.checkUsage operation.1) walk

def validate (validator : Validator) (document : Document) : List Violation :=
  let start : Walk :=
    if document.operationCount ≤ 1 then {} else document.definitions.foldl validator.visitAnonymous {}
  let findings := document.definitions.foldl validator.visitDefinition { violations := start.violations }
  let checked := findings.operations.foldl (validator.checkOperation findings.fragments)
    { violations := findings.violations }
  checked.violations

end Validator

/-- The violations of the given rules. Fragments of the document hide those of the same name elsewhere. -/
def validate (schema : Schema) (document : Document) (fragmentTypes : FragmentTypes)
    (rules : List ViolatedRule) : List Violation :=
  let validator : Validator := ⟨schema, fragmentTypes ++ FragmentTypes.ofDocument document, rules⟩
  validator.validate document

end SiteQuery.Graphql
