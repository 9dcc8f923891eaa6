import SiteQuery.Graphql.Selection.Normal
import SiteQuery.Proofs.Graphql.Built

/-!
Which fields a root requests.

A path of fields is requested if the selections lead along it: through fields, inline fragments and spreads whose
directives hold and whose type conditions are satisfied by the concrete type at the place that was reached.
`Scenario` fixes all that a text alone leaves open.
-/

namespace SiteQuery.Graphql

/-- A field of a response with what it was asked for by. -/
structure Step where
  key : String
  name : String
  arguments : List Argument

def Step.Fits (step : Step) (alias? : Option String) (name : String) (arguments : List Argument) : Prop :=
  step.key = Selection.responseKey alias? name ∧ step.name = name ∧
    sameList Argument.same step.arguments arguments = true

/-- The type of the object at every position, the conditions that types satisfy, and which directives hold. -/
structure Scenario (Object : Type) where
  typeAt : List Step → Object
  satisfies : Object → String → Prop
  truth : List Directive → Prop
  /-- Equal lists of directives have one truth value. -/
  truth_congr : ∀ {a b : List Directive}, (∀ directive ∈ a, directive.Keyed) →
    (∀ directive ∈ b, directive.Keyed) → sameList Directive.same a b = true → (truth a ↔ truth b)

namespace Scenario

variable {Object : Type} (scenario : Scenario Object)

/-- Where no directive stands, none has to hold. -/
def Permits (directives : List Directive) : Prop := directives = [] ∨ scenario.truth directives

def Meets (position : List Step) (condition : String) : Prop :=
  scenario.satisfies (scenario.typeAt position) condition

theorem permits_of_same {a b : List Directive} (keyedA : ∀ directive ∈ a, directive.Keyed)
    (keyedB : ∀ directive ∈ b, directive.Keyed) (same : sameList Directive.same a b = true)
    (permitted : scenario.Permits a) : scenario.Permits b := by
  rcases permitted with rfl | holds
  · cases b with
    | nil => exact .inl rfl
    | cons => simp [sameList] at same
  · exact .inr ((scenario.truth_congr keyedA keyedB same).mp holds)

end Scenario

variable {Object : Type}

/-- From a position on, the selections lead along a path to a field. -/
inductive Selects (context : Context) (scenario : Scenario Object) :
    List Step → List Selection → List Step → Selection → Prop
  | field {position selections step alias? name arguments directives type inner}
      (member : .field alias? name arguments directives type inner ∈ selections)
      (permitted : scenario.Permits directives) (fits : step.Fits alias? name arguments) :
      Selects context scenario position selections [step] (.field alias? name arguments directives type inner)
  | within {position selections step rest alias? name arguments directives type inner last}
      (member : .field alias? name arguments directives type inner ∈ selections)
      (permitted : scenario.Permits directives) (fits : step.Fits alias? name arguments)
      (onward : Selects context scenario (position ++ [step]) inner rest last) :
      Selects context scenario position selections (step :: rest) last
  | inline {position selections path condition? directives inner last}
      (member : .inline condition? directives inner ∈ selections)
      (permitted : scenario.Permits directives)
      (met : ∀ condition, condition? = some condition → scenario.Meets position condition)
      (onward : Selects context scenario position inner path last) :
      Selects context scenario position selections path last
  | spread {position selections path name directives last} {fragment : Fragment}
      (member : .spread name directives ∈ selections) (permitted : scenario.Permits directives)
      (found : context.fragment? name = some fragment) (met : scenario.Meets position fragment.condition)
      (onward : Selects context scenario position fragment.selections path last) :
      Selects context scenario position selections path last

/-- The static type at the position of a field that selects something of its value. -/
def Selection.objectType? : Selection → Option String
  | field _ _ _ _ type (_ :: _) => some type
  | _ => none

/-- The type at every position that is reached from here satisfies the static type of the position. -/
def Scenario.Typed (scenario : Scenario Object) (context : Context) (position : List Step)
    (selections : List Selection) : Prop :=
  ∀ path last type, Selects context scenario position selections path last → last.objectType? = some type →
    scenario.Meets (position ++ path) type

def Scenario.Respects (scenario : Scenario Object) (context : Context) (root : Root) : Prop :=
  scenario.Meets [] root.type ∧ scenario.Typed context [] root.selections

/-- The root of a name requests the field at the end of a path. -/
def Context.Requests (context : Context) (scenario : Scenario Object) (name : String) (path : List Step) : Prop :=
  ∃ root last, context.get? name = some (.root root) ∧ Selects context scenario [] root.selections path last

namespace Selects

variable {context : Context} {scenario : Scenario Object} {position path : List Step}
  {selections others : List Selection} {last : Selection}

theorem mono (selected : Selects context scenario position selections path last)
    (included : ∀ selection ∈ selections, selection ∈ others) :
    Selects context scenario position others path last := by
  cases selected with
  | field member permitted fits => exact .field (included _ member) permitted fits
  | within member permitted fits onward => exact .within (included _ member) permitted fits onward
  | inline member permitted met onward => exact .inline (included _ member) permitted met onward
  | spread member permitted found met onward => exact .spread (included _ member) permitted found met onward

theorem selections_ne_nil (selected : Selects context scenario position selections path last) :
    selections ≠ [] := by
  rintro rfl
  cases selected <;> simp_all

/-- One of the selections leads along the path on its own. -/
theorem single (selected : Selects context scenario position selections path last) :
    ∃ selection ∈ selections, Selects context scenario position [selection] path last := by
  cases selected with
  | field member permitted fits => exact ⟨_, member, .field (List.mem_singleton_self _) permitted fits⟩
  | within member permitted fits onward => exact ⟨_, member, .within (List.mem_singleton_self _) permitted fits onward⟩
  | inline member permitted met onward => exact ⟨_, member, .inline (List.mem_singleton_self _) permitted met onward⟩
  | spread member permitted found met onward =>
    exact ⟨_, member, .spread (List.mem_singleton_self _) permitted found met onward⟩

end Selects

namespace Scenario.Typed

variable {context : Context} {scenario : Scenario Object} {position : List Step} {selections : List Selection}

theorem field (typed : scenario.Typed context position selections) {step : Step} {alias? : Option String}
    {name type : String} {arguments : List Argument} {directives : List Directive} {inner : List Selection}
    (member : .field alias? name arguments directives type inner ∈ selections)
    (permitted : scenario.Permits directives) (fits : step.Fits alias? name arguments) (below : inner ≠ []) :
    scenario.Meets (position ++ [step]) type ∧ scenario.Typed context (position ++ [step]) inner := by
  constructor
  · apply typed _ _ _ (.field member permitted fits)
    cases inner with
    | nil => exact absurd rfl below
    | cons => rfl
  · intro path last type onward object
    have met := typed _ _ _ (.within member permitted fits onward) object
    rwa [List.append_cons] at met

theorem inline (typed : scenario.Typed context position selections) {condition? : Option String}
    {directives : List Directive} {inner : List Selection}
    (member : .inline condition? directives inner ∈ selections) (permitted : scenario.Permits directives)
    (met : ∀ condition, condition? = some condition → scenario.Meets position condition) :
    scenario.Typed context position inner :=
  fun _ _ _ onward => typed _ _ _ (.inline member permitted met onward)

theorem spread (typed : scenario.Typed context position selections) {name : String}
    {directives : List Directive} {fragment : Fragment} (member : .spread name directives ∈ selections)
    (permitted : scenario.Permits directives) (found : context.fragment? name = some fragment)
    (met : scenario.Meets position fragment.condition) :
    scenario.Typed context position fragment.selections :=
  fun _ _ _ onward => typed _ _ _ (.spread member permitted found met onward)

end Scenario.Typed

end SiteQuery.Graphql
