import SiteQuery.Proofs.Graphql.Requests

/-!
Flattening keeps what is requested.

A superfluous inline fragment asks for no more than its place: the type there satisfies the static type, which is
the only type that the fragment may name.
-/

namespace SiteQuery.Graphql

namespace Selection

/-- Selections by what is selected below them. -/
@[elab_as_elim]
theorem inside {motive : Selection → Prop}
    (field : ∀ alias? name arguments directives type selections, (∀ selection ∈ selections, motive selection) →
      motive (.field alias? name arguments directives type selections))
    (spread : ∀ name directives, motive (.spread name directives))
    (inline : ∀ condition? directives selections, (∀ selection ∈ selections, motive selection) →
      motive (.inline condition? directives selections))
    (selection : Selection) : motive selection :=
  @Selection.rec motive (fun all => ∀ selection ∈ all, motive selection)
    field spread inline (by simp) (fun _ _ first rest => List.forall_mem_cons.mpr ⟨first, rest⟩) selection

theorem flattenAll_eq (parent : String) (selections : List Selection) :
    flattenAll parent selections = selections.flatMap (flatten parent) := by
  induction selections with
  | nil => rfl
  | cons selection rest ih => simp [flattenAll, ih]

theorem mem_flattenAll {parent : String} {selections : List Selection} {flattened : Selection} :
    flattened ∈ flattenAll parent selections ↔ ∃ selection ∈ selections, flattened ∈ flatten parent selection := by
  simp [flattenAll_eq, List.mem_flatMap]

/-- A superfluous inline fragment has no directives, and its condition is that of its place. -/
theorem isSuperfluous_iff {parent : String} {condition? : Option String} {directives : List Directive} :
    isSuperfluous parent condition? directives = true ↔
      directives = [] ∧ ∀ condition, condition? = some condition → condition = parent := by
  cases condition? <;> simp [isSuperfluous]

/-- What takes the place of a selection that stays. -/
def flattenInside (parent : String) : Selection → Selection
  | field alias? name arguments directives type selections =>
    field alias? name arguments directives type (flattenAll type selections)
  | spread name directives => spread name directives
  | inline condition? directives selections =>
    inline condition? directives (flattenAll (condition?.getD parent) selections)

/-- The selection stands among the others, or within superfluous inline fragments of them. -/
inductive Exposed (parent : String) (selection : Selection) : List Selection → Prop
  | own {selections} (member : selection ∈ selections) : Exposed parent selection selections
  | within {selections condition? directives inner} (member : .inline condition? directives inner ∈ selections)
      (superfluous : isSuperfluous parent condition? directives = true)
      (exposed : Exposed parent selection inner) : Exposed parent selection selections

theorem Exposed.mono {parent : String} {selection : Selection} {selections others : List Selection}
    (exposed : Exposed parent selection selections) (included : ∀ other ∈ selections, other ∈ others) :
    Exposed parent selection others := by
  cases exposed with
  | own member => exact .own (included _ member)
  | within member superfluous exposed => exact .within (included _ member) superfluous exposed

theorem exposed_of_mem_flatten {parent : String} {selection flattened : Selection}
    (member : flattened ∈ flatten parent selection) :
    ∃ origin, Exposed parent origin [selection] ∧ flattened = origin.flattenInside parent := by
  induction selection using inside with
  | field alias? name arguments directives type selections _ =>
    simp only [flatten, List.mem_singleton] at member
    exact ⟨_, .own (List.mem_singleton_self _), member⟩
  | spread name directives =>
    simp only [flatten, List.mem_singleton] at member
    exact ⟨_, .own (List.mem_singleton_self _), member⟩
  | inline condition? directives selections ih =>
    simp only [flatten] at member
    split at member
    · rename_i superfluous
      obtain ⟨inner, inSelections, inFlatten⟩ := mem_flattenAll.mp member
      obtain ⟨origin, exposed, same⟩ := ih inner inSelections inFlatten
      refine ⟨origin, .within (List.mem_singleton_self _) superfluous (exposed.mono fun other single => ?_), same⟩
      rwa [List.mem_singleton.mp single]
    · exact ⟨_, .own (List.mem_singleton_self _), List.mem_singleton.mp member⟩

theorem exposed_of_mem_flattenAll {parent : String} {selections : List Selection} {flattened : Selection}
    (member : flattened ∈ flattenAll parent selections) :
    ∃ origin, Exposed parent origin selections ∧ flattened = origin.flattenInside parent := by
  obtain ⟨selection, inSelections, inFlatten⟩ := mem_flattenAll.mp member
  obtain ⟨origin, exposed, same⟩ := exposed_of_mem_flatten inFlatten
  refine ⟨origin, exposed.mono fun other single => ?_, same⟩
  rwa [List.mem_singleton.mp single]

theorem keyed_flatten {parent : String} {selection : Selection} (keyed : selection.Keyed) :
    ∀ flattened ∈ flatten parent selection, flattened.Keyed := by
  have below {parent : String} {selections : List Selection}
      (each : ∀ inner ∈ selections, ∀ parent, ∀ flattened ∈ flatten parent inner, flattened.Keyed) :
      ∀ flattened ∈ flattenAll parent selections, flattened.Keyed := by
    intro flattened member
    obtain ⟨inner, inSelections, inFlatten⟩ := mem_flattenAll.mp member
    exact each inner inSelections parent flattened inFlatten
  induction keyed generalizing parent with
  | field ofArguments ofDirectives _ ih =>
    intro flattened member
    cases List.mem_singleton.mp member
    exact .field ofArguments ofDirectives (below fun inner inside _ => ih inner inside)
  | spread ofDirectives =>
    intro flattened member
    cases List.mem_singleton.mp member
    exact .spread ofDirectives
  | inline ofDirectives _ ih =>
    intro flattened member
    simp only [flatten] at member
    split at member
    · exact below (fun inner inside _ => ih inner inside) flattened member
    · cases List.mem_singleton.mp member
      exact .inline ofDirectives (below fun inner inside _ => ih inner inside)

end Selection

namespace Context

theorem Keyed.flatten {context : Context} (keyed : context.Keyed) : context.flatten.Keyed := by
  intro node member
  obtain ⟨before, inNodes, rfl⟩ := List.mem_map.mp member
  intro flattened inside
  rw [Node.selections_withSelections] at inside
  obtain ⟨selection, inSelections, inFlatten⟩ := Selection.mem_flattenAll.mp inside
  exact Selection.keyed_flatten (keyed before inNodes selection inSelections) flattened inFlatten

theorem get?_map {context : Context} {f : Node → Node} (named : ∀ node, (f node).name = node.name)
    (name : String) : (context.map f).get? name = (context.get? name).map f := by
  have sameNames : ((· == name) ∘ Node.name ∘ f) = ((· == name) ∘ Node.name) := by
    funext node
    simp [named]
  simp only [get?, map, List.find?_map]
  exact congrArg (fun p => (context.nodes.find? p).map f) sameNames

theorem fragment?_map_withSelections (context : Context) (select : Node → List Selection) (name : String) :
    (context.map fun node => node.withSelections (select node)).fragment? name =
      (context.fragment? name).map fun fragment => { fragment with selections := select (.fragment fragment) } := by
  simp only [fragment?, get?_map (f := fun node => node.withSelections (select node)) (by simp)]
  cases context.get? name with
  | none => rfl
  | some node => cases node <;> rfl

theorem fragment?_flatten (context : Context) (name : String) :
    context.flatten.fragment? name = (context.fragment? name).map fun fragment =>
      { fragment with selections := Selection.flattenAll fragment.condition fragment.selections } :=
  fragment?_map_withSelections context _ name

theorem fragment?_merge (context : Context) (name : String) :
    context.merge.fragment? name = (context.fragment? name).map fun fragment =>
      { fragment with selections := Selection.merge fragment.selections } :=
  fragment?_map_withSelections context _ name

end Context

namespace Selects

open Selection

variable {Object : Type} {context : Context} {scenario : Scenario Object}

/-- Superfluous inline fragments hide nothing. -/
theorem of_exposed {parent : String} {last : Selection} {position path : List Step} {selection : Selection}
    {selections : List Selection} (exposed : Exposed parent selection selections)
    (met : scenario.Meets position parent) (selected : Selects context scenario position [selection] path last) :
    Selects context scenario position selections path last := by
  induction exposed with
  | own member => exact selected.mono fun other single => (List.mem_singleton.mp single) ▸ member
  | within member superfluous _ ih =>
    obtain ⟨noDirectives, named⟩ := isSuperfluous_iff.mp superfluous
    exact .inline member (.inl noDirectives) (fun condition given => named condition given ▸ met) ih

end Selects

theorem Scenario.Typed.exposed {Object : Type} {context : Context} {scenario : Scenario Object} {parent : String}
    {position : List Step} {selection : Selection} {selections : List Selection}
    (typed : scenario.Typed context position selections)
    (exposed : Selection.Exposed parent selection selections) (met : scenario.Meets position parent) :
    scenario.Typed context position [selection] :=
  fun path last type selected => typed path last type (.of_exposed exposed met selected)

namespace Selects

open Selection

variable {Object : Type} {context : Context} {scenario : Scenario Object}

theorem flatten {last : Selection} {position path : List Step} {selections : List Selection}
    (selected : Selects context scenario position selections path last) (parent : String) :
    ∃ flattened, Selects context.flatten scenario position (flattenAll parent selections) path flattened := by
  induction selected generalizing parent with
  | field member permitted fits =>
    exact ⟨_, .field (mem_flattenAll.mpr ⟨_, member, List.mem_singleton_self _⟩) permitted fits⟩
  | within member permitted fits _ ih =>
    obtain ⟨flattened, onward⟩ := ih _
    exact ⟨flattened, .within (mem_flattenAll.mpr ⟨_, member, List.mem_singleton_self _⟩) permitted fits onward⟩
  | @inline position selections path condition? directives inner last member permitted met _ ih =>
    by_cases superfluous : isSuperfluous parent condition? directives = true
    · obtain ⟨flattened, onward⟩ := ih parent
      refine ⟨flattened, onward.mono fun other inInner => ?_⟩
      exact mem_flattenAll.mpr ⟨_, member, by rwa [Selection.flatten, if_pos superfluous]⟩
    · have stays : .inline condition? directives (flattenAll (condition?.getD parent) inner) ∈
          flattenAll parent selections :=
        mem_flattenAll.mpr ⟨_, member, by simp [Selection.flatten, superfluous]⟩
      obtain ⟨flattened, onward⟩ := ih _
      exact ⟨flattened, .inline stays permitted met onward⟩
  | spread member permitted found met _ ih =>
    have foundAfter := context.fragment?_flatten _ ▸ congrArg (Option.map _) found
    obtain ⟨flattened, onward⟩ := ih _
    exact ⟨flattened,
      .spread (mem_flattenAll.mpr ⟨_, member, List.mem_singleton_self _⟩) permitted foundAfter met onward⟩

theorem of_flatten {last : Selection} {position path : List Step} {flattened : List Selection}
    (selected : Selects context.flatten scenario position flattened path last) {parent : String}
    {selections : List Selection} (origin : flattened = flattenAll parent selections)
    (met : scenario.Meets position parent) (typed : scenario.Typed context position selections) :
    ∃ origin, Selects context scenario position selections path origin := by
  induction selected generalizing parent selections with
  | field member permitted fits =>
    obtain ⟨source, exposed, same⟩ := exposed_of_mem_flattenAll (origin ▸ member)
    cases source with
    | field =>
      cases same
      exact ⟨_, of_exposed exposed met (.field (List.mem_singleton_self _) permitted fits)⟩
    | _ => cases same
  | within member permitted fits onward ih =>
    obtain ⟨source, exposed, same⟩ := exposed_of_mem_flattenAll (origin ▸ member)
    cases source with
    | field =>
      cases same
      have below := onward.selections_ne_nil
      rw [ne_eq, flattenAll_eq] at below
      obtain ⟨metBelow, typedBelow⟩ :=
        (typed.exposed exposed met).field (List.mem_singleton_self _) permitted fits (by rintro rfl; simp at below)
      obtain ⟨source, before⟩ := ih rfl metBelow typedBelow
      exact ⟨source, of_exposed exposed met (.within (List.mem_singleton_self _) permitted fits before)⟩
    | _ => cases same
  | @inline position _ _ condition? _ _ _ member permitted condition _ ih =>
    obtain ⟨source, exposed, same⟩ := exposed_of_mem_flattenAll (origin ▸ member)
    cases source with
    | inline =>
      cases same
      have typedBelow := (typed.exposed exposed met).inline (List.mem_singleton_self _) permitted condition
      have metBelow : scenario.Meets position (condition?.getD parent) := by
        cases condition? with
        | none => exact met
        | some narrower => exact condition narrower rfl
      obtain ⟨source, before⟩ := ih rfl metBelow typedBelow
      exact ⟨source, of_exposed exposed met (.inline (List.mem_singleton_self _) permitted condition before)⟩
    | _ => cases same
  | spread member permitted found condition _ ih =>
    obtain ⟨source, exposed, same⟩ := exposed_of_mem_flattenAll (origin ▸ member)
    cases source with
    | spread =>
      cases same
      rw [context.fragment?_flatten, Option.map_eq_some_iff] at found
      obtain ⟨fragment, foundBefore, rfl⟩ := found
      have typedBelow :=
        (typed.exposed exposed met).spread (List.mem_singleton_self _) permitted foundBefore condition
      obtain ⟨source, before⟩ := ih rfl condition typedBelow
      exact ⟨source,
        of_exposed exposed met (.spread (List.mem_singleton_self _) permitted foundBefore condition before)⟩
    | _ => cases same

end Selects

namespace Context

variable {Object : Type} {scenario : Scenario Object}

theorem get?_flatten_root {context : Context} {name : String} {root : Root}
    (found : context.get? name = some (.root root)) :
    context.flatten.get? name =
      some (.root { root with selections := Selection.flattenAll root.type root.selections }) := by
  rw [flatten, get?_map (by simp), found]
  rfl

theorem requests_flatten_iff {context : Context} {root : Root} {name : String} {path : List Step}
    (found : context.get? name = some (.root root)) (respected : scenario.Respects context root) :
    context.flatten.Requests scenario name path ↔ context.Requests scenario name path := by
  constructor
  · rintro ⟨flattened, last, foundFlattened, selected⟩
    rw [get?_flatten_root found] at foundFlattened
    cases foundFlattened
    obtain ⟨origin, before⟩ := selected.of_flatten rfl respected.1 respected.2
    exact ⟨root, origin, found, before⟩
  · rintro ⟨other, last, foundOther, selected⟩
    rw [found] at foundOther
    cases foundOther
    obtain ⟨flattened, after⟩ := selected.flatten root.type
    exact ⟨_, flattened, get?_flatten_root found, after⟩

end Context

end SiteQuery.Graphql
