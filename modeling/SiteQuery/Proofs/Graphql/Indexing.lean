import SiteQuery.Graphql.IndexedContext
import SiteQuery.Proofs.Graphql.SpreadGraph

/-!
The index of a context.

`IsIndexed` says that index and nodes fit together: a name leads to a place exactly if it stands there. A definition that is
added keeps this, as does one that is refused and every change of the nodes that keeps their names. `exact_ofSteps` says
of every run what the context finds, holds, accepts and refuses, and that without the index it is the context of this run.
-/

namespace SiteQuery.Graphql.IndexedContext

def names (context : IndexedContext) : List String := context.nodes.map Node.name

def IsIndexed (context : IndexedContext) : Prop :=
  ∀ name place, context.index.lookup name = some place ↔ context.names[place]? = some name

/-- The context with one more definition. -/
def append (context : IndexedContext) (node : Node) : IndexedContext :=
  ⟨context.nodes ++ [node], (node.name, context.nodes.length) :: context.index⟩

variable {context : IndexedContext} {name : String} {node : Node}

theorem names_append : (context.append node).names = context.names ++ [node.name] := by
  simp [names, append]

theorem names_map {f : Node → Node} (keeps : ∀ node, (f node).name = node.name) : (context.map f).names = context.names := by
  simp [names, map, Function.comp_def, keeps]

namespace IsIndexed

theorem place_lt (indexed : context.IsIndexed) {place : Nat} (known : context.index.lookup name = some place) :
    place < context.nodes.length := by
  obtain ⟨bound, _⟩ := List.getElem?_eq_some_iff.mp ((indexed name place).mp known)
  simpa [names] using bound

theorem exists_place (indexed : context.IsIndexed) :
    (∃ place, context.index.lookup name = some place) ↔ name ∈ context.names := by
  simp only [indexed name, List.mem_iff_getElem?]

/-- The index gives a name one place only. -/
theorem names_nodup (indexed : context.IsIndexed) : context.names.Nodup := by
  rw [List.nodup_iff_getElem?_ne_getElem?]
  intro first second less bound same
  have atSecond : context.names[second]? = some context.names[second] := List.getElem?_eq_getElem bound
  have toFirst := (indexed _ first).mpr (same.trans atSecond)
  have toSecond := (indexed _ second).mpr atSecond
  rw [toFirst, Option.some.injEq] at toSecond
  omega

theorem lookup_of_mem (indexed : context.IsIndexed) (member : node ∈ context.nodes) :
    context.lookup node.name = some (some node) := by
  obtain ⟨place, isPlace⟩ := List.mem_iff_getElem?.mp member
  have known : context.index.lookup node.name = some place := by
    rw [indexed, names, List.getElem?_map, isPlace, Option.map_some]
  rw [lookup, known, Option.map_some, isPlace]

theorem lookup_of_not_mem (indexed : context.IsIndexed) (other : name ∉ context.names) : context.lookup name = none := by
  cases known : context.index.lookup name with
  | none => rw [lookup, known, Option.map_none]
  | some place => exact absurd (indexed.exists_place.mp ⟨place, known⟩) other

theorem exists_found (indexed : context.IsIndexed) (known : name ∈ context.names) :
    ∃ node, context.lookup name = some (some node) ∧ context.withoutIndex.get? name = some node := by
  obtain ⟨node, member, rfl⟩ := List.mem_map.mp known
  exact ⟨node, indexed.lookup_of_mem member, Context.get?_of_mem indexed.names_nodup member⟩

/-- The index finds what a search among the nodes finds. -/
theorem get?_eq (indexed : context.IsIndexed) (name : String) : context.get? name = context.withoutIndex.get? name := by
  by_cases known : name ∈ context.names
  · obtain ⟨node, isFound, searched⟩ := indexed.exists_found known
    rw [get?, isFound, searched]
    rfl
  · have searched : context.withoutIndex.get? name = none := Context.get?_eq_none.mpr known
    rw [get?, indexed.lookup_of_not_mem known, searched]
    rfl

theorem empty : IsIndexed {} := by
  intro name place
  simp [names]

theorem append (indexed : context.IsIndexed) (fresh : node.name ∉ context.names) : (context.append node).IsIndexed := by
  intro name place
  have known := indexed name place
  have atEnd : context.names.length = context.nodes.length := List.length_map _
  rw [names_append, IndexedContext.append, List.lookup_cons, List.getElem?_append, atEnd]
  by_cases isNew : name = node.name
  · subst isNew
    have notBefore : context.names[place]? ≠ some node.name := fun found => fresh (List.mem_of_getElem? found)
    simp only [beq_self_eq_true, Option.some.injEq]
    split
    · simp only [notBefore, iff_false]
      omega
    · rw [List.getElem?_singleton]
      split <;> simp <;> omega
  · have notLast : ¬ ([node.name][place - context.nodes.length]? = some name) := by
      rw [List.getElem?_singleton]
      split <;> simp [Ne.symm isNew]
    simp only [beq_eq_false_iff_ne.mpr isNew, known]
    split
    · rfl
    · rename_i behind
      simp only [notLast, iff_false]
      rw [List.getElem?_eq_none (by omega)]
      nofun

/-- The index is for names, so it fits all nodes with the names in their order. -/
theorem map (indexed : context.IsIndexed) {f : Node → Node} (keeps : ∀ node, (f node).name = node.name) :
    (context.map f).IsIndexed := by
  intro name place
  rw [names_map keeps]
  exact indexed name place

end IsIndexed

theorem tryAdd_eq (context : IndexedContext) (node : Node) : context.tryAdd node =
    if (context.index.lookup node.name).isSome then (.error ⟨.duplicateDefinition node.name, none⟩, context)
    else (.ok (), context.append node) := by
  -- the state is read before anything else
  change (if (context.index.lookup node.name).isSome then _ else _ : ExceptT Violation (StateM IndexedContext) Unit).run.run
    context = _
  split <;> rfl

section Add

variable {violation : Violation} {after : IndexedContext}

theorem IsIndexed.tryAdd_eq (indexed : context.IsIndexed) (node : Node) : context.tryAdd node =
    if node.name ∈ context.names then (.error ⟨.duplicateDefinition node.name, none⟩, context)
    else (.ok (), context.append node) := by
  rw [IndexedContext.tryAdd_eq]
  exact if_congr (Option.isSome_iff_exists.trans indexed.exists_place) rfl rfl

theorem IsIndexed.refused_iff (indexed : context.IsIndexed) : context.tryAdd node = (.error violation, after) ↔
    node.name ∈ context.names ∧ violation = ⟨.duplicateDefinition node.name, none⟩ ∧ after = context := by
  rw [indexed.tryAdd_eq]
  split <;> simp_all [eq_comm]

theorem IsIndexed.accepted_iff (indexed : context.IsIndexed) : context.tryAdd node = (.ok (), after) ↔
    node.name ∉ context.names ∧ after = context.append node := by
  rw [indexed.tryAdd_eq]
  split <;> simp_all [eq_comm]

end Add

section Steps

def step (context : IndexedContext) : Context.Step → IndexedContext
  | .add node => (context.tryAdd node).2
  | .flatten => context.flatten
  | .merge => context.merge

def ofSteps (steps : List Context.Step) : IndexedContext := steps.foldl step {}

/-- The definition that a step adds, unless it is refused. -/
def accepted? (context : IndexedContext) : Context.Step → Option Node
  | .add node =>
    match context.tryAdd node with
    | (.ok _, _) => some node
    | (.error _, _) => none
  | _ => none

/-- What a step makes of a definition that is there already. -/
def transformed (node : Node) : Context.Step → Node
  | .add _ => node
  | .flatten => node.flattened
  | .merge => node.merged

/-- The definitions that a run accepts, in the order of the run, each as the later steps leave it. -/
def accepted (context : IndexedContext) : List Context.Step → List Node
  | [] => []
  | step :: later =>
    (context.accepted? step).toList.map (later.foldl transformed) ++ accepted (context.step step) later

theorem name_transformed (node : Node) (step : Context.Step) : (transformed node step).name = node.name := by
  cases step with
  | add => rfl
  | flatten => exact Node.name_withSelections node _
  | merge => exact Node.name_withSelections node _

theorem IsIndexed.step (indexed : context.IsIndexed) (step : Context.Step) : (context.step step).IsIndexed := by
  cases step with
  | add node =>
    rw [IndexedContext.step, indexed.tryAdd_eq]
    split
    · exact indexed
    · exact indexed.append ‹_›
  | flatten => exact indexed.map fun node => name_transformed node .flatten
  | merge => exact indexed.map fun node => name_transformed node .merge

/-- A step leaves the definitions that were there, transformed, and puts the one that it adds behind them. -/
theorem nodes_step (context : IndexedContext) (step : Context.Step) : (context.step step).nodes =
    context.nodes.map (transformed · step) ++ (context.accepted? step).toList := by
  cases step with
  | add node =>
    rw [IndexedContext.step, accepted?, tryAdd_eq]
    split <;> simp [transformed, append]
  | flatten => simp [IndexedContext.step, accepted?, flatten, map, transformed]
  | merge => simp [IndexedContext.step, accepted?, merge, map, transformed]

theorem nodes_foldl_step (context : IndexedContext) (steps : List Context.Step) : (steps.foldl step context).nodes =
    context.nodes.map (steps.foldl transformed) ++ accepted context steps := by
  induction steps generalizing context with
  | nil => simp [accepted]
  | cons step rest ih =>
    rw [List.foldl_cons, ih, nodes_step, accepted, List.map_append, List.map_map, List.append_assoc]
    rfl

/-- Without the index, a step is that of a context. -/
theorem IsIndexed.withoutIndex_step (indexed : context.IsIndexed) (step : Context.Step) :
    (context.step step).withoutIndex = context.withoutIndex.step step := by
  cases step with
  | add node =>
    rw [IndexedContext.step, indexed.tryAdd_eq, Context.step, Context.add]
    by_cases known : node.name ∈ context.names
    · obtain ⟨other, -, searched⟩ := indexed.exists_found known
      rw [if_pos known, searched]
      rfl
    · have searched : context.withoutIndex.get? node.name = none := Context.get?_eq_none.mpr known
      rw [if_neg known, searched]
      rfl
  | flatten => rfl
  | merge => rfl

theorem IsIndexed.foldl_step (indexed : context.IsIndexed) (steps : List Context.Step) :
    (steps.foldl IndexedContext.step context).IsIndexed ∧
      (steps.foldl IndexedContext.step context).withoutIndex = steps.foldl Context.step context.withoutIndex := by
  induction steps generalizing context with
  | nil => exact ⟨indexed, rfl⟩
  | cons step rest ih =>
    obtain ⟨stays, same⟩ := ih (indexed.step step)
    rw [indexed.withoutIndex_step] at same
    exact ⟨stays, same⟩

theorem isIndexed_ofSteps (steps : List Context.Step) : (ofSteps steps).IsIndexed := (IsIndexed.empty.foldl_step steps).1

theorem withoutIndex_ofSteps (steps : List Context.Step) : (ofSteps steps).withoutIndex = Context.ofSteps steps :=
  (IsIndexed.empty.foldl_step steps).2

end Steps

/-- What a run of steps leads to, and what is done to it next. -/
structure IsExact (steps : List Context.Step) (context : IndexedContext) : Prop where
  distinct : context.names.Nodup
  /-- A name of the index leads to no place behind the last node. -/
  inside : ∀ name place, context.index.lookup name = some place → place < context.nodes.length
  found : ∀ node ∈ context.nodes, context.lookup node.name = some (some node)
  missing : ∀ name, name ∉ context.names → context.lookup name = none
  /-- The nodes are the definitions that were accepted, in this order. -/
  nodes : context.nodes = accepted {} steps
  accepts : ∀ node after, context.tryAdd node = (.ok (), after) ↔ node.name ∉ context.names ∧ after = context.append node
  /-- What is refused changes neither the nodes nor the index. -/
  refuses : ∀ node violation after, context.tryAdd node = (.error violation, after) ↔
    node.name ∈ context.names ∧ violation = ⟨.duplicateDefinition node.name, none⟩ ∧ after = context
  flatten : context.flatten.names = context.names
  merge : context.merge.names = context.names
  normalize : context.normalize.names = context.names
  withoutIndex : context.withoutIndex = Context.ofSteps steps
  get? : ∀ name, context.get? name = (Context.ofSteps steps).get? name

theorem exact_ofSteps (steps : List Context.Step) : IsExact steps (ofSteps steps) where
  distinct := (isIndexed_ofSteps steps).names_nodup
  inside _ _ known := (isIndexed_ofSteps steps).place_lt known
  found _ member := (isIndexed_ofSteps steps).lookup_of_mem member
  missing _ other := (isIndexed_ofSteps steps).lookup_of_not_mem other
  nodes := by
    rw [ofSteps, nodes_foldl_step]
    rfl
  accepts _ _ := (isIndexed_ofSteps steps).accepted_iff
  refuses _ _ _ := (isIndexed_ofSteps steps).refused_iff
  flatten := names_map fun node => name_transformed node .flatten
  merge := names_map fun node => name_transformed node .merge
  normalize := (names_map fun node => name_transformed node .merge).trans (names_map fun node => name_transformed node .flatten)
  withoutIndex := withoutIndex_ofSteps steps
  get? name := by rw [(isIndexed_ofSteps steps).get?_eq, withoutIndex_ofSteps]

/-- A name that is taken is refused for a node of the other kind too. -/
example :
    let steps : List Context.Step := [.add (.root ⟨"A", .query, "Query", [], [], [.spread "B" [], .spread "B" []]⟩), .flatten,
      .add (.fragment ⟨"A", "Query", [], []⟩), .add (.fragment ⟨"B", "Query", [], []⟩), .merge]
    (ofSteps steps).index = [("B", 1), ("A", 0)] ∧ (ofSteps steps).names = ["A", "B"] ∧
      (ofSteps steps).nodes.map (·.selections.length) = [1, 0] := by
  decide +kernel

end SiteQuery.Graphql.IndexedContext
