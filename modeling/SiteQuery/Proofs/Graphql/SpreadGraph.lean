import Mathlib.Data.List.Nodup
import Mathlib.Logic.Relation
import SiteQuery.Proofs.Graphql.Spreading

/-!
What a root reaches, against the graph of spreads.

`Context.Leads` is that graph: an edge for every spread, at any depth, of a name that the context has. The search is also
run as a list that grows behind a cursor (`Search.turn`), which comes to its end after one turn for every node found.
`reachable_exact` says of every context that adding, flattening and merging lead to that the search finds the root and
the nodes reached in the graph, and nothing else.
-/

namespace SiteQuery.Graphql

/-- A fragment is spread in the selection, at any depth. -/
inductive Selection.Spreads (name : String) : Selection → Prop
  | spread {directives} : Spreads name (.spread name directives)
  | field {alias? fieldName arguments directives type selections selection} (member : selection ∈ selections)
      (below : Spreads name selection) : Spreads name (.field alias? fieldName arguments directives type selections)
  | inline {condition? directives selections selection} (member : selection ∈ selections)
      (below : Spreads name selection) : Spreads name (.inline condition? directives selections)

theorem Selection.mem_spreads_iff {name : String} (selection : Selection) :
    name ∈ selection.spreads ↔ selection.Spreads name := by
  induction selection using inside with
  | field alias? fieldName arguments directives type selections ih =>
    rw [spreads, mem_spreadsIn]
    constructor
    · rintro ⟨inner, member, spreads⟩
      exact .field member ((ih inner member).mp spreads)
    · rintro (_ | ⟨member, below⟩)
      exact ⟨_, member, (ih _ member).mpr below⟩
  | spread other directives =>
    rw [spreads, List.mem_singleton]
    constructor
    · rintro rfl
      exact .spread
    · rintro ⟨⟩
      rfl
  | inline condition? directives selections ih =>
    rw [spreads, mem_spreadsIn]
    constructor
    · rintro ⟨inner, member, spreads⟩
      exact .inline member ((ih inner member).mp spreads)
    · rintro (_ | _ | ⟨member, below⟩)
      exact ⟨_, member, (ih _ member).mpr below⟩

def Node.Spreads (node : Node) (name : String) : Prop := ∃ selection ∈ node.selections, selection.Spreads name

theorem Node.mem_spreads_iff {node : Node} {name : String} : name ∈ node.spreads ↔ node.Spreads name := by
  simp only [spreads, List.mem_eraseDups, Selection.mem_spreadsIn, Selection.mem_spreads_iff, Spreads]

namespace Context

variable {context : Context}

/-- An edge of the graph of spreads. -/
def Leads (context : Context) (node next : Node) : Prop := node.Spreads next.name ∧ next ∈ context.nodes

theorem reaches_iff_leads (distinct : context.names.Nodup) {start node : Node} :
    context.Reaches start node ↔ Relation.ReflTransGen context.Leads start node := by
  constructor
  · intro reaches
    induction reaches with
    | start => exact .refl
    | @onward before next spread _ spreads found ih =>
      obtain ⟨member, rfl⟩ := mem_of_get? found
      exact ih.tail ⟨Node.mem_spreads_iff.mp spreads, member⟩
  · intro leads
    induction leads with
    | refl => exact .start
    | tail _ edge ih => exact ih.onward (Node.mem_spreads_iff.mpr edge.1) (get?_of_mem distinct edge.2)

section Steps

/-- What is done to a context between its beginning and its printing. -/
inductive Step where
  | add (node : Node)
  | flatten
  | merge

/-- A node that is refused changes nothing. -/
def step (context : Context) : Step → Context
  | .add node => (context.add node).toOption.getD context
  | .flatten => context.flatten
  | .merge => context.merge

def ofSteps (steps : List Step) : Context := steps.foldl step {}

theorem names_map {f : Node → Node} (keeps : ∀ node, (f node).name = node.name) : (context.map f).names = context.names := by
  simp [map, names, Function.comp_def, keeps]

theorem names_nodup_step (distinct : context.names.Nodup) (step : Step) : (context.step step).names.Nodup := by
  cases step with
  | add node =>
    rw [Context.step]
    cases added : context.add node with
    | error violation => exact distinct
    | ok larger =>
      obtain ⟨fresh, rfl⟩ := add_eq_ok added
      rw [get?_eq_none] at fresh
      simpa [Except.toOption, names, List.nodup_append] using ⟨distinct, by simpa [names] using fresh⟩
  | flatten =>
    rw [Context.step, flatten, names_map fun node => Node.name_withSelections node _]
    exact distinct
  | merge =>
    rw [Context.step, merge, names_map fun node => Node.name_withSelections node _]
    exact distinct

theorem names_nodup_ofSteps (steps : List Step) : (ofSteps steps).names.Nodup := by
  have onward (context : Context) (distinct : context.names.Nodup) : (steps.foldl step context).names.Nodup := by
    induction steps generalizing context with
    | nil => exact distinct
    | cons step rest ih => exact ih _ (names_nodup_step distinct step)
  exact onward {} List.nodup_nil

end Steps

/-- The nodes found so far, and how many of them have had their turn. -/
structure Search where
  found : List Node
  turned : Nat

namespace Search

def note (context : Context) (found : List Node) (name : String) : List Node :=
  match context.get? name with
  | some node => if found.any (·.name == name) then found else found ++ [node]
  | none => found

/-- The turn of the next node; none is left at the end. -/
def turn (context : Context) (search : Search) : Option Search :=
  search.found[search.turned]?.map fun node => ⟨node.spreads.foldl (note context) search.found, search.turned + 1⟩

def run (context : Context) : Nat → Search → Search
  | 0, search => search
  | count + 1, search => ((search.turn context).map (run context count)).getD search

/-- The nodes under names that are not among those found. -/
def unseen (context : Context) (found : List Node) : List Node :=
  context.nodes.filter fun node => !found.any (·.name == node.name)

theorem find?_unseen (found : List Node) (name : String) :
    (unseen context found).find? (·.name == name) = if found.any (·.name == name) then none else context.get? name := by
  rw [unseen, Frontier.find?_filter_name fun other => !found.any (·.name == other), get?]
  cases found.any (·.name == name) <;> rfl

theorem unseen_append (found : List Node) (node : Node) :
    unseen context (found ++ [node]) = (unseen context found).filter (·.name != node.name) := by
  simp only [unseen, List.filter_filter, List.any_append, List.any_cons, List.any_nil, Bool.or_false, Bool.not_or]
  refine List.filter_congr fun other _ => ?_
  rw [Bool.and_comm, bne_comm]
  rfl

/-- A name that is noted is a name that the frontier reaches. -/
theorem note_eq_reach (distinct : context.names.Nodup) (turned queue : List Node) (name : String) :
    ∃ more, note context (turned ++ queue) name = turned ++ more ∧
      Frontier.reach ⟨unseen context (turned ++ queue), queue⟩ name = ⟨unseen context (turned ++ more), more⟩ := by
  have isUnseen := @find?_unseen context (turned ++ queue) name
  cases seen : (turned ++ queue).any (·.name == name) with
  | true =>
    rw [seen, if_pos rfl] at isUnseen
    refine ⟨queue, ?_, by rw [Frontier.reach, isUnseen]⟩
    cases found : context.get? name <;> simp [note, found, seen]
  | false =>
    rw [seen, if_neg Bool.false_ne_true] at isUnseen
    cases found : context.get? name with
    | none =>
      rw [found] at isUnseen
      exact ⟨queue, by rw [note, found], by rw [Frontier.reach, isUnseen]⟩
    | some node =>
      have stillDistinct : ((unseen context (turned ++ queue)).map Node.name).Nodup :=
        distinct.sublist (List.filter_sublist.map Node.name)
      refine ⟨queue ++ [node], ?_, ?_⟩
      · simp [note, found, seen]
      · rw [Frontier.reach_eq stillDistinct, isUnseen, found, ← List.append_assoc, unseen_append, (mem_of_get? found).2]
        rfl

theorem foldl_note_eq_foldl_reach (distinct : context.names.Nodup) (turned : List Node) (names : List String)
    (queue : List Node) :
    ∃ more, names.foldl (note context) (turned ++ queue) = turned ++ more ∧
      names.foldl Frontier.reach ⟨unseen context (turned ++ queue), queue⟩ = ⟨unseen context (turned ++ more), more⟩ := by
  induction names generalizing queue with
  | nil => exact ⟨queue, rfl, rfl⟩
  | cons name rest ih =>
    obtain ⟨more, isNoted, isReached⟩ := note_eq_reach distinct turned queue name
    rw [List.foldl_cons, List.foldl_cons, isNoted, isReached]
    exact ih more

/-- The nodes behind the cursor have had their turn, the others wait as in the frontier, and the search ends when none is
left to wait. -/
theorem run_eq_collect (distinct : context.names.Nodup) {frontier : Frontier} {turned : List Node}
    (isFrontier : frontier.unseen = unseen context (turned ++ frontier.queue)) :
    run context frontier.collect.length ⟨turned ++ frontier.queue, turned.length⟩ =
      ⟨turned ++ frontier.collect, (turned ++ frontier.collect).length⟩ := by
  induction frontier using Frontier.collect.induct generalizing turned with
  | case1 frontier empty =>
    rw [Frontier.collect_nil empty, empty, List.append_nil]
    rfl
  | case2 frontier node rest waiting ih =>
    rw [waiting, List.append_cons] at isFrontier
    obtain ⟨more, isNoted, isReached⟩ := foldl_note_eq_foldl_reach distinct (turned ++ [node]) node.spreads rest
    rw [Frontier.collect_cons waiting, waiting]
    rw [isFrontier, isReached] at ih ⊢
    have turns : turn context ⟨turned ++ node :: rest, turned.length⟩ = some ⟨turned ++ [node] ++ more, turned.length + 1⟩ := by
      have isNext : (turned ++ node :: rest)[turned.length]? = some node := by simp
      rw [turn, isNext, Option.map_some, List.append_cons, isNoted]
    have others := @ih (turned ++ [node]) rfl
    rw [List.length_append, List.length_singleton] at others
    rw [List.length_cons, run, turns, Option.map_some, Option.getD_some, others, List.append_assoc]
    rfl

/-- A search of a root is over once every node that it has found has had its turn. -/
theorem run_eq_reachable (distinct : context.names.Nodup) {name : String} {root : Root} {nodes : List Node}
    (found : context.get? name = some (.root root)) (reached : context.reachable name = some nodes) :
    run context nodes.length ⟨[.root root], 0⟩ = ⟨nodes, nodes.length⟩ := by
  rw [reachable_of_root found, Option.some.injEq] at reached
  subst reached
  have isName : (Node.root root).name = name := (mem_of_get? found).2
  have isFrontier : context.nodes.filter (·.name != name) = unseen context ([] ++ [.root root]) := by
    simp only [unseen, List.nil_append, List.any_cons, List.any_nil, Bool.or_false, isName]
    exact List.filter_congr fun node _ => bne_comm
  exact @run_eq_collect context distinct ⟨context.nodes.filter (·.name != name), [.root root]⟩ [] isFrontier

theorem turn_eq_none {search : Search} (ended : search.found.length ≤ search.turned) : search.turn context = none := by
  rw [turn, List.getElem?_eq_none ended, Option.map_none]

end Search

theorem reachable_eq_none_iff (distinct : context.names.Nodup) {name : String} :
    context.reachable name = none ↔ ∀ root, .root root ∈ context.nodes → root.name ≠ name := by
  constructor
  · intro missing root member isName
    obtain ⟨nodes, reached⟩ := exists_reachable distinct member
    rw [isName, missing] at reached
    cases reached
  · intro none
    cases reached : context.reachable name with
    | none => rfl
    | some nodes =>
      obtain ⟨root, found, _⟩ := reachable_eq_some reached
      obtain ⟨member, isName⟩ := mem_of_get? found
      exact absurd isName (none root member)

/-- For every context that steps lead to, and every name: no root, no result; otherwise the search, as a list that grows
behind a cursor, is over after a turn for each node found, no more than the context has, and has found the root, first,
and every other node that spreads lead to from it, each once. -/
theorem reachable_exact (steps : List Step) (name : String) :
    ((ofSteps steps).reachable name = none ↔ ∀ root, .root root ∈ (ofSteps steps).nodes → root.name ≠ name) ∧
      ∀ root, .root root ∈ (ofSteps steps).nodes → root.name = name → ∃ others,
        (ofSteps steps).reachable name = some (.root root :: others) ∧
        Search.run (ofSteps steps) (others.length + 1) ⟨[.root root], 0⟩ = ⟨.root root :: others, others.length + 1⟩ ∧
        Search.turn (ofSteps steps) ⟨.root root :: others, others.length + 1⟩ = none ∧
        others.length + 1 ≤ (ofSteps steps).nodes.length ∧
        ((Node.root root :: others).map Node.name).Nodup ∧
        ∀ node, node ∈ others ↔ node ≠ .root root ∧ Relation.ReflTransGen (ofSteps steps).Leads (.root root) node := by
  have distinct := names_nodup_ofSteps steps
  refine ⟨reachable_eq_none_iff distinct, ?_⟩
  rintro root member rfl
  have found : (ofSteps steps).get? root.name = some (.root root) := get?_of_mem distinct member
  obtain ⟨others, reached⟩ := exists_reachable_cons found
  have once := reachable_nodup distinct reached
  have isNode : (Node.root root :: others).Nodup := List.Nodup.of_map Node.name once
  have bounded := (isNode.subperm (reachable_subset reached)).length_le
  refine ⟨others, reached, Search.run_eq_reachable distinct found reached, Search.turn_eq_none (Nat.le_refl _), bounded, once, ?_⟩
  intro node
  rw [← reaches_iff_leads distinct, ← mem_reachable_iff distinct found reached, List.mem_cons]
  have notRoot : .root root ∉ others := (List.nodup_cons.mp isNode).1
  constructor
  · intro isOther
    exact ⟨fun isRoot => notRoot (isRoot ▸ isOther), .inr isOther⟩
  · rintro ⟨other, isRoot | isOther⟩
    · exact absurd isRoot other
    · exact isOther

/-- A root whose spreads go in a circle, to itself, to another root and to nowhere. -/
def circularSteps : List Step :=
  let page : Selection := .inline none [] [.spread "Title" [], .field none "site" [] [] "Site" [.spread "Missing" []]]
  let title : Selection := .field none "title" [] [] "Title" [.spread "Page" [], .spread "Title" [], .spread "Other" []]
  [.add (.root ⟨"Page", .query, "Query", [], [], [page]⟩), .add (.fragment ⟨"Unused", "Query", [], [.spread "Title" []]⟩),
    .add (.fragment ⟨"Title", "Query", [], [title, title]⟩), .add (.root ⟨"Title", .query, "Query", [], [], []⟩),
    .add (.root ⟨"Other", .query, "Query", [], [], [.spread "Title" []]⟩), .flatten, .merge]

theorem reachable_circularSteps : ∃ root others, .root root ∈ (ofSteps circularSteps).nodes ∧ root.name = "Page" ∧
    (ofSteps circularSteps).reachable "Page" = some (.root root :: others) ∧
    (Node.root root :: others).map Node.name = ["Page", "Title", "Other"] ∧
    ∀ node, node ∈ others ↔ node ≠ .root root ∧ Relation.ReflTransGen (ofSteps circularSteps).Leads (.root root) node := by
  have names : ((ofSteps circularSteps).reachable "Page").map (·.map Node.name) = some ["Page", "Title", "Other"] := by
    decide +kernel
  obtain ⟨noRoot, ofRoot⟩ := reachable_exact circularSteps "Page"
  obtain ⟨nodes, reached, areNames⟩ := Option.map_eq_some_iff.mp names
  obtain ⟨root, found, _⟩ := reachable_eq_some reached
  obtain ⟨member, isName⟩ := mem_of_get? found
  obtain ⟨others, isReached, _, _, _, _, exact⟩ := ofRoot root member isName
  rw [reached, Option.some.injEq] at isReached
  subst isReached
  exact ⟨root, others, member, isName, reached, areNames, exact⟩

end Context

end SiteQuery.Graphql
