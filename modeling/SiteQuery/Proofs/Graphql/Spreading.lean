import SiteQuery.Graphql.Node.Text
import SiteQuery.Proofs.Graphql.Merging
import SiteQuery.Proofs.Graphql.Reached

/-!
Normal forms spread what was spread before.

Flattening moves selections and merging drops those that repeat others, so the order of spreads may change, but not
which names are spread: `reaches_normalize_iff` says that nodes reach each other exactly as they did.
-/

namespace SiteQuery.Graphql

namespace Selection

variable {name : String}

theorem mem_spreadsIn {selections : List Selection} :
    name ∈ spreadsIn selections ↔ ∃ selection ∈ selections, name ∈ selection.spreads := by
  induction selections with
  | nil => simp [spreadsIn]
  | cons first rest ih => simp [spreadsIn, ih]

theorem spreadsIn_append (selections others : List Selection) :
    spreadsIn (selections ++ others) = spreadsIn selections ++ spreadsIn others := by
  induction selections with
  | nil => rfl
  | cons first rest ih => simp [spreadsIn, ih]

theorem spreadsIn_flattenAll_of_each {selections : List Selection}
    (each : ∀ selection ∈ selections, ∀ parent, spreadsIn (flatten parent selection) = selection.spreads)
    (parent : String) : spreadsIn (flattenAll parent selections) = spreadsIn selections := by
  induction selections with
  | nil => rfl
  | cons first rest ih =>
    obtain ⟨ofFirst, ofRest⟩ := List.forall_mem_cons.mp each
    rw [flattenAll, spreadsIn_append, ofFirst, ih ofRest, spreadsIn]

theorem spreadsIn_flatten (parent : String) (selection : Selection) :
    spreadsIn (flatten parent selection) = selection.spreads := by
  induction selection using inside generalizing parent with
  | field alias? name arguments directives type selections ih =>
    simp [flatten, spreadsIn, spreads, spreadsIn_flattenAll_of_each ih]
  | spread name directives => simp [flatten, spreadsIn, spreads]
  | inline condition? directives selections ih =>
    rw [flatten]
    split
    · simp [spreads, spreadsIn_flattenAll_of_each ih]
    · simp [spreadsIn, spreads, spreadsIn_flattenAll_of_each ih]

theorem spreadsIn_flattenAll (parent : String) (selections : List Selection) :
    spreadsIn (flattenAll parent selections) = spreadsIn selections :=
  spreadsIn_flattenAll_of_each (fun selection _ parent => spreadsIn_flatten parent selection) parent

/-- A selection with others below it spreads as much, where those spread as much. -/
theorem mem_spreads_withSelections {selection : Selection} {inner : List Selection}
    (below : name ∈ spreadsIn inner ↔ name ∈ spreadsIn selection.selections) :
    name ∈ (selection.withSelections inner).spreads ↔ name ∈ selection.spreads := by
  cases selection with
  | field => exact below
  | spread => exact Iff.rfl
  | inline => exact below

theorem mem_spreads_joined {first other : Selection} (same : samePlace first other = true) :
    name ∈ (first.withSelections (first.selections ++ other.selections)).spreads ↔
      name ∈ first.spreads ∨ name ∈ other.spreads := by
  cases first with
  | field =>
    obtain ⟨_, _, _, _, _, rfl, _⟩ := samePlace_field same
    simp [withSelections, selections, spreads, spreadsIn_append]
  | spread =>
    obtain ⟨_, rfl, _⟩ := samePlace_spread same
    simp [withSelections, spreads]
  | inline =>
    obtain ⟨_, _, rfl, _⟩ := samePlace_inline same
    simp [withSelections, selections, spreads, spreadsIn_append]

theorem mem_spreadsIn_join (kept : List Selection) (selection : Selection) :
    name ∈ spreadsIn (join kept selection) ↔ name ∈ spreadsIn kept ∨ name ∈ selection.spreads := by
  rcases join_cases kept selection with last | ⟨before, first, after, rfl, same, joined⟩
  · simp [last, spreadsIn_append, spreadsIn]
  · simp only [joined, spreadsIn_append, spreadsIn, List.mem_append, mem_spreads_joined same]
    tauto

theorem mem_spreadsIn_foldl_join (kept all : List Selection) :
    name ∈ spreadsIn (all.foldl join kept) ↔ name ∈ spreadsIn kept ∨ name ∈ spreadsIn all := by
  induction all generalizing kept with
  | nil => simp [spreadsIn]
  | cons first rest ih => simp [ih, mem_spreadsIn_join, spreadsIn, or_assoc]

theorem mem_spreadsIn_merge (all : List Selection) : name ∈ spreadsIn (merge all) ↔ name ∈ spreadsIn all := by
  induction all using merge.induct with
  | case1 all ih =>
    have ofKept : name ∈ spreadsIn (merge all) ↔ name ∈ spreadsIn (all.foldl join []) := by
      simp only [mem_spreadsIn, mem_merge]
      constructor
      · rintro ⟨_, ⟨first, inKept, rfl⟩, spread⟩
        exact ⟨first, inKept, (mem_spreads_withSelections (ih first inKept)).mp spread⟩
      · rintro ⟨first, inKept, spread⟩
        exact ⟨_, ⟨first, inKept, rfl⟩, (mem_spreads_withSelections (ih first inKept)).mpr spread⟩
    rw [ofKept, mem_spreadsIn_foldl_join]
    simp [spreadsIn]

end Selection

/-- The form in which the node is printed. -/
def Node.normal (node : Node) : Node :=
  node.withSelections (Selection.merge (Selection.flattenAll node.type node.selections))

@[simp] theorem Node.name_normal (node : Node) : node.normal.name = node.name := Node.name_withSelections node _

theorem Node.mem_spreads_normal (node : Node) {name : String} : name ∈ node.normal.spreads ↔ name ∈ node.spreads := by
  simp only [spreads, normal, selections_withSelections, List.mem_eraseDups, Selection.mem_spreadsIn_merge,
    Selection.spreadsIn_flattenAll]

namespace Context

theorem normalize_eq_map (context : Context) : context.normalize = context.map Node.normal := by
  simp only [normalize, flatten, merge, map, List.map_map, Context.mk.injEq]
  refine List.map_congr_left fun node _ => ?_
  cases node <;> rfl

theorem names_normalize (context : Context) : context.normalize.names = context.names := by
  simp [normalize_eq_map, names, map, Function.comp_def]

theorem get?_normalize (context : Context) (name : String) :
    context.normalize.get? name = (context.get? name).map Node.normal := by
  rw [normalize_eq_map, get?_map Node.name_normal]

theorem get?_normalize_root {context : Context} (distinct : context.names.Nodup) {root : Root}
    (isRoot : .root root ∈ context.nodes) : context.normalize.get? root.name = some (Node.root root).normal := by
  rw [get?_normalize]
  exact congrArg (Option.map Node.normal) (get?_of_mem distinct isRoot)

/-- What is reached in the normal form is what is reached, each in its normal form. -/
theorem reaches_normalize_iff {context : Context} (start : Node) {normal : Node} :
    context.normalize.Reaches start.normal normal ↔ ∃ node, context.Reaches start node ∧ normal = node.normal := by
  constructor
  · intro reaches
    induction reaches with
    | start => exact ⟨start, .start, rfl⟩
    | onward _ spreads found ih =>
      obtain ⟨node, reached, rfl⟩ := ih
      rw [get?_normalize, Option.map_eq_some_iff] at found
      obtain ⟨next, isNext, rfl⟩ := found
      exact ⟨next, .onward reached (node.mem_spreads_normal.mp spreads) isNext, rfl⟩
  · rintro ⟨node, reaches, rfl⟩
    induction reaches with
    | start => exact .start
    | onward _ spreads found ih =>
      exact .onward ih (Node.mem_spreads_normal _ |>.mpr spreads) (by rw [get?_normalize, found]; rfl)

/-- A root is printed alike in two contexts that agree on all that is spread in what it reaches. -/
theorem rootText?_normalize_congr {first second : Context} (distinct : first.names.Nodup)
    (otherDistinct : second.names.Nodup) {root : Root} (isRoot : .root root ∈ first.nodes)
    (otherIsRoot : .root root ∈ second.nodes)
    (agree : ∀ node, first.Reaches (.root root) node → ∀ spread ∈ node.spreads, first.get? spread = second.get? spread) :
    first.normalize.rootText? root.name = second.normalize.rootText? root.name := by
  have sameReached : first.normalize.reachable root.name = second.normalize.reachable root.name := by
    refine reachable_congr (names_normalize first ▸ distinct) (names_normalize second ▸ otherDistinct)
      (get?_normalize_root distinct isRoot) (get?_normalize_root otherDistinct otherIsRoot)
      fun normal reaches spread spreads => ?_
    obtain ⟨node, reached, rfl⟩ := (reaches_normalize_iff (.root root)).mp reaches
    rw [get?_normalize, get?_normalize, agree node reached spread (node.mem_spreads_normal.mp spreads)]
  rw [rootText?, rootText?, sameReached]

theorem exists_fragment_of_known {context : Context} (known : context.unknownFragments = []) {node : Node}
    (member : node ∈ context.nodes) {name : String} (spreads : name ∈ node.spreads) :
    ∃ fragment, context.get? name = some (.fragment fragment) := by
  have notUnknown := List.flatMap_eq_nil_iff.mp known node member
  rw [List.map_eq_nil_iff, List.filter_eq_nil_iff] at notUnknown
  cases found : context.fragment? name with
  | none => exact absurd (by rw [found]; rfl) (notUnknown name spreads)
  | some fragment => exact ⟨fragment, get?_of_fragment? found⟩

/-- Where every spread is of a fragment, nothing but fragments is reached besides the start. -/
theorem Reaches.cases_of_known {context : Context} (known : context.unknownFragments = []) {start node : Node}
    (isNode : start ∈ context.nodes) (reaches : context.Reaches start node) :
    node ∈ context.nodes ∧ (node = start ∨ ∃ fragment, node = .fragment fragment) := by
  induction reaches with
  | start => exact ⟨isNode, .inl rfl⟩
  | onward _ spreads found ih =>
    obtain ⟨fragment, isFragment⟩ := exists_fragment_of_known known ih.1 spreads
    cases found.symm.trans isFragment
    exact ⟨(mem_of_get? found).1, .inr ⟨fragment, rfl⟩⟩

theorem Reaches.exists_fragment {context : Context} (known : context.unknownFragments = []) {start node : Node}
    (isNode : start ∈ context.nodes) (reaches : context.Reaches start node) {name : String}
    (spreads : name ∈ node.spreads) :
    ∃ fragment, context.get? name = some (.fragment fragment) ∧ context.Reaches start (.fragment fragment) := by
  obtain ⟨fragment, found⟩ := exists_fragment_of_known known (reaches.cases_of_known known isNode).1 spreads
  exact ⟨fragment, found, reaches.onward spreads found⟩

/-- The normal form of a root reaches itself, first, and the normal forms of the fragments that the root reaches. -/
theorem exists_reachable_normalize {context : Context} (distinct : context.names.Nodup)
    (known : context.unknownFragments = []) {root : Root} (isRoot : .root root ∈ context.nodes) :
    ∃ fragments : List Fragment,
      context.normalize.reachable root.name =
        some ((Node.root root :: fragments.map Node.fragment).map Node.normal) ∧
      (root.name :: fragments.map Fragment.name).Nodup ∧
      ∀ fragment, fragment ∈ fragments ↔ context.Reaches (.root root) (.fragment fragment) := by
  have normalDistinct : context.normalize.names.Nodup := names_normalize context ▸ distinct
  have isNormal := get?_normalize_root distinct isRoot
  obtain ⟨others, reached⟩ := exists_reachable_cons isNormal
  have once := reachable_nodup normalDistinct reached
  have reachedIff (node : Node) :
      node ∈ (Node.root root).normal :: others ↔ ∃ before, context.Reaches (.root root) before ∧ node = before.normal := by
    rw [← reaches_normalize_iff]
    exact mem_reachable_iff normalDistinct isNormal reached
  -- the root is there already, so the others are normal forms of fragments
  have eachFragment : ∀ other ∈ others, ∃ fragment, context.Reaches (.root root) (.fragment fragment) ∧
      (Node.fragment fragment).normal = other := by
    intro other member
    obtain ⟨before, reaches, rfl⟩ := (reachedIff other).mp (List.mem_cons_of_mem _ member)
    obtain ⟨-, rfl | ⟨fragment, rfl⟩⟩ := reaches.cases_of_known known isRoot
    · exact absurd (List.mem_map_of_mem member) (List.nodup_cons.mp once).1
    · exact ⟨fragment, reaches, rfl⟩
  choose! pick picked using eachFragment
  have isOthers : (others.map pick).map (fun fragment => (Node.fragment fragment).normal) = others := by
    rw [List.map_map]
    exact (List.map_congr_left fun other member => (picked other member).2).trans (List.map_id' others)
  refine ⟨others.map pick, ?_, ?_, fun fragment => ⟨?_, ?_⟩⟩
  · rw [reached, List.map_cons, List.map_map]
    exact congrArg (fun rest => some (_ :: rest)) isOthers.symm
  · have sameNames : (others.map pick).map Fragment.name = others.map Node.name := by
      conv_rhs => rw [← isOthers]
      simp only [List.map_map]
      exact List.map_congr_left fun other _ => (Node.name_normal (.fragment (pick other))).symm
    rw [sameNames]
    exact once
  · intro member
    obtain ⟨other, inOthers, rfl⟩ := List.mem_map.mp member
    exact (picked other inOthers).1
  · intro reaches
    have isReached := (reachedIff (Node.fragment fragment).normal).mpr ⟨_, reaches, rfl⟩
    rcases List.mem_cons.mp isReached with sameRoot | inOthers
    · cases sameRoot
    · obtain ⟨isPicked, sameNormal⟩ := picked _ inOthers
      -- both are nodes of one name
      have sameName := congrArg Node.name sameNormal
      rw [Node.name_normal, Node.name_normal] at sameName
      have foundPicked := get?_of_mem distinct (isPicked.cases_of_known known isRoot).1
      have found := get?_of_mem distinct (reaches.cases_of_known known isRoot).1
      rw [sameName, found] at foundPicked
      exact List.mem_map.mpr ⟨_, inOthers, by simpa using foundPicked.symm⟩

end Context

end SiteQuery.Graphql
