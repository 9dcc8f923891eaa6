import SiteQuery.Proofs.Graphql.Reachable

/-!
The search for what a root reaches, compared with reachability.

`mem_reachable_iff` says that the search finds exactly the nodes that `Context.Reaches` relates to the root, and
`reachable_congr` that it sees no more of a context than what the names that are spread there stand for.
-/

namespace SiteQuery.Graphql.Context

/-- A node is reached from another one by following spreads of names that the context has. -/
inductive Reaches (context : Context) (start : Node) : Node → Prop
  | start : Reaches context start start
  | onward {node next : Node} {spread : String} (reached : Reaches context start node) (spreads : spread ∈ node.spreads)
      (found : context.get? spread = some next) : Reaches context start next

namespace Frontier

theorem nodup_eraseDups (names : List String) : names.eraseDups.Nodup := by
  match names with
  | [] => exact List.nodup_nil
  | name :: rest =>
    rw [List.eraseDups_cons]
    exact List.nodup_cons.mpr ⟨by simp, nodup_eraseDups _⟩
termination_by names.length
decreasing_by exact Nat.lt_succ_of_le (List.length_filter_le _ rest)

theorem eraseP_eq_filter {nodes : List Node} (distinct : (nodes.map Node.name).Nodup) (name : String) :
    nodes.eraseP (·.name == name) = nodes.filter (·.name != name) := by
  induction nodes with
  | nil => rfl
  | cons first rest ih =>
    obtain ⟨fresh, restDistinct⟩ := List.nodup_cons.mp distinct
    by_cases named : first.name = name
    · have others : rest.filter (·.name != name) = rest := by
        refine List.filter_eq_self.mpr fun other member => ?_
        have different : other.name ≠ name := fun same => fresh (List.mem_map.mpr ⟨other, member, same.trans named.symm⟩)
        simpa using different
      simp [named, others]
    · simp [named, ih restDistinct]

/-- What is found under a name where only nodes of certain names were kept. -/
theorem find?_filter_name (keeps : String → Bool) (nodes : List Node) (name : String) :
    (nodes.filter (keeps ·.name)).find? (·.name == name) =
      if keeps name then nodes.find? (·.name == name) else none := by
  induction nodes with
  | nil => simp
  | cons first rest ih =>
    by_cases named : first.name = name
    · cases kept : keeps name <;> simp [named, kept, ih]
    · have skipped : (first :: rest).find? (·.name == name) = rest.find? (·.name == name) := by simp [named]
      rw [skipped, ← ih]
      cases kept : keeps first.name <;> simp [named, kept]

/-- The node of a name leaves those not yet seen, and waits. -/
theorem reach_eq {frontier : Frontier} (distinct : (frontier.unseen.map Node.name).Nodup) (name : String) :
    frontier.reach name = ⟨frontier.unseen.filter (·.name != name),
      frontier.queue ++ (frontier.unseen.find? (·.name == name)).toList⟩ := by
  unfold reach
  split
  · rename_i node found
    rw [eraseP_eq_filter distinct, found]
    rfl
  · rename_i missing
    have others : frontier.unseen.filter (·.name != name) = frontier.unseen := by
      refine List.filter_eq_self.mpr fun other member => ?_
      simpa using List.find?_eq_none.mp missing other member
    rw [others, missing]
    simp

/-- The nodes of several names at once, in the order of the names. -/
theorem foldl_reach_eq (frontier : Frontier) (distinct : (frontier.unseen.map Node.name).Nodup) {names : List String}
    (once : names.Nodup) :
    names.foldl reach frontier = ⟨frontier.unseen.filter (!names.contains ·.name),
      frontier.queue ++ names.filterMap fun name => frontier.unseen.find? (·.name == name)⟩ := by
  induction names generalizing frontier with
  | nil => simp
  | cons name rest ih =>
    obtain ⟨fresh, restOnce⟩ := List.nodup_cons.mp once
    have stillDistinct : ((frontier.unseen.filter (·.name != name)).map Node.name).Nodup :=
      distinct.sublist (List.filter_sublist.map Node.name)
    have sameNodes : (rest.filterMap fun other => (frontier.unseen.filter (·.name != name)).find? (·.name == other)) =
        rest.filterMap fun other => frontier.unseen.find? (·.name == other) := by
      refine List.filterMap_congr fun other member => ?_
      have different : other ≠ name := by
        rintro rfl
        exact fresh member
      simp [find?_filter_name (· != name), different]
    rw [List.foldl_cons, reach_eq distinct, ih _ stillDistinct restOnce, sameNodes, List.filter_filter]
    congr 1
    · refine List.filter_congr fun node _ => ?_
      rw [List.contains_cons, Bool.not_or, Bool.and_comm]
      rfl
    · cases found : frontier.unseen.find? (·.name == name) <;> simp [found]

/-- One turn of the search: the node in front is taken, and what it spreads waits behind the others. -/
theorem collect_turn {frontier : Frontier} (distinct : (frontier.unseen.map Node.name).Nodup) (node : Node)
    (rest : List Node) :
    node.spreads.foldl reach ⟨frontier.unseen, rest⟩ = ⟨frontier.unseen.filter (!node.spreads.contains ·.name),
      rest ++ node.spreads.filterMap fun spread => frontier.unseen.find? (·.name == spread)⟩ ∧
    ((frontier.unseen.filter (!node.spreads.contains ·.name)).map Node.name).Nodup :=
  ⟨foldl_reach_eq ⟨frontier.unseen, rest⟩ distinct (nodup_eraseDups _),
    distinct.sublist (List.filter_sublist.map Node.name)⟩

/-- What holds of the nodes that wait and passes on along spreads holds of all that are found. -/
theorem forall_collect {holds : Node → Prop} {frontier : Frontier}
    (distinct : (frontier.unseen.map Node.name).Nodup) (waiting : ∀ node ∈ frontier.queue, holds node)
    (onward : ∀ node, holds node → ∀ spread ∈ node.spreads, ∀ next,
      frontier.unseen.find? (·.name == spread) = some next → holds next) :
    ∀ node ∈ frontier.collect, holds node := by
  induction frontier using collect.induct with
  | case1 frontier empty => simp [collect_nil empty]
  | case2 frontier node rest isWaiting ih =>
    obtain ⟨turn, stillDistinct⟩ := collect_turn distinct node rest
    have ofNode : holds node := waiting node (isWaiting ▸ List.mem_cons_self)
    rw [collect_cons isWaiting]
    rw [turn] at ih ⊢
    refine List.forall_mem_cons.mpr ⟨ofNode, ih stillDistinct ?_ ?_⟩
    · intro next member
      rcases List.mem_append.mp member with inRest | isNew
      · exact waiting next (isWaiting ▸ List.mem_cons_of_mem _ inRest)
      · obtain ⟨spread, spreads, found⟩ := List.mem_filterMap.mp isNew
        exact onward node ofNode spread spreads next found
    · intro other ofOther spread spreads next found
      rw [find?_filter_name (!node.spreads.contains ·), Option.ite_none_right_eq_some] at found
      exact onward other ofOther spread spreads next found.2

theorem mem_collect_of_mem_queue {frontier : Frontier} (distinct : (frontier.unseen.map Node.name).Nodup) {node : Node}
    (waiting : node ∈ frontier.queue) : node ∈ frontier.collect := by
  induction frontier using collect.induct with
  | case1 frontier empty => simp [empty] at waiting
  | case2 frontier first rest isWaiting ih =>
    obtain ⟨turn, stillDistinct⟩ := collect_turn distinct first rest
    rw [collect_cons isWaiting]
    rw [turn] at ih ⊢
    rcases List.mem_cons.mp (isWaiting ▸ waiting) with rfl | inRest
    · exact List.mem_cons_self
    · exact List.mem_cons_of_mem _ (ih stillDistinct (List.mem_append_left _ inRest))

/-- What a found node spreads is found too. -/
theorem mem_collect_of_spreads {frontier : Frontier} (distinct : (frontier.unseen.map Node.name).Nodup)
    {node next : Node} (taken : node ∈ frontier.collect) {spread : String} (spreads : spread ∈ node.spreads)
    (found : frontier.unseen.find? (·.name == spread) = some next) : next ∈ frontier.collect := by
  induction frontier using collect.induct with
  | case1 frontier empty => simp [collect_nil empty] at taken
  | case2 frontier first rest isWaiting ih =>
    obtain ⟨turn, stillDistinct⟩ := collect_turn distinct first rest
    rw [collect_cons isWaiting] at taken ⊢
    rw [turn] at ih taken ⊢
    refine List.mem_cons_of_mem _ ?_
    by_cases spreadByFirst : spread ∈ first.spreads
    · exact mem_collect_of_mem_queue stillDistinct
        (List.mem_append_right _ (List.mem_filterMap.mpr ⟨spread, spreadByFirst, found⟩))
    · rcases List.mem_cons.mp taken with rfl | later
      · exact absurd spreads spreadByFirst
      · refine ih stillDistinct later ?_
        rw [find?_filter_name (!first.spreads.contains ·)]
        simpa [spreadByFirst] using found

/-- Two searches that begin alike and find the same under every name that comes up take the same course. -/
theorem collect_congr (comesUp : Node → Prop) {first second : Frontier}
    (distinct : (first.unseen.map Node.name).Nodup) (otherDistinct : (second.unseen.map Node.name).Nodup)
    (sameQueue : first.queue = second.queue) (waiting : ∀ node ∈ first.queue, comesUp node)
    (onward : ∀ node, comesUp node → ∀ spread ∈ node.spreads, ∀ next,
      first.unseen.find? (·.name == spread) = some next → comesUp next)
    (agree : ∀ node, comesUp node → ∀ spread ∈ node.spreads,
      first.unseen.find? (·.name == spread) = second.unseen.find? (·.name == spread)) :
    first.collect = second.collect := by
  induction first using collect.induct generalizing second with
  | case1 first empty => rw [collect_nil empty, collect_nil (sameQueue ▸ empty)]
  | case2 first node rest isWaiting ih =>
    obtain ⟨turn, stillDistinct⟩ := collect_turn distinct node rest
    have otherWaiting : second.queue = node :: rest := sameQueue ▸ isWaiting
    obtain ⟨otherTurn, otherStillDistinct⟩ := collect_turn otherDistinct node rest
    have ofNode : comesUp node := waiting node (isWaiting ▸ List.mem_cons_self)
    have sameNew : node.spreads.filterMap (fun spread => first.unseen.find? (·.name == spread)) =
        node.spreads.filterMap fun spread => second.unseen.find? (·.name == spread) :=
      List.filterMap_congr fun spread spreads => agree node ofNode spread spreads
    rw [collect_cons isWaiting, collect_cons otherWaiting, otherTurn]
    rw [turn] at ih ⊢
    congr 1
    refine ih stillDistinct otherStillDistinct (by rw [sameNew]) ?_ ?_ ?_
    · intro next member
      rcases List.mem_append.mp member with inRest | isNew
      · exact waiting next (isWaiting ▸ List.mem_cons_of_mem _ inRest)
      · obtain ⟨spread, spreads, found⟩ := List.mem_filterMap.mp isNew
        exact onward node ofNode spread spreads next found
    · intro other ofOther spread spreads next found
      rw [find?_filter_name (!node.spreads.contains ·), Option.ite_none_right_eq_some] at found
      exact onward other ofOther spread spreads next found.2
    · intro other ofOther spread spreads
      rw [find?_filter_name (!node.spreads.contains ·), find?_filter_name (!node.spreads.contains ·),
        agree other ofOther spread spreads]

end Frontier

section Search

variable {context : Context} {name : String} {root : Root} {nodes : List Node}

theorem find?_filter_root (context : Context) (name spread : String) :
    (context.nodes.filter (·.name != name)).find? (·.name == spread) =
      if spread = name then none else context.get? spread := by
  rw [Frontier.find?_filter_name (· != name)]
  by_cases same : spread = name <;> simp [same, get?]

theorem nodup_filter_root (distinct : context.names.Nodup) (name : String) :
    ((context.nodes.filter (·.name != name)).map Node.name).Nodup :=
  distinct.sublist (List.filter_sublist.map Node.name)

theorem reachable_of_root (found : context.get? name = some (.root root)) :
    context.reachable name = some (Frontier.collect ⟨context.nodes.filter (·.name != name), [.root root]⟩) := by
  rw [reachable, found]

/-- A root is the first that it reaches. -/
theorem exists_reachable_cons (found : context.get? name = some (.root root)) :
    ∃ others, context.reachable name = some (.root root :: others) := by
  rw [reachable_of_root found, Frontier.collect_cons rfl]
  exact ⟨_, rfl⟩

/-- The search finds exactly what is reached by following spreads. -/
theorem mem_reachable_iff (distinct : context.names.Nodup) (found : context.get? name = some (.root root))
    (reached : context.reachable name = some nodes) {node : Node} :
    node ∈ nodes ↔ context.Reaches (.root root) node := by
  rw [reachable_of_root found, Option.some.injEq] at reached
  subst reached
  have unseenDistinct := nodup_filter_root distinct name
  constructor
  · intro member
    refine Frontier.forall_collect unseenDistinct ?_ ?_ node member
    · rintro first isFirst
      cases List.mem_singleton.mp isFirst
      exact .start
    · intro before reached spread spreads next isNext
      rw [find?_filter_root, Option.ite_none_left_eq_some] at isNext
      exact .onward reached spreads isNext.2
  · intro reaches
    have rootTaken : Node.root root ∈ Frontier.collect ⟨context.nodes.filter (·.name != name), [.root root]⟩ :=
      Frontier.mem_collect_of_mem_queue unseenDistinct List.mem_cons_self
    induction reaches with
    | start => exact rootTaken
    | @onward before next spread _ spreads isNext ih =>
      by_cases same : spread = name
      · subst same
        cases isNext.symm.trans found
        exact rootTaken
      · refine Frontier.mem_collect_of_spreads unseenDistinct ih spreads ?_
        rw [find?_filter_root, if_neg same]
        exact isNext

/-- A root reaches the same in two contexts that agree on all that is spread on the way. -/
theorem reachable_congr {first second : Context} (distinct : first.names.Nodup) (otherDistinct : second.names.Nodup)
    (found : first.get? name = some (.root root)) (otherFound : second.get? name = some (.root root))
    (agree : ∀ node, first.Reaches (.root root) node → ∀ spread ∈ node.spreads,
      first.get? spread = second.get? spread) :
    first.reachable name = second.reachable name := by
  rw [reachable_of_root found, reachable_of_root otherFound]
  congr 1
  refine Frontier.collect_congr (first.Reaches (.root root)) (nodup_filter_root distinct name)
    (nodup_filter_root otherDistinct name) rfl ?_ ?_ ?_
  · intro node isRoot
    cases List.mem_singleton.mp isRoot
    exact .start
  · intro node reached spread spreads next isNext
    rw [find?_filter_root, Option.ite_none_left_eq_some] at isNext
    exact .onward reached spreads isNext.2
  · intro node reached spread spreads
    rw [find?_filter_root, find?_filter_root, agree node reached spread spreads]

/-- What a root reaches is reached without the other nodes, in the same order. -/
theorem reachable_reached (distinct : context.names.Nodup) (found : context.get? name = some (.root root))
    (reached : context.reachable name = some nodes) : Context.reachable ⟨nodes⟩ name = some nodes := by
  have nodesDistinct : Context.names ⟨nodes⟩ |>.Nodup := reachable_nodup distinct reached
  have rootTaken : .root root ∈ nodes := (mem_reachable_iff distinct found reached).mpr .start
  have isRoot : Context.get? ⟨nodes⟩ name = some (.root root) := by
    rw [← (mem_of_get? found).2]
    exact get?_of_mem nodesDistinct rootTaken
  rw [← reached]
  refine (reachable_congr distinct nodesDistinct found isRoot fun node reaches spread spreads => ?_).symm
  cases isNext : context.get? spread with
  | some next =>
    have taken : next ∈ nodes := (mem_reachable_iff distinct found reached).mpr (reaches.onward spreads isNext)
    rw [← (mem_of_get? isNext).2]
    exact (get?_of_mem nodesDistinct taken).symm
  | none =>
    rw [get?_eq_none] at isNext
    have missing : spread ∉ Context.names ⟨nodes⟩ := fun member =>
      isNext (List.map_subset Node.name (reachable_subset reached) member)
    exact (get?_eq_none.mpr missing).symm

end Search

end SiteQuery.Graphql.Context
