import Mathlib.Data.List.Perm.Subperm
import SiteQuery.Proofs.Graphql.Built

/-!
What a root reaches is taken from the context, each node once and the root first.
-/

namespace SiteQuery.Graphql.Context

namespace Frontier

def nodes (frontier : Frontier) : List Node := frontier.queue ++ frontier.unseen

theorem reach_perm (frontier : Frontier) (name : String) : (frontier.reach name).nodes.Perm frontier.nodes := by
  unfold reach
  split
  · rename_i node found
    obtain ⟨named, before, after, isUnseen, others⟩ := List.find?_eq_some_iff_append.mp found
    have erased : frontier.unseen.eraseP (·.name == name) = before ++ after := by
      rw [isUnseen, List.eraseP_append_right _ (fun other member => by simpa using others other member),
        List.eraseP_cons, named, cond_true]
    have taken : (node :: (before ++ after)).Perm frontier.unseen := by
      rw [isUnseen]
      exact List.perm_middle.symm
    simpa [nodes, erased] using taken.append_left frontier.queue
  · rfl

theorem foldl_reach_perm (names : List String) (frontier : Frontier) :
    (names.foldl reach frontier).nodes.Perm frontier.nodes := by
  induction names generalizing frontier with
  | nil => rfl
  | cons name rest ih => exact (ih (frontier.reach name)).trans (frontier.reach_perm name)

theorem collect_nil {frontier : Frontier} (empty : frontier.queue = []) : frontier.collect = [] := by
  rw [collect]
  split
  · rfl
  · rename_i waiting
    cases empty.symm.trans waiting

theorem collect_cons {frontier : Frontier} {node : Node} {rest : List Node} (waiting : frontier.queue = node :: rest) :
    frontier.collect = node :: (node.spreads.foldl reach ⟨frontier.unseen, rest⟩).collect := by
  rw [collect]
  split
  · rename_i empty
    cases waiting.symm.trans empty
  · rename_i isWaiting
    cases waiting.symm.trans isWaiting
    rfl

theorem collect_subperm (frontier : Frontier) : frontier.collect.Subperm frontier.nodes := by
  induction frontier using collect.induct with
  | case1 frontier empty =>
    rw [collect_nil empty]
    exact List.nil_subperm
  | case2 frontier node rest waiting ih =>
    have after := ih.trans (foldl_reach_perm node.spreads ⟨frontier.unseen, rest⟩).subperm
    have isNodes : frontier.nodes = node :: Frontier.nodes ⟨frontier.unseen, rest⟩ := by simp [nodes, waiting]
    rw [collect_cons waiting, isNodes]
    exact (List.subperm_cons node).mpr after

end Frontier

section Reachable

variable {context : Context} {name : String} {nodes : List Node}

theorem reachable_eq_some (reached : context.reachable name = some nodes) : ∃ root,
    context.get? name = some (.root root) ∧
      nodes = Frontier.collect ⟨context.nodes.filter (·.name != name), [.root root]⟩ := by
  unfold reachable at reached
  split at reached
  · rename_i root found
    exact ⟨root, found, (Option.some.inj reached).symm⟩
  · cases reached

/-- A root is the first that it reaches. -/
theorem root_mem_reachable (reached : context.reachable name = some nodes) : ∃ root, Node.root root ∈ nodes := by
  obtain ⟨root, _, rfl⟩ := reachable_eq_some reached
  rw [Frontier.collect_cons rfl]
  exact ⟨root, List.mem_cons_self⟩

theorem exists_reachable (distinct : context.names.Nodup) {root : Root} (isRoot : .root root ∈ context.nodes) :
    ∃ nodes, context.reachable root.name = some nodes := by
  have found : context.get? root.name = some (.root root) := get?_of_mem distinct isRoot
  rw [reachable, found]
  exact ⟨_, rfl⟩

theorem reachable_subset (reached : context.reachable name = some nodes) : nodes ⊆ context.nodes := by
  obtain ⟨root, found, rfl⟩ := reachable_eq_some reached
  intro node member
  rcases List.mem_append.mp ((Frontier.collect_subperm _).subset member) with isRoot | unseen
  · exact List.mem_singleton.mp isRoot ▸ (mem_of_get? found).1
  · exact List.mem_of_mem_filter unseen

theorem reachable_nodup (distinct : context.names.Nodup) (reached : context.reachable name = some nodes) :
    (nodes.map Node.name).Nodup := by
  obtain ⟨root, found, rfl⟩ := reachable_eq_some reached
  have isName := (mem_of_get? found).2
  have others : ((context.nodes.filter (·.name != name)).map Node.name).Nodup :=
    distinct.sublist (List.filter_sublist.map Node.name)
  have fresh : name ∉ (context.nodes.filter (·.name != name)).map Node.name := by
    simp [List.mem_filter]
  have all : ((Frontier.nodes ⟨context.nodes.filter (·.name != name), [.root root]⟩).map Node.name).Nodup := by
    rw [Frontier.nodes, List.singleton_append, List.map_cons, isName]
    exact List.nodup_cons.mpr ⟨fresh, others⟩
  obtain ⟨same, perm, sublist⟩ := Frontier.collect_subperm ⟨context.nodes.filter (·.name != name), [.root root]⟩
  exact (perm.map Node.name).nodup_iff.mp (all.sublist (sublist.map Node.name))

end Reachable

end SiteQuery.Graphql.Context
