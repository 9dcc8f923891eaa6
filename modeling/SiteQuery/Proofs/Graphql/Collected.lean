import SiteQuery.Graphql.Document.Reader
import SiteQuery.Proofs.Sorting

/-!
The definitions of a document, collected one by one.
-/

namespace SiteQuery

theorem bind_eq_ok {Error Result Next : Type} {first : Except Error Result} {next : Result → Except Error Next}
    {last : Next} (isOk : (first >>= next) = .ok last) : ∃ result, first = .ok result ∧ next result = .ok last := by
  cases first with
  | error => cases isOk
  | ok result => exact ⟨result, rfl, isOk⟩

theorem map_eq_ok {Error Result Next : Type} {first : Except Error Result} {next : Result → Next} {last : Next}
    (isOk : next <$> first = .ok last) : ∃ result, first = .ok result ∧ next result = last := by
  cases first with
  | error => cases isOk
  | ok result => exact ⟨result, rfl, Except.ok.inj isOk⟩

theorem toOption_eq_some {Error Result : Type} {first : Except Error Result} {result : Result}
    (isSome : first.toOption = some result) : first = .ok result := by
  cases first with
  | error => cases isSome
  | ok other => exact congrArg Except.ok (Option.some.inj isSome)

/-- What each step keeps, a fold keeps. -/
theorem foldlM_invariant {Error State Item : Type} {step : State → Item → Except Error State} (holds : State → Prop)
    (kept : ∀ state item next, holds state → step state item = .ok next → holds next) {items : List Item}
    {start last : State} (folded : items.foldlM step start = .ok last) (initially : holds start) : holds last := by
  induction items generalizing start with
  | nil => exact Except.ok.inj folded ▸ initially
  | cons item rest ih =>
    rw [List.foldlM_cons] at folded
    obtain ⟨next, isNext, others⟩ := bind_eq_ok folded
    exact ih others (kept start item next initially isNext)

namespace Graphql.Document.Collected

variable {collected larger : Collected} {definition : Definition} {definitions : List Definition}

theorem addOperation_eq_ok {operation : Operation} (added : collected.addOperation operation = .ok larger) :
    larger = ⟨operation :: collected.operations, collected.fragments⟩ := by
  unfold addOperation at added
  extract_lets keep at added
  split at added
  · exact (Except.ok.inj added).symm
  · cases added
  · split at added
    · cases added
    · split at added
      · cases added
      · exact (Except.ok.inj added).symm

theorem perm_of_add (added : collected.add definition = .ok larger) :
    larger.definitions.Perm (collected.definitions ++ [definition]) := by
  cases definition with
  | operation operation =>
    obtain rfl := addOperation_eq_ok added
    simp only [Collected.definitions, List.reverse_cons, List.map_append, List.map_singleton, List.append_assoc]
    exact List.perm_append_comm.append_left _
  | fragment fragment =>
    simp only [add, addFragment] at added
    split at added
    · cases added
    · obtain rfl := Except.ok.inj added
      simp [Collected.definitions]

theorem perm_of_foldlM_add (folded : definitions.foldlM add collected = .ok larger) :
    larger.definitions.Perm (collected.definitions ++ definitions) := by
  induction definitions generalizing collected with
  | nil =>
    obtain rfl := Except.ok.inj folded
    simp
  | cons definition more ih =>
    rw [List.foldlM_cons] at folded
    obtain ⟨next, isAdded, others⟩ := bind_eq_ok folded
    have perm := (ih others).trans ((perm_of_add isAdded).append_right more)
    rwa [List.append_assoc] at perm

/-- A named definition is added, if its name is new. -/
theorem exists_add (named : ∀ other ∈ collected.definitions ++ [definition], other.name?.isSome = true)
    (distinct : ((collected.definitions ++ [definition]).map Definition.name?).Nodup) :
    ∃ larger, collected.add definition = .ok larger := by
  have fresh (other : Definition) (member : other ∈ collected.definitions) : other.name? ≠ definition.name? := by
    rw [List.map_append, List.map_singleton] at distinct
    exact (List.nodup_append.mp distinct).2.2 _ (List.mem_map_of_mem member) _ List.mem_cons_self
  cases definition with
  | operation operation =>
    have inDefinitions (other : Operation) (member : other ∈ collected.operations) :
        Definition.operation other ∈ collected.definitions := by simp [Collected.definitions, member]
    obtain ⟨name, isName⟩ := Option.isSome_iff_exists.mp (named (.operation operation) (by simp))
    have hasName : operation.name? = some name := isName
    have isAdded : ∃ larger, collected.addOperation operation = .ok larger := by
      unfold addOperation
      rw [hasName]
      cases isFirst : collected.operations.getLast? with
      | none => exact ⟨_, rfl⟩
      | some first =>
        have firstNamed : first.name?.isNone = false := by
          have isSome := named _ (List.mem_append_left _ (inDefinitions first (List.mem_of_getLast? isFirst)))
          simpa [Definition.name?] using isSome
        have noEarlier : collected.operations.find? (·.name? == some name) = none := by
          rw [List.find?_eq_none]
          intro other inOperations sameName
          exact fresh (.operation other) (inDefinitions other inOperations) ((beq_iff_eq.mp sameName).trans hasName.symm)
        simp only [firstNamed, noEarlier]
        exact ⟨_, rfl⟩
    exact isAdded
  | fragment fragment =>
    have noEarlier : collected.fragments.find? (·.name == fragment.name) = none := by
      rw [List.find?_eq_none]
      intro other inFragments sameName
      have member : Definition.fragment other ∈ collected.definitions := by simp [Collected.definitions, inFragments]
      exact fresh _ member (congrArg some (beq_iff_eq.mp sameName))
    exact ⟨⟨collected.operations, fragment :: collected.fragments⟩, by simp [add, addFragment, noEarlier]⟩

theorem exists_foldlM_add (named : ∀ other ∈ collected.definitions ++ definitions, other.name?.isSome = true)
    (distinct : ((collected.definitions ++ definitions).map Definition.name?).Nodup) :
    ∃ larger, definitions.foldlM add collected = .ok larger := by
  induction definitions generalizing collected with
  | nil => exact ⟨collected, rfl⟩
  | cons definition more ih =>
    have split : collected.definitions ++ definition :: more = collected.definitions ++ [definition] ++ more := by simp
    rw [split] at named distinct
    obtain ⟨larger, isAdded⟩ := exists_add (fun other member => named other (List.mem_append_left _ member))
      (by rw [List.map_append] at distinct; exact (List.nodup_append.mp distinct).1)
    have permAll := (perm_of_add isAdded).append_right more
    obtain ⟨largest, isFolded⟩ := ih (fun other member => named other (permAll.subset member))
      ((permAll.map Definition.name?).nodup_iff.mpr distinct)
    refine ⟨largest, ?_⟩
    rw [List.foldlM_cons, isAdded]
    exact isFolded

/-- A fragment is added under a new name. -/
theorem nodup_fragments_of_add (distinct : (collected.fragments.map (·.name)).Nodup)
    (added : collected.add definition = .ok larger) : (larger.fragments.map (·.name)).Nodup := by
  cases definition with
  | operation operation =>
    obtain rfl := addOperation_eq_ok added
    exact distinct
  | fragment fragment =>
    simp only [add, addFragment] at added
    split at added
    · cases added
    · rename_i fresh
      obtain rfl := Except.ok.inj added
      rw [List.find?_eq_none] at fresh
      refine List.nodup_cons.mpr ⟨fun again => ?_, distinct⟩
      obtain ⟨other, member, same⟩ := List.mem_map.mp again
      exact fresh other member (beq_iff_eq.mpr same)

end Graphql.Document.Collected

namespace Graphql.Document

theorem nodup_fragments_of_parseOperations {text : List Char} {definitions : List Definition}
    (parsed : parseOperations text = .ok definitions) :
    ((Document.fragments ⟨definitions⟩).map (·.name)).Nodup := by
  unfold parseOperations at parsed
  obtain ⟨trees, _, more⟩ := bind_eq_ok parsed
  obtain ⟨read, _, more⟩ := bind_eq_ok more
  obtain ⟨collected, isFolded, isLast⟩ := bind_eq_ok more
  have distinct : (collected.fragments.map (·.name)).Nodup :=
    foldlM_invariant (fun collected => (collected.fragments.map (·.name)).Nodup)
      (fun _ _ _ => Collected.nodup_fragments_of_add) isFolded List.nodup_nil
  split at isLast
  · cases isLast
  · obtain rfl := Except.ok.inj isLast
    have same : Document.fragments ⟨collected.definitions⟩ = collected.fragments.reverse := by
      simp [Document.fragments, Collected.definitions, List.filterMap_append, List.filterMap_map]
    rw [same, List.map_reverse, List.nodup_reverse]
    exact distinct

/-- No two fragments of a document share a name. -/
theorem nodup_fragments_of_parse {text : String} {document : Document} (parsed : parse text = .ok document) :
    (document.fragments.map (·.name)).Nodup := by
  have ofOrdered {definitions : List Definition} (distinct : ((Document.fragments ⟨definitions⟩).map (·.name)).Nodup) :
      ((inOrder definitions).fragments.map (·.name)).Nodup :=
    (((sorted_perm _ definitions).filterMap _).map _).nodup_iff.mpr distinct
  unfold parse at parsed
  split at parsed
  · rename_i definitions areParsed
    exact Except.ok.inj parsed ▸ ofOrdered (nodup_fragments_of_parseOperations areParsed)
  · obtain ⟨definitions, areParsed, same⟩ := bind_eq_ok parsed
    refine Except.ok.inj same ▸ ofOrdered ?_
    have sublist : (Document.fragments ⟨definitions.filter (!isHost ·)⟩).Sublist (Document.fragments ⟨definitions⟩) :=
      List.filter_sublist.filterMap _
    exact (nodup_fragments_of_parseOperations areParsed).sublist (sublist.map _)
  · cases parsed

end Graphql.Document

end SiteQuery
