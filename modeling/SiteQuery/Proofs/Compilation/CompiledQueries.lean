import SiteQuery.Compilation.Documents
import SiteQuery.Proofs.Path

/-!
Compiled queries as a map from paths.

The files stand in the order of their paths, each once, and `get?_foldl_insert` says what is found for a path after
any number of queries were added: its own ones, in their order.
-/

namespace SiteQuery.Compilation.CompiledQueries

/-- The files stand in the order of their paths. -/
def Ordered (compiled : CompiledQueries) : Prop := compiled.Pairwise fun a b => a.1.compare b.1 = .lt

theorem get?_congr (compiled : CompiledQueries) {a b : Path} (same : a.same b = true) :
    compiled.get? a = compiled.get? b := by
  simp only [get?, Path.same_congr_right same]

theorem get?_cons (key : Path) (queries : List CompiledQuery) (rest : CompiledQueries) (path : Path) :
    get? ((key, queries) :: rest) path = if key.same path then some queries else get? rest path := by
  unfold get?
  by_cases same : key.same path = true <;> simp [same]

/-- Nothing is found for a path that stands before all others. -/
theorem get?_eq_none {compiled : CompiledQueries} {path : Path}
    (before : ∀ entry ∈ compiled, path.compare entry.1 = .lt) : compiled.get? path = none := by
  have apart : ∀ entry ∈ compiled, ¬ entry.1.same path = true := by
    intro entry member same
    have isLess := before entry member
    rw [Path.same_comm] at same
    rw [Path.compare_eq_iff_same.mpr same] at isLess
    cases isLess
  simp [get?, List.find?_eq_none.mpr apart]

theorem insert_cons (query : CompiledQuery) (key : Path) (queries : List CompiledQuery) (rest : CompiledQueries) :
    insert query ((key, queries) :: rest) =
      match query.path.compare key with
      | .lt => (query.path, [query]) :: (key, queries) :: rest
      | .eq => (key, queries ++ [query]) :: rest
      | .gt => (key, queries) :: insert query rest := rfl

theorem mem_insert {query : CompiledQuery} {compiled : CompiledQueries} {entry : Path × List CompiledQuery}
    (member : entry ∈ insert query compiled) : entry.1 = query.path ∨ ∃ old ∈ compiled, old.1 = entry.1 := by
  induction compiled with
  | nil =>
    left
    rw [List.mem_singleton.mp member]
  | cons first rest ih =>
    obtain ⟨key, queries⟩ := first
    rw [insert_cons] at member
    cases order : query.path.compare key with
    | lt =>
      simp only [order] at member
      rcases List.mem_cons.mp member with rfl | old
      · exact .inl rfl
      · exact .inr ⟨entry, old, rfl⟩
    | eq =>
      simp only [order] at member
      rcases List.mem_cons.mp member with rfl | old
      · exact .inr ⟨(key, queries), List.mem_cons_self, rfl⟩
      · exact .inr ⟨entry, List.mem_cons_of_mem _ old, rfl⟩
    | gt =>
      simp only [order] at member
      rcases List.mem_cons.mp member with rfl | inRest
      · exact .inr ⟨(key, queries), List.mem_cons_self, rfl⟩
      · rcases ih inRest with isNew | ⟨old, inOld, same⟩
        · exact .inl isNew
        · exact .inr ⟨old, List.mem_cons_of_mem _ inOld, same⟩

theorem Ordered.insert {compiled : CompiledQueries} (ordered : compiled.Ordered) (query : CompiledQuery) :
    Ordered (compiled.insert query) := by
  induction compiled with
  | nil => exact List.pairwise_singleton _ _
  | cons first rest ih =>
    obtain ⟨key, queries⟩ := first
    have later := (List.pairwise_cons.mp ordered).1
    have restOrdered := (List.pairwise_cons.mp ordered).2
    rw [insert_cons]
    cases order : query.path.compare key with
    | lt =>
      refine List.pairwise_cons.mpr ⟨fun entry member => ?_, ordered⟩
      rcases List.mem_cons.mp member with rfl | inRest
      · exact order
      · exact Path.compare_trans order (later entry inRest)
    | eq => exact List.pairwise_cons.mpr ⟨later, restOrdered⟩
    | gt =>
      refine List.pairwise_cons.mpr ⟨fun entry member => ?_, ih restOrdered⟩
      rcases mem_insert member with isNew | ⟨old, inRest, same⟩
      · have isLess : key.compare query.path = .lt := by rw [Path.compare_swap, order]; rfl
        rwa [isNew]
      · rw [← same]
        exact later old inRest

/-- A query is found after those that its file had before, and nothing changes for other files. -/
theorem get?_insert {compiled : CompiledQueries} (ordered : compiled.Ordered) (query : CompiledQuery) (path : Path) :
    (compiled.insert query).get? path =
      if query.path.same path then some ((compiled.get? path).getD [] ++ [query]) else compiled.get? path := by
  induction compiled with
  | nil => exact get?_cons query.path [query] [] path
  | cons first rest ih =>
    obtain ⟨key, queries⟩ := first
    have later := (List.pairwise_cons.mp ordered).1
    have restOrdered := (List.pairwise_cons.mp ordered).2
    rw [insert_cons]
    cases order : query.path.compare key with
    | lt =>
      have missing : query.path.same path = true → get? ((key, queries) :: rest) path = none := by
        intro same
        apply get?_eq_none
        intro entry member
        rw [← Path.compare_congr_left same]
        rcases List.mem_cons.mp member with rfl | inRest
        · exact order
        · exact Path.compare_trans order (later entry inRest)
      rw [get?_cons]
      by_cases same : query.path.same path = true
      · rw [if_pos same, if_pos same, missing same]
        rfl
      · rw [if_neg same, if_neg same]
    | eq =>
      have isKey : query.path.same key = true := Path.compare_eq_iff_same.mp order
      rw [get?_cons, get?_cons, Path.same_congr_left isKey]
      by_cases same : key.same path = true
      · rw [if_pos same, if_pos same, if_pos same]
        rfl
      · rw [if_neg same, if_neg same, if_neg same]
    | gt =>
      have apart : key.same path = true → ¬ query.path.same path = true := by
        intro isPath same
        rw [Path.same_comm] at isPath
        rw [Path.compare_eq_iff_same.mpr (Path.same_trans same isPath)] at order
        cases order
      rw [get?_cons, get?_cons, ih restOrdered]
      by_cases isPath : key.same path = true
      · rw [if_pos isPath, if_neg (apart isPath), if_pos isPath]
      · rw [if_neg isPath, if_neg isPath]

theorem Ordered.foldl_insert {compiled : CompiledQueries} (ordered : compiled.Ordered) (queries : List CompiledQuery) :
    Ordered (queries.foldl (fun compiled query => compiled.insert query) compiled) := by
  induction queries generalizing compiled with
  | nil => exact ordered
  | cons query rest ih => exact ih (ordered.insert query)

/-- What is found for a path, once queries were added: those of the path, in the order of their addition. -/
theorem get?_foldl_insert (queries : List CompiledQuery) (path : Path) :
    get? (queries.foldl (fun compiled query => insert query compiled) []) path =
      if queries.filter (·.path.same path) = [] then none else some (queries.filter (·.path.same path)) := by
  have onto (compiled : CompiledQueries) (ordered : compiled.Ordered) :
      get? (queries.foldl (fun compiled query => compiled.insert query) compiled) path =
        if queries.filter (·.path.same path) = [] then compiled.get? path
        else some ((compiled.get? path).getD [] ++ queries.filter (·.path.same path)) := by
    induction queries generalizing compiled with
    | nil => rfl
    | cons query rest ih =>
      rw [List.foldl_cons, ih _ (ordered.insert query), get?_insert ordered, List.filter_cons]
      by_cases same : query.path.same path = true
      · rw [if_pos same, if_pos same]
        by_cases none : rest.filter (·.path.same path) = []
        · simp [none]
        · simp [none]
      · rw [if_neg same, if_neg same]
  have fromEmpty := onto [] List.Pairwise.nil
  simpa [get?] using fromEmpty

theorem all_insert_perm (query : CompiledQuery) (compiled : CompiledQueries) :
    (compiled.insert query).all.Perm (query :: compiled.all) := by
  induction compiled with
  | nil => exact List.Perm.refl _
  | cons first rest ih =>
    obtain ⟨key, queries⟩ := first
    rw [insert_cons]
    cases query.path.compare key with
    | lt => exact List.Perm.refl _
    | eq =>
      simp only [all, List.flatMap_cons, List.append_assoc]
      exact List.perm_middle
    | gt =>
      simp only [all, List.flatMap_cons] at ih ⊢
      exact (ih.append_left queries).trans List.perm_middle

/-- Files put queries in another order, and that is all. -/
theorem all_foldl_insert_perm (queries : List CompiledQuery) (compiled : CompiledQueries) :
    (queries.foldl (fun compiled query => insert query compiled) compiled).all.Perm (queries ++ compiled.all) := by
  induction queries generalizing compiled with
  | nil => exact List.Perm.refl _
  | cons query rest ih =>
    refine (ih (compiled.insert query)).trans ?_
    exact ((all_insert_perm query compiled).append_left rest).trans List.perm_middle

theorem mem_all_of_get? {compiled : CompiledQueries} {path : Path} {queries : List CompiledQuery}
    (found : compiled.get? path = some queries) {query : CompiledQuery} (member : query ∈ queries) :
    query ∈ compiled.all := by
  simp only [get?, Option.map_eq_some_iff] at found
  obtain ⟨entry, isEntry, rfl⟩ := found
  exact List.mem_flatMap.mpr ⟨entry, List.mem_of_find?_eq_some isEntry, member⟩

theorem insert_comm_of_lt {first second : CompiledQuery} (before : first.path.compare second.path = .lt)
    (compiled : CompiledQueries) : (compiled.insert first).insert second = (compiled.insert second).insert first := by
  have after : second.path.compare first.path = .gt := by rw [Path.compare_swap, before]; rfl
  induction compiled with
  | nil =>
    change insert second [(first.path, [first])] = insert first [(second.path, [second])]
    rw [insert_cons, insert_cons, before, after]
    rfl
  | cons entry rest ih =>
    obtain ⟨key, queries⟩ := entry
    cases order : first.path.compare key with
    | lt => cases otherOrder : second.path.compare key <;> simp [insert_cons, order, otherOrder, before, after]
    | eq =>
      have later : second.path.compare key = .gt := by
        rw [← Path.compare_congr_right (Path.compare_eq_iff_same.mp order), after]
      simp [insert_cons, order, later]
    | gt =>
      have isLess : key.compare first.path = .lt := by rw [Path.compare_swap, order]; rfl
      have later : second.path.compare key = .gt := by rw [Path.compare_swap, Path.compare_trans isLess before]; rfl
      simp [insert_cons, order, later, ih]

/-- Queries of two files may be added in either order. -/
theorem insert_comm {first second : CompiledQuery} (apart : first.path.same second.path = false)
    (compiled : CompiledQueries) : (compiled.insert first).insert second = (compiled.insert second).insert first := by
  cases order : first.path.compare second.path with
  | lt => exact insert_comm_of_lt order compiled
  | eq =>
    rw [Path.compare_eq_iff_same, apart] at order
    cases order
  | gt =>
    have before : second.path.compare first.path = .lt := by rw [Path.compare_swap, order]; rfl
    exact (insert_comm_of_lt before compiled).symm

/-- The compiled queries with more of them, one after the other. -/
def insertAll (compiled : CompiledQueries) (queries : List CompiledQuery) : CompiledQueries :=
  queries.foldl (fun compiled query => insert query compiled) compiled

theorem insertAll_cons (compiled : CompiledQueries) (query : CompiledQuery) (rest : List CompiledQuery) :
    compiled.insertAll (query :: rest) = (compiled.insert query).insertAll rest := rfl

theorem insertAll_insert {query : CompiledQuery} {others : List CompiledQuery}
    (apart : ∀ other ∈ others, query.path.same other.path = false) (compiled : CompiledQueries) :
    (compiled.insert query).insertAll others = (compiled.insertAll others).insert query := by
  induction others generalizing compiled with
  | nil => rfl
  | cons other rest ih =>
    obtain ⟨fromOther, fromRest⟩ := List.forall_mem_cons.mp apart
    rw [insertAll_cons, insertAll_cons, insert_comm fromOther, ih fromRest]

theorem insertAll_comm {queries others : List CompiledQuery}
    (apart : ∀ query ∈ queries, ∀ other ∈ others, query.path.same other.path = false) (compiled : CompiledQueries) :
    (compiled.insertAll queries).insertAll others = (compiled.insertAll others).insertAll queries := by
  induction queries generalizing compiled with
  | nil => rfl
  | cons query rest ih =>
    obtain ⟨fromQuery, fromRest⟩ := List.forall_mem_cons.mp apart
    rw [insertAll_cons, insertAll_cons, ih fromRest, insertAll_insert fromQuery]

end SiteQuery.Compilation.CompiledQueries
