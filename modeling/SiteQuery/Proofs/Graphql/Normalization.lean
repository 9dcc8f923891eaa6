import SiteQuery.Proofs.Graphql.Merging

/-!
The normal form requests what was requested before: `Context.requests_normalize_iff`.
-/

namespace SiteQuery.Graphql

theorem Selects.path_ne_nil {Object : Type} {context : Context} {scenario : Scenario Object}
    {position path : List Step} {selections : List Selection} {last : Selection}
    (selected : Selects context scenario position selections path last) : path ≠ [] := by
  induction selected with
  | field => simp
  | within => simp
  | inline _ _ _ _ ih => exact ih
  | spread _ _ _ _ _ ih => exact ih

namespace Context

/-- However a root is executed, its normal form leads along the same paths. -/
theorem requests_normalize_iff {Object : Type} {schema : Schema} {context : Context}
    (built : context.Built schema Document.Keyed) {root : Root} (member : .root root ∈ context.nodes)
    (scenario : Scenario Object) (respected : scenario.Respects context root) (path : List Step) :
    context.normalize.Requests scenario root.name path ↔ context.Requests scenario root.name path := by
  have found : context.get? root.name = some (.root root) := get?_of_mem built.names_nodup member
  have merged : context.normalize.Requests scenario root.name path ↔
      context.flatten.Requests scenario root.name path :=
    requests_merge_iff built.keyed.flatten (get?_flatten_root found)
  have flattened : context.flatten.Requests scenario root.name path ↔
      context.Requests scenario root.name path :=
    requests_flatten_iff found respected
  exact merged.trans flattened

/-! A root that asks twice for one field, with the keys of an argument in another order, and a fragment that
spreads itself. -/

def siteSchema : Schema where
  types := [{ name := "String", kind := .scalar }, { name := "Int", kind := .scalar },
    { name := "Query", kind := .object,
      fields := [⟨"site", [⟨"size", .named "Size", none⟩], .named "Site"⟩] },
    { name := "Size", kind := .inputObject,
      inputFields := [⟨"width", .named "Int", none⟩, ⟨"height", .named "Int", none⟩] },
    { name := "Site", kind := .object,
      fields := [⟨"title", [], .named "String"⟩, ⟨"author", [], .named "String"⟩] }]
  directives := []
  queryType := "Query"
  mutationType? := none
  subscriptionType? := none

def wide : Value := .object [("width", .number (.integer 2)), ("height", .number (.integer 1))]

def high : Value := .object [("height", .number (.integer 1)), ("width", .number (.integer 2))]

def siteDocument : Document where
  definitions := [
    .operation ⟨.start, some "A", .query, [], [], [
      .field .start none "site" [⟨"size", .start, wide, .start⟩] [] .start [
        .inline .start (some ⟨"Site", .start⟩) [] [.field .start none "title" [] [] .start []]],
      .field .start none "site" [⟨"size", .start, high, .start⟩] [] .start [.spread .start "F" []]]⟩,
    .fragment ⟨.start, "F", ⟨"Site", .start⟩, [], [
      .field .start none "author" [] [] .start [], .spread .start "F" []]⟩]

def siteRoot : Root where
  name := "A"
  kind := .query
  type := "Query"
  variableDefinitions := []
  directives := []
  selections := [
    .field none "site" [⟨"size", wide⟩] [] "Site" [.inline (some "Site") [] [.field none "title" [] [] "String" []]],
    .field none "site" [⟨"size", high⟩] [] "Site" [.spread "F" []]]

def siteFragment : Fragment := ⟨"F", "Site", [], [.field none "author" [] [] "String" [], .spread "F" []]⟩

def siteContext : Context := ⟨[.root siteRoot, .fragment siteFragment]⟩

/-- Only the root is a query, and no directive holds. -/
def siteScenario : Scenario String where
  typeAt position := if position.isEmpty then "Query" else "Site"
  satisfies object condition := object = "Query" ↔ condition = "Query"
  truth _ := False
  truth_congr _ _ _ := Iff.rfl

theorem siteDocument_keyed : siteDocument.Keyed := by
  have number (n : Int) : (Value.number (.integer n)).Keyed := .number _
  have keyedWide : wide.Keyed := .object (by decide) (by simp [number])
  have keyedHigh : high.Keyed := .object (by decide) (by simp [number])
  have leaf (name : String) : (Document.Selection.field .start none name [] [] .start []).Keyed :=
    .field (by simp) (by simp) (by simp)
  have spread : (Document.Selection.spread .start "F" []).Keyed := .spread (by simp)
  have inline : (Document.Selection.inline .start (some ⟨"Site", .start⟩) []
      [.field .start none "title" [] [] .start []]).Keyed := .inline (by simp) (by simp [leaf])
  intro definition member selection inside
  simp only [siteDocument, List.mem_cons, List.not_mem_nil, or_false] at member
  rcases member with rfl | rfl <;>
    simp only [Document.Definition.selections, List.mem_cons, List.not_mem_nil, or_false] at inside
  · rcases inside with rfl | rfl
    · exact .field (by simpa using keyedWide) (by simp) (by simpa using inline)
    · exact .field (by simpa using keyedHigh) (by simp) (by simpa using spread)
  · rcases inside with rfl | rfl
    · exact leaf "author"
    · exact spread

theorem siteContext_built : siteContext.Built siteSchema Document.Keyed := by
  have converted : Node.ofDocument siteSchema siteDocument = .ok [.root siteRoot, .fragment siteFragment] := by
    rfl
  have first : Context.Built siteSchema Document.Keyed ⟨[.root siteRoot]⟩ :=
    .add .empty siteDocument_keyed converted (by simp) rfl
  exact .add first siteDocument_keyed converted (List.mem_cons_of_mem _ (List.mem_singleton_self _)) rfl

/-- All selections of the context, at every depth. -/
def siteSelections : List Selection :=
  [.field none "site" [⟨"size", wide⟩] [] "Site" [.inline (some "Site") [] [.field none "title" [] [] "String" []]],
    .field none "site" [⟨"size", high⟩] [] "Site" [.spread "F" []],
    .inline (some "Site") [] [.field none "title" [] [] "String" []],
    .field none "title" [] [] "String" [], .field none "author" [] [] "String" [], .spread "F" []]

theorem siteContext_types {position path : List Step} {selections : List Selection} {last : Selection}
    (selected : Selects siteContext siteScenario position selections path last)
    (known : ∀ selection ∈ selections, selection ∈ siteSelections) : last.objectType? ≠ some "Query" := by
  induction selected with
  | field member _ _ =>
    have inSite := known _ member
    simp only [siteSelections, List.mem_cons, List.not_mem_nil, or_false] at inSite
    rcases inSite with same | same | same | same | same | same <;> cases same <;> decide
  | within member _ _ _ ih =>
    apply ih
    have inSite := known _ member
    simp only [siteSelections, List.mem_cons, List.not_mem_nil, or_false] at inSite
    rcases inSite with same | same | same | same | same | same <;> cases same <;> simp [siteSelections]
  | inline member _ _ _ ih =>
    apply ih
    have inSite := known _ member
    simp only [siteSelections, List.mem_cons, List.not_mem_nil, or_false] at inSite
    rcases inSite with same | same | same | same | same | same <;> cases same
    simp [siteSelections]
  | spread member _ found _ _ ih =>
    apply ih
    have isFragment := (mem_of_get? (get?_of_fragment? found)).1
    simp only [siteContext, List.mem_cons, List.not_mem_nil, or_false, reduceCtorEq, Node.fragment.injEq,
      false_or] at isFragment
    subst isFragment
    simp [siteFragment, siteSelections]

theorem siteScenario_respects : siteScenario.Respects siteContext siteRoot := by
  refine ⟨Iff.rfl, fun path last type selected object => ?_⟩
  have notQuery : type ≠ "Query" := by
    rintro rfl
    exact siteContext_types selected (by simp [siteRoot, siteSelections]) object
  simp [Scenario.Meets, siteScenario, selected.path_ne_nil, notQuery]

theorem requests_normalize_site :
    siteContext.Built siteSchema Document.Keyed ∧ .root siteRoot ∈ siteContext.nodes ∧
      siteScenario.Respects siteContext siteRoot ∧
      ∀ path, siteContext.normalize.Requests siteScenario "A" path ↔ siteContext.Requests siteScenario "A" path :=
  ⟨siteContext_built, List.mem_cons_self, siteScenario_respects,
    requests_normalize_iff siteContext_built List.mem_cons_self siteScenario siteScenario_respects⟩

end Context

end SiteQuery.Graphql
