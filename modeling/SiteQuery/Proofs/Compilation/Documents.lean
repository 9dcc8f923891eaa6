import SiteQuery.Compilation.Documents
import SiteQuery.Proofs.Graphql.Built

/-!
What is known of documents that compile.

Each of them has passed validation and conversion, and `ContextOf` says what the context holds then: the nodes of
all documents in their order, under distinct names.
-/

namespace SiteQuery.Compilation

open Graphql

/-- The nodes of documents, converted against a schema, in one context. -/
structure ContextOf (schema : Schema) (sources : List SourceDocument) (context : Context) : Prop where
  valid : ∀ source ∈ sources, validate schema source.document (fragmentTypes sources) ViolatedRule.standard = []
  converted : ∃ nodes : List (List Node), List.Forall₂ (fun source nodes =>
    Node.ofDocument schema source.document = .ok nodes) sources nodes ∧ context.nodes = nodes.flatten
  distinct : context.names.Nodup

/-- The nodes of one of the documents stand together in the context. -/
theorem ContextOf.exists_nodes {schema : Schema} {sources : List SourceDocument} {context : Context}
    (holds : ContextOf schema sources context) {source : SourceDocument} (member : source ∈ sources) :
    ∃ nodes, Node.ofDocument schema source.document = .ok nodes ∧ nodes.Sublist context.nodes := by
  obtain ⟨nodes, converted, all⟩ := holds.converted
  rw [all]
  clear all holds
  induction converted with
  | nil => exact absurd member List.not_mem_nil
  | @cons first own _ _ isOwn _ ih =>
    rw [List.flatten_cons]
    rcases List.mem_cons.mp member with rfl | inRest
    · exact ⟨own, isOwn, List.sublist_append_left _ _⟩
    · obtain ⟨found, isFound, sublist⟩ := ih inRest
      exact ⟨found, isFound, sublist.trans (List.sublist_append_right _ _)⟩

/-- The nodes of a document that can be converted. -/
def nodesOf (schema : Schema) (source : SourceDocument) : List Node :=
  (Node.ofDocument schema source.document).toOption.getD []

theorem ContextOf.nodes_eq {schema : Schema} {sources : List SourceDocument} {context : Context}
    (holds : ContextOf schema sources context) :
    context.nodes = sources.flatMap (nodesOf schema) := by
  obtain ⟨nodes, converted, all⟩ := holds.converted
  rw [all]
  clear all holds
  induction converted with
  | nil => rfl
  | cons isOwn _ ih => rw [List.flatten_cons, List.flatMap_cons, ih, nodesOf, isOwn]; rfl

theorem foldlM_addNode {path : Path} {context larger : Context} {nodes : List Node}
    (added : nodes.foldlM (addNode path) context = .ok larger) (distinct : context.names.Nodup) :
    larger.nodes = context.nodes ++ nodes ∧ larger.names.Nodup := by
  induction nodes generalizing context with
  | nil =>
    cases added
    simpa using distinct
  | cons node rest ih =>
    rw [List.foldlM_cons] at added
    cases first : context.add node with
    | error violation => simp [addNode, first, bind, Except.bind] at added
    | ok next =>
      simp only [addNode, first, bind, Except.bind] at added
      obtain ⟨fresh, rfl⟩ := Context.add_eq_ok first
      rw [Context.get?_eq_none] at fresh
      have nextDistinct : Context.names ⟨context.nodes ++ [node]⟩ |>.Nodup := by
        simpa [Context.names, List.nodup_append] using ⟨distinct, by simpa [Context.names] using fresh⟩
      obtain ⟨all, stillDistinct⟩ := ih added nextDistinct
      exact ⟨by simp [all], stillDistinct⟩

theorem addDocument_eq_ok {schema : Schema} {types : FragmentTypes} {context larger : Context}
    {source : SourceDocument} (added : addDocument schema types context source = .ok larger)
    (distinct : context.names.Nodup) :
    validate schema source.document types ViolatedRule.standard = [] ∧
      ∃ nodes, Node.ofDocument schema source.document = .ok nodes ∧ larger.nodes = context.nodes ++ nodes ∧
        larger.names.Nodup := by
  unfold addDocument at added
  by_cases valid : (validate schema source.document types ViolatedRule.standard).isEmpty = true
  · simp only [valid, if_true] at added
    cases converted : Node.ofDocument schema source.document with
    | error violations => simp [converted] at added
    | ok nodes =>
      simp only [converted] at added
      obtain ⟨all, stillDistinct⟩ := foldlM_addNode added distinct
      exact ⟨List.isEmpty_iff.mp valid, nodes, rfl, all, stillDistinct⟩
  · simp [valid] at added

theorem foldlM_addDocument {schema : Schema} {types : FragmentTypes} {context larger : Context}
    {sources : List SourceDocument} (added : sources.foldlM (addDocument schema types) context = .ok larger)
    (distinct : context.names.Nodup) :
    (∀ source ∈ sources, validate schema source.document types ViolatedRule.standard = []) ∧
      (∃ nodes : List (List Node), List.Forall₂ (fun source nodes =>
        Node.ofDocument schema source.document = .ok nodes) sources nodes ∧
          larger.nodes = context.nodes ++ nodes.flatten) ∧ larger.names.Nodup := by
  induction sources generalizing context with
  | nil =>
    cases added
    exact ⟨by simp, ⟨[], .nil, by simp⟩, distinct⟩
  | cons source rest ih =>
    rw [List.foldlM_cons] at added
    cases first : addDocument schema types context source with
    | error rejection => simp [first, bind, Except.bind] at added
    | ok next =>
      simp only [first, bind, Except.bind] at added
      obtain ⟨valid, nodes, converted, atNext, nextDistinct⟩ := addDocument_eq_ok first distinct
      obtain ⟨allValid, ⟨others, allConverted, all⟩, stillDistinct⟩ := ih added nextDistinct
      refine ⟨List.forall_mem_cons.mpr ⟨valid, allValid⟩, ⟨nodes :: others, .cons converted allConverted, ?_⟩,
        stillDistinct⟩
      rw [all, atNext, List.flatten_cons, List.append_assoc]

/-- Documents that compile have a context without unknown fragments, and their queries are printed from it. -/
theorem compileDocuments_eq_ok {schema : Schema} {sources : List SourceDocument} {compiled : CompiledQueries}
    (ok : compileDocuments schema sources = .ok compiled) :
    ∃ context, ContextOf schema sources context ∧ context.unknownFragments = [] ∧
      compiled = (context.nodes.filterMap (printedQuery? sources context.normalize)).foldl
        (fun compiled query => CompiledQueries.insert query compiled) [] := by
  unfold compileDocuments at ok
  cases folded : sources.foldlM (addDocument schema (fragmentTypes sources)) {} with
  | error rejection => simp [folded, bind, Except.bind] at ok
  | ok context =>
    obtain ⟨valid, ⟨nodes, converted, all⟩, distinct⟩ := foldlM_addDocument folded List.nodup_nil
    cases known : context.unknownFragments with
    | cons unknown rest => simp [folded, checkFragments, known, bind, Except.bind] at ok
    | nil =>
      simp only [folded, checkFragments, known, bind, Except.bind, pure, Except.pure, Except.ok.injEq] at ok
      exact ⟨context, ⟨valid, ⟨nodes, converted, by simpa using all⟩, distinct⟩, known, ok.symm⟩

theorem exists_compiled {schema : Schema} {sources : List SourceDocument}
    (accepted : (compileDocuments schema sources).toOption.isSome = true) :
    ∃ compiled, compileDocuments schema sources = .ok compiled := by
  cases outcome : compileDocuments schema sources with
  | ok compiled => exact ⟨compiled, rfl⟩
  | error rejection =>
    rw [outcome] at accepted
    exact absurd accepted nofun

end SiteQuery.Compilation
