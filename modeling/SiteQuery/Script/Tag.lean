import SiteQuery.Graphql.Document.Reader
import SiteQuery.Script.Module
import SiteQuery.Text.Blank

/-!
Query tags: the tagged templates of a module whose tag is the configured name, and the documents in them.
-/

namespace SiteQuery.Script

open Graphql

inductive TagError where
  | substitution
  | empty
  | unsupportedOperation (kind : OperationKind)
  | ungrammatical (detail : ReadError)
deriving DecidableEq, Repr

def TagError.message : TagError → String
  | substitution =>
    "Substitutions are not allowed in graphql fragments. "
      ++ "Included fragments should be referenced as \x60...MyModule_foo\x60."
  | empty => "Unexpected empty graphql tag."
  | unsupportedOperation kind =>
    "Only \x60query\x60 operations are supported, found \x60" ++ kind.keyword ++ "\x60."
  | ungrammatical detail => detail.message

/-- The document of a template: one stretch of text with at least one definition. -/
def readTemplate (texts : List String) : Except TagError Document :=
  match texts with
  | [text] =>
    if (trimBlank text.toList).isEmpty then .error .empty
    else
      match Document.parse text with
      | .error detail => .error (.ungrammatical detail)
      | .ok document => if document.definitions.isEmpty then .error .empty else .ok document
  | _ => .error .substitution

/-- Only queries are compiled, so a document that starts with another operation is refused. -/
def checkTagDocument (document : Except TagError Document) : Except TagError Unit :=
  match document with
  | .error error => .error error
  | .ok document =>
    match document.first? with
    | some (.operation operation) =>
      if operation.kind = .query then .ok () else .error (.unsupportedOperation operation.kind)
    | _ => .ok ()

structure TagMatch where
  /-- The name that the innermost declarator around the template binds. -/
  binding? : Option String
  /-- Within an exported declaration. -/
  exported : Bool
  start : Nat
  stop : Nat
  document : Except TagError Document

namespace Outline

mutual

def tags (tag : String) (binding? : Option String) (isExported : Bool) : Outline → List TagMatch
  | tagged name start stop texts parts =>
    let inner := tagsIn tag binding? isExported parts
    if name = tag then ⟨binding?, isExported, start, stop, readTemplate texts⟩ :: inner else inner
  | declarator name? parts => tagsIn tag name? isExported parts
  | exported parts => tagsIn tag binding? true parts
  | placeholder _ => []

def tagsIn (tag : String) (binding? : Option String) (isExported : Bool) : List Outline → List TagMatch
  | [] => []
  | part :: rest => tags tag binding? isExported part ++ tagsIn tag binding? isExported rest

end

end Outline

namespace Module

def tags (source : Module) (tag : String) : List TagMatch := Outline.tagsIn tag none false source.parts

/-- The template that a module contributes, the first exported one with a binding, and the count of the others. -/
def primaryTag? (source : Module) (tag : String) : Option (TagMatch × Nat) :=
  let found := source.tags tag
  (found.find? fun item => item.exported && item.binding?.isSome).map fun item => (item, found.length - 1)

end Module

end SiteQuery.Script
