import SiteQuery.Compilation.Project
import SiteQuery.Proofs.Script.Walk

/-!
The files that are not parsed, as their text is without the name of the tag.

In such a text a tag can only be written with an escape, so nothing is lost with a file whose own template is not
written so: `sourceDocument?_of_hidden`.
-/

namespace SiteQuery

open Compilation Script

namespace Script.Module

theorem decodeName_eq_self {name : List Char} (plain : '\\' ∉ name) : decodeName name = name := by
  induction name with
  | nil => rw [decodeName]
  | cons c rest ih =>
    rw [List.mem_cons, not_or] at plain
    obtain ⟨notEscape, plain⟩ := plain
    rw [decodeName, ih plain]
    · rintro others rfl
      exact absurd rfl notEscape
    · rintro _ _ _ _ _ rfl
      exact absurd rfl notEscape

/-- The tag of a template stands in the text in a spelling with an escape. -/
def SpelledWithEscape (code tag : String) (found : TagMatch) : Prop :=
  ∃ before name after, withoutMark code.toList = before ++ (name ++ after) ∧ byteCount before = found.start ∧
    nameOf name = tag ∧ '\\' ∈ name

end Script.Module

namespace Compilation

variable {tag code : String} {path : Path} {parsed : Module}

theorem occurs_iff_isInfix {part text : List Char} : occurs part text = true ↔ part <:+: text := by
  induction text with
  | nil => simp [occurs]
  | cons c rest ih => simp [occurs, ih, List.infix_cons_iff]

/-- The document of a file that is parsed, whatever its text. -/
def parsedDocument? (tag : String) (path : Path) (code : String) : Except CompileError (Option SourceDocument) :=
  match Module.parse? (.ofPath path) code with
  | none => .error (.notModule path)
  | some parsed =>
    match parsed.primaryTag? tag with
    | none => .ok none
    | some (found, _) =>
      match found.document with
      | .error error => .error (.tag path error)
      | .ok document => .ok (some ⟨path, document⟩)

theorem sourceDocument?_eq (tag : String) (path : Path) (code : String) :
    sourceDocument? tag path code =
      if occurs tag.toList code.toList then parsedDocument? tag path code else .ok none := rfl

theorem spelledWithEscape_of_mem {dialect : Dialect} (hidden : occurs tag.toList code.toList = false)
    (isModule : Module.parse? dialect code = some parsed) {found : TagMatch} (member : found ∈ parsed.tags tag) :
    Module.SpelledWithEscape code tag found := by
  obtain ⟨trees, rest, -, walks⟩ := Module.walks_of_parse? isModule
  obtain ⟨before, name, after, isText, isStart, isTag⟩ := (Module.stands_of_mem walks member).spelled (List.suffix_refl _)
  refine ⟨before, name, after, isText, isStart, isTag, ?_⟩
  -- without an escape the name would be the tag itself, which is nowhere in the text
  refine Decidable.byContradiction fun plain => ?_
  have isName : name = tag.toList := by
    rw [← isTag, Module.nameOf, Module.decodeName_eq_self plain, String.toList_ofList]
  have inText : tag.toList <:+: Module.withoutMark code.toList :=
    ⟨before, after, by rw [isText, isName, List.append_assoc]⟩
  have isVisible := occurs_iff_isInfix.mpr (inText.trans (Module.withoutMark_suffix _).isInfix)
  rw [hidden] at isVisible
  cases isVisible

/-- A module whose text is without the name of the tag has no template, but for those that spell it with an escape. If
the one that stands for the module is none of these, there is none, and parsing the file gives the same. -/
theorem sourceDocument?_of_hidden (hidden : occurs tag.toList code.toList = false)
    (isModule : Module.parse? (.ofPath path) code = some parsed) :
    (∀ found ∈ parsed.tags tag, Module.SpelledWithEscape code tag found) ∧
      ((∀ found others, parsed.primaryTag? tag = some (found, others) → ¬ Module.SpelledWithEscape code tag found) →
        parsed.primaryTag? tag = none ∧ sourceDocument? tag path code = parsedDocument? tag path code) := by
  have escaped (found : TagMatch) (member : found ∈ parsed.tags tag) : Module.SpelledWithEscape code tag found :=
    spelledWithEscape_of_mem hidden isModule member
  refine ⟨escaped, fun plain => ?_⟩
  have noTemplate : parsed.primaryTag? tag = none := by
    rw [Option.eq_none_iff_forall_ne_some]
    rintro ⟨found, others⟩ primary
    obtain ⟨item, isFound, same⟩ := Option.map_eq_some_iff.mp primary
    obtain rfl := (Prod.mk.inj same).1
    exact plain item others primary (escaped item (List.mem_of_find?_eq_some isFound))
  refine ⟨noTemplate, ?_⟩
  rw [sourceDocument?_eq, if_neg (by simp [hidden])]
  simp only [parsedDocument?, isModule, noTemplate]

/-- A page that exports no template, and spells the tag of another with an escape. -/
def escapedHelper : String := "export let a=b;let c=gr\\u0061phql\x60query A\x7ba\x7d\x60"

def escapedPage : String := "export let pageQuery=gr\\u0061phql\x60query A\x7ba\x7d\x60"

set_option maxRecDepth 20000 in
theorem sourceDocument?_escapedHelper : ∃ parsed, Module.parse? (.ofPath ⟨"/a.js"⟩) escapedHelper = some parsed ∧
    (parsed.tags "graphql").map (·.start) = [21] ∧ parsed.primaryTag? "graphql" = none ∧
    sourceDocument? "graphql" ⟨"/a.js"⟩ escapedHelper = parsedDocument? "graphql" ⟨"/a.js"⟩ escapedHelper := by
  have read : ∃ parsed ∈ Module.parse? (.ofPath ⟨"/a.js"⟩) escapedHelper,
      (parsed.tags "graphql").map (·.start) = [21] ∧ (parsed.primaryTag? "graphql").isNone = true := by decide +kernel
  have hidden : occurs "graphql".toList escapedHelper.toList = false := by decide +kernel
  obtain ⟨parsed, isModule, starts, noTemplate⟩ := read
  have isNone := Option.isNone_iff_eq_none.mp noTemplate
  have plain (found : TagMatch) (others : Nat) (primary : parsed.primaryTag? "graphql" = some (found, others)) :
      ¬ Module.SpelledWithEscape escapedHelper "graphql" found := by
    cases isNone.symm.trans primary
  exact ⟨parsed, isModule, starts, (sourceDocument?_of_hidden hidden isModule).2 plain⟩

set_option maxRecDepth 20000 in
/-- The template of the page is found when the page is parsed, and lost as it is not. -/
theorem escapedPage_hidden : occurs "graphql".toList escapedPage.toList = false ∧
    (∃ parsed ∈ Module.parse? (.ofPath ⟨"/a.js"⟩) escapedPage, (parsed.primaryTag? "graphql").isSome = true) ∧
    (sourceDocument? "graphql" ⟨"/a.js"⟩ escapedPage).toOption.map (·.isSome) = some false ∧
    (parsedDocument? "graphql" ⟨"/a.js"⟩ escapedPage).toOption.map (·.isSome) = some true := by
  decide +kernel

end Compilation

end SiteQuery
