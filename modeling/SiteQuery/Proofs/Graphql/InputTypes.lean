import SiteQuery.Proofs.Graphql.Parsed
import SiteQuery.Proofs.Graphql.References
import SiteQuery.Proofs.Graphql.Substitution

/-!
The types of arguments and input fields, in a schema that is read.

No mark for non-null follows another in a text. So these types are proper in all that is read, in definitions as in
extensions, and in the schema that is built: `Schema.isProper_of_parse`.
-/

namespace SiteQuery.Graphql

open Grammar

theorem TypeReference.Printable.isProper {type : TypeReference} (printable : type.Printable) : type.IsProper := by
  induction type with
  | named => trivial
  | list item ih => exact ih printable
  | nonNull inner ih => exact ⟨printable.2, ih printable.1⟩

/-- The types of all inputs are proper. -/
def InputDefinition.AllProper (inputs : List InputDefinition) : Prop := ∀ input ∈ inputs, input.type.IsProper

/-- The arguments of all fields, and the input fields. -/
def TypeDefinition.inputs (type : TypeDefinition) : List InputDefinition :=
  type.fields.flatMap (·.arguments) ++ type.inputFields

def SystemDefinition.inputs : SystemDefinition → List InputDefinition
  | schema _ => []
  | type definition => definition.inputs
  | extension additions => additions.inputs
  | directive definition => definition.arguments

namespace InputDefinition.AllProper

variable {inputs others : List InputDefinition} {type additions : TypeDefinition}

theorem append (proper : AllProper inputs) (properOthers : AllProper others) : AllProper (inputs ++ others) :=
  List.forall_mem_append.mpr ⟨proper, properOthers⟩

theorem find? {name : String} {input : InputDefinition} (proper : AllProper inputs)
    (found : InputDefinition.find? inputs name = some input) : input.type.IsProper :=
  proper input (List.mem_of_find?_eq_some found)

theorem ofArguments (proper : AllProper type.inputs) : AllProper (type.fields.flatMap (·.arguments)) :=
  fun input member => proper input (List.mem_append_left _ member)

theorem ofField {field : FieldDefinition} (proper : AllProper type.inputs) (member : field ∈ type.fields) :
    AllProper field.arguments :=
  fun input given => proper.ofArguments input (List.mem_flatMap.mpr ⟨field, member, given⟩)

theorem ofInputFields (proper : AllProper type.inputs) : AllProper type.inputFields :=
  fun input member => proper input (List.mem_append_right _ member)

theorem addField {field : FieldDefinition} (proper : AllProper type.inputs) (properField : AllProper field.arguments) :
    AllProper (TypeDefinition.inputs { type with fields := type.fields ++ [field] }) := by
  have ofFields : AllProper ((type.fields ++ [field]).flatMap (·.arguments)) := by
    rw [List.flatMap_append, List.flatMap_singleton]
    exact proper.ofArguments.append properField
  exact ofFields.append proper.ofInputFields

theorem addInputField {input : InputDefinition} (proper : AllProper type.inputs) (isProper : input.type.IsProper) :
    AllProper (TypeDefinition.inputs { type with inputFields := type.inputFields ++ [input] }) := by
  have ofNew : AllProper [input] := List.forall_mem_singleton.mpr isProper
  exact proper.ofArguments.append (proper.ofInputFields.append ofNew)

theorem extend (proper : AllProper type.inputs) (properAdditions : AllProper additions.inputs) :
    AllProper (type.extend additions).inputs := by
  have ofFields : AllProper ((type.fields ++ additions.fields).flatMap (·.arguments)) := by
    rw [List.flatMap_append]
    exact proper.ofArguments.append properAdditions.ofArguments
  exact ofFields.append (proper.ofInputFields.append properAdditions.ofInputFields)

end InputDefinition.AllProper

section Reading

open InputDefinition (AllProper)

variable {places : Places} {parts : List SyntaxTree}

/-- The types in a tree are proper. -/
abbrev HasProperTypes (tree : SyntaxTree) : Prop :=
  tree.HasTokens fun rule text => rule = .typeText → (TypeReference.ofText text).IsProper

theorem hasProperTypes_of_treesOf {rule : Rule} {text : List Char} {trees : List SyntaxTree}
    (read : Document.treesOf rule text = .ok trees) : ∀ tree ∈ trees, HasProperTypes tree := by
  obtain ⟨rest, isMatch⟩ : ∃ rest, grammar.match? rule text = some (trees, rest) := by
    unfold Document.treesOf at read
    split at read
    · rename_i found isParsed
      cases Except.ok.inj read
      exact Grammar.parse_eq_ok.mp isParsed
    · cases read
  refine Grammar.hasTokens_of_match? (fun own input left text rest isToken isType => ?_) isMatch
  subst isType
  obtain ⟨_, _, same, printable⟩ := Yields.typeText ⟨input, rest, isToken⟩
  cases same
  exact printable.isProper

namespace HasProperTypes

theorem of_cons {tree : SyntaxTree} (areProper : ∀ part ∈ tree :: parts, HasProperTypes part) :
    ∀ part ∈ parts, HasProperTypes part :=
  fun part member => areProper part (List.mem_cons_of_mem _ member)

theorem of_token {left : Nat} {text : List Char}
    (areProper : ∀ part ∈ .token .typeText left text :: parts, HasProperTypes part) :
    (TypeReference.ofText text).IsProper := by
  cases areProper _ List.mem_cons_self with
  | token here => exact here rfl

theorem of_branch {rule : Rule} {left leftAfter : Nat} {inner : List SyntaxTree}
    (areProper : ∀ part ∈ .branch rule left leftAfter inner :: parts, HasProperTypes part) :
    ∀ part ∈ inner, HasProperTypes part := by
  cases areProper _ List.mem_cons_self with
  | branch inside => exact inside

end HasProperTypes

namespace SystemDefinition

theorem proper_of_readInput {done input : InputDefinition} (areProper : ∀ part ∈ parts, HasProperTypes part)
    (read : readInput places done parts = .ok input) (proper : done.type.IsProper) : input.type.IsProper := by
  fun_induction readInput places done parts with
  | case1 done => exact Except.ok.inj read ▸ proper
  | case2 _ _ _ _ ih => exact ih (.of_cons areProper) read proper
  | case3 _ _ _ _ ih => exact ih (.of_cons areProper) read (HasProperTypes.of_token areProper)
  | case4 _ _ _ _ _ ih =>
    obtain ⟨_, _, more⟩ := bind_eq_ok read
    exact ih (.of_cons areProper) more proper
  | case5 _ _ _ _ _ _ ih =>
    obtain ⟨value, _, more⟩ := bind_eq_ok read
    exact ih value (.of_cons areProper) more proper

theorem allProper_of_readInputs {inputs : List InputDefinition} (areProper : ∀ part ∈ parts, HasProperTypes part)
    (read : readInputs places parts = .ok inputs) : AllProper inputs := by
  fun_induction readInputs places parts generalizing inputs with
  | case1 _ _ inner _ ih =>
    obtain ⟨input, isInput, more⟩ := bind_eq_ok read
    obtain ⟨others, areOthers, same⟩ := bind_eq_ok more
    cases Except.ok.inj same
    have isProper := proper_of_readInput (.of_branch areProper) isInput trivial
    exact List.forall_mem_cons.mpr ⟨isProper, ih (.of_cons areProper) areOthers⟩
  | case2 _ _ _ ih => exact ih (.of_cons areProper) read
  | case3 =>
    cases Except.ok.inj read
    exact List.forall_mem_nil _

theorem allProper_of_readField {done field : FieldDefinition} (areProper : ∀ part ∈ parts, HasProperTypes part)
    (read : readField places done parts = .ok field) (proper : AllProper done.arguments) :
    AllProper field.arguments := by
  fun_induction readField places done parts with
  | case1 done => exact Except.ok.inj read ▸ proper
  | case2 _ _ _ _ ih => exact ih (.of_cons areProper) read proper
  | case3 _ _ _ _ ih => exact ih (.of_cons areProper) read proper
  | case4 _ _ _ inner _ ih =>
    obtain ⟨arguments, areArguments, more⟩ := bind_eq_ok read
    have ofArguments := allProper_of_readInputs (.of_branch areProper) areArguments
    exact ih arguments (.of_cons areProper) more ofArguments
  | case5 _ _ _ _ _ ih =>
    obtain ⟨_, _, more⟩ := bind_eq_ok read
    exact ih (.of_cons areProper) more proper
  | case6 _ _ _ _ _ _ _ ih => exact ih (.of_cons areProper) read proper

theorem allProper_of_readType {done type : TypeDefinition} (areProper : ∀ part ∈ parts, HasProperTypes part)
    (read : readType places done parts = .ok type) (proper : AllProper done.inputs) : AllProper type.inputs := by
  fun_induction readType places done parts with
  | case1 done => exact Except.ok.inj read ▸ proper
  | case2 _ _ _ _ ih => exact ih (.of_cons areProper) read proper
  | case3 _ _ _ _ _ ih =>
    obtain ⟨_, _, more⟩ := bind_eq_ok read
    exact ih (.of_cons areProper) more proper
  | case4 _ _ _ _ _ ih => exact ih (.of_cons areProper) read proper
  | case5 _ _ _ _ _ ih => exact ih (.of_cons areProper) read proper
  | case6 _ _ _ inner _ ih =>
    obtain ⟨field, isField, more⟩ := bind_eq_ok read
    have ofArguments := allProper_of_readField (.of_branch areProper) isField (List.forall_mem_nil _)
    exact ih field (.of_cons areProper) more (proper.addField ofArguments)
  | case7 _ _ _ inner _ ih =>
    obtain ⟨input, isInput, more⟩ := bind_eq_ok read
    have isProper := proper_of_readInput (.of_branch areProper) isInput trivial
    exact ih input (.of_cons areProper) more (proper.addInputField isProper)
  | case8 _ _ _ _ _ ih =>
    obtain ⟨_, _, more⟩ := bind_eq_ok read
    exact ih (.of_cons areProper) more proper
  | case9 _ _ _ _ _ _ _ _ _ _ ih => exact ih (.of_cons areProper) read proper

theorem allProper_of_readTypeOf {kind : TypeKind} {definition? : Option SystemDefinition}
    (areProper : ∀ part ∈ parts, HasProperTypes part)
    (read : some <$> readTypeOf places kind parts = .ok definition?) :
    ∀ definition ∈ definition?, AllProper definition.inputs := by
  obtain ⟨definition, isRead, rfl⟩ := map_eq_ok read
  obtain ⟨type, isType, same⟩ := bind_eq_ok isRead
  cases Except.ok.inj same
  have proper := allProper_of_readType areProper isType (List.forall_mem_nil _)
  rintro _ ⟨⟩
  split <;> exact proper

theorem allProper_of_read {tree : SyntaxTree} {definition? : Option SystemDefinition} (isProper : HasProperTypes tree)
    (isRead : read places tree = .ok definition?) : ∀ definition ∈ definition?, AllProper definition.inputs := by
  have inBranch {rule : Rule} {left leftAfter : Nat} {inner : List SyntaxTree}
      (isBranch : HasProperTypes (.branch rule left leftAfter inner)) : ∀ part ∈ inner, HasProperTypes part :=
    HasProperTypes.of_branch (List.forall_mem_singleton.mpr isBranch)
  unfold read at isRead
  split at isRead
  · obtain ⟨_, _, more⟩ := bind_eq_ok isRead
    obtain ⟨roots, _, last⟩ := bind_eq_ok more
    split at last
    · cases last
    · cases Except.ok.inj last
      rintro _ ⟨⟩
      exact List.forall_mem_nil _
  any_goals exact allProper_of_readTypeOf (inBranch isProper) isRead
  · obtain ⟨field, isField, same⟩ := bind_eq_ok isRead
    cases Except.ok.inj same
    rintro _ ⟨⟩
    exact allProper_of_readField (inBranch isProper) isField (List.forall_mem_nil _)
  · cases Except.ok.inj isRead
    nofun

theorem allProper_of_parse {text : String} {definitions : List SystemDefinition}
    (parsed : parse text = .ok definitions) : ∀ definition ∈ definitions, AllProper definition.inputs := by
  obtain ⟨trees, areTrees, more⟩ := bind_eq_ok parsed
  obtain ⟨read, areRead, same⟩ := bind_eq_ok more
  cases Except.ok.inj same
  intro definition member
  obtain ⟨definition?, isSome, same⟩ := List.mem_filterMap.mp member
  obtain ⟨tree, inTrees, isRead⟩ := mem_of_mapM_eq_ok areRead definition? isSome
  exact allProper_of_read (hasProperTypes_of_treesOf areTrees tree inTrees) isRead definition same

end SystemDefinition

end Reading

namespace Schema

open InputDefinition (AllProper)

variable {schema : Schema} {definitions : List SystemDefinition}

theorem allProper_insert {type : TypeDefinition} {types : List TypeDefinition} (proper : AllProper type.inputs)
    (areProper : ∀ other ∈ types, AllProper other.inputs) : ∀ other ∈ type.insert types, AllProper other.inputs := by
  induction types with
  | nil => exact List.forall_mem_singleton.mpr proper
  | cons first rest ih =>
    obtain ⟨ofFirst, ofRest⟩ := List.forall_mem_cons.mp areProper
    rw [TypeDefinition.insert]
    split
    · exact List.forall_mem_cons.mpr ⟨proper, ofRest⟩
    · exact List.forall_mem_cons.mpr ⟨ofFirst, ih ofRest⟩

theorem allProper_applyExtension {types larger : List TypeDefinition} {additions : TypeDefinition}
    (areProper : ∀ type ∈ types, AllProper type.inputs) (proper : AllProper additions.inputs)
    (extended : applyExtension types additions = .ok larger) : ∀ type ∈ larger, AllProper type.inputs := by
  unfold applyExtension at extended
  split at extended
  · cases extended
  · rename_i type found
    cases Except.ok.inj extended
    have ofType := areProper type (List.mem_of_find?_eq_some found)
    exact allProper_insert (ofType.extend proper) areProper

theorem allProper_foldlM {types larger extensions : List TypeDefinition}
    (areProper : ∀ type ∈ types, AllProper type.inputs)
    (ofExtensions : ∀ additions ∈ extensions, AllProper additions.inputs)
    (extended : extensions.foldlM applyExtension types = .ok larger) : ∀ type ∈ larger, AllProper type.inputs := by
  induction extensions generalizing types with
  | nil => exact Except.ok.inj extended ▸ areProper
  | cons first rest ih =>
    obtain ⟨next, isNext, onward⟩ := bind_eq_ok extended
    obtain ⟨ofFirst, ofRest⟩ := List.forall_mem_cons.mp ofExtensions
    exact ih (allProper_applyExtension areProper ofFirst isNext) ofRest onward

/-- All inputs that are waiting to be part of a schema have proper types. -/
structure Draft.IsProper (draft : Draft) : Prop where
  types : ∀ type ∈ draft.types, AllProper type.inputs
  extensions : ∀ additions ∈ draft.extensions, AllProper additions.inputs
  directives : ∀ directive ∈ draft.directives, AllProper directive.arguments

theorem Draft.IsProper.add {draft : Draft} {definition : SystemDefinition} (isProper : draft.IsProper)
    (ofDefinition : AllProper definition.inputs) : (draft.add definition).IsProper := by
  obtain ⟨types, extensions, directives⟩ := isProper
  cases definition with
  | schema => exact ⟨types, extensions, directives⟩
  | type => exact ⟨allProper_insert ofDefinition types, extensions, directives⟩
  | extension =>
    exact ⟨types, List.forall_mem_append.mpr ⟨extensions, List.forall_mem_singleton.mpr ofDefinition⟩, directives⟩
  | directive =>
    refine ⟨types, extensions, fun directive member => ?_⟩
    rcases DirectiveDefinition.eq_or_mem_of_mem_insert member with rfl | old
    · exact ofDefinition
    · exact directives directive old

theorem Draft.isProper_foldl {draft : Draft} (isProper : draft.IsProper)
    (areProper : ∀ definition ∈ definitions, AllProper definition.inputs) :
    (definitions.foldl Draft.add draft).IsProper := by
  induction definitions generalizing draft with
  | nil => exact isProper
  | cons first rest ih =>
    obtain ⟨ofFirst, ofRest⟩ := List.forall_mem_cons.mp areProper
    exact ih (isProper.add ofFirst) ofRest

theorem Draft.isProper_start : ({} : Draft).IsProper where
  types := by simp [builtinScalars, AllProper, TypeDefinition.inputs]
  extensions := List.forall_mem_nil _
  directives := by
    simp [builtinDirectives, conditionArgument, AllProper, TypeReference.IsProper, TypeReference.isNonNull]

/-- All inputs of a schema have proper types. -/
structure IsProper (schema : Schema) : Prop where
  types : ∀ type ∈ schema.types, AllProper type.inputs
  directives : ∀ directive ∈ schema.directives, AllProper directive.arguments

theorem isProper_of_parse {text : String} (parsed : Schema.parse text = .ok schema) : schema.IsProper := by
  obtain ⟨definitions, isRead, built⟩ := parse_eq_ok parsed
  obtain ⟨extended, sameDirectives⟩ := types_of_ofDefinitions built
  have drafted := Draft.isProper_foldl Draft.isProper_start (SystemDefinition.allProper_of_parse isRead)
  exact ⟨allProper_foldlM drafted.types drafted.extensions extended, sameDirectives ▸ drafted.directives⟩

namespace IsProper

variable {name : String}

theorem ofField (isProper : schema.IsProper) {parent : String} {definition : FieldDefinition}
    (defined : schema.field? parent name = some definition) : AllProper definition.arguments := by
  unfold field? at defined
  split at defined
  · cases defined
  · rename_i type known
    split at defined
    · cases defined
      exact List.forall_mem_nil _
    · exact (isProper.types type (List.mem_of_find?_eq_some known)).ofField (List.mem_of_find?_eq_some defined)

theorem ofDirective (isProper : schema.IsProper) {definition : DirectiveDefinition}
    (known : schema.directive? name = some definition) : AllProper definition.arguments :=
  isProper.directives definition (List.mem_of_find?_eq_some known)

theorem hasProperInputs (isProper : schema.IsProper) : schema.HasProperInputs := by
  intro name definition known key input declared
  exact (isProper.types definition (List.mem_of_find?_eq_some known)).ofInputFields.find? declared

end IsProper

end Schema

end SiteQuery.Graphql
