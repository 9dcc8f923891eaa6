import SiteQuery.Proofs.Graphql.Printing
import SiteQuery.Proofs.Grammar.Continued

/-!
What the reading of a tree depends on, and how it fails.

A tree is read the same further from the end of a text, with the places counted from there. A tree that is not read has
a number that is too large or too many levels of selections; no other error comes from a part of a document.
-/

namespace SiteQuery.Graphql

open Grammar

namespace Places

theorem ofText_eq_foldl (text : List Char) (left : Nat) :
    Places.ofText text left = (text.take (text.length - left)).foldl Position.after .start := by
  have found := Position.getElem?_table (text.take (text.length - left)) (text.drop (text.length - left)) .start
  rw [List.take_append_drop, List.length_take, Nat.min_eq_left (Nat.sub_le _ _)] at found
  simp [Places.ofText, Array.getD_eq_getD_getElem?, found]

/-- The places counted from further on. -/
def shift (more : Nat) (places : Places) : Places := fun left => places (left + more)

theorem shift_ofText (text others : List Char) : (Places.ofText (text ++ others)).shift others.length = Places.ofText text := by
  funext left
  have sameIndex : (text ++ others).length - (left + others.length) = text.length - left := by
    rw [List.length_append]
    omega
  rw [shift, ofText_eq_foldl, ofText_eq_foldl, sameIndex, List.take_append_of_le_length (Nat.sub_le _ _)]

end Places

namespace Document

variable {more : Nat} {places : Places}

section Shifting

theorem left_shift (tree : SyntaxTree) : (tree.shift more).left = tree.left + more := by cases tree <;> rfl

theorem nameOf_shift (tree : SyntaxTree) : nameOf (tree.shift more) = nameOf tree := by
  cases tree with
  | token => rfl
  | branch rule left leftAfter parts =>
    cases parts with
    | nil => rfl
    | cons first rest => cases first <;> rfl

mutual

theorem readValue_shift : (tree : SyntaxTree) → readValue places (tree.shift more) = readValue (places.shift more) tree
  | .token rule left text => by cases rule <;> rfl
  | .branch rule left leftAfter parts => by
    cases rule
    case variableName =>
      cases parts with
      | nil => rfl
      | cons name rest => exact congrArg (fun name => Except.ok (Value.reference name)) (nameOf_shift name)
    case enumValue =>
      cases parts with
      | nil => rfl
      | cons name rest => exact congrArg (fun name => Except.ok (Value.enum name)) (nameOf_shift name)
    case string =>
      rcases parts with _ | ⟨⟨rule, _, _⟩ | _, _ | _⟩
      case cons.token.nil => cases rule <;> rfl
      case cons.token.cons => cases rule <;> rfl
      all_goals rfl
    case list | constList => exact congrArg (Value.list <$> ·) (readItems_shift parts)
    case object | constObject => exact congrArg (Value.object <$> ·) (readFields_shift [] parts)
    all_goals rfl

theorem readItems_shift : (trees : List SyntaxTree) →
    readItems places (SyntaxTree.shiftAll more trees) = readItems (places.shift more) trees
  | [] => rfl
  | item :: rest => by rw [SyntaxTree.shiftAll, readItems, readItems, readValue_shift item, readItems_shift rest]

theorem readFields_shift (seen : List (String × Value)) : (trees : List SyntaxTree) →
    readFields places seen (SyntaxTree.shiftAll more trees) = readFields (places.shift more) seen trees
  | [] => rfl
  | .branch _ _ _ [key, item] :: rest => by
    simp only [SyntaxTree.shiftAll, SyntaxTree.shift, readFields, nameOf_shift, readValue_shift item, readFields_shift _ rest]
  | .token _ _ _ :: rest | .branch _ _ _ [] :: rest | .branch _ _ _ [_] :: rest => readFields_shift seen rest
  | .branch _ _ _ (_ :: _ :: _ :: _) :: rest => readFields_shift seen rest

end

theorem readArguments_shift : (trees : List SyntaxTree) →
    readArguments places (SyntaxTree.shiftAll more trees) = readArguments (places.shift more) trees
  | [] => rfl
  | .branch _ _ _ [name, item] :: rest => by
    simp only [SyntaxTree.shiftAll, SyntaxTree.shift, readArguments, nameOf_shift, readValue_shift, left_shift,
      readArguments_shift rest]
    rfl
  | .token _ _ _ :: rest | .branch _ _ _ [] :: rest | .branch _ _ _ [_] :: rest => readArguments_shift rest
  | .branch _ _ _ (_ :: _ :: _ :: _) :: rest => readArguments_shift rest

theorem readDirective_shift (trees : List SyntaxTree) :
    readDirective places (SyntaxTree.shiftAll more trees) = readDirective (places.shift more) trees := by
  cases trees with
  | nil => rfl
  | cons name arguments => simp only [SyntaxTree.shiftAll, readDirective, nameOf_shift, readArguments_shift]

theorem readVariable_shift (done : Variable) (trees : List SyntaxTree) :
    readVariable places done (SyntaxTree.shiftAll more trees) = readVariable (places.shift more) done trees := by
  induction trees generalizing done with
  | nil => rfl
  | cons tree rest ih =>
    -- any other tree is one of a default value
    have isDefault : (do
        let value ← readValue places (tree.shift more)
        readVariable places { done with default? := some ⟨value, places (tree.shift more).left⟩ }
          (SyntaxTree.shiftAll more rest)) = (do
        let value ← readValue (places.shift more) tree
        readVariable (places.shift more) { done with default? := some ⟨value, places.shift more tree.left⟩ } rest) := by
      simp only [readValue_shift, left_shift, ih]
      rfl
    cases tree with
    | token rule left text =>
      cases rule
      case typeText => exact ih _
      all_goals exact isDefault
    | branch rule left leftAfter parts =>
      cases rule
      case variableName =>
        rcases parts with _ | ⟨name, _ | _⟩
        case cons.nil =>
          simp only [SyntaxTree.shiftAll, SyntaxTree.shift, readVariable, nameOf_shift, ih]
        all_goals exact isDefault
      case directive => simp only [SyntaxTree.shiftAll, SyntaxTree.shift, readVariable, readDirective_shift, ih]
      all_goals exact isDefault

mutual

theorem readSelection_shift (depth : Nat) : (tree : SyntaxTree) →
    readSelection places depth (tree.shift more) = readSelection (places.shift more) depth tree
  | .token rule left text => by cases rule <;> rfl
  | .branch rule left leftAfter parts => by
    cases rule
    case field | inlineFragment | fragmentSpread =>
      simp only [SyntaxTree.shift, readSelection, readParts_shift depth {} parts]
      rfl
    all_goals rfl

theorem readSelections_shift (depth : Nat) : (trees : List SyntaxTree) →
    readSelections places depth (SyntaxTree.shiftAll more trees) = readSelections (places.shift more) depth trees
  | [] => rfl
  | tree :: rest => by
    rw [SyntaxTree.shiftAll, readSelections, readSelections, readSelection_shift depth tree, readSelections_shift depth rest]

theorem readPart_shift (depth : Nat) (parts : Parts) : (tree : SyntaxTree) →
    readPart places depth parts (tree.shift more) = readPart (places.shift more) depth parts tree
  | .token rule left text => by cases rule <;> rfl
  | .branch rule left leftAfter inner => by
    cases rule
    case selectionSet =>
      cases depth with
      | zero => rfl
      | succ depth =>
        simp only [SyntaxTree.shift, readPart, readSelections_shift depth inner]
        rfl
    case fieldAlias =>
      cases inner with
      | nil => rfl
      | cons name rest => simp only [SyntaxTree.shift, SyntaxTree.shiftAll, readPart, nameOf_shift]
    case typeCondition =>
      cases inner with
      | nil => rfl
      | cons name rest =>
        simp only [SyntaxTree.shift, SyntaxTree.shiftAll, readPart, nameOf_shift, left_shift]
        rfl
    case argument =>
      rcases inner with _ | ⟨name, _ | ⟨item, _ | _⟩⟩
      case cons.cons.nil =>
        simp only [SyntaxTree.shift, SyntaxTree.shiftAll, readPart, nameOf_shift, left_shift, readValue_shift]
        rfl
      all_goals rfl
    case directive => simp only [SyntaxTree.shift, readPart, readDirective_shift]
    case variableDefinition => simp only [SyntaxTree.shift, readPart, readVariable_shift]
    all_goals rfl

theorem readParts_shift (depth : Nat) (parts : Parts) : (trees : List SyntaxTree) →
    readParts places depth parts (SyntaxTree.shiftAll more trees) = readParts (places.shift more) depth parts trees
  | [] => by rw [SyntaxTree.shiftAll, readParts, readParts]
  | tree :: rest => by
    simp only [SyntaxTree.shiftAll, readParts, readPart_shift depth parts tree]
    congr 1
    funext next
    exact readParts_shift depth next rest

end

theorem readDefinition_shift (tree : SyntaxTree) :
    readDefinition places (tree.shift more) = readDefinition (places.shift more) tree := by
  cases tree with
  | token rule left text => cases rule <;> rfl
  | branch rule left leftAfter parts =>
    cases rule
    case namedOperation | fragmentDefinition =>
      simp only [SyntaxTree.shift, readDefinition, readParts_shift]
      rfl
    case selectionSet =>
      have shifted := @readParts_shift more places maximalDepth {} [.branch .selectionSet left leftAfter parts]
      simp only [SyntaxTree.shift, SyntaxTree.shiftAll] at shifted
      simp only [SyntaxTree.shift, readDefinition, shifted]
      rfl
    all_goals rfl

end Shifting

section Failures

/-- The error tells of a part of a document. -/
def IsOfPart : ReadError → Prop
  | .numberTooLarge _ | .recursionLimitExceeded => True
  | _ => False

def FailsInPart {Result : Type} (read : Read Result) : Prop := ∀ error, read = .error error → IsOfPart error

variable {Result Next : Type} {read : Read Result} {places : Places}

theorem FailsInPart.ok (result : Result) : FailsInPart (.ok result) := nofun

theorem FailsInPart.bind {next : Result → Read Next} (first : FailsInPart read)
    (others : ∀ result, FailsInPart (next result)) : FailsInPart (read >>= next) := by
  cases read with
  | error => exact fun error failed => first error (congrArg Except.error (Except.error.inj failed))
  | ok result => exact others result

theorem FailsInPart.map {next : Result → Next} (first : FailsInPart read) : FailsInPart (next <$> read) :=
  first.bind fun result => .ok (next result)

mutual

theorem failsInPart_readValue : (tree : SyntaxTree) → FailsInPart (readValue places tree)
  | .token rule left text => by
    cases rule
    case number =>
      rw [readValue]
      split
      · exact .ok _
      · rintro _ ⟨⟩
        trivial
    all_goals exact .ok _
  | .branch rule left leftAfter parts => by
    cases rule
    case variableName | enumValue => cases parts <;> exact .ok _
    case string =>
      rcases parts with _ | ⟨⟨rule, _, _⟩ | _, _ | _⟩
      case cons.token.nil => cases rule <;> exact .ok _
      case cons.token.cons => cases rule <;> exact .ok _
      all_goals exact .ok _
    case list | constList => exact (failsInPart_readItems parts).map
    case object | constObject => exact (failsInPart_readFields [] parts).map
    all_goals exact .ok _

theorem failsInPart_readItems : (trees : List SyntaxTree) → FailsInPart (readItems places trees)
  | [] => .ok _
  | item :: rest => (failsInPart_readValue item).bind fun _ => (failsInPart_readItems rest).bind fun _ => .ok _

theorem failsInPart_readFields (seen : List (String × Value)) : (trees : List SyntaxTree) →
    FailsInPart (readFields places seen trees)
  | [] => .ok _
  | .branch _ _ _ [_, item] :: rest => by
    rw [readFields]
    exact (failsInPart_readValue item).bind fun _ => failsInPart_readFields _ rest
  | .token _ _ _ :: rest | .branch _ _ _ [] :: rest | .branch _ _ _ [_] :: rest => failsInPart_readFields seen rest
  | .branch _ _ _ (_ :: _ :: _ :: _) :: rest => failsInPart_readFields seen rest

end

theorem failsInPart_readArguments : (trees : List SyntaxTree) → FailsInPart (readArguments places trees)
  | [] => .ok _
  | .branch _ _ _ [_, item] :: rest => by
    rw [readArguments]
    exact (failsInPart_readValue item).bind fun _ => (failsInPart_readArguments rest).bind fun _ => .ok _
  | .token _ _ _ :: rest | .branch _ _ _ [] :: rest | .branch _ _ _ [_] :: rest => failsInPart_readArguments rest
  | .branch _ _ _ (_ :: _ :: _ :: _) :: rest => failsInPart_readArguments rest

theorem failsInPart_readDirective (trees : List SyntaxTree) : FailsInPart (readDirective places trees) := by
  cases trees with
  | nil => exact .ok _
  | cons name arguments => exact (failsInPart_readArguments arguments).bind fun _ => .ok _

theorem failsInPart_readVariable (done : Variable) (trees : List SyntaxTree) :
    FailsInPart (readVariable places done trees) := by
  induction trees generalizing done with
  | nil => exact .ok _
  | cons tree rest ih =>
    have ofDefault : FailsInPart (do
        let value ← readValue places tree
        readVariable places { done with default? := some ⟨value, places tree.left⟩ } rest) :=
      (failsInPart_readValue tree).bind fun _ => ih _
    cases tree with
    | token rule left text =>
      cases rule
      case typeText => exact ih _
      all_goals exact ofDefault
    | branch rule left leftAfter parts =>
      cases rule
      case variableName =>
        rcases parts with _ | ⟨name, _ | _⟩
        case cons.nil => exact ih _
        all_goals exact ofDefault
      case directive => exact (failsInPart_readDirective parts).bind fun _ => ih _
      all_goals exact ofDefault

mutual

theorem failsInPart_readSelection (depth : Nat) : (tree : SyntaxTree) → FailsInPart (readSelection places depth tree)
  | .token rule left text => by cases rule <;> exact .ok _
  | .branch rule left leftAfter parts => by
    cases rule
    case field | inlineFragment | fragmentSpread => exact (failsInPart_readParts depth {} parts).bind fun _ => .ok _
    all_goals exact .ok _

theorem failsInPart_readSelections (depth : Nat) : (trees : List SyntaxTree) → FailsInPart (readSelections places depth trees)
  | [] => .ok _
  | tree :: rest =>
    (failsInPart_readSelection depth tree).bind fun _ => (failsInPart_readSelections depth rest).bind fun _ => .ok _

theorem failsInPart_readPart (depth : Nat) (parts : Parts) : (tree : SyntaxTree) →
    FailsInPart (readPart places depth parts tree)
  | .token rule left text => by cases rule <;> exact .ok _
  | .branch rule left leftAfter inner => by
    cases rule
    case selectionSet =>
      cases depth with
      | zero =>
        rintro _ ⟨⟩
        trivial
      | succ depth => exact (failsInPart_readSelections depth inner).bind fun _ => .ok _
    case fieldAlias | typeCondition => cases inner <;> exact .ok _
    case argument =>
      rcases inner with _ | ⟨name, _ | ⟨item, _ | _⟩⟩
      case cons.cons.nil => exact (failsInPart_readValue item).bind fun _ => .ok _
      all_goals exact .ok _
    case directive => exact (failsInPart_readDirective inner).bind fun _ => .ok _
    case variableDefinition => exact (failsInPart_readVariable _ inner).bind fun _ => .ok _
    all_goals exact .ok _

theorem failsInPart_readParts (depth : Nat) (parts : Parts) : (trees : List SyntaxTree) →
    FailsInPart (readParts places depth parts trees)
  | [] => by
    rw [readParts]
    exact .ok _
  | tree :: rest => by
    rw [readParts]
    exact (failsInPart_readPart depth parts tree).bind fun next => failsInPart_readParts depth next rest

end

theorem failsInPart_readDefinition (tree : SyntaxTree) : FailsInPart (readDefinition places tree) := by
  cases tree with
  | token rule left text => cases rule <;> exact .ok _
  | branch rule left leftAfter parts =>
    cases rule
    case namedOperation | fragmentDefinition | selectionSet => exact (failsInPart_readParts maximalDepth {} _).bind fun _ => .ok _
    all_goals exact .ok _

end Failures

end Document

end SiteQuery.Graphql
