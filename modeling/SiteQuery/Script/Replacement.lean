import SiteQuery.Script.Tag

/-!
Replacing every query tag of a module by an inert string, once its document is checked.
-/

namespace SiteQuery.Script

def extractedPlaceholder : String := "** extracted graphql fragment **"

structure Replaced (Result : Type) where
  result : Result
  count : Nat

namespace Outline

mutual

def replace (tag : String) : Outline → Except TagError (Replaced Outline)
  | tagged name start stop texts parts =>
    if name = tag then do
      checkTagDocument (readTemplate texts)
      return ⟨placeholder extractedPlaceholder, 1⟩
    else do
      let inner ← replaceAll tag parts
      return ⟨tagged name start stop texts inner.result, inner.count⟩
  | declarator binding? parts => do
    let inner ← replaceAll tag parts
    return ⟨declarator binding? inner.result, inner.count⟩
  | exported parts => do
    let inner ← replaceAll tag parts
    return ⟨exported inner.result, inner.count⟩
  | placeholder text => .ok ⟨placeholder text, 0⟩

def replaceAll (tag : String) : List Outline → Except TagError (Replaced (List Outline))
  | [] => .ok ⟨[], 0⟩
  | part :: rest => do
    let first ← replace tag part
    let others ← replaceAll tag rest
    return ⟨first.result :: others.result, first.count + others.count⟩

end

end Outline

/-- The module without query tags and how many there were, or the error of the first document that is refused. -/
def Module.replaceTags (source : Module) (tag : String) : Except TagError (Replaced Module) := do
  let inner ← Outline.replaceAll tag source.parts
  return ⟨⟨inner.result⟩, inner.count⟩

end SiteQuery.Script
