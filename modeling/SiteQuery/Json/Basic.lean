import SiteQuery.Text.Escaped
import SiteQuery.Text.Quoted

/-!
JSON values. Numbers and strings are kept as they are written, for a string with half of a surrogate pair is
well formed and yet stands for no text.
-/

namespace SiteQuery

inductive Json where
  | null
  | boolean (value : Bool)
  | number (literal : List Char)
  | string (written : List Char)
  | array (items : List Json)
  | object (entries : List (List Char × Json))
deriving Repr, Inhabited

namespace Json

def written (text : String) : List Char := text.toList.flatMap Quoted.escape

def ofText (text : String) : Json := .string (written text)

def ofTexts (texts : List String) : Json := .array (texts.map ofText)

def ofNat (n : Nat) : Json := .number (toString n).toList

def ofEntries (entries : List (String × Json)) : Json :=
  .object (entries.map fun (key, value) => (written key, value))

def codeOf (digits : List Char) : Nat := digits.foldl (fun total c => total * 16 + Escaped.hexValue c) 0

def isHighSurrogate (code : Nat) : Bool := 0xD800 ≤ code && code ≤ 0xDBFF

def isLowSurrogate (code : Nat) : Bool := 0xDC00 ≤ code && code ≤ 0xDFFF

def unescape : List Char → Option (List Char)
  | '\\' :: 'u' :: a :: b :: c :: d :: rest =>
    let code := codeOf [a, b, c, d]
    if isHighSurrogate code then
      match rest with
      | '\\' :: 'u' :: e :: f :: g :: h :: rest =>
        let low := codeOf [e, f, g, h]
        if isLowSurrogate low then
          (unescape rest).map (Char.ofNat (0x10000 + (code - 0xD800) * 0x400 + (low - 0xDC00)) :: ·)
        else none
      | _ => none
    else if isLowSurrogate code then none
    else (unescape rest).map (Char.ofNat code :: ·)
  | '\\' :: c :: rest => (unescape rest).map (Escaped.simple c :: ·)
  | c :: rest => (unescape rest).map (c :: ·)
  | [] => some []

def text? : Json → Option String
  | .string written => (unescape written).map String.ofList
  | _ => none

def texts? : Json → Option (List String)
  | .array items => items.mapM text?
  | _ => none

/-- A number that is written with digits only. -/
def natural? : Json → Option Nat
  | .number literal => (String.ofList literal).toNat?
  | _ => none

/-- The values at the given keys: of an object, where other keys do not count and none of these may come twice,
or of an array that has the values in the order of the keys. -/
def fields? (keys : List String) : Json → Option (List (Option Json))
  | .object entries => do
    let entries ← entries.mapM fun (key, value) => (unescape key).map fun key => (String.ofList key, value)
    keys.mapM fun key =>
      match entries.filter (·.1 == key) with
      | [] => some none
      | [(_, value)] => some (some value)
      | _ => none
  | .array items =>
    if items.length ≤ keys.length then
      some (items.map some ++ List.replicate (keys.length - items.length) none)
    else none
  | _ => none

/-- A line end and the blanks in front of a line. -/
def lineBreak (depth : Nat) : List Char := '\n' :: List.replicate (2 * depth) ' '

/-- Parts on lines of their own, within brackets. -/
def block (depth : Nat) (opening closing : Char) (parts : List (List Char)) : List Char :=
  match parts with
  | [] => [opening, closing]
  | _ :: _ =>
    [opening] ++ [','].intercalate (parts.map (lineBreak (depth + 1) ++ ·)) ++ lineBreak depth ++ [closing]

mutual

def render (depth : Nat) : Json → List Char
  | .null => "null".toList
  | .boolean true => "true".toList
  | .boolean false => "false".toList
  | .number literal => literal
  | .string written => '"' :: (written ++ ['"'])
  | .array items => block depth '[' ']' (renderItems (depth + 1) items)
  | .object entries => block depth '\x7b' '\x7d' (renderEntries (depth + 1) entries)

def renderItems (depth : Nat) : List Json → List (List Char)
  | [] => []
  | item :: rest => render depth item :: renderItems depth rest

def renderEntries (depth : Nat) : List (List Char × Json) → List (List Char)
  | [] => []
  | (key, value) :: rest =>
    ('"' :: (key ++ '"' :: ':' :: ' ' :: render depth value)) :: renderEntries depth rest

end

/-- The value with every item on a line of its own, indented by two blanks for each bracket around it. -/
def text (json : Json) : String := String.ofList (json.render 0)

end Json

end SiteQuery
