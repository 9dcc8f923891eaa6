import SiteQuery.Grammar.Run
import SiteQuery.Json.Basic

/-!
JSON values from text.
-/

namespace SiteQuery.Json

open Grammar

inductive Rule where
  | document | value | object | entry | array | string | written | number | word
deriving DecidableEq, Repr

namespace Rule

abbrev Part := Expression Rule

def isBlank (c : Char) : Bool := c == ' ' || c == '\n' || c == '\t' || c == '\r'

def isDigit (c : Char) : Bool := '0' ≤ c && c ≤ '9'

def isHexDigit (c : Char) : Bool :=
  isDigit c || ('a' ≤ c && c ≤ 'f') || ('A' ≤ c && c ≤ 'F')

def blank : Part := .many (.one isBlank)

def spaced (parts : List Part) : Part := .spaced blank parts

def listed (item : Rule) : Part :=
  .option (spaced [.call item, .manySpaced blank (spaced [.char ',', .call item])])

def digits : Part := .oneOrMore (.one isDigit)

def escape : Part :=
  .both (.char '\\') (.either (.one "\"\\/bfnrt".toList.contains)
    (.sequence [.char 'u', .one isHexDigit, .one isHexDigit, .one isHexDigit, .one isHexDigit]))

def body : Rule → Part
  | document => spaced [.empty, .call value, .ending]
  | value => .choice [.call object, .call array, .call string, .call number, .call word]
  | object => spaced [.char '\x7b', listed entry, .char '\x7d']
  | entry => spaced [.call string, .char ':', .call value]
  | array => spaced [.char '[', listed value, .char ']']
  | string => .sequence [.char '"', .call written, .char '"']
  | written => .many (.either (.one fun c => c != '"' && c != '\\' && 32 ≤ c.toNat) escape)
  | number =>
    .sequence [.option (.char '-'), .either (.char '0') digits,
      .option (.both (.char '.') digits),
      .option (.sequence [.one fun c => c == 'e' || c == 'E', .option (.one fun c => c == '+' || c == '-'),
        digits])]
  | word => .choice [.keyword "null", .keyword "true", .keyword "false"]

def kind : Rule → Kind
  | written | number | word => .token
  | document | value | string => .spliced
  | object | entry | array => .branch

def rank : Rule → Nat
  | document => 3
  | value | entry => 2
  | written => 0
  | _ => 1

end Rule

def grammar : Grammar Rule := ⟨Rule.body, Rule.kind, Rule.rank, 4⟩

mutual

def ofTree : SyntaxTree Rule → Json
  | .token .number _ text => .number text
  | .token .written _ text => .string text
  | .token _ _ text => if text = "null".toList then .null else .boolean (text == "true".toList)
  | .branch .object _ _ parts => .object (entriesOf parts)
  | .branch _ _ _ parts => .array (itemsOf parts)

def itemsOf : List (SyntaxTree Rule) → List Json
  | [] => []
  | tree :: rest => ofTree tree :: itemsOf rest

def entriesOf : List (SyntaxTree Rule) → List (List Char × Json)
  | .branch .entry _ _ [.token _ _ key, value] :: rest => (key, ofTree value) :: entriesOf rest
  | _ :: rest => entriesOf rest
  | [] => []

end

def parse? (text : String) : Option Json :=
  match grammar.parse .document text.toList with
  | .ok (tree :: _) => some (ofTree tree)
  | _ => none

end SiteQuery.Json
