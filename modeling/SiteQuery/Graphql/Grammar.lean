import SiteQuery.Grammar.Run

/-!
The grammar of documents and of schema definitions.

Blanks (white space, commas, the byte order mark and comments) may stand between the parts of most
rules. There is no separate reading of tokens, so a keyword needs no blank after it.
-/

namespace SiteQuery.Graphql

open Grammar

inductive Rule where
  | endOfInput
  | executableDocument | executableDefinition | operationDefinition | namedOperation
  | variableDefinitions | variableDefinition
  | selectionSet | selection | field | fieldAlias | fragmentSpread | inlineFragment
  | fragmentDefinition | typeCondition
  | serviceDocument | typeSystemDefinition | schemaDefinition | operationTypeDefinition
  | typeDefinition | scalarType | objectType | implementsInterfaces | interfaceType
  | fieldsDefinition | fieldDefinition | unionType | unionMembers | enumType | enumValues
  | enumValueDefinition | inputObjectType | inputFieldsDefinition | extend
  | directiveDefinition | repeatable | directiveLocations | directiveLocation
  | argumentsDefinition | inputValueDefinition
  | operationType | defaultValue | typeText
  | constValue | value | variableName | number | float | fraction | exponent | integer
  | string | blockStringContent | blockStringCharacter | stringContent | stringCharacter | hexScalar
  | boolean | null | enumValue | constList | list | constObject | object | constObjectField | objectField
  | constDirectives | directives | constDirective | directive
  | constArguments | arguments | constArgument | argument
  | nameStart | name
deriving DecidableEq, Repr

namespace Rule

abbrev Part := Expression Rule

def isLineEnd (c : Char) : Bool := c == '\n' || c == '\r'

def isBlank (c : Char) : Bool :=
  c == ' ' || c == ',' || c == '\t' || c == '\ufeff' || isLineEnd c

def isDigit (c : Char) : Bool := '0' ≤ c && c ≤ '9'

def isNameStart (c : Char) : Bool :=
  ('a' ≤ c && c ≤ 'z') || ('A' ≤ c && c ≤ 'Z') || c == '_'

def isNameRest (c : Char) : Bool := isNameStart c || isDigit c

def isHexDigit (c : Char) : Bool :=
  isDigit c || ('a' ≤ c && c ≤ 'f') || ('A' ≤ c && c ≤ 'F')

def comment : Part := .both (.char '#') (.many (.one (!isLineEnd ·)))

def blank : Part := .many (.either (.one isBlank) comment)

def spaced (parts : List Part) : Part := .spaced blank parts

def manySpaced (item : Part) : Part := .manySpaced blank item

def someSpaced (item : Part) : Part := .someSpaced blank item

def word (text : String) : Part := .keyword text

def within (opening : String) (item : Part) (closing : String) : Part :=
  spaced [word opening, item, word closing]

def separated (separator : String) (item : Rule) : List Part :=
  [.option (word separator), .call item, manySpaced (spaced [word separator, .call item])]

def quotes : Part := word "\"\"\""

def escapedQuotes : Part := word "\\\"\"\""

/-- A type definition, or an extension of one that must add something. -/
def definition (keyword : String) (parts : List Part) (additions : Part) : Part :=
  .either (spaced ([.option (.call string), word keyword, .call name] ++ parts))
    (spaced [.call extend, word keyword, .call name, additions])

def body : Rule → Part
  | endOfInput => .ending
  | executableDocument => spaced [.empty, someSpaced (.call executableDefinition), .call endOfInput]
  | executableDefinition => .either (.call operationDefinition) (.call fragmentDefinition)
  | operationDefinition => .either (.call namedOperation) (.call selectionSet)
  | namedOperation =>
    spaced [.call operationType, .option (.call name), .option (.call variableDefinitions),
      .option (.call directives), .call selectionSet]
  | variableDefinitions => within "(" (manySpaced (.call variableDefinition)) ")"
  | variableDefinition =>
    spaced [.call variableName, word ":", .call typeText, .option (.call directives),
      .option (.call defaultValue)]
  | selectionSet => within "\x7b" (someSpaced (.call selection)) "\x7d"
  | selection => .choice [.call field, .call inlineFragment, .call fragmentSpread]
  | field =>
    spaced [.option (.call fieldAlias), .call name, .option (.call arguments), .option (.call directives),
      .option (.call selectionSet)]
  | fieldAlias => spaced [.call name, word ":"]
  | fragmentSpread =>
    spaced [word "...", .absent (.call typeCondition), .call name, .option (.call directives)]
  | inlineFragment =>
    spaced [word "...", .option (.call typeCondition), .option (.call directives), .call selectionSet]
  | fragmentDefinition =>
    spaced [word "fragment", .call name, .call typeCondition, .option (.call directives), .call selectionSet]
  | typeCondition => .sequence [word "on", .oneOrMore (.one isBlank), .call name]
  | serviceDocument => spaced [.empty, someSpaced (.call typeSystemDefinition), .call endOfInput]
  | typeSystemDefinition =>
    .choice [.call schemaDefinition, .call typeDefinition, .call directiveDefinition]
  | schemaDefinition =>
    let roots := within "\x7b" (someSpaced (.call operationTypeDefinition)) "\x7d"
    .either (spaced [word "schema", .option (.call constDirectives), roots])
      (spaced [.call extend, word "schema",
        .either (spaced [.option (.call constDirectives), roots]) (.call constDirectives)])
  | operationTypeDefinition => spaced [.call operationType, word ":", .call name]
  | typeDefinition =>
    .choice [.call scalarType, .call objectType, .call interfaceType, .call unionType, .call enumType,
      .call inputObjectType]
  | scalarType => definition "scalar" [.option (.call constDirectives)] (.call constDirectives)
  | objectType =>
    definition "type"
      [.option (.call implementsInterfaces), .option (.call constDirectives), .option (.call fieldsDefinition)]
      (.either
        (spaced [.option (.call implementsInterfaces),
          .either (spaced [.option (.call constDirectives), .call fieldsDefinition]) (.call constDirectives)])
        (.call implementsInterfaces))
  | implementsInterfaces => spaced (word "implements" :: separated "&" name)
  | interfaceType =>
    definition "interface"
      [.option (.call implementsInterfaces), .option (.call constDirectives), .option (.call fieldsDefinition)]
      (spaced [.option (.call implementsInterfaces),
        .either (spaced [.option (.call constDirectives), .call fieldsDefinition]) (.call constDirectives)])
  | fieldsDefinition => within "\x7b" (someSpaced (.call fieldDefinition)) "\x7d"
  | fieldDefinition =>
    spaced [.option (.call string), .call name, .option (.call argumentsDefinition), word ":",
      .call typeText, .option (.call constDirectives)]
  | unionType =>
    definition "union" [.option (.call constDirectives), .option (.call unionMembers)]
      (.either (spaced [.option (.call constDirectives), .call unionMembers]) (.call constDirectives))
  | unionMembers => spaced (word "=" :: separated "|" name)
  | enumType =>
    definition "enum" [.option (.call constDirectives), .option (.call enumValues)]
      (.either (spaced [.option (.call constDirectives), .call enumValues]) (.call constDirectives))
  | enumValues => within "\x7b" (someSpaced (.call enumValueDefinition)) "\x7d"
  | enumValueDefinition => spaced [.option (.call string), .call enumValue, .option (.call constDirectives)]
  | inputObjectType =>
    definition "input" [.option (.call constDirectives), .option (.call inputFieldsDefinition)]
      (.either (spaced [.option (.call constDirectives), .call inputFieldsDefinition]) (.call constDirectives))
  | inputFieldsDefinition => within "\x7b" (someSpaced (.call inputValueDefinition)) "\x7d"
  | extend => word "extend"
  | directiveDefinition =>
    spaced [.option (.call string), word "directive", word "@", .call name,
      .option (.call argumentsDefinition), .call repeatable, word "on", .call directiveLocations]
  | repeatable => .option (word "repeatable")
  | directiveLocations => spaced (separated "|" directiveLocation)
  | directiveLocation =>
    .choice (["QUERY", "MUTATION", "SUBSCRIPTION", "FIELD_DEFINITION", "FIELD", "FRAGMENT_DEFINITION",
      "FRAGMENT_SPREAD", "INLINE_FRAGMENT", "VARIABLE_DEFINITION", "SCHEMA", "SCALAR", "OBJECT",
      "ARGUMENT_DEFINITION", "INTERFACE", "UNION", "ENUM_VALUE", "ENUM", "INPUT_OBJECT",
      "INPUT_FIELD_DEFINITION"].map word)
  | argumentsDefinition => within "(" (someSpaced (.call inputValueDefinition)) ")"
  | inputValueDefinition =>
    spaced [.option (.call string), .call name, word ":", .call typeText, .option (.call defaultValue),
      .option (.call constDirectives)]
  | operationType => .choice (["query", "mutation", "subscription"].map word)
  | defaultValue => spaced [word "=", .call constValue]
  | typeText =>
    .both (.either (.call name) (.sequence [word "[", .call typeText, word "]"])) (.option (word "!"))
  | constValue =>
    .choice ([number, string, boolean, null, enumValue, constList, constObject].map .call)
  | value =>
    .choice ([variableName, number, string, boolean, null, enumValue, list, object].map .call)
  | variableName => spaced [word "$", .call name]
  | number => .both (.either (.call float) (.call integer)) (.absent (.call nameStart))
  | float =>
    .both (.call integer)
      (.choice [.both (.call fraction) (.call exponent), .call fraction, .call exponent])
  | fraction => .both (word ".") (.oneOrMore (.one isDigit))
  | exponent =>
    .sequence [.one (fun c => c == 'E' || c == 'e'), .option (.one (fun c => c == '+' || c == '-')),
      .oneOrMore (.one isDigit)]
  | integer =>
    .both (.option (word "-"))
      (.either (word "0") (.both (.one fun c => '1' ≤ c && c ≤ '9') (.many (.one isDigit))))
  | string =>
    .either (.sequence [quotes, .call blockStringContent, quotes])
      (.sequence [word "\"", .call stringContent, word "\""])
  | blockStringContent => .many (.call blockStringCharacter)
  | blockStringCharacter =>
    .either (.both (.absent (.either quotes escapedQuotes)) (.one fun _ => true)) escapedQuotes
  | stringContent => .many (.call stringCharacter)
  | stringCharacter =>
    .choice [.one (fun c => c != '"' && c != '\\' && !isLineEnd c),
      .both (word "\\") (.one "\"\\/bfnrt".toList.contains),
      .both (word "\\u") (.call hexScalar)]
  | hexScalar =>
    .sequence [.absent (.both (.one fun c => c == 'd' || c == 'D')
        (.one fun c => ('8' ≤ c && c ≤ '9') || ('a' ≤ c && c ≤ 'f') || ('A' ≤ c && c ≤ 'F'))),
      .one isHexDigit, .one isHexDigit, .one isHexDigit, .one isHexDigit]
  | boolean => .either (word "true") (word "false")
  | null => word "null"
  | enumValue => .both (.absent (.either (.call boolean) (.call null))) (.call name)
  | constList => within "[" (manySpaced (.call constValue)) "]"
  | list => within "[" (manySpaced (.call value)) "]"
  | constObject => within "\x7b" (manySpaced (.call constObjectField)) "\x7d"
  | object => within "\x7b" (manySpaced (.call objectField)) "\x7d"
  | constObjectField => spaced [.call name, word ":", .call constValue]
  | objectField => spaced [.call name, word ":", .call value]
  | constDirectives => someSpaced (.call constDirective)
  | directives => someSpaced (.call directive)
  | constDirective => spaced [word "@", .call name, .option (.call constArguments)]
  | directive => spaced [word "@", .call name, .option (.call arguments)]
  | constArguments => within "(" (someSpaced (.call constArgument)) ")"
  | arguments => within "(" (someSpaced (.call argument)) ")"
  | constArgument => spaced [.call name, word ":", .call constValue]
  | argument => spaced [.call name, word ":", .call value]
  | nameStart => .one isNameStart
  | name => .both (.call nameStart) (.many (.one isNameRest))

def kind : Rule → Kind
  | typeText | number | blockStringContent | stringContent | name => .token
  | nameStart => .token
  | operationType | boolean | null | directiveLocation => .token
  | endOfInput | executableDocument | executableDefinition | operationDefinition | selection
  | serviceDocument | typeSystemDefinition | typeDefinition
  | variableDefinitions | defaultValue | constValue | value
  | fieldsDefinition | enumValues | inputFieldsDefinition | repeatable
  | directives | constDirectives | arguments | constArguments
  | directiveLocations => .spliced
  | _ => .branch

/-- Ranks by what a rule may start with. -/
def rank : Rule → Nat
  | executableDocument | serviceDocument => 9
  | executableDefinition | typeSystemDefinition => 8
  | operationDefinition | typeDefinition => 7
  | namedOperation | selection | schemaDefinition | scalarType | objectType | interfaceType | unionType
  | enumType | inputObjectType | directiveDefinition | inputValueDefinition | fieldDefinition
  | enumValueDefinition => 6
  | field | constValue | value | operationTypeDefinition | variableDefinition | constDirectives
  | directives | constArgument | argument | constObjectField | objectField => 5
  | fieldAlias | number | enumValue | typeText => 4
  | float | string | stringContent | blockStringContent => 3
  | integer | name | stringCharacter | blockStringCharacter | directiveLocations => 2
  | nameStart => 0
  | _ => 1

end Rule

def grammar : Grammar Rule := ⟨Rule.body, Rule.kind, Rule.rank, 10⟩

end SiteQuery.Graphql
