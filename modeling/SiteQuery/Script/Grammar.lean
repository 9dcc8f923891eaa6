import SiteQuery.Grammar.Run
import SiteQuery.Script.Lexical

/-!
The grammar of script modules, in each dialect.

It is written for the shape of a module: which declarations, functions, templates and elements there are and
how they nest. Types are only passed over.
-/

namespace SiteQuery.Script

open Grammar Part

namespace Rule

def call (rule : Rule) : Part := .call rule

def braced (item : Part) : Part := spaced [word "\x7b", item, word "\x7d"]

def parenthesized (item : Part) : Part := spaced [word "(", item, word ")"]

def bracketed (item : Part) : Part := spaced [word "[", item, word "]"]

def optionWhen (condition : Bool) (item : Part) : Part := if condition then .option item else .empty

def choiceWhen (condition : Bool) (items : List Part) : List Part := if condition then items else []

def annotation (dialect : Dialect) : Part :=
  optionWhen dialect.types (spaced [word ":", .call type])

def initializer (allowIn : Bool) : Part := .option (spaced [word "=", .call (assignment allowIn)])

def assignmentOperator : Part :=
  .choice (.both (word "=") (.absent (.one fun c => c == '=' || c == '>')) ::
    ["+=", "-=", "**=", "*=", "/=", "%=", "<<=", ">>>=", ">>=", "&&=", "||=", "??=", "&=", "|=", "^="].map word)

def binaryOperator (allowIn : Bool) : Part :=
  let plain (text : String) : Part := .both (word text) (.absent (word "="))
  .choice (["===", "!==", "==", "!=", "<=", ">="].map word
    ++ ["&&", "||", "??", ">>>", "<<", ">>", "**", "+", "-", "*", "/", "%", "&", "|", "^", "<", ">"].map plain
    ++ keyword "instanceof" :: choiceWhen allowIn [keyword "in"])

/-- A question mark before a digit is that of a choice. -/
def optionalMark : Part := .both (word "?.") (.absent (.one Identifier.isAsciiDigit))

/-- A word that only says more about the member after it. -/
def modifier (text : String) : Part :=
  .sequence [keyword text, .absent (.both blank (.either (.one "(=;\x7d:?!,<".toList.contains) .ending))]

def memberModifiers (dialect : Dialect) : Part :=
  manySpaced (.choice ((["static", "async", "get", "set", "accessor"]
    ++ if dialect.types then
        ["public", "private", "protected", "readonly", "abstract", "override", "declare"]
      else []).map modifier))

def signatureThen (dialect : Dialect) (body : Part) : Part :=
  spaced [.call parameters, optionWhen dialect.types (spaced [word ":", .call type]), body]

def functionTail (dialect : Dialect) : Part :=
  spaced [optionWhen dialect.types (.call typeParameters), .call signature]

def importSource : Part :=
  spaced [string, .option (spaced [keywords ["with", "assert"], braced (commaList (spaced [.either string name,
    word ":", string]))])]

/-- Names in braces, each with another name to go by or alone. -/
def moduleNames (dialect : Dialect) (first second alone : Part) : Part :=
  let renamed : Part := spaced [first, keyword "as", second]
  let typed (item : Part) : List Part := choiceWhen dialect.types [spaced [keyword "type", item]]
  braced (commaList (.choice (typed renamed ++ [renamed] ++ typed alone ++ [alone])))

def anyName : Part := .either string name

def bodyItems (items : Rule) : Part := manySpaced (.call items)

def forHead (dialect : Dialect) : Part :=
  let each : Part := .either (spaced [keyword "of", .call (assignment true)])
    (spaced [keyword "in", .call (expression true)])
  let rest : Part := spaced [word ";", .option (.call (expression true)), word ";",
    .option (.call (expression true))]
  .choice [
    spaced [.call (variableDeclaration false), .either each rest],
    spaced [.call chain, optionWhen dialect.types (spaced [keywords ["as", "satisfies"], .call type]), each],
    spaced [.option (.call (expression false)), rest]]

def controlStatements (dialect : Dialect) : List Part :=
  [spaced [keyword "if", parenthesized (.call (expression true)), .call statement,
      .option (spaced [keyword "else", .call statement])],
    spaced [keyword "for", .option (keyword "await"), parenthesized (forHead dialect), .call statement],
    .call doWhile,
    spaced [keyword "while", parenthesized (.call (expression true)), .call statement],
    spaced [keyword "with", parenthesized (.call (expression true)), .call statement],
    spaced [keyword "switch", parenthesized (.call (expression true)), braced (manySpaced (spaced [
      .either (spaced [keyword "case", .call (expression true)]) (keyword "default"), word ":",
      manySpaced (.both (.absent (keywords ["case", "default"])) (.call statement))]))],
    spaced [keyword "try", .call block, .either
      (spaced [keyword "catch", .option (parenthesized (spaced [.call binding, annotation dialect])), .call block,
        .option (spaced [keyword "finally", .call block])])
      (spaced [keyword "finally", .call block])],
    .both (keywords ["continue", "break"])
      (.both (.option (.sequence [sameLine, blank, freeName])) statementEnd),
    .sequence [keyword "return", .option (.sequence [sameLine, blank, .call (expression true)]), statementEnd],
    .sequence [keyword "throw", sameLine, blank, .call (expression true), statementEnd],
    .both (keyword "debugger") statementEnd,
    spaced [freeName, word ":", .call statement]]

def typeDeclarations : List Part :=
  let names : Part := spaced [name, .many (spaced [.empty, word ".", name])]
  let head (text : String) : Part := .sequence [keyword text, sameLine]
  [spaced [head "interface", freeName, .option (.call typeParameters),
      .option (spaced [keyword "extends", Expression.spaced blank [.call primaryType,
        .many (spaced [.empty, word ",", .call primaryType])]]), .call primaryType],
    .both (spaced [head "type", freeName, .option (.call typeParameters), word "=", .call type]) statementEnd,
    spaced [.option (keyword "const"), keyword "enum", freeName,
      braced (commaList (spaced [.call propertyKey, initializer true]))],
    spaced [.either (head "namespace") (head "module"), .either names string,
      .either (braced (bodyItems item)) statementEnd],
    spaced [keyword "global", braced (bodyItems item)],
    spaced [head "declare", .call declaration],
    spaced [head "abstract", .call declaration]]

def body (dialect : Dialect) : Rule → Part
  | module =>
    let line (mark : String) : Part := .both (word mark) (.many (.one (!isLineEnd ·)))
    .sequence [.option (.either (line "#!") (.both blank (line "-->"))), blank, bodyItems item, blank, .ending]
  | item => .choice [.call importDeclaration, .call exportDeclaration, .call statement]
  | importDeclaration =>
    let bound : Part :=
      .either (moduleNames dialect anyName freeName freeName) (spaced [word "*", keyword "as", freeName])
    let clause : Part :=
      spaced [.either bound (spaced [freeName, .option (spaced [word ",", bound])]), keyword "from", importSource]
    .both (keyword "import")
      (.both blank
        (.both
          (.choice (choiceWhen dialect.types
              [spaced [.option (keyword "type"), freeName, word "=", .call (expression true)],
                spaced [keyword "type", clause]]
            ++ [clause, importSource]))
          statementEnd))
  | exportDeclaration =>
    let names : Part :=
      .either (spaced [moduleNames dialect anyName anyName anyName, keyword "from", importSource])
        (moduleNames dialect freeName anyName freeName)
    .either
      (spaced [keyword "export",
        .choice [
          spaced [keyword "default", .choice ([
            spaced [optionWhen dialect.types (keyword "abstract"), .call classDeclaration], .call function]
            ++ choiceWhen dialect.types (typeDeclarations.take 1)
            ++ [.both (.call (assignment true)) statementEnd])],
          .both (spaced [optionWhen dialect.types (keyword "type"), word "*",
            .option (spaced [keyword "as", .either name string]), keyword "from", importSource]) statementEnd,
          .both (spaced [optionWhen dialect.types (keyword "type"), names]) statementEnd,
          .call exportedDeclaration]])
      (.choice (choiceWhen dialect.types
        [.both (spaced [keyword "export", word "=", .call (expression true)]) statementEnd,
          .both (spaced [keyword "export", keyword "as", keyword "namespace", name]) statementEnd]))
  | exportedDeclaration =>
    .choice (.call declaration :: choiceWhen dialect.types
      [.both (spaced [keyword "import", freeName, word "=", .call (expression true)]) statementEnd])
  | declaration =>
    .choice (choiceWhen dialect.types typeDeclarations
      ++ [.both (.call (variableDeclaration true)) statementEnd,
        .both (.ahead (spaced [.option (keyword "async"), keyword "function", .option (word "*"), name]))
          (.call function),
        .both (.ahead (spaced [keyword "class", .both (.absent (keyword "extends")) name]))
          (.call classDeclaration)])
  | variableDeclaration allowIn =>
    let list : Part :=
      spaced [.call (declarator allowIn), .many (spaced [.empty, word ",", .call (declarator allowIn)])]
    .choice [spaced [keywords ["var", "const"], list],
      spaced [.option (.both (keyword "await") sameLine), keywords ["let", "using"], list]]
  | declarator allowIn =>
    spaced [.call binding, optionWhen dialect.types (word "!"), annotation dialect, initializer allowIn]
  | bindingName => freeName
  | binding => .either (.call bindingName) (.call bindingPattern)
  | bindingPattern =>
    let property : Part :=
      .choice [spaced [word "...", .call binding], spaced [.call propertyKey, word ":", .call bindingElement],
        spaced [.call bindingName, initializer true]]
    let slot : Part := .choice [spaced [word "...", .call bindingElement], .call bindingElement, .empty]
    .either (braced (commaList property)) (bracketed (spaced [slot, .many (spaced [.empty, word ",", slot])]))
  | bindingElement =>
    spaced [.call binding, optionWhen dialect.types (word "?"), annotation dialect, initializer true]
  | parameters =>
    let modifiers : Part :=
      if dialect.types then
        manySpaced (.choice (["public", "private", "protected", "readonly", "override"].map modifier))
      else .empty
    let thisParameter : List Part := choiceWhen dialect.types [spaced [keyword "this", annotation dialect]]
    parenthesized (commaList (spaced [modifiers,
      .choice (thisParameter ++ [spaced [word "...", .call bindingElement], .call bindingElement])]))
  | signature => signatureThen dialect
      (if dialect.types then .either (.call block) statementEnd else .call block)
  | function =>
    spaced [.option (.both (keyword "async") sameLine), keyword "function", .option (word "*"),
      .option name, functionTail dialect]
  | classDeclaration =>
    spaced [keyword "class", .option (.both (.absent (keywords ["extends", "implements"])) freeName),
      optionWhen dialect.types (.call typeParameters), .call classTail]
  | classTail =>
    spaced [.option (.call heritage), optionWhen dialect.types
      (spaced [keyword "implements", Expression.spaced blank [.call primaryType,
        .many (spaced [.empty, word ",", .call primaryType])]]), .call classBody]
  | heritage =>
    spaced [keyword "extends", .call chain, optionWhen dialect.types (.call typeArguments)]
  | classBody => braced (manySpaced (.either (word ";") (.call classMember)))
  | classMember =>
    let index : List Part := choiceWhen dialect.types
      [.both (spaced [bracketed (spaced [name, word ":", .call type]), annotation dialect]) statementEnd]
    let key : Part := .either (.call propertyKey) privateName
    .either (spaced [keyword "static", .call block])
      (spaced [memberModifiers dialect,
        .choice (index ++ [
          spaced [.option (word "*"), key, optionWhen dialect.types (word "?"), functionTail dialect],
          .sequence [key, optionWhen dialect.types (.both blank (.either (word "?") (word "!"))),
            optionWhen dialect.types (spaced [.empty, word ":", .call type]),
            .option (spaced [.empty, word "=", .call (assignment true)]), .option statementEnd]])])
  | block => braced (bodyItems statement)
  | statement =>
    .choice ([.call block, word ";"] ++ controlStatements dialect ++ [.call declaration,
      .sequence [.absent (.choice [keywords ["function", "class"], word "\x7b",
          .sequence [keyword "async", sameLine, blank, keyword "function"]]),
        .call (expression true), statementEnd]])
  | doWhile =>
    .both (spaced [keyword "do", .call doBody, keyword "while", .call doTest]) (.option (.both blank (word ";")))
  | doBody => .call statement
  | doTest => parenthesized (.call (expression true))
  | expression allowIn =>
    spaced [.call (assignment allowIn), .many (spaced [.empty, word ",", .call (assignment allowIn)])]
  | assignment allowIn =>
    .choice [.call (arrow allowIn),
      .both (keyword "yield") (.option (.sequence [sameLine, blank,
        .choice [spaced [word "*", .call (assignment allowIn)], .call (assignment allowIn)]])),
      spaced [.call (conditional allowIn),
        .option (spaced [assignmentOperator, .call (assignment allowIn)])]]
  | arrow allowIn =>
    let needed : Part :=
      if dialect.markup then
        .ahead (.sequence [word "<", blank, .option (.both (keyword "const") blank), name, blank,
          .either (word ",") (keyword "extends")])
      else .empty
    let list : Part :=
      spaced [optionWhen dialect.types (.both needed (.call typeParameters)), .call parameters,
        annotation dialect]
    let head : Part := .either list (.call bindingName)
    let parts (head : Part) : Part :=
      .sequence [head, sameLine, blank, word "=>", blank, .either (.call block) (.call (assignment allowIn))]
    .either (parts (.sequence [keyword "async", sameLine, blank, head])) (parts head)
  | conditional allowIn =>
    spaced [.call (binary allowIn),
      .option (spaced [.sequence [word "?", .absent (word "?"), .absent (.both (word ".")
          (.absent (.one Identifier.isAsciiDigit)))],
        .call (assignment true), word ":", .call (assignment allowIn)])]
  | binary allowIn =>
    let asType : List Part := choiceWhen dialect.types
      [.sequence [sameLine, blank, keywords ["as", "satisfies"], blank, .either (keyword "const") (.call type)]]
    .both (.call unary)
      (.many (.choice (asType ++ [.sequence [blank, binaryOperator allowIn, blank, .call unary]])))
  | unary =>
    let assertion : List Part := choiceWhen (dialect.types && !dialect.markup)
      [spaced [word "<", .either (keyword "const") (.call type), word ">", .call unary]]
    .choice (
      [spaced [.choice (["++", "--", "+", "-", "~", "!"].map word ++ [keywords ["delete", "void", "typeof"]]),
          .call unary],
        spaced [keyword "await", .call unary]]
      ++ assertion
      ++ [.both (.call chain) (.option (.sequence [sameLine, blank, .either (word "++") (word "--")]))])
  | chain =>
    .both (.either (.call composite) (.call identifier))
      (.many (.either (.both blank (.call template))
        (.either (if dialect.types then .sequence [blank, .call typeArguments, blank, .call template]
          else .absent .empty)
          (.call suffix))))
  | identifier => freeName
  | suffix =>
    let arguments : Part :=
      parenthesized (commaList (spaced [.option (word "..."), .call (assignment true)]))
    let typed : List Part := choiceWhen dialect.types
      [.sequence [blank, .call typeArguments, blank, arguments],
        .sequence [blank, .call typeArguments,
          .ahead (.both blank (.either (.one ";,)]\x7d:.".toList.contains) .ending))],
        .sequence [sameLine, blank, word "!", .absent (word "=")]]
    .choice ([
      .both blank (spaced [optionalMark, .choice [arguments,
        bracketed (.call (expression true)), privateName, name]]),
      .both blank (spaced [.both (word ".") (.absent (word "..")), .either privateName name]),
      .both blank (bracketed (.call (expression true))),
      .both blank arguments] ++ typed)
  | callee =>
    .both (.either (.call composite) (.call identifier))
      (.many (.choice (
        [.both blank (.call template),
          .both blank (spaced [.both (word ".") (.absent (word "..")), .either privateName name]),
          .both blank (bracketed (.call (expression true)))]
        ++ choiceWhen dialect.types [.sequence [blank, .call typeArguments, blank, .call template],
          .sequence [blank, .call typeArguments, .ahead (.both blank (word "("))]])))
  | composite =>
    let elements : Part := .option (spaced [.option (word "..."), .call (assignment true)])
    .choice ([
      .call function,
      .call classDeclaration,
      spaced [keyword "new", .either (spaced [word ".", keyword "target"])
        (.both (.call callee) (.either
          (.both blank (parenthesized (commaList (spaced [.option (word "..."), .call (assignment true)]))))
          (.absent (.both blank optionalMark))))],
      keywords ["this", "null", "true", "false", "super"],
      spaced [keyword "import", .either (spaced [word ".", keyword "meta"])
        (parenthesized (commaList (.call (assignment true))))],
      string, number, regularExpression, .call template,
      bracketed (spaced [elements, .many (spaced [.empty, word ",", elements])]),
      braced (commaList (.call objectMember)),
      parenthesized (.call (expression true)),
      privateName] ++ choiceWhen dialect.markup [.call element])
  | propertyKey =>
    .choice [string, number, bracketed (.call (assignment true)), name]
  | objectMember =>
    let modifiers : Part := manySpaced (.choice (["async", "get", "set"].map modifier))
    .choice [
      spaced [word "...", .call (assignment true)],
      spaced [modifiers, .option (word "*"), .call propertyKey, functionTail dialect],
      spaced [.call propertyKey, word ":", .call (assignment true)],
      spaced [.call identifier, initializer true]]
  | template =>
    .sequence [word "\x60", .call templateText,
      .many (.sequence [word "$\x7b", blank, .call (expression true), blank, word "\x7d", .call templateText]),
      word "\x60"]
  | templateText =>
    .many (.either (.both (word "\\") any) (.both (.absent (.either (word "\x60") (word "$\x7b"))) any))
  | element =>
    let content : Part := .both (.many (.call child)) (.sequence [word "<", blank, word "/", blank])
    .both (.both (word "<") blank)
      (.either (.sequence [word ">", content, word ">"])
        (.sequence [.call elementName, blank, optionWhen dialect.types (.both (.call typeArguments) blank),
          manySpaced (.call elementAttribute), blank,
          .either (spaced [word "/", word ">"])
            (.sequence [word ">", content, .call closingName, blank, word ">"])]))
  | elementName =>
    let part : Part := .both name (.many (.either (word "-") namePart))
    .both part (.either (.both (word ":") part) (.many (.both (word ".") part)))
  | closingName =>
    let part : Part := .both name (.many (.either (word "-") namePart))
    .both part (.either (.both (word ":") part) (.many (.both (word ".") part)))
  | elementAttribute =>
    let quoted (quote : Char) : Part := .sequence [.char quote, .many (.one (· != quote)), .char quote]
    let part : Part := .both name (.many (.either (word "-") namePart))
    .either (braced (spaced [word "...", .call (assignment true)]))
      (spaced [.both part (.option (.both (word ":") part)),
        .option (spaced [word "=", .choice [quoted '"', quoted '\'', braced (.call (expression true)),
          .call element]])])
  | child =>
    .choice [braced (.option (spaced [.option (word "..."), .call (expression true)])),
      .call element, .oneOrMore (.one fun c => c != '\x7b' && c != '<')]
  | typeArguments =>
    spaced [word "<", .call type, .many (spaced [.empty, word ",", .call type]), .option (word ","), word ">"]
  | typeParameters =>
    let item : Part :=
      spaced [manySpaced (.choice (["const", "in", "out"].map fun text =>
          .both (keyword text) (.ahead (.both blank name)))), name,
        .option (spaced [keyword "extends", .call type]), .option (spaced [word "=", .call type])]
    spaced [word "<", commaList item, word ">"]
  | type =>
    let functionType : Part :=
      spaced [.option (.both (keyword "abstract") blank), .option (keyword "new"), .option (.call typeParameters),
        .call parameters, word "=>", .call type]
    let inferred : Part :=
      spaced [keyword "infer", name, .option (.sequence [keyword "extends", blank, .call primaryType,
        .absent (.both blank (word "?"))])]
    let plain : Part :=
      spaced [manySpaced (.choice (["keyof", "unique", "readonly", "asserts"].map fun text =>
          .both (keyword text) (.ahead (.both blank (.one fun c => Identifier.isStart c || c == '[' || c == '('
            || c == '\x7b'))))),
        .both (.call primaryType)
          (.many (.sequence [sameLine, blank, bracketed (.option (.call type))]))]
    let operand : Part := .either inferred plain
    let intersection : Part :=
      spaced [.option (word "&"), operand, .many (spaced [.empty, word "&", operand])]
    let union : Part :=
      spaced [.option (word "|"), intersection, .many (spaced [.empty, word "|", intersection])]
    .either functionType
      (.both union (.option (.either
        (.sequence [sameLine, blank, keyword "extends", blank,
          spaced [union, .option (spaced [keyword "extends", union]), word "?", .call type, word ":",
            .call type]])
        (.sequence [sameLine, blank, keyword "is", blank, .call type]))))
  | primaryType =>
    let mapped : Part :=
      spaced [.option (spaced [.option (.one fun c => c == '+' || c == '-'), keyword "readonly"]),
        bracketed (spaced [name, keyword "in", .call type, .option (spaced [keyword "as", .call type])]),
        .option (spaced [.option (.one fun c => c == '+' || c == '-'), word "?"]),
        .option (spaced [word ":", .call type]), .option (word ";")]
    let label : Part :=
      spaced [.option (word "..."),
        .option (spaced [name, .option (word "?"), .both (word ":") (.absent (word ":"))]),
        .call type, .option (word "?")]
    .choice [
      parenthesized (.call type),
      braced mapped,
      braced (manySpaced (.call typeMember)),
      bracketed (commaList label),
      string,
      .both (.option (word "-")) number,
      .call template,
      spaced [keyword "typeof", .option (keyword "import"), .either (parenthesized (.call type)) (.both name
        (.many (spaced [.empty, word ".", .either privateName name]))), .option (.call typeArguments)],
      spaced [keyword "import", parenthesized (commaList (.call type)),
        .many (spaced [.empty, word ".", name]), .option (.call typeArguments)],
      .both (spaced [name, .many (spaced [.empty, word ".", name])])
        (.option (.sequence [sameLine, blank, .call typeArguments]))]
  | typeMember =>
    let finish : Part := .choice [.both blank (.either (word ";") (word ",")), statementEnd]
    let call : Part :=
      spaced [.option (.call typeParameters), .call parameters, annotation dialect]
    let modifiers : Part := manySpaced (.choice (["readonly", "get", "set"].map modifier))
    .both
      (.choice [
        spaced [.option (modifier "readonly"), bracketed (spaced [name, word ":", .call type]),
          annotation dialect],
        spaced [.option (.both (keyword "new") (.ahead (.both blank (.either (word "(") (word "<"))))), call],
        spaced [modifiers, .call propertyKey, .option (word "?"), call],
        .both (spaced [modifiers, .call propertyKey]) (.both (.option (.both blank (word "?")))
          (.option (.both blank (spaced [word ":", .call type]))))])
      finish

def kind : Rule → Kind
  | bindingName | identifier | templateText | elementName | closingName | typeArguments | type | typeParameters
  | primaryType => .token
  | exportedDeclaration | declarator _ | classTail | heritage | classBody | doWhile | doBody | doTest | chain
  | callee | composite | suffix | template | element | parameters | bindingPattern => .branch
  | _ => .spliced

/-- Ranks by what a rule may start with. -/
def rank : Rule → Nat
  | module => 30
  | item => 29
  | importDeclaration | exportDeclaration => 28
  | exportedDeclaration => 28
  | doBody => 28
  | statement => 27
  | declaration => 26
  | doWhile => 25
  | block => 24
  | function | classDeclaration | variableDeclaration _ => 8
  | doTest => 1
  | expression _ => 23
  | assignment _ => 22
  | arrow _ | conditional _ => 21
  | objectMember => 21
  | binary _ => 20
  | unary => 19
  | chain | callee => 18
  | composite => 17
  | classMember | classTail => 16
  | heritage | classBody => 15
  | signature => 13
  | declarator _ | bindingElement => 12
  | binding => 11
  | parameters => 10
  | suffix => 16
  | typeMember => 16
  | type => 15
  | primaryType => 12
  | propertyKey => 9
  | typeParameters | typeArguments => 9
  | child => 9
  | element | elementAttribute => 8
  | template => 7
  | _ => 1

end Rule

def grammar (dialect : Dialect) : Grammar Rule := ⟨Rule.body dialect, Rule.kind, Rule.rank, 31⟩

end SiteQuery.Script
