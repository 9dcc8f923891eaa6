import SiteQuery.Grammar.Basic
import SiteQuery.Script.Rule
import SiteQuery.Text.Identifier

/-!
The small parts of script modules: blanks, words, names and literals without parts of their own.
-/

namespace SiteQuery.Script

open Grammar

abbrev Part := Expression Rule

def isLineEnd (c : Char) : Bool := c == '\n' || c == '\r' || c == '\u2028' || c == '\u2029'

def isSpace (c : Char) : Bool :=
  let code := c.toNat
  c == ' ' || c == '\t' || code == 0xB || code == 0xC || code == 0xA0 || code == 0xFEFF || code == 0x1680
    || (0x2000 ≤ code && code ≤ 0x200A) || code == 0x202F || code == 0x205F || code == 0x3000

namespace Part

def word (text : String) : Part := .keyword text

def any : Part := .one fun _ => true

/-- Everything up to `stop`, which is not taken. -/
def upTo (stop : Part) : Part := .many (.both (.absent stop) any)

def lineComment : Part :=
  .both (.either (word "//") (word "<!--")) (.many (.one (!isLineEnd ·)))

def blockComment : Part := .sequence [word "/*", upTo (word "*/"), word "*/"]

/-- A template that is not closed ends the text. -/
def unclosedTemplate : Part :=
  .sequence [word "\x60",
    .many (.choice [.both (word "\\") any, .both (.absent (.either (word "\x60") (word "$\x7b"))) any]),
    .ending]

/-- After a line end, an arrow back starts a comment. -/
def backwardComment : Part :=
  .sequence [.one isLineEnd, .many (.one fun c => isSpace c || isLineEnd c), word "-->",
    .many (.one (!isLineEnd ·))]

def blank : Part :=
  .many (.choice [backwardComment, .one fun c => isSpace c || isLineEnd c, lineComment, blockComment,
    unclosedTemplate])

/-- A line ends before the next part. A comment over several lines counts. -/
def lineBreak : Part :=
  let flatComment : Part :=
    .sequence [word "/*", .many (.both (.absent (word "*/")) (.one (!isLineEnd ·))), word "*/"]
  .ahead (.both (.many (.either (.one isSpace) flatComment))
    (.choice [.one isLineEnd, word "//", word "<!--", word "/*"]))

def sameLine : Part := .absent lineBreak

/-- A part with the blanks before it; where an optional part is left out, its blanks stay. -/
def afterBlank : Part → Part
  | .empty => .empty
  | .either item .empty => .either (afterBlank item) .empty
  | .many item => .many (afterBlank item)
  | item => .both blank item

/-- Parts with blanks between them, and none at the end. -/
def spaced : List Part → Part
  | [] => .empty
  | first :: rest => .sequence (first :: rest.map afterBlank)

def manySpaced (item : Part) : Part := Expression.manySpaced blank item

def isHexDigit (c : Char) : Bool :=
  ('0' ≤ c && c ≤ '9') || ('a' ≤ c && c ≤ 'f') || ('A' ≤ c && c ≤ 'F')

def escape : Part :=
  .both (word "\\u")
    (.either (.sequence (List.replicate 4 (.one isHexDigit)))
      (.sequence [word "\x7b", .oneOrMore (.one isHexDigit), word "\x7d"]))

def namePart : Part := .either (.one fun c => Identifier.isPart c || c == '\u200c' || c == '\u200d') escape

def name : Part := .both (.either (.one Identifier.isStart) escape) (.many namePart)

/-- A word that is not the start of a longer name. -/
def keyword (text : String) : Part := .both (word text) (.absent namePart)

def keywords (texts : List String) : Part := .choice (texts.map keyword)

def reserved : List String :=
  ["break", "case", "catch", "class", "const", "continue", "debugger", "default", "delete", "do", "else", "enum",
    "export", "extends", "false", "finally", "for", "function", "if", "import", "in", "instanceof", "new", "null",
    "return", "super", "switch", "this", "throw", "true", "try", "typeof", "var", "void", "while", "with"]

def reservedWord : Part := keywords reserved

def freeName : Part := .both (.absent reservedWord) name

def privateName : Part := .both (word "#") name

def quotedBy (quote : Char) : Part :=
  .sequence [.char quote,
    .many (.either (.both (word "\\") any) (.one fun c => c != quote && c != '\\' && c != '\n' && c != '\r')),
    .choice [.char quote, .ending, .ahead (.one fun c => c == '\n' || c == '\r')]]

def string : Part := .either (quotedBy '"') (quotedBy '\'')

def digits : Part :=
  .both (.one Identifier.isAsciiDigit) (.many (.one fun c => Identifier.isAsciiDigit c || c == '_'))

def exponent : Part :=
  .sequence [.one fun c => c == 'e' || c == 'E', .option (.one fun c => c == '+' || c == '-'), digits]

def number : Part :=
  let based (small large : Char) (isDigit : Char → Bool) : Part :=
    .sequence [word "0", .one fun c => c == small || c == large, .oneOrMore (.one fun c => isDigit c || c == '_')]
  .sequence
    [.choice [based 'x' 'X' isHexDigit, based 'o' 'O' fun c => '0' ≤ c && c ≤ '7',
        based 'b' 'B' fun c => c == '0' || c == '1',
        .sequence [digits, .option (.both (word ".") (.option digits)), .option exponent],
        .sequence [word ".", digits, .option exponent]],
      .option (word "n"), .absent (.one Identifier.isStart)]

def regularExpression : Part :=
  let escaped : Part := .both (word "\\") (.one (!isLineEnd ·))
  let set : Part :=
    .sequence [word "[", .many (.either escaped (.one fun c => c != ']' && c != '\\' && !isLineEnd c)), word "]"]
  .sequence [word "/", .absent (word "*"),
    .oneOrMore (.choice [escaped, set, .one fun c => c != '/' && c != '\\' && c != '[' && !isLineEnd c]),
    word "/", .many namePart]

/-- The end of a statement: a semicolon, or a place where one may be left out. Takes the blanks before it. -/
def statementEnd : Part :=
  .choice [.both blank (word ";"), .ahead (.both blank (.either (word "\x7d") .ending)), lineBreak]

def commaList (item : Part) : Part :=
  .option (spaced [item, .many (spaced [.empty, word ",", item]), .option (word ",")])

end Part

end SiteQuery.Script
