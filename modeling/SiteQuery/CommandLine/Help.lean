import SiteQuery.CommandLine.Arguments

/-!
The texts about the program itself.
-/

namespace SiteQuery.CommandLine

def programName : String := "pagequery"

def programVersion : String := "0.1.0"

def programPurpose : String :=
  "Incremental extraction, compilation and change propagation for GraphQL page queries embedded in JS/TS sources"

def CommandName.purpose : CommandName → String
  | compile => "Compile every page query and write generated artifacts"
  | check => "Validate page queries and report unsupported query tags"
  | extract => "Print the compiled page queries exported by one file"
  | watch => "Watch sources and re-run pages whose query changed"
  | init => "Initialize a new .pagequeryrc.json configuration file"

def helpPurpose : String := "Print this message or the help of the given subcommand(s)"

/-- Two columns, the second aligned. -/
def table (rows : List (String × String)) : List String :=
  let width := (rows.map fun (left, _) => left.length).foldl max 0
  rows.map fun (left, right) => "  " ++ left ++ "".pushn ' ' (width - left.length) ++ "  " ++ right

def heading (title : String) (rows : List (String × String)) : List String :=
  ["", title ++ ":"] ++ table rows

def commonRows : List (String × String) := [
  ("    --root <ROOT>", "Project root; the config file is searched from here upwards [default: .]"),
  ("    --source-root <SOURCE_ROOT>", "Source code root directory (overrides config file)"),
  ("    --schema <SCHEMA>", "Schema definition file (overrides config file)"),
  ("-v, --verbose", "Enable verbose output")]

def helpRow : String × String := ("-h, --help", "Print help")

def jsonRow : String × String := ("    --json", "Print the compiled queries as JSON")

def fileRow : String × String := ("<FILE>", "Component file to extract page queries from")

def usage (tail : String) : List String := ["", s!"Usage: {programName}{tail}"]

def HelpTopic.lines : HelpTopic → List String
  | program =>
    [programPurpose] ++ usage " [COMMAND]"
      ++ heading "Commands"
        (CommandName.all.map (fun name => (name.text, name.purpose)) ++ [(helpName, helpPurpose)])
      ++ heading "Options" [helpRow, ("-V, --version", "Print version")]
  | help =>
    [helpPurpose] ++ usage " help [COMMAND]..."
      ++ heading "Arguments" [("[COMMAND]...", "Print help for the subcommand(s)")]
  | command .compile =>
    [CommandName.compile.purpose] ++ usage " compile [OPTIONS]"
      ++ heading "Options" (commonRows ++ [jsonRow, helpRow])
  | command .extract =>
    [CommandName.extract.purpose] ++ usage " extract [OPTIONS] <FILE>"
      ++ heading "Arguments" [fileRow] ++ heading "Options" (commonRows ++ [helpRow])
  | command .init => [CommandName.init.purpose] ++ usage " init" ++ heading "Options" [helpRow]
  | command name =>
    [name.purpose] ++ usage s!" {name.text} [OPTIONS]" ++ heading "Options" (commonRows ++ [helpRow])

def HelpTopic.text (topic : HelpTopic) : String := String.join (topic.lines.map (· ++ "\n"))

def versionText : String := s!"{programName} {programVersion}\n"

def UsageFault.message : UsageFault → String
  | argumentConflict => "error: an argument cannot be used multiple times\n"
  | tooManyValues => "error: unexpected value for an argument that takes none\n"
  | unknownArgument => "error: unexpected argument found\n"
  | missingRequiredArgument => "error: a required argument was not provided\n"
  | invalidSubcommand => "error: unrecognized subcommand\n"
  | invalidValue => "error: a value is required for an argument but none was supplied\n"

end SiteQuery.CommandLine
