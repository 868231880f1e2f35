import PackageOutline.Entries
import PackageOutline.Notice
import PackageOutline.Path
import PackageOutline.Text.Quoted

/-! # Invocations

What a command line asks for: a command, the project that it is about and how much of what happens
is to be reported. -/

namespace PackageOutline

/-- What to do with a project. -/
inductive Command where
  /-- Print the outline. -/
  | view
  /-- Replace the contents of the file at an item and save. -/
  | update (item : String) (source : Path)
  /-- Write the image of the outline to a file. -/
  | snapshot (output : Path)
deriving DecidableEq, Repr

/-- The least level of notices that is reported; none when nothing is. -/
abbrev Verbosity := Option Level

namespace Verbosity

/-- All verbosities with their words on the command line. -/
def words : List (String × Verbosity) :=
  [("trace", some .trace), ("debug", some .debug), ("info", some .info), ("warn", some .warn),
   ("error", some .error), ("silent", none)]

/-- The verbosity of a word. -/
def ofWord? (word : String) : Option Verbosity := Entries.get? word words

/-- The name of a verbosity in reports. -/
def label : Verbosity → String
  | none => "Silent"
  | some .trace => "Trace"
  | some .debug => "Debug"
  | some .info => "Info"
  | some .warn => "Warn"
  | some .error => "Error"

/-- Whether notices of a level are reported. -/
def covers (v : Verbosity) (l : Level) : Bool := v.any fun least => least.rank ≤ l.rank

end Verbosity

/-- What a command line asks for. -/
structure Invocation where
  command : Command
  verbosity : Verbosity
  root : Path
deriving DecidableEq, Repr

namespace Invocation

/-- A path in reports. -/
def displayPath (p : Path) : String := Text.quoteBoth p.display

/-- A command in reports. -/
def displayCommand : Command → String
  | .view => "Show"
  | .update item source =>
    Text.record "Update" [("item", Text.quote item), ("source", displayPath source)]
  | .snapshot output => Text.record "Snapshot" [("output", displayPath output)]

/-- An invocation in reports. -/
def display (i : Invocation) : String :=
  Text.record "Cli" [
    ("command", displayCommand i.command),
    ("log_level", i.verbosity.label),
    ("root", displayPath i.root)]

end Invocation

/-- Why a command line asks for nothing that can be done. -/
inductive UsageError where
  /-- An option, or a value where none belongs. -/
  | unknownArgument (argument : String)
  /-- An option without its value, or with one that it does not take. -/
  | invalidValue (argument value : String)
  /-- A value for an option that takes none. -/
  | surplusValue (argument : String)
  /-- An option that is given twice. -/
  | repeated (argument : String)
  | unknownCommand (name : String)
  | missingArgument (name : String)
  | missingCommand
  /-- No argument at all: the help is shown. -/
  | noArguments
  /-- A wish for help is answered instead of anything else. -/
  | help
  /-- A wish for the version is answered instead of anything else. -/
  | version
deriving DecidableEq, Repr

namespace UsageError

/-- The version of the program. -/
def versionText : String := "project-outline 0.1.0"

/-- How the program is used. -/
def helpText : String :=
  "\n".intercalate [
    "Usage: project-outline [OPTIONS] <COMMAND>",
    "",
    "Commands:",
    "  show                    Print the project outline",
    "  update <ITEM> <SOURCE>  Replace the contents of a file in the outline and save the project",
    "  snapshot <OUTPUT>       Write a compressed snapshot of the whole project",
    "  help                    Print this message",
    "",
    "Options:",
    "  -l, --log-level <LEVEL>  trace, debug, info, warn, error or silent [default: warn]",
    "  -r, --root <ROOT>        The root directory of the project [default: .]",
    "  -h, --help               Print help",
    "  -V, --version            Print version"]

/-- The error in words. -/
def message : UsageError → String
  | .unknownArgument argument => s!"error: unexpected argument '{argument}' found"
  | .invalidValue argument value => s!"error: invalid value '{value}' for '{argument}'"
  | .surplusValue argument => s!"error: unexpected value for '{argument}' found"
  | .repeated argument => s!"error: the argument '{argument}' cannot be used multiple times"
  | .unknownCommand name => s!"error: unrecognized subcommand '{name}'"
  | .missingArgument name => s!"error: the following required argument was not provided: {name}"
  | .missingCommand => "error: 'project-outline' requires a subcommand but one was not provided"
  | .noArguments | .help => helpText
  | .version => versionText

/-- Whether the error is an answer to what was asked for. -/
def isAnswer : UsageError → Bool
  | .help | .version => true
  | _ => false

end UsageError

end PackageOutline
