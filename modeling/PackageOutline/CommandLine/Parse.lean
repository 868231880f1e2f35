import PackageOutline.CommandLine.Basic

/-! # Reading a command line

A command line is read from left to right: first options of the program, then a command with its own
arguments, among which the same options may stand.

* A value follows its option in the same argument or in the next one, which must not look like an
  option.
* The value of an option is looked at when the next option or argument for a value comes, or at the
  end (`settle`); the end of the whole line counts only after the command has been read.  Of two
  mistakes that one is told which is met first in this order.
* An option may be given once before the command and once after it; the latter counts.
* After `--` nothing is an option or a command. -/

namespace PackageOutline

namespace CommandLine

/-- Something with a value. -/
inductive Param where
  | verbosity
  | root
  | item
  | source
  | output
deriving DecidableEq, Repr

/-- The name of a parameter in messages. -/
def Param.text : Param → String
  | .verbosity => "--log-level <LEVEL>"
  | .root => "--root <ROOT>"
  | .item => "<ITEM>"
  | .source => "<SOURCE>"
  | .output => "<OUTPUT>"

/-- The commands. -/
inductive Verb where
  | view
  | update
  | snapshot
deriving DecidableEq, Repr

/-- The command of a word. -/
def Verb.ofWord? (word : String) : Option Verb :=
  if word = "show" then some .view
  else if word = "update" then some .update
  else if word = "snapshot" then some .snapshot
  else none

/-- The word for help instead of a command. -/
def helpWord : String := "help"

/-- Whether a word stands for a command or for help. -/
def isVerb (word : String) : Bool := (Verb.ofWord? word).isSome || word = helpWord

/-- The arguments of a command. -/
def Verb.params : Verb → List Param
  | .view => []
  | .update => [.item, .source]
  | .snapshot => [.output]

/-- The values that have been read. -/
structure Values where
  verbosity : Option Verbosity := none
  root : Option Path := none
  item : Option String := none
  source : Option Path := none
  output : Option Path := none
deriving DecidableEq, Repr

namespace Values

/-- A value for a path, which is not empty. -/
def path (p : Param) (value : String) : Except UsageError Path :=
  if value = "" then .error (.invalidValue p.text value) else .ok (.ofString value)

/-- Whether a parameter has a value. -/
def has (v : Values) : Param → Bool
  | .verbosity => v.verbosity.isSome
  | .root => v.root.isSome
  | .item => v.item.isSome
  | .source => v.source.isSome
  | .output => v.output.isSome

/-- Gives a parameter a value; none may be missing or come twice. -/
def accept (v : Values) (p : Param) (value : Option String) : Except UsageError Values := do
  let some value := value | throw (.invalidValue p.text "")
  if v.has p then throw (.repeated p.text)
  match p with
  | .verbosity =>
    match Verbosity.ofWord? value with
    | some verbosity => return { v with verbosity := some verbosity }
    | none => throw (.invalidValue p.text value)
  | .root => return { v with root := some (← path p value) }
  | .item => return { v with item := some value }
  | .source => return { v with source := some (← path p value) }
  | .output => return { v with output := some (← path p value) }

end Values

/-- What has been read of one part of a line: before the command, or from it on. -/
structure Progress where
  values : Values := {}
  /-- A parameter whose value has not been looked at, with the value if it has come. -/
  pending : Option (Param × Option String) := none
  /-- Arguments of the command that are still to come. -/
  params : List Param := []
  /-- Whether nothing is an option any more. -/
  trailing : Bool := false
deriving DecidableEq, Repr

namespace Progress

/-- Whether the next argument is the value of an option. -/
def awaitsValue (s : Progress) : Bool := s.pending.any fun (_, value) => value.isNone

/-- Looks at the value that has not been looked at. -/
def settle (s : Progress) : Except UsageError Progress :=
  match s.pending with
  | none => .ok s
  | some (p, value) => do return { s with values := ← s.values.accept p value, pending := none }

/-- Reads an option with its value, if that is in the same argument. -/
def option (s : Progress) (p : Param) (attached : Option String) : Except UsageError Progress := do
  let s ← s.settle
  match attached with
  | some value => return { s with values := ← s.values.accept p (some value) }
  | none => return { s with pending := some (p, none) }

/-- Answers an option that asks for something else. -/
def ask (s : Progress) (answer : UsageError) : Except UsageError Progress := do
  let _ ← s.settle
  throw answer

/-- Reads an argument that begins with two hyphens. -/
def long (inCommand : Bool) (s : Progress) (argument : List Char) : Except UsageError Progress :=
  let name := argument.takeWhile (· != '=')
  let value := (argument.drop name.length).tail?.map String.ofList
  let answer := fun e =>
    if value.isSome then throw (.surplusValue (String.ofList name)) else s.ask e
  if name = "--log-level".toList then s.option .verbosity value
  else if name = "--root".toList then s.option .root value
  else if name = "--help".toList then answer .help
  else if name = "--version".toList && !inCommand then answer .version
  else throw (.unknownArgument (String.ofList name))

/-- The value in an argument behind a short option. -/
def attached : List Char → Option String
  | [] => none
  | '=' :: value => some (String.ofList value)
  | value => some (String.ofList value)

/-- Reads an argument that begins with one hyphen. -/
def short (inCommand : Bool) (s : Progress) : List Char → Except UsageError Progress
  | 'l' :: value => s.option .verbosity (attached value)
  | 'r' :: value => s.option .root (attached value)
  | 'h' :: _ => s.ask .help
  | c :: _ =>
    if c = 'V' && !inCommand then s.ask .version
    else throw (.unknownArgument (String.ofList ['-', c]))
  | [] => throw (.unknownArgument "-")

/-- Reads an argument that is no option. -/
def plain (inCommand : Bool) (s : Progress) (argument : String) : Except UsageError Progress :=
  match s.params with
  | p :: params => do return { ← s.settle with pending := some (p, some argument), params }
  | [] =>
    if inCommand || (s.trailing && isVerb argument) then throw (.unknownArgument argument)
    else throw (.unknownCommand argument)

/-- Reads an argument that is no command. -/
def next (inCommand : Bool) (s : Progress) (argument : String) : Except UsageError Progress :=
  if s.trailing then s.plain inCommand argument
  else if argument = "--" then return { s with trailing := true }
  else match argument.toList, s.pending with
    | '-' :: '-' :: _, _ => s.long inCommand argument.toList
    | '-' :: c :: cs, _ => s.short inCommand (c :: cs)
    | _, some (p, none) => return { s with pending := some (p, some argument) }
    | _, _ => s.plain inCommand argument

end Progress

/-- Reads the arguments of a command. -/
def readCommand (s : Progress) : List String → Except UsageError Progress
  | [] => s.settle
  | argument :: arguments => do readCommand (← s.next true argument) arguments

/-- Answers the command for help, with the commands that it is wanted about. -/
def readHelp (arguments : List String) : UsageError :=
  match arguments with
  | [] => .help
  | word :: more =>
    if !isVerb word then .unknownCommand word
    else match more with
      | [] => .help
      | word :: _ => .unknownCommand word

/-- The command that some values are for. -/
def Verb.command (verb : Verb) (v : Values) : Except UsageError Command :=
  match verb with
  | .view => .ok .view
  | .update =>
    match v.item, v.source with
    | some item, some source => .ok (.update item source)
    | none, _ => .error (.missingArgument Param.item.text)
    | _, none => .error (.missingArgument Param.source.text)
  | .snapshot =>
    match v.output with
    | some output => .ok (.snapshot output)
    | none => .error (.missingArgument Param.output.text)

/-- Ends a line without a command. -/
def endWithoutCommand (s : Progress) : UsageError :=
  match s.settle with
  | .error e => e
  | .ok s => if s.values = {} then .noArguments else .missingCommand

/-- Reads the arguments before and from the command on. -/
def readLine (s : Progress) : List String → Except UsageError Invocation
  | [] => throw (endWithoutCommand s)
  | argument :: arguments => do
    if !s.trailing && !s.awaitsValue && isVerb argument then
      match Verb.ofWord? argument with
      | none => throw (readHelp arguments)
      | some verb =>
        let inner := (← readCommand { params := verb.params } arguments).values
        let command ← verb.command inner
        let outer := (← s.settle).values
        return {
          command
          verbosity := (inner.verbosity <|> outer.verbosity).getD (some .warn)
          root := (inner.root <|> outer.root).getD ⟨Path.dot⟩ }
    else readLine (← s.next false argument) arguments

/-- The invocation that the arguments of a command line are. -/
def parse (arguments : List String) : Except UsageError Invocation := readLine {} arguments

end CommandLine

end PackageOutline
