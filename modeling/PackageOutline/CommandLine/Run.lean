import PackageOutline.CommandLine.Parse
import PackageOutline.Project
import PackageOutline.Render

/-! # Running a command line

A command line is read, the project is loaded and the command done.  What is reported and what is
shown goes to the output, errors go to the error output.

* `CommandLine.execute` does an invocation on a disk.
* `CommandLine.run` does a whole command line: the exit code is 0 for success, 1 for a project that
  the command cannot be done with, 2 for a command line that makes no sense, 101 for a broken
  contract. -/

namespace PackageOutline

namespace CommandLine

/-- What a command has to show. -/
inductive Outcome where
  | shown (text : String)
  | updated (item : String) (summary : Disk.Summary)
  | stored (output : Path) (size : Nat)
deriving DecidableEq, Repr

/-- The mark of success. -/
def successMark (color : Bool) : String := Render.styled color (some "32") "✓"

/-- What is printed for an outcome. -/
def Outcome.text (color : Bool) : Outcome → String
  | .shown text => text
  | .updated item s =>
    s!"{successMark color} {item} ({s.written} written, {s.unchanged} unchanged)\n"
  | .stored output size => s!"{successMark color} {output.display} ({size} bytes)\n"

/-- Does a command on a project that has been loaded. -/
def perform (color : Bool) (root : Path) : Command → Project.Act Outcome
  | .view => do
    let o := (← get).workspace.outline
    match Render.outline color o with
    | .ok text => return .shown text
    | .error v => throw (.violation v)
  | .update item source => return .updated item (← Project.update [] root item source)
  | .snapshot output => return .stored output (← Project.snapshot [] output)

/-- What has come of an invocation. -/
structure Execution where
  result : Except ProjectFailure Outcome
  notices : List Notice
  disk : Disk

/-- Does an invocation on a disk. -/
def execute (color : Bool) (i : Invocation) (d : Disk) : Execution :=
  let parsed : Notice := ⟨.debug, .command, "Parsed CLI arguments: " ++ i.display⟩
  let loaded := Project.load d 0 i.root
  let notices := parsed :: loaded.notices
  match loaded.result with
  | .error e => { result := .error e, notices, disk := d }
  | .ok (outline, next) =>
    let (result, p) := (perform color i.root i.command).run.run ⟨{ outline, next, notices }, d⟩
    { result, notices := p.workspace.notices, disk := p.disk }

/-- An error with its causes, the latest first. -/
def errorReport (e : ProjectError) : String :=
  let causes := e.causes.zipIdx.map fun (cause, i) => s!"  {i + 1}: {cause}\n"
  let heading := match causes.length with
    | 0 => ""
    | 1 => "\nCaused by this error:\n"
    | _ => "\nCaused by these errors (recent errors listed first):\n"
  s!"Error: {e.message}\n" ++ heading ++ String.join causes ++ "\n"

/-- What a run leaves behind. -/
structure Output where
  code : Nat
  out : String := ""
  err : String := ""
  disk : Disk

/-- Runs a command line on a disk. -/
def run (color : Bool) (arguments : List String) (d : Disk) : Output :=
  match parse arguments with
  | .error e =>
    let text := e.message ++ "\n"
    if e.isAnswer then { code := 0, out := text, disk := d }
    else { code := 2, err := text, disk := d }
  | .ok i =>
    let x := execute color i d
    let log := String.join ((x.notices.filter (i.verbosity.covers ·.level)).map Notice.line)
    match x.result with
    | .ok outcome => { code := 0, out := log ++ outcome.text color, disk := x.disk }
    | .error (.error e) => { code := 1, out := log, err := errorReport e, disk := x.disk }
    | .error (.violation v) => { code := 101, out := log, err := v.message ++ "\n", disk := x.disk }

end CommandLine

end PackageOutline
