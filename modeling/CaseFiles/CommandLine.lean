import CaseFiles.Locator

/-!
# The command line

The program lists the test cases of a directory, one to a line, and then where the next sample would
be saved. What happens on the way is written out too, all but the least important; warnings and
errors go to the error channel. A wrong format or a wrong set of files ends the run with exit
code 1.
-/

namespace CaseFiles

/-- Where a line is written. -/
inductive Channel where
  | out
  | err
  deriving DecidableEq, Repr

/-- A line that is written. -/
structure Line where
  channel : Channel
  text : String
  deriving DecidableEq, Repr

/-- What a run writes, and the failure that ends it if there is one. -/
structure Run where
  lines : List Line
  failure : Option Error
  deriving DecidableEq, Repr

namespace Run

/-- The exit code that the program sets. It sets none for an unexpected failure. -/
def exitCode (r : Run) : Nat := if r.failure.any Error.expected then 1 else 0

/-- The failure that the program does not handle. -/
def unexpected (r : Run) : Option Error := r.failure.filter (!·.expected)

end Run

/-- The line for an event, unless it matters too little. -/
def Event.line? (e : Event) : Option Line :=
  let text := s!"[{e.level.text}] {e.message}"
  match e.level with
  | .debug => none
  | .info => some ⟨.out, text⟩
  | .warning | .error => some ⟨.err, text⟩

/-- The line for a test case. -/
def Case.line (c : Case) : Line :=
  let rest :=
    match c.output with
    | some o => s!" -> {String.ofList o}"
    | none => " (no expected output)"
  ⟨.out, s!"{String.ofList c.name}: {String.ofList c.input}{rest}"⟩

namespace CommandLine

/-- The name of the next sample to be saved. -/
def nextName : Text := "next".toList

/-- The directory that is searched when none is given. -/
def defaultDirectory : Text := "test".toList

/-- Lists the test cases that a locator finds. -/
def listCases (loc : Locator) (d : Disk) : Run :=
  let found := loc.discover d
  let told := found.events.filterMap Event.line?
  match found.outcome with
  | .error cause => ⟨told, some cause⟩
  | .ok cases =>
    let listed := told ++ cases.map Case.line
    match loc.pathFor nextName .input with
    | .error cause => ⟨listed, some cause⟩
    | .ok p => ⟨listed ++ [⟨.out, s!"next sample goes to {String.ofList p}"⟩], none⟩

/-- Runs the program. The arguments are the directory and the format; further ones do nothing. -/
def run (d : Disk) (args : List Text) : Run :=
  let directory := args[0]?.getD defaultDirectory
  let format := args[1]?.getD Format.default
  match Locator.make (.text directory) (.text format) with
  | .error cause => ⟨[], some cause⟩
  | .ok loc => listCases loc d

end CommandLine

end CaseFiles
