import CaseFiles.Case

/-!
# What can go wrong

Every failure of the library is one of these causes. `Error.message` is the wording that a user
sees; `Error.expected` tells the failures that a wrong format or a wrong set of files brings about
from faults of the caller and of the file system.
-/

namespace CaseFiles

/-- Why a format cannot locate test cases. -/
inductive FormatFault where
  /-- It is no text, or the empty one. -/
  | notText
  /-- It has no place for the name of the case. -/
  | noName
  /-- It has no place for the extension. -/
  | noExt
  deriving DecidableEq, Repr

/-- The wording of a format's fault. -/
def FormatFault.message : FormatFault → String
  | .notText => "must be a non-empty string."
  | .noName => "missing \"%s\" for the test case name."
  | .noExt => "missing \"%e\" for the extension (in/out)."

/-- The causes of failure. -/
inductive Error where
  /-- The format ends with a percent sign that has nothing to escape. -/
  | malformedFormat (format : Text)
  /-- The format is well formed but cannot locate test cases. -/
  | invalidFormat (format : Text) (fault : FormatFault)
  /-- The format uses a placeholder that has no definition. -/
  | undefinedPlaceholder (key format : Text)
  /-- A file does not fit the format. -/
  | unrecognizedFile (path format : Text)
  /-- Two files claim one place of one test case. -/
  | duplicateFile (name : Text) (ext : Ext) (first second : Text)
  /-- There is an output but no input under one name. -/
  | danglingOutput (name path : Text)
  /-- There are no test cases. -/
  | noCases (directory format : Text)
  /-- A table gives a meaning of its own to the escaped percent sign. -/
  | percentRedefined (value : Text)
  /-- A locator was made without a directory. -/
  | noDirectory
  /-- A pattern is no regular expression. -/
  | badPattern
  /-- Symbolic links lead round in a circle. -/
  | linkLoop
  /-- A path with a NUL character was looked up. -/
  | nulInPath
  deriving DecidableEq, Repr

namespace Error

/-- The wording of a failure. -/
def message : Error → String
  | malformedFormat f =>
    s!"Format \"{String.ofList f}\" ends with a lone \"%\". Write \"%%\" for a literal percent sign."
  | invalidFormat f fault => s!"Format \"{String.ofList f}\": {fault.message}"
  | undefinedPlaceholder k f =>
    s!"Format \"{String.ofList f}\" uses placeholder \"%{String.ofList k}\", which has no definition."
  | unrecognizedFile p f =>
    s!"unrecognizable file found: {String.ofList p} (format: \"{String.ofList f}\")"
  | duplicateFile n e p q =>
    s!"test case \"{String.ofList n}\" has more than one {String.ofList e.text} file: " ++
      s!"{String.ofList p}, {String.ofList q}"
  | danglingOutput _ p => s!"dangling output case: {String.ofList p}"
  | noCases d f => s!"no cases found in {String.ofList d} (format: \"{String.ofList f}\")"
  | percentRedefined v =>
    s!"percentFormat: a table entry for \"%\" must be \"%\", received \"{String.ofList v}\"."
  | noDirectory => "TestCaseLocator: 'directory' must be a non-empty string."
  | badPattern => "invalid regular expression"
  | linkLoop => "too many symbolic links encountered"
  | nulInPath => "a path must not contain null bytes"

/-- The failures that come from a wrong format or a wrong set of files. -/
def expected : Error → Bool
  | malformedFormat _ | invalidFormat _ _ | undefinedPlaceholder _ _ | unrecognizedFile _ _
  | duplicateFile _ _ _ _ | danglingOutput _ _ | noCases _ _ => true
  | percentRedefined _ | noDirectory | badPattern | linkLoop | nulInPath => false

end Error

end CaseFiles
