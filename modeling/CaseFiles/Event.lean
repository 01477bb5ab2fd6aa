import CaseFiles.Error

/-!
# Events

What a run tells on its way. A traced result keeps the events in the order in which they happened
next to the outcome; the events of a failed run are those before and at the failure.
-/

namespace CaseFiles

/-- How much an event matters. -/
inductive Level where
  | debug
  | info
  | warning
  | error
  deriving DecidableEq, Repr

/-- The name of a level. -/
def Level.text : Level → String
  | .debug => "debug"
  | .info => "info"
  | .warning => "warning"
  | .error => "error"

/-- The things worth telling. -/
inductive Event where
  /-- A candidate file was found on the disk. -/
  | globbed (path : Text)
  /-- A candidate is left out because it is a backup or hidden file. -/
  | ignored (path : Text)
  /-- A candidate has found its place in a test case. -/
  | filed (path : Text) (ext : Ext) (name : Text)
  /-- The run ends with this failure. -/
  | failed (cause : Error)
  /-- The run ends with this many test cases. -/
  | counted (cases : Nat)
  deriving DecidableEq, Repr

namespace Event

/-- How much each kind of event matters. -/
def level : Event → Level
  | globbed _ | filed _ _ _ => .debug
  | ignored _ => .warning
  | failed _ => .error
  | counted _ => .info

/-- The wording of an event. -/
def message : Event → String
  | globbed p => s!"testcase globbed: {String.ofList p}"
  | ignored p => s!"ignore a backup file: {String.ofList p}"
  | filed p e n =>
    s!"{String.ofList p} is the {String.ofList e.text} file of \"{String.ofList n}\""
  | failed cause => cause.message
  | counted k => s!"{k} cases found"

end Event

/-- An outcome together with the events that led to it. -/
structure Traced (α : Type) where
  events : List Event
  outcome : Except Error α

namespace Traced

variable {α β : Type}

/-- An outcome that nothing was told about. -/
def quiet (outcome : Except Error α) : Traced α := ⟨[], outcome⟩

/-- Success after the given events. -/
def telling (events : List Event) (value : α) : Traced α := ⟨events, .ok value⟩

/-- A failure that is told before the run ends. -/
def fail (cause : Error) : Traced α := ⟨[.failed cause], .error cause⟩

/-- Goes on after a success; a failure ends the run. -/
def bind (x : Traced α) (f : α → Traced β) : Traced β :=
  match x.outcome with
  | .ok a => ⟨x.events ++ (f a).events, (f a).outcome⟩
  | .error cause => ⟨x.events, .error cause⟩

theorem bind_ok {x : Traced α} {a : α} (h : x.outcome = .ok a) (f : α → Traced β) :
    x.bind f = ⟨x.events ++ (f a).events, (f a).outcome⟩ := by
  simp [bind, h]

theorem bind_error {x : Traced α} {cause : Error} (h : x.outcome = .error cause)
    (f : α → Traced β) : x.bind f = ⟨x.events, .error cause⟩ := by
  simp [bind, h]

end Traced

end CaseFiles
