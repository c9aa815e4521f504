/-! Failures of devices, and the errors of the media below them.
A failure says what went wrong; its message says where, and its source is the medium's error. -/
namespace ByteFlow

/-- What kind of error a medium reports. -/
inductive IoKind where
  | brokenPipe
  | invalidData
  | invalidInput
  | other
  | outOfMemory
  | permissionDenied
  | unsupported
  | wouldBlock
  deriving DecidableEq, Repr

structure IoError where
  kind : IoKind
  message : String
  deriving DecidableEq, Repr

/-- What went wrong. -/
inductive FailureKind where
  | notOpen
  | alreadyOpen
  | notReadable
  | notWritable
  | invalidOpenMode
  | sequentialSeek
  | invalidPosition
  | transactionActive
  | noTransaction
  | invalidChannel
  | invalidArgument
  | capacityExceeded
  | io
  deriving DecidableEq, Repr

/-- Who is to blame: the caller, a limit, or the medium. -/
inductive FailureCategory where
  | contract
  | resource
  | io
  deriving DecidableEq, Repr

namespace FailureKind

def category : FailureKind → FailureCategory
  | capacityExceeded => .resource
  | io => .io
  | _ => .contract

/-- The wording of the kind. -/
def text : FailureKind → String
  | notOpen => "device not open"
  | alreadyOpen => "device already open"
  | notReadable => "device not open for reading"
  | notWritable => "device not open for writing"
  | invalidOpenMode => "invalid open mode"
  | sequentialSeek => "cannot seek a sequential device"
  | invalidPosition => "invalid position"
  | transactionActive => "transaction already in progress"
  | noTransaction => "no transaction in progress"
  | invalidChannel => "invalid channel"
  | invalidArgument => "invalid argument"
  | capacityExceeded => "capacity exceeded"
  | io => "I/O error"

/-- The nearest kind of medium error. -/
def ioKind : FailureKind → IoKind
  | notOpen | notReadable | notWritable => .permissionDenied
  | sequentialSeek => .unsupported
  | invalidPosition | invalidArgument | invalidOpenMode => .invalidInput
  | capacityExceeded => .outOfMemory
  | alreadyOpen | transactionActive | noTransaction | invalidChannel | io => .other

end FailureKind

structure Failure where
  kind : FailureKind
  message : Option String
  source : Option IoError
  deriving DecidableEq, Repr

namespace Failure

def ofKind (kind : FailureKind) : Failure := ⟨kind, none, none⟩

/-- A failure that a medium caused. -/
def ofIoError (e : IoError) : Failure := ⟨.io, some e.message, some e⟩

def withMessage (f : Failure) (message : String) : Failure := { f with message := some message }

def withSource (f : Failure) (source : IoError) : Failure := { f with source := some source }

def isContractViolation (f : Failure) : Bool := f.kind.category == .contract

/-- The wording of the failure. -/
def display (f : Failure) : String :=
  match f.message with
  | some message => f.kind.text ++ ": " ++ message
  | none => f.kind.text

/-- The failure as a medium's error. -/
def toIoError (f : Failure) : IoError := ⟨f.kind.ioKind, f.display⟩

end Failure

end ByteFlow
