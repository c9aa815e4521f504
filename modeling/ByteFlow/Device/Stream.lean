import ByteFlow.Device.Control
import ByteFlow.Device.Line

/-! A device as an ordinary byte stream: its failures are medium errors, and moves may be relative.
-/
namespace ByteFlow.Device

variable {σ α : Type}

/-- The result of a call with its failure as a medium error. -/
def asIo (result : Except Failure α × Device σ) : Except IoError α × Device σ :=
  (result.1.mapError Failure.toIoError, result.2)

/-- Where to move to. -/
inductive Target where
  | start (place : Nat)
  | here (distance : Int)
  | finish (distance : Int)
  deriving DecidableEq, Repr

/-- The position of a target, if there is one. -/
def place? [Medium σ] (d : Device σ) : Target → Option Nat
  | .start place => some place
  | .here distance => Word.shift? d.pos distance
  | .finish distance => Word.shift? d.size distance

/-- The error of a target that is no position. -/
def outOfRange : IoError := ⟨.invalidInput, "seek to a negative position"⟩

/-- Moves to a target and returns its position. -/
def moveToTarget [Medium σ] (d : Device σ) (target : Target) : Except IoError Nat × Device σ :=
  match d.place? target with
  | none => (.error outOfRange, d)
  | some place =>
    match asIo (d.seek place) with
    | (.ok (), d) => (.ok place, d)
    | (.error e, d) => (.error e, d)

end ByteFlow.Device
