import ByteFlow.Medium.Basic

/-! A medium that keeps a record of the calls made on it, newest first. Questions about size and
availability are not recorded. -/
namespace ByteFlow.Medium

/-- A call with what it answered: a count or nothing, or the kind of the error. -/
inductive Call where
  | read (room : Nat) (answer : Except IoKind Nat)
  | write (bytes : List UInt8) (answer : Except IoKind Nat)
  | seek (place : Nat) (answer : Except IoKind Unit)
  | openWith (mode : OpenMode) (answer : Except IoKind Unit)
  | close (answer : Except IoKind Unit)
  | flush (answer : Except IoKind Unit)
  | select (read write : Nat)

structure Traced (σ : Type) where
  medium : σ
  calls : List Call

namespace Traced

/-- Adds a call to the record. -/
def record {σ α β : Type} (t : Traced σ) (view : α → β) (call : Except IoKind β → Call)
    (result : Except IoError α × σ) : Except IoError α × Traced σ :=
  let answer := match result.1 with
    | .ok a => .ok (view a)
    | .error e => .error e.kind
  (result.1, ⟨result.2, call answer :: t.calls⟩)

end Traced

instance {σ : Type} [Medium σ] : Medium (Traced σ) where
  read held t n := t.record Delivery.count (.read n) (Medium.read held t.medium n)
  write held t bytes := t.record id (.write bytes) (Medium.write held t.medium bytes)
  seek held t place := t.record id (.seek place) (Medium.seek held t.medium place)
  openWith t mode := t.record id (.openWith mode) (Medium.openWith t.medium mode)
  close t := t.record id .close (Medium.close t.medium)
  flush t := t.record id .flush (Medium.flush t.medium)
  select t read write := ⟨Medium.select t.medium read write, .select read write :: t.calls⟩
  isSequential t := Medium.isSequential t.medium
  size t := Medium.size t.medium
  available t := Medium.available t.medium
  ids t := Medium.ids t.medium

end ByteFlow.Medium
