import ByteFlow.Failure
import ByteFlow.Handle.Basic
import ByteFlow.OpenMode

/-! Media: what moves bytes below a device.
A medium may move less than it was asked to, or fail; a device above it never assumes more. -/
namespace ByteFlow

/-- What a reading call did: `bytes` were put at the front of the caller's buffer, and `count` is
the number the medium reports, which honest media make the number of those bytes. -/
structure Delivery where
  bytes : List UInt8
  count : Nat

/-- The primitive operations on a state of type `σ`. Those that may write handles are told which
storages other handles hold. -/
class Medium (σ : Type) where
  /-- Reads into a buffer of a size. -/
  read : List StorageId → σ → Nat → Except IoError Delivery × σ
  /-- Writes some first part of the bytes and tells how many. -/
  write : List StorageId → σ → List UInt8 → Except IoError Nat × σ
  /-- Moves the medium's own position. -/
  seek : List StorageId → σ → Nat → Except IoError Unit × σ
  openWith : σ → OpenMode → Except IoError Unit × σ
  close : σ → Except IoError Unit × σ
  flush : σ → Except IoError Unit × σ
  /-- Chooses the channels that reading and writing go to. -/
  select : σ → Nat → Nat → σ
  /-- Whether the medium is a stream without positions. -/
  isSequential : σ → Bool
  size : σ → Nat
  /-- Bytes that a stream can deliver at once. -/
  available : σ → Nat
  /-- The storages that the medium holds. -/
  ids : σ → List StorageId

namespace Medium

/-- The answer of a medium without positions. -/
def unsupportedSeek : IoError := ⟨.unsupported, "device does not support seeking"⟩

end Medium

end ByteFlow
