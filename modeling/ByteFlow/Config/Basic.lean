import ByteFlow.ChunkQueue.Basic

/-! Buffering parameters of a device.
They come from defaults, then a configuration text, then the environment, each overriding the last.
-/
namespace ByteFlow

structure Config where
  /-- How much one fill asks of the medium; reads of at least this size bypass the queue. -/
  bufferSize : Nat
  chunkSize : Nat
  writeChunkSize : Nat
  /-- Whether text mode writes a carriage return before each line feed. -/
  crlfOnWrite : Bool
  deriving DecidableEq, Repr

namespace Config

def defaultBufferSize : Nat := 16384

/-- The parameters of a device that nobody configured. -/
def initial : Config := ⟨defaultBufferSize, ChunkQueue.defaultChunkSize, 0, false⟩

/-- A fill asks for at least one byte. -/
def normalize (c : Config) : Config := { c with bufferSize := max 1 c.bufferSize }

end Config

end ByteFlow
