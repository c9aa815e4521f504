import ByteFlow.ChunkQueue.Basic
import ByteFlow.Medium.Basic

/-! A sequential medium that the caller feeds, with a queue for each read channel and a record of
what was written for each write channel. Limits cap what one call moves. -/
namespace ByteFlow.Medium

structure Pipe where
  incoming : List ChunkQueue
  written : List Handle
  readChannel : Nat
  writeChannel : Nat
  readLimit : Option Nat
  writeLimit : Option Nat
  writeEndClosed : Bool

namespace Pipe

def empty : Pipe := ⟨[], [], 0, 0, none, none, false⟩

def ids (p : Pipe) : List StorageId := p.incoming.flatMap ChunkQueue.ids ++ Handle.ids p.written

/-- The list with copies of `x` behind it, so that it has at least `n` elements. -/
def padTo {α : Type} (n : Nat) (x : α) (xs : List α) : List α :=
  xs ++ List.replicate (n - xs.length) x

def newQueue : ChunkQueue := ChunkQueue.withChunkSize ChunkQueue.defaultChunkSize

/-- Takes over a handle on a channel, unless the write end is closed; tells whether it did. -/
def feed (held : List StorageId) (p : Pipe) (channel : Nat) (data : Handle) : Bool × Pipe :=
  if p.writeEndClosed then (false, p)
  else
    let queues := padTo (channel + 1) newQueue p.incoming
    (true, { p with incoming := queues.modify channel (ChunkQueue.append (p.ids ++ held) data) })

def closeWriteEnd (p : Pipe) : Pipe := { p with writeEndClosed := true }

/-- Everything written to a channel. -/
def writtenOn (p : Pipe) (channel : Nat) : Handle := p.written.getD channel Handle.empty

/-- How many bytes wait on a channel. -/
def pendingOn (p : Pipe) (channel : Nat) : Nat :=
  ((p.incoming[channel]?).map ChunkQueue.length).getD 0

/-- What a limit leaves of a request. -/
def capped (limit : Option Nat) (n : Nat) : Nat :=
  match limit with
  | none => n
  | some most => min most n

def read (p : Pipe) (room : Nat) : Except IoError Delivery × Pipe :=
  match p.incoming[p.readChannel]? with
  | none => (.ok ⟨[], 0⟩, p)
  | some queue =>
    let (bytes, rest) := queue.read (capped p.readLimit room)
    (.ok ⟨bytes, bytes.length⟩, { p with incoming := p.incoming.set p.readChannel rest })

def write (held : List StorageId) (p : Pipe) (bytes : List UInt8) : Except IoError Nat × Pipe :=
  let n := capped p.writeLimit bytes.length
  if n = 0 then (.ok 0, p)
  else
    let records := padTo (p.writeChannel + 1) Handle.empty p.written
    let others := p.incoming.flatMap ChunkQueue.ids ++ Handle.ids (records.eraseIdx p.writeChannel)
    (.ok n, { p with
      written := records.modify p.writeChannel (Handle.append (others ++ held) (bytes.take n)) })

end Pipe

instance : Medium Pipe where
  read _ p room := p.read room
  write held p bytes := p.write held bytes
  seek _ p _ := (.error unsupportedSeek, p)
  openWith p _ := (.ok (), p)
  close p := (.ok (), p)
  flush p := (.ok (), p)
  select p read write := { p with readChannel := read, writeChannel := write }
  isSequential _ := true
  size _ := 0
  available p := p.pendingOn p.readChannel
  ids p := p.ids

end ByteFlow.Medium
