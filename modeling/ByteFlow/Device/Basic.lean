import ByteFlow.Config.Basic
import ByteFlow.Device.Channels
import ByteFlow.Medium.Basic

/-! Devices: positions, buffering, line ends, read transactions and channels over a medium.
On a random-access medium the current read queue holds the bytes from `pos` on, and `mediumPos` is
where the medium stands; the two meet again just before the medium is touched. On a stream `pos`
counts the bytes read. Positions are machine words, which wrap around. As for queues, the room
asked of the memory is taken for granted. -/
namespace ByteFlow

/-- A read transaction. On a stream what it read stays queued before a cursor; on a random-access
medium it goes back to where it started. -/
inductive Transaction where
  | idle
  | onStream (startPos cursor : Nat)
  | onRandomAccess (startPos : Nat)
  deriving DecidableEq, Repr

structure Device (σ : Type) where
  medium : σ
  /-- Whether the medium is a stream. -/
  sequential : Bool
  mode : OpenMode
  config : Config
  reading : Device.Channels
  writing : Device.Channels
  pos : Nat
  mediumPos : Nat
  transaction : Transaction
  /-- What the last failure was; empty if there was none since opening. -/
  errorString : String
  /-- The storages that handles outside the device hold. -/
  outside : List StorageId
  fills : 0 < config.bufferSize

namespace Device

variable {σ α : Type}

/-- A closed device over a medium. -/
def ofMedium [Medium σ] (medium : σ) (config : Config) : Device σ where
  medium := medium
  sequential := Medium.isSequential medium
  mode := .closed
  config := config.normalize
  reading := .single config.chunkSize
  writing := .single config.writeChunkSize
  pos := 0
  mediumPos := 0
  transaction := .idle
  errorString := ""
  outside := []
  fills := by simp only [Config.normalize]; omega

/-! State -/

def isOpen (d : Device σ) : Bool := !d.mode.isEmpty

def isText (d : Device σ) : Bool := d.mode.text

def isBuffered (d : Device σ) : Bool := !d.mode.unbuffered

def inTransaction (d : Device σ) : Bool := d.transaction != .idle

/-- Where in the read queue the next byte is. -/
def cursor (d : Device σ) : Nat :=
  match d.transaction with
  | .onStream _ cursor => cursor
  | _ => 0

/-- The queue of the current read channel. -/
def readQueue (d : Device σ) : ChunkQueue := d.reading.queue

/-- The queue of the current write channel. -/
def writeQueue (d : Device σ) : ChunkQueue := d.writing.queue

def bytesToWrite (d : Device σ) : Nat := d.writeQueue.length

/-- Bytes that can be read at once. -/
def bytesAvailable [Medium σ] (d : Device σ) : Nat :=
  if !d.isOpen then 0
  else
    let buffered := d.readQueue.length - d.cursor
    if d.sequential then buffered + Medium.available d.medium
    else max (Medium.size d.medium - d.pos) buffered

/-- The size of the medium; that of a stream is what can be read at once. -/
def size [Medium σ] (d : Device σ) : Nat :=
  if d.sequential then d.bytesAvailable else Medium.size d.medium

def atEnd [Medium σ] (d : Device σ) : Bool := !d.isOpen || d.bytesAvailable == 0

/-- Whether a whole line is queued. -/
def canReadLine (d : Device σ) : Bool :=
  d.isOpen && d.mode.readable &&
    (d.readQueue.indexOf Byte.lineFeed Word.maxValue d.cursor).isSome

/-! Failures -/

/-- Refuses a call. -/
def refuse (d : Device σ) (kind : FailureKind) (call : String) : Except Failure α × Device σ :=
  (.error ((Failure.ofKind kind).withMessage call),
    { d with errorString := call ++ ": " ++ kind.text })

/-- Ends a call with an error of the medium. -/
def broken (d : Device σ) (e : IoError) (call : String) : Except Failure α × Device σ :=
  (.error (Failure.ofIoError e),
    { d with errorString := call ++ ": " ++ (Failure.ofIoError e).display })

/-- Notes an error of the medium that comes too late to undo what the call did. -/
def note (d : Device σ) (e : IoError) (call : String) : Device σ :=
  { d with errorString := call ++ ": " ++ e.message }

/-- Why reading is refused, if it is. -/
def readObstacle? (d : Device σ) : Option FailureKind :=
  if !d.isOpen then some .notOpen else if !d.mode.readable then some .notReadable else none

/-- Why writing is refused, if it is. -/
def writeObstacle? (d : Device σ) : Option FailureKind :=
  if !d.isOpen then some .notOpen else if !d.mode.writable then some .notWritable else none

/-! Storages that others hold -/

/-- What anyone but the medium holds. -/
def heldBesideMedium (d : Device σ) : List StorageId := d.reading.ids ++ d.writing.ids ++ d.outside

/-- What anyone but the queue of a read channel holds. -/
def heldBesideReading [Medium σ] (d : Device σ) (channel : Nat) : List StorageId :=
  d.reading.idsBeside channel ++ d.writing.ids ++ Medium.ids d.medium ++ d.outside

/-- What anyone but the current write queue holds. -/
def heldBesideWriting [Medium σ] (d : Device σ) : List StorageId :=
  d.reading.ids ++ d.writing.idsBeside d.writing.current ++ Medium.ids d.medium ++ d.outside

/-- All storages that the device or anyone else holds. -/
def held [Medium σ] (d : Device σ) : List StorageId :=
  d.heldBesideMedium ++ Medium.ids d.medium

/-! Positions and the medium -/

/-- Moves the position, which on a stream waits until the call is over. -/
def advance (d : Device σ) (n : Nat) : Device σ :=
  if d.sequential then d else { d with pos := Word.addWrapped d.pos n }

/-- Follows the medium after it moved bytes. -/
def follow (d : Device σ) (n : Nat) : Device σ :=
  if d.sequential then d else { d with mediumPos := Word.addWrapped d.mediumPos n }

/-- Brings a random-access medium to the device's position. -/
def sync [Medium σ] (d : Device σ) : Except IoError Unit × Device σ :=
  if d.sequential ∨ d.mediumPos = d.pos then (.ok (), d)
  else
    match Medium.seek d.heldBesideMedium d.medium d.pos with
    | (.error e, m) => (.error e, { d with medium := m })
    | (.ok (), m) => (.ok (), { d with medium := m, mediumPos := d.pos })

/-- Asks the medium for a number of bytes at the end of the read queue, and tells how many came.
What the medium did not write of those it counts is what the chunk held there. -/
def fill [Medium σ] (d : Device σ) (chunk : Nat) : Except IoError Nat × Device σ :=
  let held := d.heldBesideReading d.reading.current
  match d.readQueue.reserve? held chunk with
  | none => (.ok 0, d)
  | some q =>
    match Medium.read d.heldBesideMedium d.medium chunk with
    | (.error e, m) => (.error e, { d with medium := m, reading := d.reading.put (q.chop chunk) })
    | (.ok delivery, m) =>
      let got := min delivery.count chunk
      let slot := delivery.bytes ++ (q.slot chunk).drop delivery.bytes.length
      let q := (q.fill held slot).chop (chunk - got)
      (.ok got, follow { d with medium := m, reading := d.reading.put q } got)

/-- How much a fill asks for when one more byte is wanted. -/
def fillSize (d : Device σ) : Nat := if d.isBuffered then d.config.bufferSize else 1

/-- Tries to have a byte at `place` of the read queue; a failure to do so stays unsaid. -/
def lookAhead [Medium σ] (d : Device σ) (place : Nat) : Device σ :=
  if place < d.readQueue.length then d
  else
    match d.sync with
    | (.error _, d) => d
    | (.ok (), d) => (d.fill d.fillSize).2

/-- Moves the position and keeps the queued bytes from there on, if there are any. -/
def moveTo (d : Device σ) (place : Nat) : Device σ :=
  let q :=
    if d.pos ≤ place ∧ place - d.pos < d.readQueue.length then d.readQueue.free (place - d.pos)
    else d.readQueue.clear
  { d with reading := d.reading.put q, pos := place }

end Device

end ByteFlow
