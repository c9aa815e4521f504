import ByteFlow.ChunkQueue.Basic

/-! A queue in use: a second queue that was saved from it, and handles that the caller kept.
The storages of both count as held whenever the queue writes. -/
namespace ByteFlow.ChunkQueue

structure Session where
  queue : ChunkQueue
  saved : ChunkQueue
  kept : List Handle

/-- Something done to the queue of a session. -/
inductive Action where
  | reserve (n : Nat) (byteAt : Nat → UInt8)
  | reserveFront (n : Nat) (byteAt : Nat → UInt8)
  | free (n : Nat)
  | chop (n : Nat)
  | append (data : Handle) (keep : Bool)
  | appendBytes (bytes : List UInt8)
  | put (b : UInt8)
  | get
  | unget (b : UInt8)
  | read (n : Nat)
  | peek (n place : Nat)
  | readLine (room : Nat)
  | readChunk
  | readHandle (n : Nat)
  | skip (n : Nat)
  | indexOf (b : UInt8) (room start : Nat)
  | hasLine
  | runAt (place : Nat)
  | front
  | clear
  | setChunkSize (n : Nat)
  | save
  | swap

/-- What an action answers. -/
inductive Reply where
  | done
  | refused
  | size (n : Nat)
  | place (n : Option Nat)
  | byte (b : Option UInt8)
  | flag (b : Bool)
  | bytes (bytes : List UInt8)
  | handle (h : Handle)

namespace Session

def start (chunkSize : Nat) : Session := ⟨withChunkSize chunkSize, withChunkSize chunkSize, []⟩

/-- The storages in use outside the queue. -/
def outside (s : Session) : List StorageId := s.saved.ids ++ Handle.ids s.kept

/-- All storages in use. -/
def held (s : Session) : List StorageId := s.queue.ids ++ s.outside

/-- The kept handles that share storage with `h`, by their numbers. -/
def sharing (s : Session) (h : Handle) : List Nat :=
  (s.kept.zipIdx.filter fun k => h.sharesWith k.1).map Prod.snd

def withQueue (s : Session) (reply : Reply) (q : ChunkQueue) : Reply × Session :=
  (reply, { s with queue := q })

def step (s : Session) : Action → Reply × Session
  | .reserve n byteAt =>
    match s.queue.reserve? s.outside n with
    | some q => s.withQueue (.size n) (q.fill s.outside ((List.range n).map byteAt))
    | none => (.refused, s)
  | .reserveFront n byteAt =>
    match s.queue.reserveFront? s.outside n with
    | some q => s.withQueue (.size n) (q.fillFront s.outside ((List.range n).map byteAt))
    | none => (.refused, s)
  | .free n => s.withQueue .done (s.queue.free n)
  | .chop n => s.withQueue .done (s.queue.chop n)
  | .append data keep =>
    let s := if keep then { s with kept := s.kept ++ [data] } else s
    s.withQueue .done (s.queue.append s.outside data)
  | .appendBytes bytes => s.withQueue .done (s.queue.appendBytes s.outside bytes)
  | .put b => s.withQueue .done (s.queue.put s.outside b)
  | .get => let (b, q) := s.queue.get; s.withQueue (.byte b) q
  | .unget b => s.withQueue .done (s.queue.unget s.outside b)
  | .read n => let (bytes, q) := s.queue.read n; s.withQueue (.bytes bytes) q
  | .peek n place => (.bytes (s.queue.peek n place), s)
  | .readLine room =>
    match s.queue.readLine? room with
    | some (bytes, q) => s.withQueue (.bytes bytes) q
    | none => (.refused, s)
  | .readChunk => let (h, q) := s.queue.readChunk; s.withQueue (.handle h) q
  | .readHandle n =>
    let (h, q) := s.queue.readHandle s.outside n
    s.withQueue (.handle h) q
  | .skip n => let (count, q) := s.queue.skip n; s.withQueue (.size count) q
  | .indexOf b room start => (.place (s.queue.indexOf b room start), s)
  | .hasLine => (.flag s.queue.hasLine, s)
  | .runAt place => (.bytes (s.queue.runAt place), s)
  | .front => (.bytes s.queue.front, s)
  | .clear => s.withQueue .done s.queue.clear
  | .setChunkSize n => s.withQueue (.size n) { s.queue with chunkSize := n }
  | .save => (.done, { s with saved := s.queue })
  | .swap => (.done, { s with queue := s.saved, saved := s.queue })

end Session

end ByteFlow.ChunkQueue
