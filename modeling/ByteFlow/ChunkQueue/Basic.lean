import ByteFlow.Handle.Edit

/-! A first-in first-out byte queue kept in chunks, each a handle.
The data of the first chunk begins at `head`, that of the last one ends at `tail`; the chunks
between are data throughout. A chunk handed in or out whole is never copied.

The room that a queue asks of the memory is taken for granted here, the fault for it being left to
single handles; the one request that a queue refuses itself is that of `reserve`. -/
namespace ByteFlow

structure ChunkQueue where
  chunks : List Handle
  head : Nat
  tail : Nat
  length : Nat
  chunkSize : Nat

namespace ChunkQueue

def defaultChunkSize : Nat := 4096

/-- An empty queue; a chunk size of 0 lets one chunk grow without end. -/
def withChunkSize (chunkSize : Nat) : ChunkQueue := ⟨[Handle.empty], 0, 0, 0, chunkSize⟩

def isEmpty (q : ChunkQueue) : Bool := q.length == 0

/-- The storages of the chunks. -/
def ids (q : ChunkQueue) : List StorageId := Handle.ids q.chunks

/-- The data of chunks, the first of which begins at `head`. -/
def blocksOf (head tail : Nat) : List Handle → List (List UInt8)
  | [] => []
  | [c] => [(c.content.take tail).drop head]
  | c :: next :: rest => c.content.drop head :: blocksOf 0 tail (next :: rest)

/-- The data of each chunk, front to back. -/
def blocks (q : ChunkQueue) : List (List UInt8) := blocksOf q.head q.tail q.chunks

/-- The queued bytes. -/
def toList (q : ChunkQueue) : List UInt8 := q.blocks.flatten

/-! Looking at the data, block by block -/

/-- The data of the first chunk. -/
def front (q : ChunkQueue) : List UInt8 := if q.length = 0 then [] else q.blocks.headD []

/-- What the first blocks hold from `place` on, up to the end of one of them. -/
def runFrom (place : Nat) : List (List UInt8) → List UInt8
  | [] => []
  | block :: rest =>
    if place < block.length then block.drop place else runFrom (place - block.length) rest

/-- The bytes from `place` on that lie in one block. -/
def runAt (q : ChunkQueue) (place : Nat) : List UInt8 := runFrom place q.blocks

/-- Up to `room` bytes of blocks after the first `skip` ones. -/
def copyFrom (skip room : Nat) : List (List UInt8) → List UInt8
  | [] => []
  | block :: rest =>
    if room = 0 then []
    else if block.length ≤ skip then copyFrom (skip - block.length) room rest
    else
      let piece := (block.drop skip).take room
      piece ++ copyFrom 0 (room - piece.length) rest

/-- Up to `room` bytes from `place` on; they stay in the queue. -/
def peek (q : ChunkQueue) (room place : Nat) : List UInt8 := copyFrom place room q.blocks

/-- The first place of `b` from `start` up to `stop` in blocks whose data begins at `offset`. -/
def findFrom (b : UInt8) (start stop offset : Nat) : List (List UInt8) → Option Nat
  | [] => none
  | block :: rest =>
    if stop ≤ offset then none
    else
      let low := start - offset
      let high := min block.length (stop - offset)
      match ((block.take high).drop low).findIdx? (· == b) with
      | some i => some (offset + low + i)
      | none => findFrom b start stop (offset + block.length) rest

/-- The first place of `b` among the `room` ones from `start` on. -/
def indexOf (q : ChunkQueue) (b : UInt8) (room start : Nat) : Option Nat :=
  findFrom b start (min (Word.addClamped start room) q.length) 0 q.blocks

def hasLine (q : ChunkQueue) : Bool := (q.indexOf Byte.lineFeed q.length 0).isSome

/-! Changing the chunks -/

/-- Changes the first chunk; the storages of the others count as held. -/
def changeFirst (held : List StorageId) (f : List StorageId → Handle → Handle) :
    List Handle → List Handle
  | [] => []
  | c :: rest => f (Handle.ids rest ++ held) c :: rest

/-- Changes the last chunk; the storages of the others count as held. -/
def changeLast (held : List StorageId) (f : List StorageId → Handle → Handle) :
    List Handle → List Handle
  | [] => []
  | [c] => [f held c]
  | c :: next :: rest => c :: changeLast (c.id?.toList ++ held) f (next :: rest)

def lastChunk (q : ChunkQueue) : Handle := q.chunks.getLastD Handle.empty

/-- Room of the last chunk. -/
def lastCapacity (held : List StorageId) (q : ChunkQueue) : Nat :=
  q.lastChunk.capacity (Handle.ids q.chunks.dropLast ++ held)

/-- Whether room for `n` more bytes is found in a new chunk, not by growing the last one. -/
def spills (held : List StorageId) (q : ChunkQueue) (n : Nat) : Bool :=
  q.lastCapacity held < q.tail + n &&
    ((0 < q.chunkSize && q.chunkSize ≤ q.tail) || Word.requestLimit ≤ q.tail + n)

/-- Ends the last chunk where its data ends and puts another one behind it. -/
def extendWith (held : List StorageId) (chunk : Handle) (q : ChunkQueue) : ChunkQueue :=
  { q with
    chunks := changeLast held (fun held => Handle.resize held q.tail) q.chunks ++ [chunk]
    tail := 0 }

/-- Makes the last chunk reach `n` bytes past the data. -/
def provide (held : List StorageId) (n : Nat) (q : ChunkQueue) : ChunkQueue :=
  if q.tail + n ≤ q.lastChunk.length then q
  else
    let q := if q.spills held n then q.extendWith held Handle.empty else q
    { q with
      chunks := changeLast held (fun held => Handle.resize held (max q.chunkSize (q.tail + n)))
        q.chunks }

/-- Queues `n` bytes of whatever the chunk holds there, to be written with `fill`; nothing and more
than the limit are refused. -/
def reserve? (held : List StorageId) (n : Nat) (q : ChunkQueue) : Option ChunkQueue :=
  if n = 0 ∨ Word.requestLimit ≤ n then none
  else
    let q := q.provide held n
    some { q with
      chunks := changeLast held Handle.detach q.chunks
      tail := q.tail + n
      length := q.length + n }

/-- The last `n` queued bytes, if they lie in the last chunk. -/
def slot (q : ChunkQueue) (n : Nat) : List UInt8 :=
  (q.lastChunk.content.take q.tail).drop (q.tail - n)

/-- Writes over the last queued bytes. -/
def fill (held : List StorageId) (bytes : List UInt8) (q : ChunkQueue) : ChunkQueue :=
  { q with
    chunks := changeLast held
      (fun held => Handle.store held (q.tail - bytes.length) bytes) q.chunks }

/-- Makes a first chunk with room for `n` bytes before the data. -/
def provideFront (held : List StorageId) (n : Nat) (q : ChunkQueue) : ChunkQueue :=
  if n ≤ q.head then q
  else
    let chunks := changeFirst held (fun held => Handle.remove held 0 q.head) q.chunks
    let tail := if chunks.length = 1 then q.tail - q.head else q.tail
    let head := max q.chunkSize n
    let chunks := if q.length = 0 then chunks else Handle.empty :: chunks
    { q with
      chunks := changeFirst held (fun held => Handle.resize held head) chunks
      head := head
      tail := if q.length = 0 then head else tail }

/-- Queues `n` bytes before all others, to be written with `fillFront`. -/
def reserveFront? (held : List StorageId) (n : Nat) (q : ChunkQueue) : Option ChunkQueue :=
  if n = 0 ∨ Word.requestLimit ≤ n then none
  else
    let q := q.provideFront held n
    some { q with
      chunks := changeFirst held Handle.detach q.chunks
      head := q.head - n
      length := q.length + n }

/-- Writes over the first queued bytes. -/
def fillFront (held : List StorageId) (bytes : List UInt8) (q : ChunkQueue) : ChunkQueue :=
  { q with chunks := changeFirst held (fun held => Handle.store held q.head bytes) q.chunks }

/-- Drops all data and all chunks but one without storage. -/
def clear (q : ChunkQueue) : ChunkQueue := withChunkSize q.chunkSize

/-- The queue with nothing left in it; a chunk that is not too long is kept for reuse. -/
def emptied (q : ChunkQueue) (chunks : List Handle) : ChunkQueue :=
  if (chunks.headD Handle.empty).length ≤ q.chunkSize then ⟨chunks, 0, 0, 0, q.chunkSize⟩
  else q.clear

/-- Drops the first `n` of `length` bytes of chunks. -/
def freeFrom (q : ChunkQueue) (head length n : Nat) : List Handle → ChunkQueue
  | [] => { q with chunks := [], head := head, length := length }
  | [c] =>
    if n = 0 then { q with chunks := [c], head := head, length := length }
    else if length ≤ n then q.emptied [c]
    else { q with chunks := [c], head := head + n, length := length - n }
  | c :: next :: rest =>
    if n = 0 then { q with chunks := c :: next :: rest, head := head, length := length }
    else if n < c.length - head then
      if length ≤ n then q.emptied (c :: next :: rest)
      else { q with chunks := c :: next :: rest, head := head + n, length := length - n }
    else
      let block := c.length - head
      freeFrom q 0 (length - block) (n - block) (next :: rest)

/-- Drops bytes at the front, as far as there are any. -/
def free (q : ChunkQueue) (n : Nat) : ChunkQueue :=
  freeFrom q q.head q.length (min n q.length) q.chunks

/-- Drops the last `n` of `length` bytes of chunks, which are given from the last one. -/
def chopFrom (q : ChunkQueue) (tail length n : Nat) : List Handle → ChunkQueue
  | [] => { q with chunks := [], tail := tail, length := length }
  | [c] =>
    if n = 0 then { q with chunks := [c], tail := tail, length := length }
    else if length ≤ n then q.emptied [c]
    else { q with chunks := [c], tail := tail - n, length := length - n }
  | c :: next :: rest =>
    if n = 0 then { q with chunks := (c :: next :: rest).reverse, tail := tail, length := length }
    else if n < tail then
      if length ≤ n then q.emptied (c :: next :: rest).reverse
      else { q with
        chunks := (c :: next :: rest).reverse, tail := tail - n, length := length - n }
    else chopFrom q next.length (length - tail) (n - tail) (next :: rest)

/-- Drops bytes at the back, as far as there are any. -/
def chop (q : ChunkQueue) (n : Nat) : ChunkQueue :=
  chopFrom q q.tail q.length (min n q.length) q.chunks.reverse

/-! Writing -/

/-- Takes over a handle as a chunk. -/
def append (held : List StorageId) (data : Handle) (q : ChunkQueue) : ChunkQueue :=
  if data.isEmpty then q
  else
    let chunks :=
      if q.tail = 0 then q.chunks.dropLast ++ [data]
      else (q.extendWith (data.id?.toList ++ held) data).chunks
    { q with chunks := chunks, tail := data.length, length := q.length + data.length }

/-- Copies bytes behind the data. -/
def appendBytes (held : List StorageId) (bytes : List UInt8) (q : ChunkQueue) : ChunkQueue :=
  match q.reserve? held bytes.length with
  | some q => q.fill held bytes
  | none => q

def put (held : List StorageId) (b : UInt8) (q : ChunkQueue) : ChunkQueue := q.appendBytes held [b]

/-- Puts a byte before the data. -/
def unget (held : List StorageId) (b : UInt8) (q : ChunkQueue) : ChunkQueue :=
  if 0 < q.head then
    fillFront held [b] { q with head := q.head - 1, length := q.length + 1 }
  else match q.reserveFront? held 1 with
    | some q => q.fillFront held [b]
    | none => q

/-! Reading -/

/-- The first byte, and the queue without it. -/
def get (q : ChunkQueue) : Option UInt8 × ChunkQueue :=
  match q.front with
  | [] => (none, q)
  | b :: _ => (some b, q.free 1)

/-- Up to `n` bytes, taken block by block, and the queue without them. -/
def read (q : ChunkQueue) (n : Nat) : List UInt8 × ChunkQueue :=
  let piece := q.front.take n
  if _h : 0 < piece.length ∧ piece.length ≤ n then
    let (more, rest) := read (q.free piece.length) (n - piece.length)
    (piece ++ more, rest)
  else ([], q)
termination_by n
decreasing_by
  simp only [piece, List.length_take] at _h ⊢
  omega

/-- The data of the first chunk as a handle on its storage, and the queue without it. -/
def readChunk (q : ChunkQueue) : Handle × ChunkQueue :=
  match q.chunks with
  | [] => (Handle.empty, q)
  | c :: rest =>
    if q.length = 0 then (Handle.empty, q)
    else if rest.isEmpty then
      let out := (c.left q.tail).mid q.head none
      (out, ⟨[Handle.empty], 0, 0, q.length - out.length, q.chunkSize⟩)
    else
      let out := c.mid q.head none
      (out, { q with chunks := rest, head := 0, length := q.length - out.length })

/-- Up to `n` bytes: a whole chunk if they are all of the first one, else a copy. -/
def readHandle (held : List StorageId) (q : ChunkQueue) (n : Nat) : Handle × ChunkQueue :=
  let count := min n q.length
  if count = 0 then (Handle.empty, q)
  else if count = q.front.length then q.readChunk
  else
    let (bytes, rest) := q.read count
    (Handle.ofList (q.ids ++ held) bytes, rest)

/-- Drops up to `n` bytes and tells how many there were. -/
def skip (q : ChunkQueue) (n : Nat) : Nat × ChunkQueue := (min n q.length, q.free n)

/-- A line with its line feed, in a buffer of `room` bytes whose last one ends the text; a buffer
without room for a byte is refused. -/
def readLine? (q : ChunkQueue) (room : Nat) : Option (List UInt8 × ChunkQueue) :=
  if room < 2 then none
  else
    match q.indexOf Byte.lineFeed (room - 1) 0 with
    | some i => some (q.read (i + 1))
    | none => some (q.read (room - 1))

end ChunkQueue

end ByteFlow
