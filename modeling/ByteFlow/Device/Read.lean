import ByteFlow.Device.Pass
import ByteFlow.Handle.Edit

/-! Reading calls. A call that wants much works in steps of bounded size; once it has bytes, what
fails later only ends it. -/
namespace ByteFlow.Device

variable {σ : Type} [Medium σ]

/-- Reads into the caller's buffer and returns the bytes read, which are its first ones. -/
def readInto (d : Device σ) (buffer : List UInt8) : Except Failure (List UInt8) × Device σ :=
  match d.readObstacle? with
  | some kind => d.refuse kind "read"
  | none => d.readPass false buffer

/-- Reads into the caller's buffer what stays to be read. -/
def peekInto (d : Device σ) (buffer : List UInt8) : Except Failure (List UInt8) × Device σ :=
  match d.readObstacle? with
  | some kind => d.refuse kind "peek"
  | none => d.readPass true buffer

/-- Up to `n` bytes, in steps no longer than a fill or what is queued. -/
def readSteps (d : Device σ) (n : Nat) : Except Failure (List UInt8) × Device σ :=
  if _more : 0 < n then
    let step := min n (max d.config.bufferSize d.readQueue.length)
    match d.readPass false (List.replicate step 0) with
    | (.error failure, d) => (.error failure, d)
    | (.ok bytes, after) =>
      if bytes.length < step then (.ok bytes, after)
      else
        match readSteps after (n - step) with
        | (.ok more, d) => (.ok (bytes ++ more), d)
        | (.error _, d) => (.ok bytes, d)
  else (.ok [], d)
termination_by n
decreasing_by
  have := d.fills
  omega

/-- Reads up to `n` bytes. A request for exactly the first queued chunk gets that chunk uncopied. -/
def read (d : Device σ) (n : Nat) : Except Failure Handle × Device σ :=
  match d.readObstacle? with
  | some kind => d.refuse kind "read"
  | none =>
    if n = 0 then (.ok Handle.empty, d)
    else if !d.inTransaction && !d.isText && n == d.readQueue.front.length then
      let (chunk, q) := d.readQueue.readChunk
      (.ok chunk,
        { d with reading := d.reading.put q, pos := Word.addWrapped d.pos chunk.length })
    else
      match d.readSteps n with
      | (.error failure, d) => (.error failure, d)
      | (.ok bytes, d) => (.ok (Handle.ofList d.held bytes), d)

/-- Reads until nothing comes, `room` being how much may come. -/
def readPieces (d : Device σ) (room : Nat) : Except Failure (List Handle) × Device σ :=
  match d.read Word.maxValue with
  | (.error failure, d) => (.error failure, d)
  | (.ok piece, d) =>
    if _more : 0 < piece.length ∧ piece.length ≤ room then
      match readPieces d (room - piece.length) with
      | (.ok pieces, d) => (.ok (piece :: pieces), d)
      | (.error _, d) => (.ok [piece], d)
    else (.ok [], d)
termination_by room

/-- Reads until the device has no more; the bytes of all pieces are one copy. -/
def readAll (d : Device σ) : Except Failure Handle × Device σ :=
  match d.readObstacle? with
  | some kind => d.refuse kind "read_all"
  | none =>
    match d.readPieces Word.maxValue with
    | (.error failure, d) => (.error failure, d)
    | (.ok pieces, d) => (.ok (Handle.ofList d.held (pieces.flatMap Handle.content)), d)

/-- Up to `n` bytes, which stay to be read. -/
def peek (d : Device σ) (n : Nat) : Except Failure Handle × Device σ :=
  match d.readObstacle? with
  | some kind => d.refuse kind "peek"
  | none =>
    let room := min n (max d.bytesAvailable d.config.bufferSize)
    match d.readPass true (List.replicate room 0) with
    | (.error failure, d) => (.error failure, d)
    | (.ok bytes, d) => (.ok (Handle.ofList d.held bytes), d)

/-- Reads a byte, if there is one. -/
def getByte (d : Device σ) : Except Failure (Option UInt8) × Device σ :=
  match d.readObstacle? with
  | some kind => d.refuse kind "get_char"
  | none =>
    match d.readPass false [0] with
    | (.error failure, d) => (.error failure, d)
    | (.ok bytes, d) => (.ok bytes.head?, d)

/-- Puts a byte back, to be read next. -/
def ungetByte (d : Device σ) (b : UInt8) : Except Failure Unit × Device σ :=
  match d.readObstacle? with
  | some kind => d.refuse kind "unget_char"
  | none =>
    if d.inTransaction then d.refuse .transactionActive "unget_char"
    else if !d.sequential && d.pos == 0 then d.refuse .invalidPosition "unget_char"
    else
      let q := d.readQueue.unget (d.heldBesideReading d.reading.current) b
      (.ok (), { d with reading := d.reading.put q, pos := d.pos - 1 })

/-! Skipping -/

/-- The size of the buffer that skipped bytes are read into. -/
def scratchSize : Nat := 4096

/-- Reads up to `n` bytes into one buffer again and again, and tells how many there were. -/
def skipSteps (d : Device σ) (n : Nat) (scratch : List UInt8) : Except Failure Nat × Device σ :=
  if _more : 0 < n then
    let want := min n scratchSize
    match d.readPass false (scratch.take want) with
    | (.error failure, d) => (.error failure, d)
    | (.ok bytes, d) =>
      if bytes.length < want then (.ok bytes.length, d)
      else
        match skipSteps d (n - want) bytes with
        | (.ok more, d) => (.ok (bytes.length + more), d)
        | (.error _, d) => (.ok bytes.length, d)
  else (.ok 0, d)
termination_by n
decreasing_by
  have : 0 < scratchSize := by decide
  omega

def skipByReading (d : Device σ) (n : Nat) : Except Failure Nat × Device σ :=
  d.skipSteps n (List.replicate scratchSize 0)

/-- Discards up to `n` bytes and tells how many. Past the queue, a random-access medium is skipped
by moving the position, but not in text mode, where only reading tells how many bytes there are. -/
def skip (d : Device σ) (n : Nat) : Except Failure Nat × Device σ :=
  match d.readObstacle? with
  | some kind => d.refuse kind "skip"
  | none =>
    if n = 0 then (.ok 0, d)
    else if d.isText || (d.sequential && d.inTransaction) then d.skipByReading n
    else
      let (queued, q) := d.readQueue.skip n
      let after := { d with reading := d.reading.put q, pos := Word.addWrapped d.pos queued }
      if queued = n then (.ok n, after)
      else if !d.sequential then
        let stop := max (Medium.size d.medium) after.pos
        let target := min (Word.addClamped after.pos (n - queued)) stop
        (.ok (queued + (target - after.pos)), { after with pos := target })
      else
        match after.skipByReading (n - queued) with
        | (.ok more, d) => (.ok (queued + more), d)
        | (.error failure, d) => (if queued = 0 then .error failure else .ok queued, d)

end ByteFlow.Device
