import ByteFlow.Device.Basic
import ByteFlow.Newline

/-! Writing, and flushing what was queued.
On a stream bytes are queued for the current write channel, unless the device is unbuffered; all
other writes go to the medium at once. -/
namespace ByteFlow.Device

variable {σ : Type} [Medium σ]

/-- Offers bytes to the medium until it takes no more of them; tells how many it took, and the error
that ended it. -/
def offer (d : Device σ) (bytes : List UInt8) : Nat × Option IoError × Device σ :=
  if bytes.isEmpty then (0, none, d)
  else
    match Medium.write d.heldBesideMedium d.medium bytes with
    | (.error e, m) => (0, some e, { d with medium := m })
    | (.ok count, m) =>
      let n := min count bytes.length
      let d := { d with medium := m }
      if _some : 0 < n ∧ n ≤ bytes.length then
        let (more, stop, d) := offer d (bytes.drop n)
        (n + more, stop, d)
      else (0, none, d)
termination_by bytes.length
decreasing_by
  simp only [List.length_drop]
  omega

/-- Writes bytes as they are and tells how many were accepted. -/
def writePiece (d : Device σ) (bytes : List UInt8) : Except Failure Nat × Device σ :=
  if bytes.isEmpty then (.ok 0, d)
  else if d.sequential && d.isBuffered then
    let q := d.writeQueue.appendBytes d.heldBesideWriting bytes
    (.ok bytes.length, { d with writing := d.writing.put q })
  else
    let (done, stop, d) := d.offer bytes
    let d := (d.follow done).advance done
    match stop with
    | none => (.ok done, d)
    | some e => if done = 0 then d.broken e "write" else (.ok done, d.note e "write")

/-- Writes lines with a carriage return before each line feed, and tells how many of their own bytes
were accepted; a line feed counts once both of its bytes were. -/
def writeLines (d : Device σ) : List (List UInt8) → Except Failure Nat × Device σ
  | [] => (.ok 0, d)
  | line :: rest =>
    let ended := line.getLast? == some Byte.lineFeed
    let body := if ended then line.dropLast else line
    match d.writePiece body with
    | (.error failure, d) => (.error failure, d)
    | (.ok n, d) =>
      if n < body.length || !ended then (.ok n, d)
      else
        match d.writePiece [Byte.carriageReturn, Byte.lineFeed] with
        | (.error failure, d) => (if n = 0 then .error failure else .ok n, d)
        | (.ok k, d) =>
          if k ≠ 2 then (.ok n, d)
          else
            match writeLines d rest with
            | (.ok more, d) => (.ok (n + 1 + more), d)
            | (.error _, d) => (.ok (n + 1), d)

/-- Hands the current write queue to the medium, block by block, up to the first short write, or, if
`all` is set, until the medium takes nothing. -/
def drain (d : Device σ) (all : Bool) : Except IoError Unit × Device σ :=
  if d.writeQueue.isEmpty then (.ok (), d)
  else
    let block := d.writeQueue.front
    match Medium.write d.heldBesideMedium d.medium block with
    | (.error e, m) => (.error e, { d with medium := m })
    | (.ok count, m) =>
      let n := min count block.length
      if n = 0 then (.ok (), { d with medium := m })
      else
        let rest := d.writeQueue.free n
        let next := { d with medium := m, writing := d.writing.put rest }
        if _shorter : rest.length < d.writeQueue.length ∧ (all ∨ n = block.length) then
          drain next all
        else (.ok (), next)
termination_by d.writeQueue.length
decreasing_by
  simpa [rest, n, block, writeQueue] using _shorter.1

/-- Gives up what was read ahead of bytes that were written, or sends on what a stream accepts. -/
def afterWrite (d : Device σ) (startPos : Nat) : Device σ :=
  if !d.sequential then
    { d with reading := d.reading.put (d.readQueue.free (Word.distance startPos d.pos)) }
  else if d.isBuffered then
    match d.drain false with
    | (.ok (), d) => d
    | (.error e, d) => d.note e "write"
  else d

/-- Writes bytes and tells how many were accepted. -/
def write (d : Device σ) (bytes : List UInt8) : Except Failure Nat × Device σ :=
  match d.writeObstacle? with
  | some kind => d.refuse kind "write"
  | none =>
    if bytes.isEmpty then (.ok 0, d)
    else
      match d.sync with
      | (.error e, d) => d.broken e "write"
      | (.ok (), d) =>
        let result :=
          if d.isText && d.config.crlfOnWrite then d.writeLines (Newline.lines bytes)
          else d.writePiece bytes
        match result with
        | (.error failure, d) => (.error failure, d)
        | (.ok n, after) => (.ok n, after.afterWrite d.pos)

/-- Writes one byte and tells whether it was accepted. -/
def putByte (d : Device σ) (b : UInt8) : Except Failure Bool × Device σ :=
  match d.write [b] with
  | (.ok n, d) => (.ok (n == 1), d)
  | (.error failure, d) => (.error failure, d)

theorem putByte_eq (d : Device σ) (b : UInt8) : d.putByte b = ((d.write [b]).1.map (· == 1), (d.write [b]).2) := by
  rw [putByte]
  obtain ⟨_ | _, _⟩ := d.write [b] <;> rfl

/-! Flushing -/

/-- Makes a write channel the current one, here and in the medium. -/
def switchWriting (d : Device σ) (channel : Nat) : Device σ :=
  if channel = d.writing.current then d
  else { d with
    writing := d.writing.select channel
    medium := Medium.select d.medium d.reading.current channel }

/-- Drains write channels one after the other, up to an error. -/
def drainChannels (d : Device σ) : List Nat → Except IoError Unit × Device σ
  | [] => (.ok (), d)
  | channel :: rest =>
    if ((d.writing.queues[channel]?).map ChunkQueue.isEmpty).getD true then drainChannels d rest
    else
      match (d.switchWriting channel).drain true with
      | (.error e, d) => (.error e, d)
      | (.ok (), d) => drainChannels d rest

/-- Drains all write channels and flushes the medium. -/
def flushAll (d : Device σ) : Except IoError Unit × Device σ :=
  let (result, after) := d.drainChannels (List.range d.writing.count)
  let after := after.switchWriting d.writing.current
  match result with
  | .error e => (.error e, after)
  | .ok () =>
    let (result, m) := Medium.flush after.medium
    (result, { after with medium := m })

def flush (d : Device σ) : Except Failure Unit × Device σ :=
  if !d.isOpen then d.refuse .notOpen "flush"
  else
    match d.flushAll with
    | (.ok (), d) => (.ok (), d)
    | (.error e, d) => d.broken e "flush"

end ByteFlow.Device
