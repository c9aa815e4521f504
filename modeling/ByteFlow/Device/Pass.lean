import ByteFlow.Device.Basic
import ByteFlow.Newline

/-! One pass of reading into the caller's buffer.
A pass takes what is queued, asks the medium for the rest, and in text mode drops the carriage
returns before line feeds, which makes room for more. Each byte of the buffer is decided once no
later byte can change it. -/
namespace ByteFlow.Device

/-- The caller's buffer during a pass: what was read, and the rest as the caller left it. -/
structure Pass where
  filled : List UInt8
  spare : List UInt8
  /-- Where in the queue the next byte is, when bytes stay queued. -/
  offset : Nat
  /-- How many bytes of the stream went into the buffer. -/
  consumed : Nat
  /-- How many bytes of the buffer are decided. -/
  decided : Nat
  /-- Whether the medium came short of a request. -/
  atEnd : Bool

namespace Pass

def start (buffer : List UInt8) (offset : Nat) : Pass := ⟨[], buffer, offset, 0, 0, false⟩

/-- Puts bytes behind what was read. -/
def accept (p : Pass) (bytes : List UInt8) : Pass :=
  { p with
    filled := p.filled ++ bytes
    spare := p.spare.drop bytes.length
    consumed := p.consumed + bytes.length }

/-- Writes bytes into the rest of the buffer and counts `n` bytes of it as read. -/
def overlay (p : Pass) (bytes : List UInt8) (n : Nat) : Pass :=
  let spare := bytes ++ p.spare.drop bytes.length
  { p with spare := spare }.accept (spare.take n)

/-- Whether what was read ends with a carriage return. -/
def endsOpen (p : Pass) : Bool := p.filled.getLast? == some Byte.carriageReturn

/-- Drops the carriage returns before line feeds among the bytes that are not decided. -/
def strip (p : Pass) : Pass :=
  let (buffer, stop) :=
    Newline.stripInPlace (p.filled ++ p.spare).toArray p.decided p.filled.length
  let p := { p with filled := buffer.toList.take stop, spare := buffer.toList.drop stop }
  { p with decided := if p.endsOpen then stop - 1 else stop }

/-- Makes a line feed of the carriage return at the end. -/
def closeLine (p : Pass) : Pass :=
  { p with filled := p.filled.dropLast ++ [Byte.lineFeed], consumed := p.consumed + 1 }

end Pass

variable {σ : Type}

/-- Whether a reading call leaves the bytes queued and only moves along them. -/
def keeps (d : Device σ) (peeking : Bool) : Bool :=
  if d.sequential then peeking || d.inTransaction else peeking && d.isBuffered

/-- Moves queued bytes into the buffer. -/
def takeQueued (d : Device σ) (keep : Bool) (p : Pass) : Pass × Device σ :=
  if keep then
    let bytes := d.readQueue.peek p.spare.length p.offset
    ({ p.accept bytes with offset := p.offset + bytes.length }, d.advance bytes.length)
  else
    let (bytes, q) := d.readQueue.read p.spare.length
    (p.accept bytes, advance { d with reading := d.reading.put q } bytes.length)

/-- Asks the medium for more, past the queue if nothing is gained by it, and tells how much came. -/
def refill [Medium σ] (d : Device σ) (keep : Bool) (p : Pass) :
    Except IoError (Nat × Pass) × Device σ :=
  match d.sync with
  | (.error e, d) => (.error e, d)
  | (.ok (), d) =>
    let want := p.spare.length
    if (!d.isBuffered || d.config.bufferSize ≤ want) && !keep then
      match Medium.read d.heldBesideMedium d.medium want with
      | (.error e, m) => (.error e, { d with medium := m })
      | (.ok delivery, m) =>
        let got := min delivery.count want
        (.ok (got, { p.overlay delivery.bytes got with atEnd := got < want }),
          (follow { d with medium := m } got).advance got)
    else
      let chunk := if d.isBuffered then d.config.bufferSize else min want d.config.bufferSize
      match d.fill chunk with
      | (.error e, d) => (.error e, d)
      | (.ok got, d) => (.ok (got, { p with atEnd := got < chunk }), d)

/-- Fills the buffer, as far as the medium has bytes. An error of the medium counts only as long as
nothing was read. -/
def gather [Medium σ] (d : Device σ) (keep : Bool) (p : Pass) : Except IoError Pass × Device σ :=
  if p.spare.isEmpty || p.atEnd then (.ok p, d)
  else
    match d.refill keep p with
    | (.error e, d) =>
      if p.filled.isEmpty then (.error e, d)
      else (.ok { p with atEnd := true }, d.note e "read")
    | (.ok (got, more), d) =>
      if got = 0 then (.ok more, d)
      else
        let (next, d) := d.takeQueued keep more
        if _shorter : next.spare.length < p.spare.length then gather d keep next
        else (.ok next, d)
termination_by p.spare.length

/-- Fills the buffer with bytes whose line ends are normalized, if the device is in text mode. -/
def collect [Medium σ] (d : Device σ) (keep : Bool) (room : Nat) (p : Pass) :
    Except IoError Pass × Device σ :=
  let (q, d) := d.takeQueued keep p
  match d.gather keep q with
  | (.error e, d) => (.error e, d)
  | (.ok q, d) =>
    if d.isText && q.decided < q.filled.length then
      let next := q.strip
      if _decided : next.filled.length < q.filled.length ∧ p.decided < next.decided ∧
          p.decided < room then
        collect d keep room next
      else (.ok next, d)
    else (.ok q, d)
termination_by room - p.decided
decreasing_by
  simp only [next] at _decided
  omega

/-- A carriage return at the end goes if the next byte is a line feed, which takes its place. -/
def closeLine [Medium σ] (d : Device σ) (keep : Bool) (p : Pass) : Pass × Device σ :=
  if d.isText && p.endsOpen then
    let place := if keep then p.offset else 0
    let d := d.lookAhead place
    if d.readQueue.peek 1 place = [Byte.lineFeed] then
      if keep then ({ p.closeLine with offset := p.offset + 1 }, d.advance 1)
      else (p.closeLine, advance { d with reading := d.reading.put (d.readQueue.free 1) } 1)
    else (p, d)
  else (p, d)

/-- Goes back to before the pass. -/
def unread (d : Device σ) (keep : Bool) (place : Nat) : Device σ :=
  if keep then { d with pos := place } else d.moveTo place

/-- Remembers how far the pass went along the queue. -/
def moveCursor (d : Device σ) (place : Nat) : Device σ :=
  match d.transaction with
  | .onStream startPos _ => { d with transaction := .onStream startPos place }
  | _ => d

/-- Counts what the pass took from a stream. -/
def settle (d : Device σ) (p : Pass) : Device σ :=
  let d := d.moveCursor p.offset
  if d.sequential then { d with pos := Word.addWrapped d.pos p.consumed } else d

/-- Reads into a buffer, or only looks at what a read would give, and returns the bytes read. -/
def readPass [Medium σ] (d : Device σ) (peeking : Bool) (buffer : List UInt8) :
    Except Failure (List UInt8) × Device σ :=
  let keep := d.keeps peeking
  match d.collect keep buffer.length (Pass.start buffer d.cursor) with
  | (.error e, d) => d.broken e "read"
  | (.ok p, after) =>
    let (p, after) := after.closeLine keep p
    (.ok p.filled, if peeking then after.unread keep d.pos else after.settle p)

end ByteFlow.Device
