import ByteFlow.Device.Read
import ByteFlow.Text.Utf8

/-! Reading line by line. -/
namespace ByteFlow.Device

variable {σ : Type} [Medium σ]

/-- Whether a line pass leaves the bytes queued. -/
def keepsLine (d : Device σ) : Bool := d.sequential && d.inTransaction

/-- Takes queued bytes up to a line feed, at most `room` of them, and tells where the next byte is.
-/
def takeLine (d : Device σ) (keep : Bool) (room place : Nat) : List UInt8 × Nat × Device σ :=
  let take := match d.readQueue.indexOf Byte.lineFeed room place with
    | some i => i - place + 1
    | none => room
  let bytes := d.readQueue.peek take place
  let d := { d with pos := Word.addWrapped d.pos bytes.length }
  if keep then (bytes, place + bytes.length, d)
  else (bytes, place, { d with reading := d.reading.put (d.readQueue.free bytes.length) })

/-- Tries to have a byte at `place` of the read queue, and tells whether there is one. -/
def provideByte (d : Device σ) (place : Nat) : Except IoError Bool × Device σ :=
  if place < d.readQueue.length then (.ok true, d)
  else
    match d.sync with
    | (.error e, d) => (.error e, d)
    | (.ok (), d) =>
      match d.fill d.fillSize with
      | (.error e, d) => (.error e, d)
      | (.ok got, d) => (.ok (0 < got), d)

/-- The bytes of a line as they are, at most `room` of them, and where in the queue the next byte
is. -/
def rawLine (d : Device σ) (keep : Bool) (room place : Nat) :
    Except IoError (List UInt8 × Nat) × Device σ :=
  if room = 0 then (.ok ([], place), d)
  else
    match d.provideByte place with
    | (.error e, d) => (.error e, d)
    | (.ok false, d) => (.ok ([], place), d)
    | (.ok true, d) =>
      let (bytes, next, d) := d.takeLine keep room place
      if _more : 0 < bytes.length ∧ bytes.length ≤ room ∧ bytes.getLast? ≠ some Byte.lineFeed then
        match rawLine d keep (room - bytes.length) next with
        | (.ok (more, next), d) => (.ok (bytes ++ more, next), d)
        | (.error e, d) => (.ok (bytes, next), d.note e "read_line")
      else (.ok (bytes, next), d)
termination_by room

/-- In text mode, makes a line feed of a carriage return and line feed at the end, the latter of
which may be still to come. -/
def normalizeEnd (d : Device σ) (keep : Bool) (line : List UInt8) (place : Nat) :
    List UInt8 × Nat × Device σ :=
  let pair := [Byte.carriageReturn, Byte.lineFeed]
  if !d.isText then (line, place, d)
  else if 2 ≤ line.length ∧ line.drop (line.length - 2) = pair then
    (line.take (line.length - 2) ++ [Byte.lineFeed], place, d)
  else if line.getLast? = some Byte.carriageReturn then
    let d := d.lookAhead place
    if d.readQueue.peek 1 place = [Byte.lineFeed] then
      let line := line.dropLast ++ [Byte.lineFeed]
      let d := { d with pos := Word.addWrapped d.pos 1 }
      if keep then (line, place + 1, d)
      else (line, place, { d with reading := d.reading.put (d.readQueue.free 1) })
    else (line, place, d)
  else (line, place, d)

/-- Reads a line with its line end, at most `room` bytes of it. -/
def linePass (d : Device σ) (room : Nat) : Except Failure (List UInt8) × Device σ :=
  let keep := d.keepsLine
  match d.rawLine keep room d.cursor with
  | (.error e, d) => d.broken e "read_line"
  | (.ok (line, place), d) =>
    let (line, place, d) := d.normalizeEnd keep line place
    (.ok line, d.moveCursor place)

/-- A line of up to `n` bytes, in steps no longer than a fill. -/
def lineSteps (d : Device σ) (n : Nat) : Except Failure (List UInt8) × Device σ :=
  if _more : 0 < n then
    let step := min n d.config.bufferSize
    match d.linePass step with
    | (.error failure, d) => (.error failure, d)
    | (.ok bytes, after) =>
      if bytes.length < step ∨ bytes.getLast? = some Byte.lineFeed then (.ok bytes, after)
      else
        match lineSteps after (n - step) with
        | (.ok more, d) => (.ok (bytes ++ more), d)
        | (.error _, d) => (.ok bytes, d)
  else (.ok [], d)
termination_by n
decreasing_by
  have := d.fills
  omega

/-- Reads a line with its line end, at most `n` bytes of it, or all of it if `n` is 0. -/
def readLine (d : Device σ) (n : Nat) : Except Failure Handle × Device σ :=
  match d.readObstacle? with
  | some kind => d.refuse kind "read_line"
  | none =>
    match d.lineSteps (if n = 0 then Word.maxValue else n) with
    | (.error failure, d) => (.error failure, d)
    | (.ok line, d) => (.ok (Handle.ofList d.held line), d)

/-- Reads a line into a buffer of `room` bytes, of which the one behind the line becomes 0. -/
def readLineInto (d : Device σ) (room : Nat) : Except Failure (List UInt8) × Device σ :=
  match d.readObstacle? with
  | some kind => d.refuse kind "read_line"
  | none => if room < 2 then d.refuse .invalidArgument "read_line" else d.linePass (room - 1)

/-- A buffer that a line was read into: a zero byte ends the line, and what is behind it stays. -/
def overwrite (buffer line : List UInt8) : List UInt8 := line ++ 0 :: buffer.drop (line.length + 1)

/-- Reads a line into a buffer; gives the length of the line and the buffer. -/
def readLineOver (d : Device σ) (buffer : List UInt8) : Except Failure (Nat × List UInt8) × Device σ :=
  match d.readLineInto buffer.length with
  | (.error failure, d) => (.error failure, d)
  | (.ok line, d) => (.ok (line.length, overwrite buffer line), d)

/-- The error of a line that is no text. -/
def notText : IoError := ⟨.invalidData, "line is not valid UTF-8"⟩

/-- The next line as text without its line end; none when nothing is read. -/
def nextLine (d : Device σ) : Option (Except IoError String) × Device σ :=
  match d.readLine 0 with
  | (.error failure, d) => (some (.error failure.toIoError), d)
  | (.ok line, d) =>
    if line.isEmpty then (none, d)
    else
      match Text.Utf8.decode? (Newline.chomp line.content) with
      | some text => (some (.ok text), d)
      | none => (some (.error notText), d)

/-- The next lines, at most `n` of them. -/
def lines (d : Device σ) : Nat → List (Except IoError String) × Device σ
  | 0 => ([], d)
  | n + 1 =>
    match d.nextLine with
    | (none, d) => ([], d)
    | (some line, d) =>
      let (more, d) := lines d n
      (line :: more, d)

end ByteFlow.Device
