import ByteFlow.Device.Write

/-! Opening and closing, moving, read transactions and channels. -/
namespace ByteFlow.Device

variable {σ : Type}

/-! Opening and closing -/

/-- Opens the device; channels, position, transaction and error string start anew. -/
def openWith [Medium σ] (d : Device σ) (mode : OpenMode) : Except Failure Unit × Device σ :=
  let mode := mode.normalized
  if d.isOpen then d.refuse .alreadyOpen "open"
  else if !mode.readable && !mode.writable then d.refuse .invalidOpenMode "open"
  else
    match Medium.openWith d.medium mode with
    | (.error e, m) => broken { d with medium := m } e "open"
    | (.ok (), m) =>
      let m := Medium.select m 0 0
      (.ok (), { d with
        medium := m
        mode := mode
        reading := .single d.config.chunkSize
        writing := .single d.config.writeChunkSize
        pos := if mode.append && !d.sequential then Medium.size m else 0
        mediumPos := 0
        transaction := .idle
        errorString := "" })

/-- Flushes and closes the device. What the medium did not accept stays queued; it is closed even if
flushing or closing the medium fails, and the first error is reported. -/
def close [Medium σ] (d : Device σ) : Except Failure Unit × Device σ :=
  if !d.isOpen then (.ok (), d)
  else
    let (flushed, d) := d.flushAll
    let (closed, m) := Medium.close d.medium
    let d := { d with
      medium := m
      mode := .closed
      reading := .single d.config.chunkSize
      pos := 0
      mediumPos := 0
      transaction := .idle }
    match flushed, closed with
    | .error e, _ | .ok (), .error e => d.broken e "close"
    | .ok (), .ok () => (.ok (), d)

/-- Switches text mode on or off. -/
def setText (d : Device σ) (on : Bool) : Except Failure Unit × Device σ :=
  if !d.isOpen then d.refuse .notOpen "set_text_mode_enabled"
  else (.ok (), { d with mode := { d.mode with text := on } })

/-! Moving -/

/-- Moves to a position. One in what is queued keeps the rest of it. -/
def seek [Medium σ] (d : Device σ) (place : Nat) : Except Failure Unit × Device σ :=
  if !d.isOpen then d.refuse .notOpen "seek"
  else if d.sequential then d.refuse .sequentialSeek "seek"
  else if d.pos ≤ place ∧ place - d.pos < d.readQueue.length then (.ok (), d.moveTo place)
  else
    match Medium.seek d.heldBesideMedium d.medium place with
    | (.ok (), m) =>
      (.ok (), { d with
        medium := m
        reading := d.reading.put d.readQueue.clear
        pos := place
        mediumPos := place })
    | (.error e, m) =>
      if e.kind = .invalidInput then refuse { d with medium := m } .invalidPosition "seek"
      else broken { d with medium := m } e "seek"

def reset [Medium σ] (d : Device σ) : Except Failure Unit × Device σ := d.seek 0

/-! Read transactions -/

def startTransaction (d : Device σ) : Except Failure Unit × Device σ :=
  if !d.isOpen then d.refuse .notOpen "start_transaction"
  else if d.inTransaction then d.refuse .transactionActive "start_transaction"
  else
    let begun := if d.sequential then .onStream d.pos 0 else .onRandomAccess d.pos
    (.ok (), { d with transaction := begun })

/-- Keeps what the transaction read. -/
def commit (d : Device σ) : Except Failure Unit × Device σ :=
  match d.transaction with
  | .idle => d.refuse .noTransaction "commit_transaction"
  | .onStream _ cursor =>
    (.ok (), { d with reading := d.reading.put (d.readQueue.free cursor), transaction := .idle })
  | .onRandomAccess _ => (.ok (), { d with transaction := .idle })

/-- Takes back what the transaction read. -/
def rollback (d : Device σ) : Except Failure Unit × Device σ :=
  match d.transaction with
  | .idle => d.refuse .noTransaction "rollback_transaction"
  | .onStream startPos _ => (.ok (), { d with pos := startPos, transaction := .idle })
  | .onRandomAccess startPos => (.ok (), { d.moveTo startPos with transaction := .idle })

/-! Channels -/

def growReading (d : Device σ) (n : Nat) : Device σ :=
  { d with reading := d.reading.grow n d.config.chunkSize }

def growWriting (d : Device σ) (n : Nat) : Device σ :=
  { d with writing := d.writing.grow n d.config.writeChunkSize }

/-- Chooses the channel that is read. -/
def selectReading [Medium σ] (d : Device σ) (channel : Nat) : Except Failure Unit × Device σ :=
  if d.inTransaction then d.refuse .transactionActive "set_current_read_channel"
  else if d.reading.count ≤ channel then d.refuse .invalidChannel "set_current_read_channel"
  else if channel = d.reading.current then (.ok (), d)
  else (.ok (), { d with
    reading := d.reading.select channel
    medium := Medium.select d.medium channel d.writing.current })

/-- Chooses the channel that is written. -/
def selectWriting [Medium σ] (d : Device σ) (channel : Nat) : Except Failure Unit × Device σ :=
  if d.writing.count ≤ channel then d.refuse .invalidChannel "set_current_write_channel"
  else (.ok (), d.switchWriting channel)

/-- Hands a handle to a read channel of a stream, uncopied. -/
def push [Medium σ] (d : Device σ) (channel : Nat) (data : Handle) :
    Except Failure Unit × Device σ :=
  if d.reading.count ≤ channel then d.refuse .invalidChannel "push_read_data"
  else if !d.sequential then d.refuse .invalidArgument "push_read_data"
  else
    let append := ChunkQueue.append (d.heldBesideReading channel) data
    (.ok (), { d with reading := d.reading.change channel append })

end ByteFlow.Device
