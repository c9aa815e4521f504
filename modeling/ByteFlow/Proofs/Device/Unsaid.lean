import ByteFlow.Proofs.Device.Bout

/-! What is said of the last failure decides nothing.
The error string is written where a call fails and read by no call. Two devices that differ in nothing else
give the same results, and go on to differ in nothing else. -/
namespace ByteFlow.Device
open Medium

variable {σ α : Type}

/-- The device, had something else been said of the last failure. -/
abbrev telling (d : Device σ) (s : String) : Device σ := { d with errorString := s }

section
variable (d : Device σ) (s : String)

/-! What a device shows of itself is the same. -/

@[simp] theorem isText_telling : (d.telling s).isText = d.isText := rfl

@[simp] theorem isOpen_telling : (d.telling s).isOpen = d.isOpen := rfl

@[simp] theorem isBuffered_telling : (d.telling s).isBuffered = d.isBuffered := rfl

@[simp] theorem inTransaction_telling : (d.telling s).inTransaction = d.inTransaction := rfl

@[simp] theorem cursor_telling : (d.telling s).cursor = d.cursor := rfl

@[simp] theorem readQueue_telling : (d.telling s).readQueue = d.readQueue := rfl

@[simp] theorem writeQueue_telling : (d.telling s).writeQueue = d.writeQueue := rfl

@[simp] theorem fillSize_telling : (d.telling s).fillSize = d.fillSize := rfl

@[simp] theorem keeps_telling (peeking : Bool) : (d.telling s).keeps peeking = d.keeps peeking := rfl

@[simp] theorem keepsLine_telling : (d.telling s).keepsLine = d.keepsLine := rfl

@[simp] theorem readObstacle?_telling : (d.telling s).readObstacle? = d.readObstacle? := rfl

@[simp] theorem writeObstacle?_telling : (d.telling s).writeObstacle? = d.writeObstacle? := rfl

@[simp] theorem heldBesideMedium_telling : (d.telling s).heldBesideMedium = d.heldBesideMedium := rfl

/-! Steps that say nothing -/

private theorem advance_telling (n : Nat) : (d.telling s).advance n = (d.advance n).telling s := by
  rw [advance_eq, advance_eq]

private theorem follow_telling (n : Nat) : (d.telling s).follow n = (d.follow n).telling s := by
  rw [follow_eq, follow_eq]

private theorem moveCursor_telling (place : Nat) : (d.telling s).moveCursor place = (d.moveCursor place).telling s := by
  rw [moveCursor_eq, moveCursor_eq]

private theorem settle_telling (p : Pass) : (d.telling s).settle p = (d.settle p).telling s := by
  rw [settle_eq, settle_eq]

private theorem unread_telling (keep : Bool) (place : Nat) :
    (d.telling s).unread keep place = (d.unread keep place).telling s := by
  cases keep <;> rfl

private theorem takeQueued_telling (keep : Bool) (p : Pass) :
    (d.telling s).takeQueued keep p = ((d.takeQueued keep p).1, (d.takeQueued keep p).2.telling s) := by
  cases keep with
  | true => exact congrArg (Prod.mk _) (advance_telling ..)
  | false => exact congrArg (Prod.mk _) (advance_telling { d with reading := d.reading.put (d.readQueue.read _).2 } s _)

private theorem takeLine_telling (keep : Bool) (room place : Nat) :
    (d.telling s).takeLine keep room place =
      ((d.takeLine keep room place).1, (d.takeLine keep room place).2.1, (d.takeLine keep room place).2.2.telling s) := by
  cases keep <;> rfl

end

variable [Medium σ]

section
variable (d : Device σ) (s : String)

@[simp] theorem heldBesideReading_telling (channel : Nat) :
    (d.telling s).heldBesideReading channel = d.heldBesideReading channel := rfl

@[simp] theorem heldBesideWriting_telling : (d.telling s).heldBesideWriting = d.heldBesideWriting := rfl

@[simp] theorem bytesAvailable_telling : (d.telling s).bytesAvailable = d.bytesAvailable := rfl

private theorem sync_telling : (d.telling s).sync = (d.sync.1, d.sync.2.telling s) := by
  rw [sync, sync, heldBesideMedium_telling]
  split
  · rfl
  · generalize Medium.seek d.heldBesideMedium d.medium d.pos = result
    obtain ⟨_ | _, m⟩ := result <;> rfl

private theorem fill_telling (chunk : Nat) :
    (d.telling s).fill chunk = ((d.fill chunk).1, (d.fill chunk).2.telling s) := by
  rw [fill, fill, heldBesideReading_telling, readQueue_telling, heldBesideMedium_telling]
  dsimp only
  cases d.readQueue.reserve? (d.heldBesideReading d.reading.current) chunk with
  | none => rfl
  | some q =>
    dsimp only
    generalize Medium.read d.heldBesideMedium d.medium chunk = result
    obtain ⟨_ | delivery, m⟩ := result
    · rfl
    · simp only [follow_eq]

private theorem lookAhead_telling (place : Nat) : (d.telling s).lookAhead place = (d.lookAhead place).telling s := by
  rw [lookAhead, lookAhead, sync_telling, readQueue_telling]
  split
  · rfl
  · obtain ⟨_ | _, e⟩ := d.sync
    · rfl
    · exact congrArg Prod.snd (fill_telling e s e.fillSize)

private theorem provideByte_telling (place : Nat) :
    (d.telling s).provideByte place = ((d.provideByte place).1, (d.provideByte place).2.telling s) := by
  rw [provideByte, provideByte, sync_telling, readQueue_telling]
  split
  · rfl
  · obtain ⟨_ | _, e⟩ := d.sync
    · rfl
    · dsimp only
      rw [fillSize_telling, fill_telling]
      obtain ⟨_ | _, f⟩ := e.fill e.fillSize <;> rfl

private theorem closeLine_telling (keep : Bool) (p : Pass) :
    (d.telling s).closeLine keep p = ((d.closeLine keep p).1, (d.closeLine keep p).2.telling s) := by
  rw [closeLine, closeLine, isText_telling]
  split
  · dsimp only
    generalize (if keep = true then p.offset else 0) = place
    rw [lookAhead_telling]
    generalize d.lookAhead place = e
    rw [readQueue_telling]
    split
    · cases keep with
      | true => exact congrArg (Prod.mk _) (advance_telling ..)
      | false => exact congrArg (Prod.mk _) (advance_telling { e with reading := e.reading.put (e.readQueue.free 1) } s 1)
    · rfl
  · rfl

private theorem normalizeEnd_telling (keep : Bool) (line : List UInt8) (place : Nat) :
    (d.telling s).normalizeEnd keep line place =
      ((d.normalizeEnd keep line place).1, (d.normalizeEnd keep line place).2.1,
        (d.normalizeEnd keep line place).2.2.telling s) := by
  rw [normalizeEnd, normalizeEnd, isText_telling, lookAhead_telling]
  dsimp only
  rw [readQueue_telling]
  split
  · rfl
  · split
    · rfl
    · split
      · split
        · cases keep <;> rfl
        · rfl
      · rfl

private theorem refill_telling (keep : Bool) (p : Pass) :
    (d.telling s).refill keep p = ((d.refill keep p).1, (d.refill keep p).2.telling s) := by
  rw [refill, refill, sync_telling]
  obtain ⟨_ | _, e⟩ := d.sync
  · rfl
  · dsimp only
    rw [isBuffered_telling, heldBesideMedium_telling]
    split
    · generalize Medium.read e.heldBesideMedium e.medium p.spare.length = result
      obtain ⟨_ | delivery, m⟩ := result
      · rfl
      · simp only [follow_eq, advance_eq]
    · rw [fill_telling]
      obtain ⟨_ | got, f⟩ := e.fill (if e.isBuffered then e.config.bufferSize else min p.spare.length e.config.bufferSize) <;> rfl

/-! Passes -/

private theorem gather_telling (keep : Bool) (p : Pass) :
    ∃ t, (d.telling s).gather keep p = ((d.gather keep p).1, (d.gather keep p).2.telling t) := by
  induction left : p.spare.length using Nat.strongRecOn generalizing d p with
  | ind _ ih =>
    subst left
    rw [gather, gather, refill_telling]
    split
    · exact ⟨s, rfl⟩
    · obtain ⟨e | ⟨got, more⟩, f⟩ := d.refill keep p
      · dsimp only
        split
        · exact ⟨s, rfl⟩
        · exact ⟨_, rfl⟩
      · dsimp only
        split
        · exact ⟨s, rfl⟩
        · rw [takeQueued_telling]
          split
          · next shorter => exact ih _ shorter _ _ rfl
          · exact ⟨s, rfl⟩

private theorem collect_telling (keep : Bool) (room : Nat) (p : Pass) :
    ∃ t, (d.telling s).collect keep room p = ((d.collect keep room p).1, (d.collect keep room p).2.telling t) := by
  induction left : room - p.decided using Nat.strongRecOn generalizing d s p with
  | ind _ ih =>
    subst left
    rw [collect, collect, takeQueued_telling]
    obtain ⟨q, e⟩ := d.takeQueued keep p
    obtain ⟨t, gathered⟩ := gather_telling e s keep q
    dsimp only
    rw [gathered]
    obtain ⟨failure | q, f⟩ := e.gather keep q
    · exact ⟨t, rfl⟩
    · dsimp only
      rw [isText_telling]
      split
      · split
        · exact ih _ (by omega) f t q.strip rfl
        · exact ⟨t, rfl⟩
      · exact ⟨t, rfl⟩

private theorem readPass_telling (peeking : Bool) (buffer : List UInt8) :
    ∃ t, (d.telling s).readPass peeking buffer = ((d.readPass peeking buffer).1, (d.readPass peeking buffer).2.telling t) := by
  rw [readPass, readPass, keeps_telling, cursor_telling]
  dsimp only
  obtain ⟨t, collected⟩ := collect_telling d s (d.keeps peeking) buffer.length (.start buffer d.cursor)
  rw [collected]
  obtain ⟨failure | p, e⟩ := d.collect (d.keeps peeking) buffer.length (.start buffer d.cursor)
  · exact ⟨_, rfl⟩
  · dsimp only
    rw [closeLine_telling]
    cases peeking with
    | true => exact ⟨t, congrArg (Prod.mk _) (unread_telling ..)⟩
    | false => exact ⟨t, congrArg (Prod.mk _) (settle_telling ..)⟩

private theorem rawLine_telling (keep : Bool) (room place : Nat) :
    ∃ t, (d.telling s).rawLine keep room place = ((d.rawLine keep room place).1, (d.rawLine keep room place).2.telling t) := by
  induction room using Nat.strongRecOn generalizing d place with
  | ind room ih =>
    rw [rawLine, rawLine, provideByte_telling]
    split
    · exact ⟨s, rfl⟩
    · obtain ⟨failure | there, e⟩ := d.provideByte place
      · exact ⟨s, rfl⟩
      · cases there with
        | false => exact ⟨s, rfl⟩
        | true =>
          dsimp only
          rw [takeLine_telling]
          obtain ⟨bytes, next, f⟩ := e.takeLine keep room place
          dsimp only
          split
          · next goes =>
            obtain ⟨t, rest⟩ := ih (room - bytes.length) (by omega) f next
            rw [rest]
            obtain ⟨failure | more, g⟩ := f.rawLine keep (room - bytes.length) next
            · exact ⟨_, rfl⟩
            · exact ⟨t, rfl⟩
          · exact ⟨s, rfl⟩

private theorem linePass_telling (room : Nat) :
    ∃ t, (d.telling s).linePass room = ((d.linePass room).1, (d.linePass room).2.telling t) := by
  rw [linePass, linePass, keepsLine_telling, cursor_telling]
  dsimp only
  obtain ⟨t, raw⟩ := rawLine_telling d s d.keepsLine room d.cursor
  rw [raw]
  obtain ⟨failure | ⟨line, place⟩, e⟩ := d.rawLine d.keepsLine room d.cursor
  · exact ⟨_, rfl⟩
  · dsimp only
    rw [normalizeEnd_telling]
    exact ⟨t, congrArg (Prod.mk _) (moveCursor_telling ..)⟩

/-! Reading calls -/

private theorem readSteps_telling (n : Nat) :
    ∃ t, (d.telling s).readSteps n = ((d.readSteps n).1, (d.readSteps n).2.telling t) := by
  induction n using Nat.strongRecOn generalizing d s with
  | ind n ih =>
    rw [readSteps, readSteps]
    split
    · have fills := d.fills
      dsimp only
      rw [readQueue_telling]
      obtain ⟨t, pass⟩ := readPass_telling d s false (List.replicate (min n (max d.config.bufferSize d.readQueue.length)) 0)
      rw [pass]
      obtain ⟨failure | bytes, e⟩ := d.readPass false (List.replicate (min n (max d.config.bufferSize d.readQueue.length)) 0)
      · exact ⟨t, rfl⟩
      · dsimp only
        split
        · exact ⟨t, rfl⟩
        · obtain ⟨u, rest⟩ := ih (n - min n (max d.config.bufferSize d.readQueue.length)) (by omega) e t
          rw [rest]
          obtain ⟨_ | more, f⟩ := e.readSteps (n - min n (max d.config.bufferSize d.readQueue.length))
          · exact ⟨u, rfl⟩
          · exact ⟨u, rfl⟩
    · exact ⟨s, rfl⟩

private theorem read_telling (n : Nat) : ∃ t, (d.telling s).read n = ((d.read n).1, (d.read n).2.telling t) := by
  rw [Device.read, Device.read, readObstacle?_telling, inTransaction_telling, isText_telling, readQueue_telling]
  cases d.readObstacle? with
  | some kind => exact ⟨_, rfl⟩
  | none =>
    dsimp only
    split
    · exact ⟨s, rfl⟩
    · split
      · exact ⟨s, rfl⟩
      · obtain ⟨t, steps⟩ := readSteps_telling d s n
        rw [steps]
        obtain ⟨failure | bytes, e⟩ := d.readSteps n
        · exact ⟨t, rfl⟩
        · exact ⟨t, rfl⟩

private theorem readPieces_telling (room : Nat) :
    ∃ t, (d.telling s).readPieces room = ((d.readPieces room).1, (d.readPieces room).2.telling t) := by
  induction room using Nat.strongRecOn generalizing d s with
  | ind room ih =>
    rw [readPieces, readPieces]
    obtain ⟨t, read⟩ := read_telling d s Word.maxValue
    rw [read]
    obtain ⟨failure | piece, e⟩ := d.read Word.maxValue
    · exact ⟨t, rfl⟩
    · dsimp only
      split
      · next some =>
        obtain ⟨u, rest⟩ := ih (room - piece.length) (by omega) e t
        rw [rest]
        obtain ⟨_ | pieces, f⟩ := e.readPieces (room - piece.length)
        · exact ⟨u, rfl⟩
        · exact ⟨u, rfl⟩
      · exact ⟨t, rfl⟩

private theorem readAll_telling : ∃ t, (d.telling s).readAll = (d.readAll.1, d.readAll.2.telling t) := by
  rw [readAll, readAll, readObstacle?_telling]
  cases d.readObstacle? with
  | some kind => exact ⟨_, rfl⟩
  | none =>
    obtain ⟨t, pieces⟩ := readPieces_telling d s Word.maxValue
    dsimp only
    rw [pieces]
    obtain ⟨failure | pieces, e⟩ := d.readPieces Word.maxValue
    · exact ⟨t, rfl⟩
    · exact ⟨t, rfl⟩

private theorem readInto_telling (buffer : List UInt8) :
    ∃ t, (d.telling s).readInto buffer = ((d.readInto buffer).1, (d.readInto buffer).2.telling t) := by
  rw [readInto, readInto, readObstacle?_telling]
  cases d.readObstacle? with
  | some kind => exact ⟨_, rfl⟩
  | none => exact readPass_telling d s false buffer

private theorem peekInto_telling (buffer : List UInt8) :
    ∃ t, (d.telling s).peekInto buffer = ((d.peekInto buffer).1, (d.peekInto buffer).2.telling t) := by
  rw [peekInto, peekInto, readObstacle?_telling]
  cases d.readObstacle? with
  | some kind => exact ⟨_, rfl⟩
  | none => exact readPass_telling d s true buffer

private theorem peek_telling (n : Nat) : ∃ t, (d.telling s).peek n = ((d.peek n).1, (d.peek n).2.telling t) := by
  rw [peek, peek, readObstacle?_telling, bytesAvailable_telling]
  cases d.readObstacle? with
  | some kind => exact ⟨_, rfl⟩
  | none =>
    dsimp only
    obtain ⟨t, pass⟩ := readPass_telling d s true (List.replicate (min n (max d.bytesAvailable d.config.bufferSize)) 0)
    rw [pass]
    obtain ⟨failure | bytes, e⟩ := d.readPass true (List.replicate (min n (max d.bytesAvailable d.config.bufferSize)) 0)
    · exact ⟨t, rfl⟩
    · exact ⟨t, rfl⟩

private theorem getByte_telling : ∃ t, (d.telling s).getByte = (d.getByte.1, d.getByte.2.telling t) := by
  rw [getByte, getByte, readObstacle?_telling]
  cases d.readObstacle? with
  | some kind => exact ⟨_, rfl⟩
  | none =>
    obtain ⟨t, pass⟩ := readPass_telling d s false [0]
    dsimp only
    rw [pass]
    obtain ⟨failure | bytes, e⟩ := d.readPass false [0]
    · exact ⟨t, rfl⟩
    · exact ⟨t, rfl⟩

private theorem skipSteps_telling (n : Nat) (scratch : List UInt8) :
    ∃ t, (d.telling s).skipSteps n scratch = ((d.skipSteps n scratch).1, (d.skipSteps n scratch).2.telling t) := by
  induction n using Nat.strongRecOn generalizing d s scratch with
  | ind n ih =>
    rw [skipSteps, skipSteps]
    split
    · have size : 0 < scratchSize := by decide
      dsimp only
      obtain ⟨t, pass⟩ := readPass_telling d s false (scratch.take (min n scratchSize))
      rw [pass]
      obtain ⟨failure | bytes, e⟩ := d.readPass false (scratch.take (min n scratchSize))
      · exact ⟨t, rfl⟩
      · dsimp only
        split
        · exact ⟨t, rfl⟩
        · obtain ⟨u, rest⟩ := ih (n - min n scratchSize) (by omega) e t bytes
          rw [rest]
          obtain ⟨_ | more, f⟩ := e.skipSteps (n - min n scratchSize) bytes
          · exact ⟨u, rfl⟩
          · exact ⟨u, rfl⟩
    · exact ⟨s, rfl⟩

private theorem skip_telling (n : Nat) : ∃ t, (d.telling s).skip n = ((d.skip n).1, (d.skip n).2.telling t) := by
  rw [Device.skip, Device.skip, readObstacle?_telling, isText_telling, inTransaction_telling, readQueue_telling]
  cases d.readObstacle? with
  | some kind => exact ⟨_, rfl⟩
  | none =>
    dsimp only
    split
    · exact ⟨s, rfl⟩
    · split
      · exact skipSteps_telling d s n _
      · split
        · exact ⟨s, rfl⟩
        · split
          · exact ⟨s, rfl⟩
          · obtain ⟨t, rest⟩ := skipSteps_telling { d with
              reading := d.reading.put (d.readQueue.skip n).2, pos := Word.addWrapped d.pos (d.readQueue.skip n).1 }
              s (n - (d.readQueue.skip n).1) (List.replicate scratchSize 0)
            rw [skipByReading, skipByReading, rest]
            obtain ⟨failure | more, e⟩ := skipSteps { d with
              reading := d.reading.put (d.readQueue.skip n).2, pos := Word.addWrapped d.pos (d.readQueue.skip n).1 }
              (n - (d.readQueue.skip n).1) (List.replicate scratchSize 0)
            · exact ⟨t, rfl⟩
            · exact ⟨t, rfl⟩

private theorem lineSteps_telling (n : Nat) :
    ∃ t, (d.telling s).lineSteps n = ((d.lineSteps n).1, (d.lineSteps n).2.telling t) := by
  induction n using Nat.strongRecOn generalizing d s with
  | ind n ih =>
    rw [lineSteps, lineSteps]
    split
    · have fills := d.fills
      dsimp only
      obtain ⟨t, pass⟩ := linePass_telling d s (min n d.config.bufferSize)
      rw [pass]
      obtain ⟨failure | bytes, e⟩ := d.linePass (min n d.config.bufferSize)
      · exact ⟨t, rfl⟩
      · dsimp only
        split
        · exact ⟨t, rfl⟩
        · obtain ⟨u, rest⟩ := ih (n - min n d.config.bufferSize) (by omega) e t
          rw [rest]
          obtain ⟨_ | more, f⟩ := e.lineSteps (n - min n d.config.bufferSize)
          · exact ⟨u, rfl⟩
          · exact ⟨u, rfl⟩
    · exact ⟨s, rfl⟩

private theorem readLine_telling (n : Nat) :
    ∃ t, (d.telling s).readLine n = ((d.readLine n).1, (d.readLine n).2.telling t) := by
  rw [readLine, readLine, readObstacle?_telling]
  cases d.readObstacle? with
  | some kind => exact ⟨_, rfl⟩
  | none =>
    dsimp only
    obtain ⟨t, steps⟩ := lineSteps_telling d s (if n = 0 then Word.maxValue else n)
    rw [steps]
    obtain ⟨failure | line, e⟩ := d.lineSteps (if n = 0 then Word.maxValue else n)
    · exact ⟨t, rfl⟩
    · exact ⟨t, rfl⟩

private theorem readLineInto_telling (room : Nat) :
    ∃ t, (d.telling s).readLineInto room = ((d.readLineInto room).1, (d.readLineInto room).2.telling t) := by
  rw [readLineInto, readLineInto, readObstacle?_telling]
  cases d.readObstacle? with
  | some kind => exact ⟨_, rfl⟩
  | none =>
    dsimp only
    split
    · exact ⟨_, rfl⟩
    · exact linePass_telling d s (room - 1)

theorem nextLine_telling : ∃ t, (d.telling s).nextLine = (d.nextLine.1, d.nextLine.2.telling t) := by
  rw [nextLine, nextLine]
  obtain ⟨t, line⟩ := readLine_telling d s 0
  rw [line]
  obtain ⟨failure | line, e⟩ := d.readLine 0
  · exact ⟨t, rfl⟩
  · dsimp only
    split
    · exact ⟨t, rfl⟩
    · split
      · exact ⟨t, rfl⟩
      · exact ⟨t, rfl⟩

/-! Writing -/

private theorem offer_telling (bytes : List UInt8) :
    (d.telling s).offer bytes = ((d.offer bytes).1, (d.offer bytes).2.1, (d.offer bytes).2.2.telling s) := by
  induction left : bytes.length using Nat.strongRecOn generalizing d bytes with
  | ind _ ih =>
    subst left
    rw [offer, offer, heldBesideMedium_telling]
    split
    · rfl
    · generalize Medium.write d.heldBesideMedium d.medium bytes = result
      obtain ⟨failure | count, m⟩ := result
      · rfl
      · dsimp only
        split
        · next some =>
          have rest := ih (bytes.drop (min count bytes.length)).length (by rw [List.length_drop]; omega)
            { d with medium := m } (bytes.drop (min count bytes.length)) rfl
          rw [rest]
        · rfl

private theorem writePiece_telling (bytes : List UInt8) :
    ∃ t, (d.telling s).writePiece bytes = ((d.writePiece bytes).1, (d.writePiece bytes).2.telling t) := by
  rw [writePiece, writePiece, isBuffered_telling, writeQueue_telling, heldBesideWriting_telling]
  split
  · exact ⟨s, rfl⟩
  · split
    · exact ⟨s, rfl⟩
    · rw [offer_telling]
      obtain ⟨done, stop, e⟩ := d.offer bytes
      dsimp only
      rw [follow_telling, advance_telling]
      cases stop with
      | none => exact ⟨s, rfl⟩
      | some failure =>
        dsimp only
        split
        · exact ⟨_, rfl⟩
        · exact ⟨_, rfl⟩

private theorem writeLines_telling (lines : List (List UInt8)) :
    ∃ t, (d.telling s).writeLines lines = ((d.writeLines lines).1, (d.writeLines lines).2.telling t) := by
  induction lines generalizing d s with
  | nil => exact ⟨s, rfl⟩
  | cons line rest ih =>
    rw [writeLines, writeLines]
    generalize (if (line.getLast? == some Byte.lineFeed) = true then line.dropLast else line) = body
    obtain ⟨t, first⟩ := writePiece_telling d s body
    rw [first]
    obtain ⟨failure | n, e⟩ := d.writePiece body
    · exact ⟨t, rfl⟩
    · dsimp only
      split
      · exact ⟨t, rfl⟩
      · obtain ⟨u, second⟩ := writePiece_telling e t [Byte.carriageReturn, Byte.lineFeed]
        rw [second]
        obtain ⟨failure | k, f⟩ := e.writePiece [Byte.carriageReturn, Byte.lineFeed]
        · exact ⟨u, rfl⟩
        · dsimp only
          split
          · exact ⟨u, rfl⟩
          · obtain ⟨v, others⟩ := ih f u
            rw [others]
            obtain ⟨failure | more, g⟩ := f.writeLines rest
            · exact ⟨v, rfl⟩
            · exact ⟨v, rfl⟩

private theorem drain_telling (all : Bool) :
    (d.telling s).drain all = ((d.drain all).1, (d.drain all).2.telling s) := by
  induction left : d.writeQueue.length using Nat.strongRecOn generalizing d with
  | ind _ ih =>
    subst left
    rw [drain, drain, heldBesideMedium_telling, writeQueue_telling]
    split
    · rfl
    · dsimp only
      generalize Medium.write d.heldBesideMedium d.medium d.writeQueue.front = result
      obtain ⟨failure | count, m⟩ := result
      · rfl
      · dsimp only
        split
        · rfl
        · split
          · next shorter =>
            refine ih _ ?_ { d with
              medium := m, writing := d.writing.put (d.writeQueue.free (min count d.writeQueue.front.length)) } rfl
            rw [writeQueue, Channels.queue_put]
            exact shorter.1
          · rfl

private theorem switchWriting_telling (channel : Nat) :
    (d.telling s).switchWriting channel = (d.switchWriting channel).telling s := by
  rw [switchWriting, switchWriting]
  split
  · rfl
  · rfl

private theorem drainChannels_telling (channels : List Nat) :
    (d.telling s).drainChannels channels = ((d.drainChannels channels).1, (d.drainChannels channels).2.telling s) := by
  induction channels generalizing d with
  | nil => rfl
  | cons channel rest ih =>
    rw [drainChannels, drainChannels, switchWriting_telling, drain_telling]
    split
    · exact ih d
    · obtain ⟨failure | done, e⟩ := (d.switchWriting channel).drain true
      · rfl
      · exact ih e

private theorem flushAll_telling : (d.telling s).flushAll = (d.flushAll.1, d.flushAll.2.telling s) := by
  rw [flushAll, flushAll, drainChannels_telling]
  obtain ⟨result, e⟩ := d.drainChannels (List.range d.writing.count)
  dsimp only
  rw [switchWriting_telling]
  cases result with
  | error failure => rfl
  | ok done => rfl

private theorem afterWrite_telling (place : Nat) :
    ∃ t, (d.telling s).afterWrite place = (d.afterWrite place).telling t := by
  rw [afterWrite, afterWrite, isBuffered_telling, drain_telling]
  split
  · exact ⟨s, rfl⟩
  · split
    · obtain ⟨failure | done, e⟩ := d.drain false
      · exact ⟨_, rfl⟩
      · exact ⟨s, rfl⟩
    · exact ⟨s, rfl⟩

private theorem write_telling (bytes : List UInt8) :
    ∃ t, (d.telling s).write bytes = ((d.write bytes).1, (d.write bytes).2.telling t) := by
  rw [Device.write, Device.write, writeObstacle?_telling, sync_telling]
  cases d.writeObstacle? with
  | some kind => exact ⟨_, rfl⟩
  | none =>
    dsimp only
    split
    · exact ⟨s, rfl⟩
    · obtain ⟨failure | done, e⟩ := d.sync
      · exact ⟨_, rfl⟩
      · have wrote : ∃ t, (if (e.telling s).isText && (e.telling s).config.crlfOnWrite then
              (e.telling s).writeLines (Newline.lines bytes)
            else (e.telling s).writePiece bytes) =
            ((if e.isText && e.config.crlfOnWrite then e.writeLines (Newline.lines bytes) else e.writePiece bytes).1,
              (if e.isText && e.config.crlfOnWrite then e.writeLines (Newline.lines bytes)
                else e.writePiece bytes).2.telling t) := by
          rw [isText_telling]
          split
          · exact writeLines_telling e s _
          · exact writePiece_telling e s bytes
        obtain ⟨t, wrote⟩ := wrote
        dsimp only
        rw [wrote]
        obtain ⟨failure | n, f⟩ := (if e.isText && e.config.crlfOnWrite then e.writeLines (Newline.lines bytes)
          else e.writePiece bytes)
        · exact ⟨t, rfl⟩
        · obtain ⟨u, after⟩ := afterWrite_telling f t e.pos
          exact ⟨u, congrArg (Prod.mk _) after⟩

private theorem putByte_telling (b : UInt8) :
    ∃ t, (d.telling s).putByte b = ((d.putByte b).1, (d.putByte b).2.telling t) := by
  obtain ⟨t, wrote⟩ := write_telling d s [b]
  rw [putByte_eq, putByte_eq, wrote]
  exact ⟨t, rfl⟩

private theorem flush_telling : ∃ t, (d.telling s).flush = (d.flush.1, d.flush.2.telling t) := by
  rw [flush, flush, isOpen_telling, flushAll_telling]
  split
  · exact ⟨_, rfl⟩
  · obtain ⟨failure | done, e⟩ := d.flushAll
    · exact ⟨_, rfl⟩
    · exact ⟨s, rfl⟩

/-! Other calls -/

private theorem openWith_telling (mode : OpenMode) :
    ∃ t, (d.telling s).openWith mode = ((d.openWith mode).1, (d.openWith mode).2.telling t) := by
  rw [Device.openWith, Device.openWith, isOpen_telling]
  dsimp only
  split
  · exact ⟨_, rfl⟩
  · split
    · exact ⟨_, rfl⟩
    · generalize Medium.openWith d.medium mode.normalized = result
      obtain ⟨failure | done, m⟩ := result
      · exact ⟨_, rfl⟩
      · exact ⟨_, rfl⟩

private theorem close_telling : ∃ t, (d.telling s).close = (d.close.1, d.close.2.telling t) := by
  rw [Device.close, Device.close, isOpen_telling, flushAll_telling]
  split
  · exact ⟨s, rfl⟩
  · obtain ⟨flushed, e⟩ := d.flushAll
    dsimp only
    generalize Medium.close e.medium = result
    obtain ⟨closed, m⟩ := result
    cases flushed with
    | error failure => exact ⟨_, rfl⟩
    | ok done =>
      cases closed with
      | error failure => exact ⟨_, rfl⟩
      | ok done => exact ⟨s, rfl⟩

omit [Medium σ] in
private theorem setText_telling (on : Bool) :
    ∃ t, (d.telling s).setText on = ((d.setText on).1, (d.setText on).2.telling t) := by
  rw [setText, setText, isOpen_telling]
  split
  · exact ⟨_, rfl⟩
  · exact ⟨s, rfl⟩

private theorem ungetByte_telling (b : UInt8) :
    ∃ t, (d.telling s).ungetByte b = ((d.ungetByte b).1, (d.ungetByte b).2.telling t) := by
  rw [ungetByte, ungetByte, readObstacle?_telling, inTransaction_telling]
  cases d.readObstacle? with
  | some kind => exact ⟨_, rfl⟩
  | none =>
    dsimp only
    split
    · exact ⟨_, rfl⟩
    · split
      · exact ⟨_, rfl⟩
      · exact ⟨s, rfl⟩

private theorem seek_telling (place : Nat) :
    ∃ t, (d.telling s).seek place = ((d.seek place).1, (d.seek place).2.telling t) := by
  rw [Device.seek, Device.seek, isOpen_telling, readQueue_telling, heldBesideMedium_telling]
  split
  · exact ⟨_, rfl⟩
  · split
    · exact ⟨_, rfl⟩
    · split
      · exact ⟨s, rfl⟩
      · generalize Medium.seek d.heldBesideMedium d.medium place = result
        obtain ⟨failure | done, m⟩ := result
        · dsimp only
          split
          · exact ⟨_, rfl⟩
          · exact ⟨_, rfl⟩
        · exact ⟨s, rfl⟩

theorem moveToTarget_telling (target : Target) :
    ∃ t, (d.telling s).moveToTarget target = ((d.moveToTarget target).1, (d.moveToTarget target).2.telling t) := by
  have same : (d.telling s).place? target = d.place? target := by cases target <;> rfl
  rw [moveToTarget, moveToTarget, same]
  cases d.place? target with
  | none => exact ⟨s, rfl⟩
  | some place =>
    obtain ⟨t, moved⟩ := seek_telling d s place
    dsimp only
    rw [moved]
    obtain ⟨failure | done, e⟩ := d.seek place
    · exact ⟨t, rfl⟩
    · exact ⟨t, rfl⟩

omit [Medium σ] in
private theorem startTransaction_telling :
    ∃ t, (d.telling s).startTransaction = (d.startTransaction.1, d.startTransaction.2.telling t) := by
  rw [startTransaction, startTransaction, isOpen_telling, inTransaction_telling]
  split
  · exact ⟨_, rfl⟩
  · split
    · exact ⟨_, rfl⟩
    · exact ⟨s, rfl⟩

omit [Medium σ] in
private theorem commit_telling : ∃ t, (d.telling s).commit = (d.commit.1, d.commit.2.telling t) := by
  rw [commit, commit]
  cases d.transaction with
  | idle => exact ⟨_, rfl⟩
  | onStream start cursor => exact ⟨s, rfl⟩
  | onRandomAccess start => exact ⟨s, rfl⟩

omit [Medium σ] in
private theorem rollback_telling : ∃ t, (d.telling s).rollback = (d.rollback.1, d.rollback.2.telling t) := by
  rw [rollback, rollback]
  cases d.transaction with
  | idle => exact ⟨_, rfl⟩
  | onStream start cursor => exact ⟨s, rfl⟩
  | onRandomAccess start => exact ⟨s, rfl⟩

private theorem selectReading_telling (channel : Nat) :
    ∃ t, (d.telling s).selectReading channel = ((d.selectReading channel).1, (d.selectReading channel).2.telling t) := by
  rw [selectReading, selectReading, inTransaction_telling]
  split
  · exact ⟨_, rfl⟩
  · split
    · exact ⟨_, rfl⟩
    · split
      · exact ⟨s, rfl⟩
      · exact ⟨s, rfl⟩

private theorem selectWriting_telling (channel : Nat) :
    ∃ t, (d.telling s).selectWriting channel = ((d.selectWriting channel).1, (d.selectWriting channel).2.telling t) := by
  rw [selectWriting, selectWriting, switchWriting_telling]
  split
  · exact ⟨_, rfl⟩
  · exact ⟨s, rfl⟩

private theorem push_telling (channel : Nat) (data : Handle) :
    ∃ t, (d.telling s).push channel data = ((d.push channel data).1, (d.push channel data).2.telling t) := by
  rw [push, push, heldBesideReading_telling]
  split
  · exact ⟨_, rfl⟩
  · split
    · exact ⟨_, rfl⟩
    · exact ⟨s, rfl⟩

omit [Medium σ] in
private theorem answer_telling {result result' : Except Failure α × Device σ} (f : α → Reply)
    (same : ∃ t, result' = (result.1, result.2.telling t)) :
    ∃ t, answer f result' = ((answer f result).1, (answer f result).2.telling t) := by
  obtain ⟨t, rfl⟩ := same
  exact ⟨t, rfl⟩

/-- No call heeds what was said. -/
theorem perform_telling (action : Action) :
    ∃ t, (d.telling s).perform action = ((d.perform action).1, (d.perform action).2.telling t) := by
  cases action with
  | openWith mode => exact answer_telling _ (openWith_telling d s mode)
  | close => exact answer_telling _ (close_telling d s)
  | flush => exact answer_telling _ (flush_telling d s)
  | read n => exact answer_telling _ (read_telling d s n)
  | readAll => exact answer_telling _ (readAll_telling d s)
  | readInto buffer => exact answer_telling _ (readInto_telling d s buffer)
  | peek n => exact answer_telling _ (peek_telling d s n)
  | peekInto buffer => exact answer_telling _ (peekInto_telling d s buffer)
  | readLine n => exact answer_telling _ (readLine_telling d s n)
  | readLineInto room => exact answer_telling _ (readLineInto_telling d s room)
  | skip n => exact answer_telling _ (skip_telling d s n)
  | getByte => exact answer_telling _ (getByte_telling d s)
  | ungetByte b => exact answer_telling _ (ungetByte_telling d s b)
  | write bytes => exact answer_telling _ (write_telling d s bytes)
  | putByte b => exact answer_telling _ (putByte_telling d s b)
  | seek place => exact answer_telling _ (seek_telling d s place)
  | reset => exact answer_telling _ (seek_telling d s 0)
  | startTransaction => exact answer_telling _ (startTransaction_telling d s)
  | commit => exact answer_telling _ (commit_telling d s)
  | rollback => exact answer_telling _ (rollback_telling d s)
  | growReading n => exact ⟨s, rfl⟩
  | growWriting n => exact ⟨s, rfl⟩
  | selectReading channel => exact answer_telling _ (selectReading_telling d s channel)
  | selectWriting channel => exact answer_telling _ (selectWriting_telling d s channel)
  | push channel data => exact answer_telling _ (push_telling d s channel data)
  | setText on => exact answer_telling _ (setText_telling d s on)

end

end ByteFlow.Device
