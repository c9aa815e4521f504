import ByteFlow.Proofs.Device.Bout

/-! What a call may do to a device.
Calls that read go by bouts, calls that write, flush or choose a write channel by puts, and every other call
takes one turn, if any: it opens or closes the device, moves it, minds a transaction or the read channels, or
only says what failed. -/
namespace ByteFlow.Device
open Medium

variable {σ : Type} [Medium σ]

/-- A call that neither reads nor writes. -/
inductive Turn (d : Device σ) : Device σ → Prop where
  | said (errorString : String) : Turn d { d with errorString := errorString }
  | unopened (mode : OpenMode) (e : IoError) (m : σ) (refused : Medium.openWith d.medium mode = (.error e, m))
      (errorString : String) : Turn d { d with medium := m, errorString := errorString }
  | opened (closed : d.isOpen = false) (mode : OpenMode) (able : (mode.readable || mode.writable) = true)
      (m : σ) (granted : Medium.openWith d.medium mode = (.ok (), m)) (pos : Nat) (start : d.sequential = true → pos = 0) :
      Turn d { d with
        medium := Medium.select m 0 0
        mode := mode
        reading := .single d.config.chunkSize
        writing := .single d.config.writeChunkSize
        pos := pos
        mediumPos := 0
        transaction := .idle
        errorString := "" }
  | closed (errorString : String) :
      Turn d { d.flushAll.2 with
        medium := (Medium.close d.flushAll.2.medium).2
        mode := .closed
        reading := .single d.flushAll.2.config.chunkSize
        pos := 0
        mediumPos := 0
        transaction := .idle
        errorString := errorString }
  | text (opened : d.isOpen = true) (on : Bool) : Turn d { d with mode := { d.mode with text := on } }
  | putBack (idle : d.transaction = .idle) (b : UInt8) :
      Turn d { d with
        reading := d.reading.put (d.readQueue.unget (d.heldBesideReading d.reading.current) b)
        pos := d.pos - 1 }
  | moved (random : d.sequential = false) (place : Nat) : Turn d (d.moveTo place)
  | sought (random : d.sequential = false) (place : Nat) (m : σ)
      (there : Medium.seek d.heldBesideMedium d.medium place = (.ok (), m)) :
      Turn d { d with medium := m, reading := d.reading.put d.readQueue.clear, pos := place, mediumPos := place }
  | astray (random : d.sequential = false) (place : Nat) (e : IoError) (m : σ)
      (refused : Medium.seek d.heldBesideMedium d.medium place = (.error e, m)) (errorString : String) :
      Turn d { d with medium := m, errorString := errorString }
  | begun (opened : d.isOpen = true) :
      Turn d { d with transaction := if d.sequential then .onStream d.pos 0 else .onRandomAccess d.pos }
  | kept (startPos cursor : Nat) (running : d.transaction = .onStream startPos cursor) :
      Turn d { d with reading := d.reading.put (d.readQueue.free cursor), transaction := .idle }
  | left (startPos : Nat) (running : d.transaction = .onRandomAccess startPos) : Turn d { d with transaction := .idle }
  | rewound (startPos cursor : Nat) (running : d.transaction = .onStream startPos cursor) :
      Turn d { d with pos := startPos, transaction := .idle }
  | returned (startPos : Nat) (running : d.transaction = .onRandomAccess startPos) :
      Turn d { d.moveTo startPos with transaction := .idle }
  | moreReading (n : Nat) : Turn d (d.growReading n)
  | moreWriting (n : Nat) : Turn d (d.growWriting n)
  | chosen (idle : d.transaction = .idle) (channel : Nat) (inside : channel < d.reading.count) :
      Turn d { d with
        reading := d.reading.select channel
        medium := Medium.select d.medium channel d.writing.current }
  | pushed (stream : d.sequential = true) (channel : Nat) (inside : channel < d.reading.count) (data : Handle) :
      Turn d { d with reading := d.reading.change channel (ChunkQueue.append (d.heldBesideReading channel) data) }

/-- What a call comes to. -/
inductive Effect (d : Device σ) : Device σ → Prop where
  | bouts {e : Device σ} (peeking : Bool) (bouts : Bouts peeking d e) : Effect d e
  | puts {e : Device σ} (puts : Puts d e) : Effect d e
  | turn {e : Device σ} (turn : Turn d e) : Effect d e

variable {d e : Device σ}

theorem Effect.none (d : Device σ) : Effect d d := .puts (.refl d)

private theorem Effect.said (d : Device σ) (errorString : String) :
    Effect d { d with errorString := errorString } := .turn (.said _)

/-! Opening and closing -/

private theorem openWith_effect (d : Device σ) (mode : OpenMode) : Effect d (d.openWith mode).2 := by
  rw [openWith]
  dsimp only
  split
  · exact .said d _
  · next closed =>
    split
    · exact .said d _
    · next able =>
      rcases granted : Medium.openWith d.medium mode.normalized with ⟨e | _, m⟩
      · exact .turn (.unopened mode.normalized e m granted _)
      · refine .turn (.opened (Bool.of_not_eq_true closed) mode.normalized ?_ m granted _ fun stream => ?_)
        · rw [Bool.and_eq_true, not_and_or] at able
          simpa using able
        · rw [stream, Bool.not_true, Bool.and_false]
          rfl

private theorem close_effect (d : Device σ) : Effect d d.close.2 := by
  rw [close]
  split
  · exact .none d
  · have turn (errorString : String) := Turn.closed (d := d) errorString
    generalize d.flushAll = result at turn
    obtain ⟨flushed, e⟩ := result
    dsimp only at turn ⊢
    split
    · exact .turn (turn _)
    · exact .turn (turn _)
    · exact .turn (turn e.errorString)

private theorem setText_effect (d : Device σ) (on : Bool) : Effect d (d.setText on).2 := by
  rw [setText]
  split
  · exact .said d _
  · next opened => exact .turn (.text (by simpa using opened) on)

/-! Moving -/

private theorem ungetByte_effect (d : Device σ) (b : UInt8) : Effect d (d.ungetByte b).2 := by
  rw [ungetByte]
  split
  · exact .said d _
  · split
    · exact .said d _
    · next outside =>
      split
      · exact .said d _
      · exact .turn (.putBack (by simpa [inTransaction] using outside) b)

theorem seek_effect (d : Device σ) (place : Nat) : Effect d (d.seek place).2 := by
  rw [seek]
  split
  · exact .said d _
  · split
    · exact .said d _
    · next random =>
      have random := Bool.of_not_eq_true random
      split
      · exact .turn (.moved random place)
      · split
        · next there => exact .turn (.sought random place _ there)
        · next refused =>
          split
          · exact .turn (.astray random place _ _ refused _)
          · exact .turn (.astray random place _ _ refused _)

/-! Transactions -/

private theorem startTransaction_effect (d : Device σ) : Effect d d.startTransaction.2 := by
  rw [startTransaction]
  split
  · exact .said d _
  · next opened =>
    split
    · exact .said d _
    · exact .turn (.begun (by simpa using opened))

private theorem commit_effect (d : Device σ) : Effect d d.commit.2 := by
  rw [commit]
  split
  · exact .said d _
  · next startPos cursor running => exact .turn (.kept startPos cursor running)
  · next startPos running => exact .turn (.left startPos running)

private theorem rollback_effect (d : Device σ) : Effect d d.rollback.2 := by
  rw [rollback]
  split
  · exact .said d _
  · next startPos cursor running => exact .turn (.rewound startPos cursor running)
  · next startPos running => exact .turn (.returned startPos running)

/-! Channels -/

private theorem selectReading_effect (d : Device σ) (channel : Nat) : Effect d (d.selectReading channel).2 := by
  rw [selectReading]
  split
  · exact .said d _
  · next outside =>
    split
    · exact .said d _
    · next inside =>
      split
      · exact .none d
      · exact .turn (.chosen (by simpa [inTransaction] using outside) channel (Nat.not_le.mp inside))

private theorem push_effect (d : Device σ) (channel : Nat) (data : Handle) : Effect d (d.push channel data).2 := by
  rw [push]
  split
  · exact .said d _
  · next inside =>
    split
    · exact .said d _
    · next stream => exact .turn (.pushed (by simpa using stream) channel (Nat.not_le.mp inside) data)

/-- Every call is one of the three. -/
theorem perform_effect (d : Device σ) (action : Action) : Effect d (d.perform action).2 := by
  by_cases reading : action.reads
  · obtain ⟨peeking, -, bouts⟩ := perform_bouts (d := d) reading
    exact .bouts peeking bouts
  · cases action with
    | openWith mode => exact openWith_effect d mode
    | close => exact close_effect d
    | flush => exact .puts (flush_puts d)
    | ungetByte b => exact ungetByte_effect d b
    | write bytes => exact .puts (write_puts d bytes)
    | putByte b => exact .puts (putByte_puts d b)
    | seek place => exact seek_effect d place
    | reset => exact seek_effect d 0
    | startTransaction => exact startTransaction_effect d
    | commit => exact commit_effect d
    | rollback => exact rollback_effect d
    | growReading n => exact .turn (.moreReading n)
    | growWriting n => exact .turn (.moreWriting n)
    | selectReading channel => exact selectReading_effect d channel
    | selectWriting channel => exact .puts (selectWriting_puts d channel)
    | push channel data => exact push_effect d channel data
    | setText on => exact setText_effect d on
    | _ => exact absurd trivial reading

end ByteFlow.Device
