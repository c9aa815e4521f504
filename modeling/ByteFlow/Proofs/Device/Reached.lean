import ByteFlow.Proofs.Device.Writing

/-! The states that a device over a pipe can come to.
Every call keeps the device in order, those that are refused and those that write among them, and so does
all that happens at the other end. -/
namespace ByteFlow.Device
open Medium

/-- The states after any calls and whatever happens meanwhile, as long as machine words count what is in store. -/
inductive Reached (config : Config) : Device Pipe → Prop where
  | fresh : Reached config (ofMedium Pipe.empty config)
  | step {d : Device Pipe} (event : Event) : Reached config d → (d.after event).Short → Reached config (d.after event)

variable {d : Device Pipe} {config : Config}

private theorem Orderly.untold (orderly : Orderly d) (errorString : String) :
    Orderly { d with errorString := errorString } :=
  (orderly.told errorString).orderly orderly

/-- Outside a transaction any queue will do, at any position. -/
private theorem Orderly.settled (orderly : Orderly d) {q : ChunkQueue} (wf : q.WellFormed) {pos : Nat}
    (inside : pos < Word.modulus) :
    Orderly { d with reading := d.reading.put q, pos := pos, transaction := .idle } := by
  exact { orderly with
    queues := Channels.forall_put orderly.queues wf
    cursor := Nat.zero_le _
    fits := trivial
    begun := fun _ _ begun => by cases begun
    pos := inside }

theorem stream_settled (d : Device Pipe) (q : ChunkQueue) (pos : Nat) :
    stream { d with reading := d.reading.put q, pos := pos, transaction := .idle } = q.toList ++ d.medium.waiting := by
  show (d.reading.put q).queue.toList.drop 0 ++ d.medium.waiting = _
  rw [Channels.queue_put, List.drop_zero]

private theorem Orderly.close (orderly : Orderly d) : Orderly d.close.2 := by
  rw [Device.close]
  split
  · exact orderly
  · have flushed := ((flushAll_puts d).beside orderly.sequential).orderly orderly
    generalize d.flushAll = result at flushed
    obtain ⟨result, e⟩ := result
    have closed (errorString : String) : Orderly { e with
        mode := .closed, reading := .single e.config.chunkSize, pos := 0, mediumPos := 0, transaction := .idle
        errorString := errorString } := by
      refine ⟨flushed.sequential, flushed.sound, Channels.forall_single (ChunkQueue.wellFormed_withChunkSize _),
        Nat.zero_le _, trivial, ?_, Nat.two_pow_pos 64, fun opened => absurd opened Bool.false_ne_true, flushed.possible⟩
      rintro _ _ ⟨⟩
    cases result with
    | error failure => exact closed _
    | ok done => exact closed e.errorString

theorem Orderly.setText (orderly : Orderly d) (on : Bool) : Orderly (d.setText on).2 := by
  rw [Device.setText]
  split
  · exact orderly.untold _
  · next opened =>
    have opened : d.isOpen = true := by simpa using opened
    exact { orderly with channel := fun _ => orderly.channel opened }

private theorem Orderly.ungetByte (orderly : Orderly d) (b : UInt8) : Orderly (d.ungetByte b).2 := by
  rw [Device.ungetByte]
  cases d.readObstacle? with
  | some kind => exact orderly.untold _
  | none =>
    dsimp only
    split
    · exact orderly.untold _
    · next outside =>
      have idle : d.transaction = .idle := by simpa [inTransaction] using outside
      split
      · exact orderly.untold _
      · obtain ⟨wf, -⟩ := ChunkQueue.unget_spec orderly.wellFormed (d.heldBesideReading d.reading.current) b
        have settled := orderly.settled wf ((Nat.sub_le d.pos 1).trans_lt orderly.pos)
        rwa [← idle] at settled

/-! Transactions -/

theorem Orderly.startTransaction (orderly : Orderly d) : Orderly d.startTransaction.2 := by
  rw [Device.startTransaction]
  split
  · exact orderly.untold _
  · split
    · exact orderly.untold _
    · rw [if_pos orderly.sequential]
      have begun : ∀ startPos cursor, Transaction.onStream d.pos 0 = .onStream startPos cursor → startPos < Word.modulus := by
        rintro _ _ ⟨⟩
        exact orderly.pos
      exact { orderly with cursor := Nat.zero_le _, fits := orderly.sequential, begun := begun }

private theorem Orderly.commit (orderly : Orderly d) : Orderly d.commit.2 := by
  rw [Device.commit]
  cases at_ : d.transaction with
  | idle => exact orderly.untold _
  | onStream startPos cursor => exact orderly.settled (ChunkQueue.free_spec orderly.wellFormed cursor).1 orderly.pos
  | onRandomAccess startPos =>
    have settled := orderly.settled orderly.wellFormed orderly.pos
    rwa [readQueue, Channels.put_queue] at settled

theorem Orderly.rollback (orderly : Orderly d) : Orderly d.rollback.2 := by
  rw [Device.rollback]
  cases at_ : d.transaction with
  | idle => exact orderly.untold _
  | onStream startPos cursor =>
    have settled := orderly.settled orderly.wellFormed (orderly.begun startPos cursor at_)
    rwa [readQueue, Channels.put_queue] at settled
  | onRandomAccess startPos =>
    have random := orderly.fits
    rw [at_] at random
    exact absurd (orderly.sequential.symm.trans random) (by decide)

/-! Channels -/

private theorem Orderly.push (orderly : Orderly d) (channel : Nat) (data : Handle) :
    Orderly (d.push channel data).2 := by
  rw [Device.push]
  split
  · exact orderly.untold _
  · split
    · exact orderly.untold _
    · dsimp only
      have grown (q : ChunkQueue) (wf : q.WellFormed) := ChunkQueue.append_spec wf (d.heldBesideReading channel) data
      have longer : d.readQueue.length ≤
          (d.reading.change channel (ChunkQueue.append (d.heldBesideReading channel) data)).queue.length := by
        rw [readQueue, Channels.queue_change]
        split
        · obtain ⟨wf, bytes⟩ := grown d.reading.queue orderly.wellFormed
          have old : d.reading.queue.length = d.reading.queue.toList.length := orderly.wellFormed.counted
          rw [wf.counted, bytes, List.length_append, old]
          exact Nat.le_add_right ..
        · exact Nat.le_refl _
      exact { orderly with
        queues := Channels.forall_change orderly.queues fun q wf => (grown q wf).1
        cursor := orderly.cursor.trans longer }

private theorem Orderly.seek (orderly : Orderly d) (place : Nat) : Orderly (d.seek place).2 := by
  rw [Device.seek]
  split
  · exact orderly.untold _
  · rw [if_pos orderly.sequential]
    exact orderly.untold _

/-! Calls and events -/

private theorem perform_orderly (orderly : Orderly d) (short : d.Short) (action : Action) :
    Orderly (d.perform action).2 := by
  by_cases reading : action.reads
  · obtain ⟨raw, takes, -⟩ := orderly.draws short reading
    exact takes.orderly orderly
  · cases action with
    | openWith mode => exact orderly.openWith mode
    | close => exact orderly.close
    | flush => exact ((flush_puts d).beside orderly.sequential).orderly orderly
    | ungetByte b => exact orderly.ungetByte b
    | write bytes => exact ((write_puts d bytes).beside orderly.sequential).orderly orderly
    | putByte b => exact ((putByte_puts d b).beside orderly.sequential).orderly orderly
    | seek place => exact orderly.seek place
    | reset => exact orderly.seek 0
    | startTransaction => exact orderly.startTransaction
    | commit => exact orderly.commit
    | rollback => exact orderly.rollback
    | growReading n => exact orderly.growReading n
    | growWriting n => exact (Beside.of_parts d d.medium rfl rfl (.inl rfl) _ d.errorString).orderly orderly
    | selectReading channel => exact orderly.selectReading channel
    | selectWriting channel => exact ((selectWriting_puts d channel).beside orderly.sequential).orderly orderly
    | push channel data => exact orderly.push channel data
    | setText on => exact orderly.setText on
    | _ => exact absurd trivial reading

private theorem after_orderly (orderly : Orderly d) (short : d.Short) (event : Event) : Orderly (d.after event) := by
  cases event with
  | call action => exact perform_orderly orderly short action
  | remote act => exact orderly.remote act
  | hold ids => exact orderly.hold ids

theorem Reached.short (reached : Reached config d) : d.Short := by
  cases reached with
  | fresh => exact Nat.zero_le _
  | step event _ short => exact short

theorem Reached.orderly (reached : Reached config d) (possible : config.bufferSize < Word.requestLimit) : Orderly d := by
  induction reached with
  | fresh => exact orderly_ofMedium (fun _ member => absurd member List.not_mem_nil) possible
  | step event before _ ih => exact after_orderly ih before.short event

/-- Machine words count what is in store, whatever happens. -/
def StaysShort (d : Device Pipe) : List Event → Prop
  | [] => True
  | event :: rest => (d.after event).Short ∧ (d.after event).StaysShort rest

instance decidableStaysShort (d : Device Pipe) : (events : List Event) → Decidable (d.StaysShort events)
  | [] => inferInstanceAs (Decidable True)
  | event :: rest =>
    have := decidableStaysShort (d.after event) rest
    inferInstanceAs (Decidable (_ ≤ _ ∧ _))

theorem Reached.afterAll (reached : Reached config d) (events : List Event) (short : d.StaysShort events) :
    Reached config (d.afterAll events) := by
  induction events generalizing d with
  | nil => exact reached
  | cons event rest ih => exact ih (reached.step event short.1) short.2

end ByteFlow.Device
