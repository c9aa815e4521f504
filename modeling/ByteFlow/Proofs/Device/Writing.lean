import ByteFlow.Proofs.Device.Event
import ByteFlow.Proofs.Device.Put

/-! Writing to a pipe leaves what is read from it alone.
Whatever is written, flushed or chosen to be written, the read queues, the position, the transaction and
what waits in the pipe stay as they are. -/
namespace ByteFlow.Device
open Medium

/-- The device `e` is `d` after something was done on the side of writing. -/
structure Beside (d e : Device Pipe) : Prop where
  sequential : e.sequential = d.sequential
  mode : e.mode = d.mode
  config : e.config = d.config
  reading : e.reading = d.reading
  pos : e.pos = d.pos
  transaction : e.transaction = d.transaction
  incoming : e.medium.incoming = d.medium.incoming
  readLimit : e.medium.readLimit = d.medium.readLimit
  readChannel : e.medium.readChannel = d.medium.readChannel ∨ e.medium.readChannel = d.reading.current

variable {d e f : Device Pipe}

private theorem Beside.refl (d : Device Pipe) : d.Beside d := ⟨rfl, rfl, rfl, rfl, rfl, rfl, rfl, rfl, .inl rfl⟩

private theorem Beside.trans (first : d.Beside e) (second : e.Beside f) : d.Beside f where
  sequential := second.sequential.trans first.sequential
  mode := second.mode.trans first.mode
  config := second.config.trans first.config
  reading := second.reading.trans first.reading
  pos := second.pos.trans first.pos
  transaction := second.transaction.trans first.transaction
  incoming := second.incoming.trans first.incoming
  readLimit := second.readLimit.trans first.readLimit
  readChannel := by
    rcases second.readChannel with same | chosen
    · rw [same]
      exact first.readChannel
    · right
      rw [chosen, first.reading]

/-- What is written, chosen to be written or told of a failure is beside what is read. -/
theorem Beside.of_parts (d : Device Pipe) (m : Pipe) (incoming : m.incoming = d.medium.incoming)
    (readLimit : m.readLimit = d.medium.readLimit)
    (readChannel : m.readChannel = d.medium.readChannel ∨ m.readChannel = d.reading.current) (writing : Channels)
    (errorString : String) :
    d.Beside { d with medium := m, writing := writing, errorString := errorString } :=
  ⟨rfl, rfl, rfl, rfl, rfl, rfl, incoming, readLimit, readChannel⟩

private theorem Beside.told (d : Device Pipe) (errorString : String) : d.Beside { d with errorString := errorString } :=
  .of_parts d d.medium rfl rfl (.inl rfl) d.writing errorString

theorem Beside.orderly (beside : d.Beside e) (orderly : Orderly d) : Orderly e := by
  obtain ⟨sequential, mode, config, reading, pos, transaction, incoming, -, readChannel⟩ := beside
  refine ⟨sequential.trans orderly.sequential, ?_, ?_, ?_, ?_, ?_, ?_, fun opened => ?_, ?_⟩
  · show ∀ q ∈ e.medium.incoming, q.WellFormed
    rw [incoming]
    exact orderly.sound
  · rw [reading]
    exact orderly.queues
  · rw [Device.cursor, transaction, readQueue, reading]
    exact orderly.cursor
  · rw [transaction, sequential]
    exact orderly.fits
  · rw [transaction]
    exact orderly.begun
  · rw [pos]
    exact orderly.pos
  · rw [reading]
    rw [isOpen, mode] at opened
    rcases readChannel with same | chosen
    · rw [same]
      exact orderly.channel opened
    · exact chosen
  · rw [config]
    exact orderly.possible

/-! Pieces -/

/-- Writing to a pipe only adds to what was written. -/
theorem write_apart (p : Pipe) (held : List StorageId) (bytes : List UInt8) :
    ∃ written, (Medium.write held p bytes).2 = { p with written := written } := by
  show ∃ written, (p.write held bytes).2 = { p with written := written }
  rw [Pipe.write]
  dsimp only
  split
  · exact ⟨p.written, rfl⟩
  · exact ⟨_, rfl⟩

theorem Writes.apart {held : List StorageId} {p q : Pipe} (writes : Writes held p q) :
    ∃ written, q = { p with written := written } := by
  induction writes with
  | refl => exact ⟨p.written, rfl⟩
  | tail _ wrote ih =>
    obtain ⟨written, rfl⟩ := ih
    obtain ⟨bytes, rfl⟩ := wrote
    exact write_apart _ held bytes

private theorem Beside.wrote (d : Device Pipe) (written : List Handle) :
    d.Beside { d with medium := { d.medium with written := written } } :=
  .of_parts d { d.medium with written := written } rfl rfl (.inl rfl) d.writing d.errorString

/-- On a stream no step of a writing call touches what is read. -/
private theorem Put.beside (step : Put d e) (stream : d.sequential = true) : d.Beside e := by
  cases step with
  | said errorString => exact .told d errorString
  | sync =>
    rw [Device.sync, if_pos (.inl stream)]
    exact .refl d
  | offered direct bytes =>
    obtain ⟨m, offered, writes⟩ := d.offer_parts bytes
    obtain ⟨written, rfl⟩ := writes.apart
    rw [offered, follow, if_pos stream, advance, if_pos stream]
    exact .wrote d written
  | handed some =>
    obtain ⟨written, wrote⟩ := write_apart d.medium d.heldBesideMedium d.writeQueue.front
    rw [wrote]
    exact .wrote d written
  | queue _ _ _ bytes => exact .of_parts d d.medium rfl rfl (.inl rfl) _ d.errorString
  | sent n => exact .of_parts d d.medium rfl rfl (.inl rfl) _ d.errorString
  | chosen channel =>
    exact .of_parts d (Medium.select d.medium d.reading.current channel) rfl rfl (.inr rfl) _ d.errorString
  | flush => exact .refl d
  | forget random n => exact absurd (stream.symm.trans random) (by decide)

theorem Puts.beside (puts : Puts d e) (stream : d.sequential = true) : d.Beside e := by
  induction puts with
  | refl => exact .refl d
  | tail _ step ih => exact ih.trans (step.beside (ih.sequential.trans stream))

end ByteFlow.Device
