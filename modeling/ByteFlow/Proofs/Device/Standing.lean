import ByteFlow.Proofs.Device.Upkeep
import ByteFlow.Proofs.Device.Writing

/-! How a device and its medium stand to each other, after whatever is done with them.
Over memory the device knows where the memory stands, which is never past the end, and nothing waits to be
written. Over a pipe both have chosen the same channels, and bytes wait to be written only where writing goes
through the queue. -/
namespace ByteFlow

private theorem ChunkQueue.length_freeFrom_le (q : ChunkQueue) (head length n : Nat) (chunks : List Handle) :
    (q.freeFrom head length n chunks).length ≤ length := by
  have emptied (length : Nat) (chunks : List Handle) : (q.emptied chunks).length ≤ length := by
    rw [ChunkQueue.emptied]
    split
    · exact Nat.zero_le length
    · exact Nat.zero_le length
  fun_induction freeFrom q head length n chunks with
  | case1 => exact Nat.le_refl _
  | case2 => exact Nat.le_refl _
  | case3 => exact emptied _ _
  | case4 => exact Nat.sub_le _ _
  | case5 => exact Nat.le_refl _
  | case6 => exact emptied _ _
  | case7 => exact Nat.sub_le _ _
  | case8 head length n c next rest some past block ih => exact ih.trans (Nat.sub_le length block)

private theorem ChunkQueue.length_free_le (q : ChunkQueue) (n : Nat) : (q.free n).length ≤ q.length :=
  q.length_freeFrom_le q.head q.length _ q.chunks

namespace Device
open Medium

variable {peeking keep : Bool}

/-! Over memory -/

/-- A medium that moves ends up where it was to go, and not past its end. -/
theorem seek_stands {held : List StorageId} {m m' : Medium.Memory} {place : Nat}
    (there : Medium.seek held m place = (.ok (), m')) : m'.cursor = place ∧ place ≤ m'.data.length := by
  have there : m.seek held place = (.ok (), m') := there
  rw [Medium.Memory.seek] at there
  split at there
  · next inside =>
    obtain ⟨-, rfl⟩ := Prod.mk.inj there
    exact ⟨rfl, inside⟩
  · split at there
    · obtain ⟨-, rfl⟩ := Prod.mk.inj there
      exact ⟨rfl, Nat.le_of_eq (Handle.length_resize ..).symm⟩
    · cases there

private theorem read_stands (held : List StorageId) (m : Medium.Memory) (n : Nat) (inside : m.cursor ≤ m.data.length) :
    ∃ bytes m', Medium.read held m n = (.ok ⟨bytes, bytes.length⟩, m') ∧ bytes.length ≤ n ∧
      m'.cursor = m.cursor + bytes.length ∧ m'.cursor ≤ m'.data.length := by
  refine ⟨(m.data.content.drop m.cursor).take n, _, rfl, List.length_take_le .., rfl, ?_⟩
  show m.cursor + ((m.data.content.drop m.cursor).take n).length ≤ m.data.length
  rw [List.length_take, List.length_drop, Handle.length_content]
  omega

section
variable {d e : Device Medium.Memory}

/-- The memory stands inside its contents, and while the device is open it knows where, as far as a machine
word tells. Nothing is queued to be written. -/
structure Anchored (d : Device Medium.Memory) : Prop where
  random : d.sequential = false
  inside : d.medium.cursor ≤ d.medium.data.length
  stands : d.isOpen = true → d.mediumPos = d.medium.cursor ∨ d.mediumPos = d.medium.cursor % Word.modulus
  unsent : ∀ q ∈ d.writing.queues, q.isEmpty = true

/-- A pass along the memory is followed. -/
theorem Anchored.follow (anchored : Anchored d) {m : Medium.Memory} {n : Nat} (cursor : m.cursor = d.medium.cursor + n)
    (inside : m.cursor ≤ m.data.length) (reading : Channels) (pos : Nat) :
    Anchored { d with medium := m, reading := reading, pos := pos, mediumPos := Word.addWrapped d.mediumPos n } := by
  refine ⟨anchored.random, inside, fun opened => .inr ?_, anchored.unsent⟩
  show (d.mediumPos + n) % Word.modulus = m.cursor % Word.modulus
  rw [cursor]
  rcases anchored.stands opened with here | wrapped
  · rw [here]
  · rw [wrapped, Nat.mod_add_mod]

theorem Anchored.sync (anchored : Anchored d) : Anchored d.sync.2 := by
  rw [Device.sync]
  split
  · exact anchored
  · split
    · next refused =>
      rw [Faultless.seek_refused refused]
      exact anchored
    · next there =>
      obtain ⟨cursor, inside⟩ := seek_stands there
      exact ⟨anchored.random, cursor ▸ inside, fun _ => .inl cursor.symm, anchored.unsent⟩

private theorem Touch.anchored (step : Touch keep d e) (anchored : Anchored d) : Anchored e := by
  cases step with
  | note pos place errorString => exact { anchored with }
  | sync => exact anchored.sync
  | read gone n =>
    obtain ⟨bytes, m, read, few, cursor, inside⟩ := read_stands d.heldBesideMedium d.medium n anchored.inside
    rw [readThrough, read]
    dsimp only
    rw [Nat.min_eq_left few, follow_eq, if_neg (by simp [anchored.random])]
    exact anchored.follow cursor inside d.reading d.pos
  | fill chunk =>
    rw [Device.fill]
    dsimp only
    split
    · exact anchored
    · obtain ⟨bytes, m, read, few, cursor, inside⟩ := read_stands d.heldBesideMedium d.medium chunk anchored.inside
      rw [read]
      dsimp only
      rw [Nat.min_eq_left few, follow_eq, if_neg (by simp [anchored.random])]
      exact anchored.follow cursor inside _ d.pos
  | drop gone q kept remains => exact { anchored with }

private theorem Touches.anchored (touches : Touches keep d e) (anchored : Anchored d) : Anchored e := by
  induction touches with
  | refl => exact anchored
  | tail _ step ih => exact step.anchored ih

/-- What is offered goes to the memory at once. -/
private theorem Put.anchored (step : Put d e) (anchored : Anchored d) : Anchored e := by
  cases step with
  | said errorString => exact { anchored with }
  | sync => exact anchored.sync
  | offered direct bytes =>
    have inside : d.medium.cursor ≤ d.medium.data.content.length := by
      rw [Handle.length_content]
      exact anchored.inside
    obtain ⟨m, offered, content, cursor, -⟩ := offer_eq d bytes inside
    have inside' : m.cursor ≤ m.data.length := by
      rw [← Handle.length_content, content, Medium.Memory.length_written inside, cursor]
      exact Nat.le_max_right ..
    rw [offered, advance_eq, follow_eq]
    dsimp only
    rw [if_neg (by simp [anchored.random]), if_neg (by simp [anchored.random])]
    exact anchored.follow cursor inside' d.reading _
  | queue stream buffered able bytes => exact absurd (stream.symm.trans anchored.random) (by decide)
  | handed some => exact absurd ((anchored.unsent _ d.writing.queue_mem).symm.trans some) (by decide)
  | sent n =>
    have empty : d.writeQueue.length = 0 := eq_of_beq (anchored.unsent _ d.writing.queue_mem)
    have none : (d.writeQueue.free n).isEmpty = true := by
      have less := d.writeQueue.length_free_le n
      rw [empty] at less
      simpa [ChunkQueue.isEmpty] using less
    exact { anchored with unsent := Channels.forall_put anchored.unsent none }
  | chosen channel inside =>
    have queues := Channels.queues_select d.writing channel
    exact { anchored with unsent := queues ▸ anchored.unsent }
  | flush => exact { anchored with }
  | forget random n => exact { anchored with }

private theorem Puts.anchored (puts : Puts d e) (anchored : Anchored d) : Anchored e := by
  induction puts with
  | refl => exact anchored
  | tail _ step ih => exact step.anchored ih

private theorem Turn.anchored (turn : Turn d e) (anchored : Anchored d) : Anchored e := by
  have nothing (chunkSize : Nat) : (ChunkQueue.withChunkSize chunkSize).isEmpty = true := rfl
  cases turn with
  | said errorString => exact { anchored with }
  | unopened mode e m refused errorString =>
    obtain ⟨m', granted⟩ := Faultless.openWith_ok d.medium mode
    cases granted.symm.trans refused
  | opened closed mode able m granted pos start =>
    obtain ⟨-, rfl⟩ := Prod.mk.inj granted
    exact ⟨anchored.random, Nat.zero_le _, fun _ => .inl rfl, Channels.forall_single (nothing _)⟩
  | closed errorString =>
    have flushed := (flushAll_puts d).anchored anchored
    refine ⟨flushed.random, flushed.inside, fun opened => ?_, flushed.unsent⟩
    cases opened
  | text opened on => exact { anchored with stands := fun _ => anchored.stands opened }
  | putBack idle b => exact { anchored with }
  | moved random place =>
    obtain ⟨q, moved, -⟩ := d.moveTo_eq place
    rw [moved]
    exact { anchored with }
  | sought random place m there =>
    obtain ⟨cursor, inside⟩ := seek_stands there
    exact ⟨anchored.random, cursor ▸ inside, fun _ => .inl cursor.symm, anchored.unsent⟩
  | astray random place e m refused errorString =>
    rw [Faultless.seek_refused refused]
    exact { anchored with }
  | begun opened => exact { anchored with }
  | kept startPos cursor running => exact { anchored with }
  | left startPos running => exact { anchored with }
  | rewound startPos cursor running => exact { anchored with }
  | returned startPos running =>
    obtain ⟨q, moved, -⟩ := d.moveTo_eq startPos
    rw [moved]
    exact { anchored with }
  | moreReading n => exact { anchored with }
  | moreWriting n => exact { anchored with unsent := Channels.forall_grow anchored.unsent (nothing _) }
  | chosen idle channel inside => exact { anchored with }
  | pushed stream channel inside data => exact absurd (stream.symm.trans anchored.random) (by decide)

theorem Effect.anchored (effect : Effect d e) (anchored : Anchored d) : Anchored e := by
  cases effect with
  | bouts peeking bouts => exact bouts.touches.anchored anchored
  | puts puts => exact puts.anchored anchored
  | turn turn => exact turn.anchored anchored

end

/-! Over a pipe -/

section
variable {d e : Device Pipe} {last : OpenMode}

/-- While the device is open the pipe has chosen its channels. What is queued to be written was queued by
writing through the queue since the device was last opened, which was in the mode `last`. -/
structure Abreast (d : Device Pipe) (last : OpenMode) : Prop where
  stream : d.sequential = true
  chosen : d.isOpen = true → d.medium.readChannel = d.reading.current ∧ d.medium.writeChannel = d.writing.current
  lasting : d.isOpen = true → d.mode.writable = last.writable ∧ d.mode.unbuffered = last.unbuffered
  queued : ∀ q ∈ d.writing.queues, 0 < q.length → last.writable = true ∧ last.unbuffered = false

private theorem Touches.abreast (touches : Touches keep d e) (abreast : Abreast d last) : Abreast e last := by
  have left := touches.left
  have seeks (held : List StorageId) (m : Pipe) (place : Nat)
      (same : m.readChannel = d.medium.readChannel ∧ m.writeChannel = d.medium.writeChannel) :
      (Medium.seek held m place).2.readChannel = d.medium.readChannel ∧
        (Medium.seek held m place).2.writeChannel = d.medium.writeChannel := same
  have reads (held : List StorageId) (m : Pipe) (n : Nat)
      (same : m.readChannel = d.medium.readChannel ∧ m.writeChannel = d.medium.writeChannel) :
      (Medium.read held m n).2.readChannel = d.medium.readChannel ∧
        (Medium.read held m n).2.writeChannel = d.medium.writeChannel := by
    show (m.read n).2.readChannel = _ ∧ (m.read n).2.writeChannel = _
    rw [Pipe.read]
    split
    · exact same
    · exact same
  obtain ⟨readChannel, writeChannel⟩ := touches.medium seeks reads ⟨rfl, rfl⟩
  have same : e.isOpen = d.isOpen := by rw [isOpen, left.mode, isOpen]
  refine ⟨left.sequential.trans abreast.stream, fun opened => ?_, fun opened => ?_, ?_⟩
  · obtain ⟨reading, writing⟩ := abreast.chosen (same ▸ opened)
    rw [readChannel, writeChannel, left.reading, left.writing]
    exact ⟨reading, writing⟩
  · rw [left.mode]
    exact abreast.lasting (same ▸ opened)
  · rw [left.writing]
    exact abreast.queued

private theorem Put.abreast (step : Put d e) (abreast : Abreast d last) : Abreast e last := by
  have stream := abreast.stream
  cases step with
  | said errorString => exact { abreast with }
  | sync =>
    rw [Device.sync, if_pos (.inl stream)]
    exact abreast
  | offered direct bytes =>
    obtain ⟨m, offered, writes⟩ := d.offer_parts bytes
    obtain ⟨written, rfl⟩ := writes.apart
    rw [offered, follow, if_pos stream, advance, if_pos stream]
    exact { abreast with }
  | queue _ buffered able bytes =>
    have opened : d.isOpen = true := isOpen_of_usable (by rw [able, Bool.or_true])
    obtain ⟨writable, unbuffered⟩ := abreast.lasting opened
    have through : last.writable = true ∧ last.unbuffered = false := by
      rw [isBuffered, Bool.not_eq_true'] at buffered
      exact ⟨writable.symm.trans able, unbuffered.symm.trans buffered⟩
    exact { abreast with queued := fun q member some => through }
  | handed some =>
    obtain ⟨written, wrote⟩ := write_apart d.medium d.heldBesideMedium d.writeQueue.front
    rw [wrote]
    exact { abreast with }
  | sent n =>
    have less := d.writeQueue.length_free_le n
    exact { abreast with
      queued := Channels.forall_put abreast.queued fun some =>
        abreast.queued _ d.writing.queue_mem (Nat.lt_of_lt_of_le some less) }
  | chosen channel inside =>
    exact { abreast with
      chosen := fun _ => ⟨rfl, (Channels.current_select inside).symm⟩
      queued := Channels.queues_select d.writing channel ▸ abreast.queued }
  | flush => exact { abreast with }
  | forget random n => exact absurd (stream.symm.trans random) (by decide)

private theorem Puts.abreast (puts : Puts d e) (abreast : Abreast d last) : Abreast e last := by
  induction puts with
  | refl => exact abreast
  | tail _ step ih => exact step.abreast ih

/-- The mode that a device was last opened in, `e` being what became of `d`. -/
def lastMode (d e : Device Pipe) (last : OpenMode) : OpenMode := if !d.isOpen && e.isOpen then e.mode else last

private theorem Turn.abreast (turn : Turn d e) (steady : Steady d) (abreast : Abreast d last) :
    Abreast e (d.lastMode e last) := by
  have stream := abreast.stream
  have nothing (chunkSize : Nat) : 0 < (ChunkQueue.withChunkSize chunkSize).length →
      last.writable = true ∧ last.unbuffered = false := fun some => absurd some (Nat.lt_irrefl 0)
  have during (same : e.isOpen = d.isOpen) : d.lastMode e last = last := by
    rw [lastMode, same, Bool.not_and_self]
    rfl
  cases turn with
  | said errorString =>
    rw [during rfl]
    exact { abreast with }
  | unopened mode e m refused errorString => cases refused
  | opened closed mode able m granted pos start =>
    have opened : isOpen { d with
        medium := Medium.select m 0 0, mode := mode, reading := .single d.config.chunkSize
        writing := .single d.config.writeChunkSize, pos := pos, mediumPos := 0, transaction := .idle
        errorString := "" } = true := isOpen_of_usable able
    rw [lastMode, closed, opened]
    refine ⟨stream, fun _ => ⟨rfl, rfl⟩, fun _ => ⟨rfl, rfl⟩, Channels.forall_single fun some => absurd some (Nat.lt_irrefl 0)⟩
  | closed errorString =>
    have flushed := (flushAll_puts d).abreast abreast
    have none : d.lastMode { d.flushAll.2 with
        medium := (Medium.close d.flushAll.2.medium).2, mode := .closed
        reading := .single d.flushAll.2.config.chunkSize, pos := 0, mediumPos := 0, transaction := .idle
        errorString := errorString } last = last := by
      rw [lastMode]
      exact if_neg (by simp [isOpen, OpenMode.isEmpty])
    rw [none]
    refine ⟨flushed.stream, fun opened => ?_, fun opened => ?_, flushed.queued⟩
    · cases opened
    · cases opened
  | text opened on =>
    have still : isOpen { d with mode := { d.mode with text := on } } = true := isOpen_of_usable (steady.usable opened)
    rw [during (still.trans opened.symm)]
    exact { abreast with
      chosen := fun _ => abreast.chosen opened
      lasting := fun _ => abreast.lasting opened }
  | putBack idle b =>
    rw [during rfl]
    exact { abreast with }
  | moved random place => exact absurd (stream.symm.trans random) (by decide)
  | sought random place m there => exact absurd (stream.symm.trans random) (by decide)
  | astray random place e m refused errorString => exact absurd (stream.symm.trans random) (by decide)
  | begun opened =>
    rw [during rfl]
    exact { abreast with }
  | kept startPos cursor running =>
    rw [during rfl]
    exact { abreast with }
  | left startPos running =>
    rw [during rfl]
    exact { abreast with }
  | rewound startPos cursor running =>
    rw [during rfl]
    exact { abreast with }
  | returned startPos running =>
    have random : d.sequential = false := by
      have kind := steady.kind
      rwa [running] at kind
    exact absurd (stream.symm.trans random) (by decide)
  | moreReading n =>
    rw [during rfl]
    exact { abreast with }
  | moreWriting n =>
    rw [during rfl]
    exact { abreast with queued := Channels.forall_grow abreast.queued (nothing _) }
  | chosen idle channel inside =>
    rw [during rfl]
    exact { abreast with chosen := fun _ => ⟨(Channels.current_select inside).symm, rfl⟩ }
  | pushed _ channel inside data =>
    rw [during rfl]
    exact { abreast with }

theorem Effect.abreast (effect : Effect d e) (steady : Steady d) (abreast : Abreast d last) :
    Abreast e (d.lastMode e last) := by
  have during (same : e.isOpen = d.isOpen) : d.lastMode e last = last := by
    rw [lastMode, same, Bool.not_and_self]
    rfl
  cases effect with
  | bouts peeking bouts =>
    rw [during (by rw [isOpen, bouts.touches.left.mode, isOpen])]
    exact bouts.touches.abreast abreast
  | puts puts =>
    rw [during (by rw [isOpen, puts.apart.mode, isOpen])]
    exact puts.abreast abreast
  | turn turn => exact turn.abreast steady abreast

end

end Device

end ByteFlow
