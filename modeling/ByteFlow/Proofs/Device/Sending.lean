import ByteFlow.Proofs.Device.Harmless
import ByteFlow.Proofs.Device.Outgoing
import ByteFlow.Proofs.Device.Writing

/-! What is sent through a pipe.
Each write channel queues its bytes until the pipe records them. Draining and flushing hand the first queued bytes
on and change nothing of what the record and the queue hold together; only writing adds to that, and only on the
channel that is the current one. -/
namespace ByteFlow.Device
open Medium

/-- What is queued on a write channel. -/
def unsentOn (d : Device Pipe) (channel : Nat) : List UInt8 :=
  ((d.writing.queues[channel]?).map ChunkQueue.toList).getD []

/-- What the pipe recorded on a write channel, and what is queued there. -/
def sentOn (d : Device Pipe) (channel : Nat) : List UInt8 := (d.medium.writtenOn channel).content ++ d.unsentOn channel

/-- The write queues are in order, and the device and its pipe write on the same channel. -/
structure Matched (d : Device Pipe) : Prop where
  queues : ∀ q ∈ d.writing.queues, q.WellFormed
  channel : d.medium.writeChannel = d.writing.current

/-- The device `e` is `d` after some of what was queued to be written was handed on. -/
structure HandsOn (d e : Device Pipe) : Prop where
  matched : Matched e
  count : e.writing.count = d.writing.count
  limit : e.medium.writeLimit = d.medium.writeLimit
  sent : ∀ channel, e.sentOn channel = d.sentOn channel
  unsent : ∀ channel, e.unsentOn channel <:+ d.unsentOn channel

variable {d e f : Device Pipe} {channel : Nat}

private theorem Matched.wellFormed (matched : Matched d) :
    d.writeQueue.WellFormed := matched.queues _ d.writing.queue_mem

private theorem unsentOn_current (d : Device Pipe) : d.unsentOn d.writing.current = d.writeQueue.toList := by
  rw [unsentOn, Channels.getElem?_current]
  rfl

private theorem unsentOn_put (d : Device Pipe) (m : Pipe) (q : ChunkQueue) (channel : Nat) :
    unsentOn { d with medium := m, writing := d.writing.put q } channel =
      if d.writing.current = channel then q.toList else d.unsentOn channel := by
  rw [unsentOn, Channels.put]
  split
  · next same =>
    rw [← same, List.getElem?_set_self d.writing.inside]
    rfl
  · next other =>
    rw [List.getElem?_set_ne other]
    rfl

/-- On channels that there are not nothing is queued. -/
private theorem unsentOn_of_le (outside : d.writing.count ≤ channel) : d.unsentOn channel = [] := by
  rw [unsentOn, List.getElem?_eq_none outside]
  rfl

/-! Handing on -/

namespace HandsOn

private theorem refl (matched : Matched d) :
    HandsOn d d := ⟨matched, rfl, rfl, fun _ => rfl, fun _ => List.suffix_refl _⟩

private theorem trans (first : HandsOn d e) (second : HandsOn e f) : HandsOn d f where
  matched := second.matched
  count := second.count.trans first.count
  limit := second.limit.trans first.limit
  sent channel := (second.sent channel).trans (first.sent channel)
  unsent channel := (second.unsent channel).trans (first.unsent channel)

/-- What is empty stays empty. -/
private theorem empty (hands : HandsOn d e) (none : d.unsentOn channel = []) : e.unsentOn channel = [] :=
  List.suffix_nil.mp (none ▸ hands.unsent channel)

end HandsOn

/-- The pipe takes as much of the first block as its limit allows, and that much is freed. -/
private theorem Matched.block (matched : Matched d) :
    ∃ m, Medium.write d.heldBesideMedium d.medium d.writeQueue.front =
        (.ok (Pipe.capped d.medium.writeLimit d.writeQueue.front.length), m) ∧
      HandsOn d { d with
        medium := m
        writing := d.writing.put (d.writeQueue.free (Pipe.capped d.medium.writeLimit d.writeQueue.front.length)) } := by
  obtain ⟨m, wrote, recorded, channel, limit⟩ := Pipe.write_spec d.heldBesideMedium d.medium d.writeQueue.front
  have few := Pipe.capped_le d.medium.writeLimit d.writeQueue.front.length
  generalize Pipe.capped d.medium.writeLimit d.writeQueue.front.length = n at wrote recorded few
  obtain ⟨wf, left, -⟩ := ChunkQueue.free_spec matched.wellFormed n
  refine ⟨m, wrote, ⟨Channels.forall_put matched.queues wf, channel.trans matched.channel⟩, ?_, limit, fun other => ?_,
    fun other => ?_⟩
  · exact List.length_set
  · rw [sentOn, unsentOn_put, sentOn]
    dsimp only
    rw [recorded, matched.channel]
    split
    · next same =>
      obtain ⟨behind, all⟩ := d.writeQueue.front_prefix
      have whole : d.writeQueue.front.take n ++ d.writeQueue.toList.drop n = d.writeQueue.toList := by
        rw [← all, List.drop_append_of_le_length few, ← List.append_assoc, List.take_append_drop]
      rw [← same, unsentOn_current, left, List.append_assoc, whole]
    · rw [List.append_nil]
  · rw [unsentOn_put]
    split
    · next same =>
      rw [← same, unsentOn_current, left]
      exact List.drop_suffix ..
    · exact List.suffix_refl _

/-- A drain hands bytes on, all of them if it is to go on and the pipe takes any. -/
private theorem Matched.drain (matched : Matched d) (all : Bool) :
    ∃ e, d.drain all = (.ok (), e) ∧ HandsOn d e ∧ e.writing.current = d.writing.current ∧
      (all = true → d.medium.writeLimit ≠ some 0 → e.unsentOn d.writing.current = []) := by
  induction left : d.writeQueue.length using Nat.strongRecOn generalizing d with
  | ind _ ih =>
    subst left
    rw [Device.drain]
    split
    · next none =>
      refine ⟨d, rfl, .refl matched, rfl, fun _ _ => ?_⟩
      rw [unsentOn_current]
      exact matched.wellFormed.toList_eq_nil (by simpa [ChunkQueue.isEmpty] using none)
    · next some =>
      obtain ⟨m, wrote, hands⟩ := matched.block
      have few := Pipe.capped_le d.medium.writeLimit d.writeQueue.front.length
      have positive : d.medium.writeLimit ≠ Option.some 0 →
          0 < Pipe.capped d.medium.writeLimit d.writeQueue.front.length := by
        intro flows
        refine Pipe.capped_pos flows (List.length_pos_of_ne_nil fun none => some ?_)
        have empty := (ChunkQueue.front_eq_nil_iff matched.wellFormed).mp none
        rw [ChunkQueue.isEmpty, matched.wellFormed.counted, empty]
        rfl
      dsimp only
      rw [wrote]
      dsimp only
      rw [Nat.min_eq_left few]
      generalize Pipe.capped d.medium.writeLimit d.writeQueue.front.length = n at wrote hands few positive
      split
      · next none =>
        rw [none, ChunkQueue.free_eq_self (Nat.zero_min _), writeQueue, Channels.put_queue] at hands
        exact ⟨_, rfl, hands, rfl, fun _ flows => absurd none (Nat.ne_of_gt (positive flows))⟩
      · next taken =>
        have shorter : (d.writeQueue.free n).length < d.writeQueue.length := by
          obtain ⟨wf, left, -⟩ := ChunkQueue.free_spec matched.wellFormed n
          have inside := Nat.le_trans few d.writeQueue.front_prefix.length_le
          rw [wf.counted, left, List.length_drop, matched.wellFormed.counted]
          omega
        split
        · next goes =>
          obtain ⟨e, drained, more, current, empty⟩ := ih _ (by rwa [writeQueue, Channels.queue_put]) hands.matched rfl
          exact ⟨e, drained, hands.trans more, current, fun every flows => empty every (hands.limit ▸ flows)⟩
        · next stops => exact ⟨_, rfl, hands, rfl, fun every _ => absurd ⟨shorter, .inl every⟩ stops⟩

/-! Choosing a channel -/

private theorem HandsOn.of_channel (d : Device Pipe) {m : Pipe} {writing : Channels}
    (queues : writing.queues = d.writing.queues)
    (records : m.written = d.medium.written) (limit : m.writeLimit = d.medium.writeLimit)
    (matched : Matched { d with medium := m, writing := writing }) :
    HandsOn d { d with medium := m, writing := writing } := by
  have unsent (channel : Nat) : unsentOn { d with medium := m, writing := writing } channel = d.unsentOn channel := by
    rw [unsentOn, unsentOn, queues]
  refine ⟨matched, congrArg List.length queues, limit, fun channel => ?_, fun channel => ?_⟩
  · rw [sentOn, sentOn, unsent, Pipe.writtenOn, Pipe.writtenOn, records]
  · rw [unsent]

private theorem Matched.switchWriting (matched : Matched d) (inside : channel < d.writing.count) :
    HandsOn d (d.switchWriting channel) ∧ (d.switchWriting channel).writing.current = channel := by
  rw [Device.switchWriting]
  split
  · next same => exact ⟨.refl matched, same.symm⟩
  · have current := Channels.current_select inside
    have queues := Channels.queues_select d.writing channel
    refine ⟨.of_channel d queues rfl rfl ⟨?_, current.symm⟩, current⟩
    rw [queues]
    exact matched.queues

/-! Flushing -/

private theorem Matched.drainChannels (matched : Matched d) (channels : List Nat) :
    ∃ e, d.drainChannels channels = (.ok (), e) ∧ HandsOn d e ∧
      (d.medium.writeLimit ≠ some 0 → ∀ channel ∈ channels, e.unsentOn channel = []) := by
  induction channels generalizing d with
  | nil => exact ⟨d, rfl, .refl matched, fun _ _ member => absurd member List.not_mem_nil⟩
  | cons channel rest ih =>
    rw [Device.drainChannels]
    split
    · next none =>
      have empty : d.unsentOn channel = [] := by
        rw [unsentOn]
        cases found : d.writing.queues[channel]? with
        | none => rfl
        | some q =>
          rw [found] at none
          exact (matched.queues q (List.mem_of_getElem? found)).toList_eq_nil (by simpa [ChunkQueue.isEmpty] using none)
      obtain ⟨e, drained, hands, emptied⟩ := ih matched
      refine ⟨e, drained, hands, fun flows other member => ?_⟩
      rcases List.mem_cons.mp member with rfl | later
      · exact hands.empty empty
      · exact emptied flows other later
    · next some =>
      have inside : channel < d.writing.count := by
        by_contra outside
        rw [List.getElem?_eq_none (Nat.not_lt.mp outside)] at some
        exact some rfl
      obtain ⟨chosen, current⟩ := matched.switchWriting inside
      obtain ⟨e, first, hands, -, empty⟩ := chosen.matched.drain true
      obtain ⟨f, others, more, emptied⟩ := ih hands.matched
      rw [first]
      refine ⟨f, others, (chosen.trans hands).trans more, fun flows other member => ?_⟩
      have flows' : e.medium.writeLimit ≠ Option.some 0 := by rwa [(chosen.trans hands).limit]
      rcases List.mem_cons.mp member with rfl | later
      · rw [current] at empty
        exact more.empty (empty rfl (by rwa [chosen.limit]))
      · exact emptied flows' other later

/-- A flush hands on, all that is queued if the pipe takes any, and goes back to the channel it found. -/
theorem Matched.flushAll (matched : Matched d) :
    ∃ e, d.flushAll = (.ok (), e) ∧ HandsOn d e ∧ e.writing.current = d.writing.current ∧
      (d.medium.writeLimit ≠ some 0 → ∀ channel, e.unsentOn channel = []) := by
  obtain ⟨e, drained, hands, emptied⟩ := matched.drainChannels (List.range d.writing.count)
  have inside : d.writing.current < e.writing.count := by
    rw [hands.count]
    exact d.writing.inside
  obtain ⟨back, current⟩ := hands.matched.switchWriting inside
  rw [Device.flushAll, drained]
  refine ⟨e.switchWriting d.writing.current, rfl, hands.trans back, current, fun flows channel => back.empty ?_⟩
  by_cases there : channel < d.writing.count
  · exact emptied flows channel (List.mem_range.mpr there)
  · exact unsentOn_of_le (by rw [hands.count]; exact Nat.not_lt.mp there)

/-! Queueing -/

/-- A device over a pipe that is open to be written, and queues what is written. -/
structure Sending (d : Device Pipe) : Prop where
  matched : Matched d
  sequential : d.sequential = true
  writable : d.mode.writable = true
  buffered : d.isBuffered = true

/-- The device `e` is `d` after it sent `log`, and is ready to send more. -/
structure Sends (d e : Device Pipe) (log : Traffic) : Prop where
  sending : Sending e
  sent : ∀ channel, e.sentOn channel = d.sentOn channel ++ log.onChannel channel

/-- The device `e` is `d` after `raw` was queued on the current channel. -/
structure Queues (d e : Device Pipe) (raw : List UInt8) : Prop where
  rest : e = { d with writing := d.writing.put e.writeQueue }
  wellFormed : e.writeQueue.WellFormed
  bytes : e.writeQueue.toList = d.writeQueue.toList ++ raw

/-- A device in a mode that allows writing is open. -/
theorem isOpen_of_writable {σ : Type} {d : Device σ} (writable : d.mode.writable = true) : d.isOpen = true := by
  rw [isOpen, OpenMode.isEmpty, Bool.not_eq_true', beq_eq_false_iff_ne]
  intro closed
  rw [closed] at writable
  cases writable

theorem writeObstacle?_of_writable {σ : Type} {d : Device σ} (writable : d.mode.writable = true) :
    d.writeObstacle? = none := by
  rw [writeObstacle?, isOpen_of_writable writable, writable]
  rfl

private theorem Sending.isOpen (sending : Sending d) : d.isOpen = true := isOpen_of_writable sending.writable

private theorem HandsOn.sends (hands : HandsOn d e) (beside : d.Beside e) (sending : Sending d) : Sends d e [] := by
  refine ⟨⟨hands.matched, beside.sequential.trans sending.sequential, ?_, ?_⟩, fun channel => ?_⟩
  · rw [beside.mode]
    exact sending.writable
  · rw [isBuffered, beside.mode]
    exact sending.buffered
  · rw [hands.sent, Traffic.onChannel_nil, List.append_nil]

private theorem Sends.trans {log more : Traffic} (first : Sends d e log) (second : Sends e f more) :
    Sends d f (log ++ more) := by
  refine ⟨second.sending, fun channel => ?_⟩
  rw [second.sent, first.sent, Traffic.onChannel_append, List.append_assoc]

private theorem Queues.sends {raw : List UInt8} (queues : Queues d e raw) (sending : Sending d) :
    Sends d e [(d.writing.current, raw)] := by
  obtain ⟨rest, wf, bytes⟩ := queues
  generalize e.writeQueue = q at rest wf bytes
  subst rest
  refine ⟨⟨⟨Channels.forall_put sending.matched.queues wf, sending.matched.channel⟩, sending.sequential, sending.writable,
    sending.buffered⟩, fun channel => ?_⟩
  rw [sentOn, unsentOn_put d d.medium, sentOn, Traffic.onChannel_singleton]
  split
  · next same => rw [bytes, ← same, unsentOn_current, List.append_assoc]
  · rw [List.append_nil]

private theorem Queues.put {raw more : List UInt8} (queues : Queues d e raw) {q : ChunkQueue} (wf : q.WellFormed)
    (bytes : q.toList = d.writeQueue.toList ++ more) : Queues d { e with writing := e.writing.put q } more := by
  have rest := queues.rest
  generalize e.writeQueue = r at rest
  subst rest
  have last : writeQueue { d with writing := (d.writing.put r).put q } = q := Channels.queue_put ..
  refine ⟨?_, ?_, ?_⟩
  · rw [last, Channels.put_put]
  · rwa [last]
  · rwa [last]

/-- A piece that can be queued at all is queued whole. -/
private theorem Sending.takesAll (sending : Sending d) :
    TakesAll (Word.requestLimit - 1) fun raw e => Queues d e raw := by
  intro raw e piece short queues
  rw [writePiece]
  split
  · next none =>
    obtain rfl := List.isEmpty_iff.mp none
    exact ⟨e, rfl, by rwa [List.append_nil]⟩
  · have buffers : (e.sequential && e.isBuffered) = true := by
      rw [queues.rest]
      exact Bool.and_eq_true_iff.mpr ⟨sending.sequential, sending.buffered⟩
    have small : piece.length < Word.requestLimit := by
      have : 0 < Word.requestLimit := by decide
      omega
    rw [if_pos buffers]
    obtain ⟨wf, grown⟩ := ChunkQueue.appendBytes_spec queues.wellFormed e.heldBesideWriting piece
    rw [if_pos small, queues.bytes, List.append_assoc] at grown
    exact ⟨_, rfl, queues.put wf grown⟩

/-- All that is written goes out on the current channel, at once or later. -/
theorem Sending.write (sending : Sending d) (bytes : List UInt8) (short : bytes.length < Word.requestLimit) :
    ∃ e, d.write bytes = (.ok bytes.length, e) ∧ Sends d e [(d.writing.current, d.outgoing bytes)] ∧
      e.writing.current = d.writing.current ∧ e.medium.writeLimit = d.medium.writeLimit := by
  have synced : d.sync = (.ok (), d) := by rw [sync, if_pos (.inl sending.sequential)]
  have start : Queues d d [] :=
    ⟨by rw [writeQueue, Channels.put_queue], sending.matched.wellFormed, (List.append_nil _).symm⟩
  rw [Device.write, writeObstacle?_of_writable sending.writable]
  dsimp only
  split
  · next none =>
    obtain rfl := List.isEmpty_iff.mp none
    have nothing : d.outgoing [] = [] := by
      rw [outgoing]
      split <;> rfl
    rw [nothing]
    exact ⟨d, rfl, start.sends sending, rfl, rfl⟩
  · obtain ⟨e, queued, queues⟩ := outgoing_sent sending.takesAll (by decide) bytes (by omega) start
    rw [List.nil_append] at queues
    have sends := queues.sends sending
    have same : e.writing.current = d.writing.current ∧ e.medium.writeLimit = d.medium.writeLimit := by
      rw [queues.rest]
      exact ⟨rfl, rfl⟩
    obtain ⟨f, drained, hands, current, -⟩ := sends.sending.matched.drain false
    have after : e.afterWrite d.pos = f := by
      rw [afterWrite, sends.sending.sequential, sends.sending.buffered, drained]
      rfl
    have aside : e.Beside f := by
      have drained_ := (drain_puts e false).beside sends.sending.sequential
      rwa [drained] at drained_
    rw [synced]
    dsimp only
    rw [queued]
    dsimp only
    rw [after]
    have both := sends.trans (hands.sends aside sends.sending)
    rw [List.append_nil] at both
    exact ⟨f, rfl, both, current.trans same.1, hands.limit.trans same.2⟩

/-! Calls that send nothing -/

/-- The device `e` is `d` after something that has no part in writing. -/
structure Unwritten (d e : Device Pipe) : Prop where
  sequential : e.sequential = d.sequential
  writable : e.mode.writable = d.mode.writable
  unbuffered : e.mode.unbuffered = d.mode.unbuffered
  writing : e.writing = d.writing
  written : e.medium.written = d.medium.written
  channel : e.medium.writeChannel = d.medium.writeChannel ∨ e.medium.writeChannel = d.writing.current

private theorem Unwritten.refl (d : Device Pipe) : Unwritten d d := ⟨rfl, rfl, rfl, rfl, rfl, .inl rfl⟩

/-- What is read, where the device is and what it says have no part in writing. -/
private theorem Unwritten.of_parts (d : Device Pipe) (reading : Channels) (pos : Nat) (transaction : Transaction)
    (errorString : String) :
    Unwritten d { d with reading := reading, pos := pos, transaction := transaction, errorString := errorString } :=
  ⟨rfl, rfl, rfl, rfl, rfl, .inl rfl⟩

private theorem Unwritten.told (d : Device Pipe) (errorString : String) :
    Unwritten d { d with errorString := errorString } :=
  .of_parts d d.reading d.pos d.transaction errorString

private theorem Unwritten.sends (unwritten : Unwritten d e) (sending : Sending d) : Sends d e [] := by
  obtain ⟨sequential, writable, unbuffered, writing, written, channel⟩ := unwritten
  refine ⟨⟨⟨?_, ?_⟩, sequential.trans sending.sequential, writable.trans sending.writable, ?_⟩, fun other => ?_⟩
  · rw [writing]
    exact sending.matched.queues
  · rw [writing]
    exact channel.elim (fun same => same.trans sending.matched.channel) id
  · rw [isBuffered, unbuffered]
    exact sending.buffered
  · rw [sentOn, sentOn, unsentOn, unsentOn, writing, Pipe.writtenOn, Pipe.writtenOn, written, Traffic.onChannel_nil,
      List.append_nil]

/-- Reading has no part in writing. -/
private theorem perform_unwritten {action : Action} (reading : action.reads) : Unwritten d (d.perform action).2 := by
  obtain ⟨peeking, -, touches⟩ := perform_touches (d := d) reading
  have left := touches.left
  have medium : (d.perform action).2.medium.written = d.medium.written ∧
      (d.perform action).2.medium.writeChannel = d.medium.writeChannel := by
    refine touches.medium (p := fun m => m.written = d.medium.written ∧ m.writeChannel = d.medium.writeChannel)
      (fun _ _ _ same => same) ?_ ⟨rfl, rfl⟩
    intro held m n same
    obtain ⟨written, channel, -⟩ := m.read_written n
    exact ⟨written.trans same.1, channel.trans same.2⟩
  refine ⟨left.sequential, ?_, ?_, left.writing, medium.1, .inl medium.2⟩
  · rw [left.mode]
  · rw [left.mode]

private theorem ungetByte_unwritten (d : Device Pipe) (b : UInt8) : Unwritten d (d.ungetByte b).2 := by
  rw [ungetByte]
  split
  · exact .told d _
  · split
    · exact .told d _
    · split
      · exact .told d _
      · exact .of_parts d _ _ d.transaction d.errorString

private theorem seek_unwritten (d : Device Pipe) (stream : d.sequential = true) (place : Nat) :
    Unwritten d (d.seek place).2 := by
  rw [Device.seek, if_pos stream]
  split
  · exact .told d _
  · exact .told d _

private theorem startTransaction_unwritten (d : Device Pipe) : Unwritten d d.startTransaction.2 := by
  rw [startTransaction]
  split
  · exact .told d _
  · split
    · exact .told d _
    · exact .of_parts d d.reading d.pos _ d.errorString

private theorem commit_unwritten (d : Device Pipe) : Unwritten d d.commit.2 := by
  rw [commit]
  split
  · exact .told d _
  · exact .of_parts d _ d.pos _ d.errorString
  · exact .of_parts d d.reading d.pos _ d.errorString

private theorem rollback_unwritten (d : Device Pipe) : Unwritten d d.rollback.2 := by
  rw [rollback]
  split
  · exact .told d _
  · exact .of_parts d d.reading _ _ d.errorString
  · exact .of_parts d _ _ _ d.errorString

private theorem selectReading_unwritten (d : Device Pipe) (channel : Nat) :
    Unwritten d (d.selectReading channel).2 := by
  rcases selectReading_eq d channel with ⟨errorString, told⟩ | same | ⟨-, -, chosen⟩
  · rw [told]
    exact .told d _
  · rw [same]
    exact .refl d
  · rw [chosen]
    exact ⟨rfl, rfl, rfl, rfl, rfl, .inr rfl⟩

private theorem push_unwritten (d : Device Pipe) (channel : Nat) (data : Handle) :
    Unwritten d (d.push channel data).2 := by
  rw [push]
  split
  · exact .told d _
  · split
    · exact .told d _
    · exact .of_parts d _ d.pos d.transaction d.errorString

private theorem setText_unwritten (d : Device Pipe) (on : Bool) : Unwritten d (d.setText on).2 := by
  rw [setText]
  split
  · exact .told d _
  · exact ⟨rfl, rfl, rfl, rfl, rfl, .inl rfl⟩

/-- What is done at the other end records nothing. -/
private theorem remote_unwritten (d : Device Pipe) (act : Pipe.Act) : Unwritten d (d.after (.remote act)) := by
  cases act with
  | feed held channel data =>
    show Unwritten d { d with medium := (d.medium.feed held channel data).2 }
    rw [Pipe.feed]
    split <;> exact ⟨rfl, rfl, rfl, rfl, rfl, .inl rfl⟩
  | limitReads limit => exact ⟨rfl, rfl, rfl, rfl, rfl, .inl rfl⟩
  | limitWrites limit => exact ⟨rfl, rfl, rfl, rfl, rfl, .inl rfl⟩
  | closeWriteEnd => exact ⟨rfl, rfl, rfl, rfl, rfl, .inl rfl⟩

/-! Channels -/

private theorem Sending.growWriting (sending : Sending d) (n : Nat) : Sends d (d.growWriting n) [] := by
  have unsent (channel : Nat) : (d.growWriting n).unsentOn channel = d.unsentOn channel := Channels.toList_grow ..
  refine ⟨⟨⟨?_, sending.matched.channel⟩, sending.sequential, sending.writable, sending.buffered⟩, fun channel => ?_⟩
  · exact Channels.forall_grow sending.matched.queues (ChunkQueue.wellFormed_withChunkSize _)
  · rw [sentOn, unsent, Traffic.onChannel_nil, List.append_nil]
    rfl

private theorem Sending.selectWriting (sending : Sending d) (channel : Nat) :
    Sends d (d.selectWriting channel).2 [] := by
  rw [Device.selectWriting]
  split
  · exact (Unwritten.told d _).sends sending
  · next inside =>
    obtain ⟨hands, -⟩ := sending.matched.switchWriting (Nat.not_le.mp inside)
    exact hands.sends ((switchWriting_puts (Nat.not_le.mp inside)).beside sending.sequential) sending

/-! Events -/

private theorem Sending.flush (sending : Sending d) :
    ∃ e, d.flush = (.ok (), e) ∧ Sends d e [] ∧ e.writing.current = d.writing.current ∧
      (d.medium.writeLimit ≠ some 0 → ∀ channel, e.unsentOn channel = []) := by
  obtain ⟨e, flushed, hands, current, emptied⟩ := sending.matched.flushAll
  have beside := (flushAll_puts d).beside sending.sequential
  rw [flushed] at beside
  refine ⟨e, ?_, hands.sends beside sending, current, emptied⟩
  rw [Device.flush, if_neg (by simp [sending.isOpen]), flushed]

/-- What goes out by an event, on the channel that is the current one. -/
def sends (d : Device Pipe) : Event → Traffic
  | .call (.write bytes) => [(d.writing.current, d.outgoing bytes)]
  | .call (.putByte b) => [(d.writing.current, d.outgoing [b])]
  | _ => []

/-- What goes out during a run. -/
def sendsAll (d : Device Pipe) : List Event → Traffic
  | [] => []
  | event :: rest => d.sends event ++ (d.after event).sendsAll rest

/-- The device stays open, and no write is longer than what can be queued at once. -/
def Event.proper : Event → Prop
  | .call .close => False
  | .call (.write bytes) => bytes.length < Word.requestLimit
  | _ => True

private theorem Sending.putByte (sending : Sending d) (b : UInt8) :
    ∃ e, d.putByte b = (.ok true, e) ∧ Sends d e [(d.writing.current, d.outgoing [b])] := by
  obtain ⟨e, wrote, sends, -⟩ := sending.write [b] (show 1 < Word.requestLimit by decide)
  rw [putByte_eq, wrote]
  exact ⟨e, rfl, sends⟩

private theorem Sending.after (sending : Sending d) (event : Event) (proper : event.proper) :
    Sends d (d.after event) (d.sends event) := by
  cases event with
  | remote act => exact (remote_unwritten d act).sends sending
  | hold ids => exact Unwritten.sends ⟨rfl, rfl, rfl, rfl, rfl, .inl rfl⟩ sending
  | call action =>
    show Sends d (d.perform action).2 _
    by_cases reading : action.reads
    · have nothing : d.sends (.call action) = [] := by cases action <;> first | rfl | exact absurd reading not_false
      rw [nothing]
      exact (perform_unwritten reading).sends sending
    · cases action with
      | openWith mode =>
        have refused : d.openWith mode = d.refuse .alreadyOpen "open" := by
          rw [openWith]
          dsimp only
          rw [if_pos sending.isOpen]
        rw [perform, refused]
        exact (Unwritten.told d _).sends sending
      | close => exact absurd proper not_false
      | flush =>
        obtain ⟨e, flushed, sends, -⟩ := sending.flush
        rw [perform, flushed]
        exact sends
      | write bytes =>
        obtain ⟨e, wrote, sends, -⟩ := sending.write bytes proper
        rw [perform, wrote]
        exact sends
      | putByte b =>
        obtain ⟨e, put, sends⟩ := sending.putByte b
        rw [perform, put]
        exact sends
      | ungetByte b => exact (ungetByte_unwritten d b).sends sending
      | seek place => exact (seek_unwritten d sending.sequential place).sends sending
      | reset => exact (seek_unwritten d sending.sequential 0).sends sending
      | startTransaction => exact (startTransaction_unwritten d).sends sending
      | commit => exact (commit_unwritten d).sends sending
      | rollback => exact (rollback_unwritten d).sends sending
      | growReading n => exact (Unwritten.of_parts d _ d.pos d.transaction d.errorString).sends sending
      | growWriting n => exact sending.growWriting n
      | selectReading channel => exact (selectReading_unwritten d channel).sends sending
      | selectWriting channel => exact sending.selectWriting channel
      | push channel data => exact (push_unwritten d channel data).sends sending
      | setText on => exact (setText_unwritten d on).sends sending
      | _ => exact absurd trivial reading

private theorem Sending.afterAll (sending : Sending d) (events : List Event) (proper : ∀ event ∈ events, event.proper) :
    Sends d (d.afterAll events) (d.sendsAll events) := by
  induction events generalizing d with
  | nil => exact ⟨sending, fun _ => (List.append_nil _).symm⟩
  | cons event rest ih =>
    have first := sending.after event (proper event List.mem_cons_self)
    exact first.trans (ih first.sending fun other member => proper other (List.mem_cons_of_mem _ member))

/-! From opening on -/

theorem openWith_pipe {mode : OpenMode} (opened : d.openWith mode = (.ok (), e)) : e = { d with
    medium := { d.medium with readChannel := 0, writeChannel := 0 }
    mode := mode.normalized
    reading := .single d.config.chunkSize
    writing := .single d.config.writeChunkSize
    pos := if mode.normalized.append && !d.sequential then 0 else 0
    mediumPos := 0
    transaction := .idle
    errorString := "" } := by
  rw [openWith] at opened
  dsimp only at opened
  split at opened
  · cases (Prod.mk.inj opened).1
  · split at opened
    · cases (Prod.mk.inj opened).1
    · exact (Prod.mk.inj opened).2.symm

/-- Opening a device over a pipe matches its channels with those of the pipe, with nothing queued. -/
theorem matched_of_openWith {mode : OpenMode} (opened : d.openWith mode = (.ok (), e)) :
    Matched e ∧ ∀ channel, e.unsentOn channel = [] := by
  obtain rfl := openWith_pipe opened
  refine ⟨⟨Channels.forall_single (ChunkQueue.wellFormed_withChunkSize _), rfl⟩, fun channel => ?_⟩
  rw [unsentOn]
  cases channel with
  | zero => exact ChunkQueue.toList_withChunkSize _
  | succ channel => rfl

private theorem Sending.close (sending : Sending d) :
    ∃ e, d.close = (.ok (), e) ∧ (∀ channel, e.sentOn channel = d.sentOn channel) ∧
      (d.medium.writeLimit ≠ some 0 → ∀ channel, e.unsentOn channel = []) := by
  obtain ⟨e, flushed, hands, -, emptied⟩ := sending.matched.flushAll
  rw [Device.close, if_neg (by simp [sending.isOpen]), flushed]
  exact ⟨_, rfl, hands.sent, emptied⟩

/-- What the pipe recorded on each channel, and what is queued there, is what it had recorded before and then `log`.
More can be written at any time, and all that is queued can be flushed. -/
structure Ledger (recorded : Nat → List UInt8) (log : Traffic) (d : Device Pipe) : Prop where
  sent : ∀ channel, (d.medium.writtenOn channel).content ++ d.unsentOn channel = recorded channel ++ log.onChannel channel
  counts : d.bytesToWrite = (d.unsentOn d.writing.current).length
  writes : ∀ bytes, bytes.length < Word.requestLimit → (d.write bytes).1 = .ok bytes.length
  puts : ∀ b, (d.putByte b).1 = .ok true
  flushes : d.flush.1 = .ok () ∧ d.flush.2.writing.current = d.writing.current ∧
    d.flush.2.medium.writeChannel = d.medium.writeChannel
  closes : d.close.1 = .ok ()
  flushed : d.medium.writeLimit ≠ some 0 → ∀ channel, d.flush.2.unsentOn channel = [] ∧
    (d.flush.2.medium.writtenOn channel).content = recorded channel ++ log.onChannel channel
  closed : d.medium.writeLimit ≠ some 0 → ∀ channel, d.close.2.unsentOn channel = [] ∧
    (d.close.2.medium.writtenOn channel).content = recorded channel ++ log.onChannel channel

private theorem Sending.ledger {recorded : Nat → List UInt8} {log : Traffic} (sending : Sending d)
    (sent : ∀ channel, d.sentOn channel = recorded channel ++ log.onChannel channel) : Ledger recorded log d := by
  obtain ⟨e, flushed, flushes, current, emptied⟩ := sending.flush
  obtain ⟨f, closed, closes, emptied'⟩ := sending.close
  have all {g : Device Pipe} {channel : Nat} (same : g.sentOn channel = d.sentOn channel) (none : g.unsentOn channel = []) :
      (g.medium.writtenOn channel).content = recorded channel ++ log.onChannel channel := by
    rw [sent, sentOn, none, List.append_nil] at same
    exact same
  refine ⟨sent, ?_, fun bytes short => ?_, fun b => ?_, ?_, ?_, fun flows channel => ?_, fun flows channel => ?_⟩
  · rw [bytesToWrite, unsentOn_current, sending.matched.wellFormed.counted]
  · obtain ⟨g, wrote, -⟩ := sending.write bytes short
    rw [wrote]
  · obtain ⟨g, put, -⟩ := sending.putByte b
    rw [put]
  · rw [flushed]
    exact ⟨rfl, current, flushes.sending.matched.channel.trans (current.trans sending.matched.channel.symm)⟩
  · rw [closed]
  · have none := emptied flows channel
    have same := flushes.sent channel
    rw [Traffic.onChannel_nil, List.append_nil] at same
    rw [flushed]
    exact ⟨none, all same none⟩
  · have none := emptied' flows channel
    rw [closed]
    exact ⟨none, all (closes channel) none⟩

/-- However a buffered device over a pipe is opened to be written and then used while it is open, and whatever
happens at the other end, all that was written on a channel goes out on that channel, once and in order: what the
pipe has recorded there since opening, and then what is queued there. Writes take all they are given, in lists that
can be queued at all. A flush ends on the channel it started on, and unless the pipe takes nothing a flush or the
end of use leaves nothing queued. -/
theorem writes_reach_channels {mode : OpenMode} (stream : d.sequential = true) (opened : d.openWith mode = (.ok (), e))
    (writable : mode.normalized.writable = true) (buffered : mode.unbuffered = false) (events : List Event)
    (proper : ∀ event ∈ events, event.proper) :
    Ledger (fun channel => (e.medium.writtenOn channel).content) (e.sendsAll events) (e.afterAll events) := by
  obtain ⟨matched, none⟩ := matched_of_openWith opened
  have mode_eq := congrArg Device.mode (openWith_pipe opened)
  have stream_eq := congrArg Device.sequential (openWith_pipe opened)
  have sending : Sending e := by
    refine ⟨matched, stream_eq.trans stream, ?_, ?_⟩
    · rwa [mode_eq]
    · rw [isBuffered, mode_eq]
      exact Bool.not_eq_true' _ ▸ buffered
  have sends := sending.afterAll events proper
  apply sends.sending.ledger
  intro channel
  rw [sends.sent, sentOn, none, List.append_nil]

/-- A pipe opened to be written as text. -/
def textWriter : Device Pipe :=
  ((ofMedium Pipe.empty ⟨4, 1, 2, true⟩).openWith { OpenMode.writeOnly with text := true }).2

/-- Two lines are written on two channels, in text mode and as they are, while the pipe takes two bytes at a time,
nothing, and one byte at a time. -/
def twoLines : List Event :=
  [.call (.growWriting 2), .remote (.limitWrites (some 2)), .call (.write [97, 10]), .remote (.limitWrites (some 0)),
    .call (.selectWriting 1), .call (.setText false), .call (.write [98, 10]), .call .flush, .call (.selectWriting 0),
    .call (.putByte 99), .remote (.limitWrites (some 1))]

theorem writes_reach_channels_twoLines :
    (textWriter.sendsAll twoLines).onChannel 0 = [97, 13, 10, 99] ∧ (textWriter.sendsAll twoLines).onChannel 1 = [98, 10] ∧
      ((textWriter.afterAll twoLines).medium.writtenOn 0).content ++ (textWriter.afterAll twoLines).unsentOn 0 =
        [97, 13, 10, 99] ∧
      (textWriter.afterAll twoLines).bytesToWrite = 2 ∧
      ((textWriter.afterAll twoLines).flush.2.medium.writtenOn 0).content = [97, 13, 10, 99] ∧
      ((textWriter.afterAll twoLines).close.2.medium.writtenOn 1).content = [98, 10] := by
  have opened : (ofMedium Pipe.empty ⟨4, 1, 2, true⟩).openWith { OpenMode.writeOnly with text := true } =
      (.ok (), textWriter) := rfl
  have ledger := writes_reach_channels rfl opened rfl rfl twoLines (by simp [twoLines, Event.proper, Word.requestLimit])
  have flows : (textWriter.afterAll twoLines).medium.writeLimit ≠ some 0 := by decide +kernel
  have none : (textWriter.medium.writtenOn 0).content = [] ∧ (textWriter.medium.writtenOn 1).content = [] := by decide +kernel
  have first : (textWriter.sendsAll twoLines).onChannel 0 = [97, 13, 10, 99] := by decide +kernel
  have second : (textWriter.sendsAll twoLines).onChannel 1 = [98, 10] := by decide +kernel
  refine ⟨first, second, ?_, by decide +kernel, ?_, ?_⟩
  · rw [ledger.sent, none.1, first]
    rfl
  · rw [(ledger.flushed flows 0).2, none.1, first]
    rfl
  · rw [(ledger.closed flows 1).2, none.2, second]
    rfl

end ByteFlow.Device
