import ByteFlow.Proofs.Device.Calls
import ByteFlow.Proofs.Medium.Pipe

/-! What reading calls take off a pipe.
The bytes still to come are those queued and those that wait in the pipe. Every reading call takes some
first part of them, whether it looks, skips or hands bytes out, and a transaction retains what it took. -/
namespace ByteFlow.Device
open Medium

/-- What is still to come. -/
def stream (d : Device Pipe) : List UInt8 := d.unreadQueue ++ d.medium.waiting

/-- What was taken but stays queued, for a transaction to give back. -/
def retained (d : Device Pipe) : List UInt8 := d.readQueue.toList.take d.cursor

/-- All that is queued or waits is counted by a machine word. -/
def Short (d : Device Pipe) : Prop := d.readQueue.length + d.medium.waiting.length ≤ Word.maxValue

/-- The state of a device over a pipe between calls. -/
structure Orderly (d : Device Pipe) : Prop where
  sequential : d.sequential = true
  sound : Source.Sound d.medium
  queues : ∀ q ∈ d.reading.queues, q.WellFormed
  cursor : d.cursor ≤ d.readQueue.length
  fits : d.transaction.Fits d.sequential
  begun : ∀ startPos cursor, d.transaction = .onStream startPos cursor → startPos < Word.modulus
  pos : d.pos < Word.modulus
  channel : d.isOpen = true → d.medium.readChannel = d.reading.current
  possible : d.config.bufferSize < Word.requestLimit

variable {d e : Device Pipe} {before raw s t bytes : List UInt8}

theorem Orderly.wellFormed (orderly : Orderly d) : d.readQueue.WellFormed := orderly.queues _ (Channels.queue_mem _)

theorem Orderly.length_retained (orderly : Orderly d) : d.retained.length = d.cursor := by
  have := orderly.cursor
  rw [orderly.wellFormed.counted] at this
  rw [retained, List.length_take, Nat.min_eq_left this]

theorem Orderly.ready (orderly : Orderly d) : d.Ready d.retained d.stream := by
  refine ⟨⟨d.unreadQueue, orderly.sound, orderly.sequential.symm, orderly.wellFormed, ?_, fun _ => rfl,
    fun random => absurd (orderly.sequential.symm.trans random) (by decide)⟩,
    orderly.length_retained.symm, orderly.fits, orderly.pos⟩
  exact (List.take_append_drop d.cursor d.readQueue.toList).symm

theorem Orderly.short_iff (orderly : Orderly d) :
    d.Short ↔ d.retained.length + d.stream.length ≤ Word.maxValue := by
  have all := congrArg List.length (List.take_append_drop d.cursor d.readQueue.toList)
  rw [List.length_append, ← orderly.wellFormed.counted] at all
  rw [Short, stream, retained, unreadQueue, List.length_append]
  omega

/-- A ready device tells by its queue what it retains and what is to come. -/
private theorem Ready.eq_stream (ready : d.Ready before s) (stream : d.sequential = true) :
    before = d.retained ∧ s = d.stream := by
  obtain ⟨queued, has⟩ := ready.supplies
  refine ⟨?_, ?_⟩
  · rw [retained, has.bytes, ready.cursor, List.take_left]
  · rw [Device.stream, ready.unreadQueue_eq has]
    exact has.streamed stream

/-- The device `e` is `d` after `raw` was taken off the stream. -/
structure Takes (d e : Device Pipe) (raw : List UInt8) : Prop where
  split : d.stream = raw ++ e.stream
  reads : d.Reads e d.retained raw e.stream

private theorem Orderly.takes (orderly : Orderly d) (split : d.stream = raw ++ t) (reads : d.Reads e d.retained raw t) :
    Takes d e raw := by
  obtain ⟨-, rfl⟩ := reads.ready.eq_stream (reads.kin.sequential.trans orderly.sequential)
  exact ⟨split, reads⟩

theorem Orderly.takes_nothing (orderly : Orderly d) (reads : d.Reads e d.retained [] d.stream) : Takes d e [] :=
  orderly.takes rfl reads

theorem Orderly.told (orderly : Orderly d) (errorString : String) : Takes d { d with errorString := errorString } [] := by
  obtain ⟨queued, has⟩ := orderly.ready.supplies
  exact orderly.takes_nothing (orderly.ready.stays (.refl d) has rfl errorString)

namespace Takes

theorem retained (takes : Takes d e raw) (orderly : Orderly d) : e.retained = stay (d.keeps false) d.retained raw :=
  (takes.reads.ready.eq_stream (takes.reads.kin.sequential.trans orderly.sequential)).1.symm

theorem mode (takes : Takes d e raw) : e.mode = d.mode := takes.reads.kin.mode

theorem isOpen (takes : Takes d e raw) : e.isOpen = d.isOpen := by
  rw [Device.isOpen, takes.mode, Device.isOpen]

theorem apart (takes : Takes d e raw) : Pipe.Apart d.medium e.medium := takes.reads.kin.medium

theorem current (takes : Takes d e raw) : e.reading.current = d.reading.current := by
  have reading : e.reading = d.reading.put e.readQueue := takes.reads.kin.reading
  rw [reading]
  rfl

theorem orderly (takes : Takes d e raw) (orderly : Orderly d) : Orderly e := by
  obtain ⟨-, ready, -, kin, transaction⟩ := takes
  obtain ⟨⟨queued, has⟩, cursor, fits, pos⟩ := ready
  have reading : e.reading = d.reading.put e.readQueue := kin.reading
  refine ⟨kin.sequential.trans orderly.sequential, has.sound, fun q member => ?_, ?_, fits, fun startPos place here => ?_,
    pos, fun opened => ?_, ?_⟩
  · rw [reading] at member
    exact Channels.forall_put orderly.queues has.wellFormed q member
  · rw [cursor, has.length_readQueue]
    exact Nat.le_add_right ..
  · cases at_ : d.transaction with
    | onStream start cursor =>
      rw [transaction, at_] at here
      obtain ⟨rfl, -⟩ : start = startPos ∧ _ := by simpa [Transaction.upTo] using here
      exact orderly.begun start cursor at_
    | idle =>
      rw [transaction, at_] at here
      cases here
    | onRandomAccess start =>
      rw [transaction, at_] at here
      cases here
  · have mode : e.mode = d.mode := kin.mode
    have apart : Pipe.Apart d.medium e.medium := kin.medium
    rw [Device.isOpen, mode] at opened
    rw [apart.readChannel, orderly.channel opened, reading]
    rfl
  · have config : e.config = d.config := kin.config
    rw [config]
    exact orderly.possible

end Takes

/-- A reading call takes the first bytes to come, and shows them. -/
theorem Orderly.draws (orderly : Orderly d) (short : d.Short) {action : Action} (reading : action.reads) :
    ∃ raw, Takes d (d.perform action).2 raw ∧ (d.isText = false → Shows action raw (d.perform action).1) := by
  rcases perform_draws orderly.ready (orderly.short_iff.mp short) orderly.possible reading with
    ⟨raw, t, split, reads, shows⟩ | ⟨raw, t, looks, shows⟩
  · exact ⟨raw, orderly.takes split reads, shows⟩
  · obtain rfl := looks.same fun random => absurd (orderly.sequential.symm.trans random) (by decide)
    exact ⟨[], orderly.takes_nothing looks.reads, fun _ => shows⟩

/-! Later calls -/

/-- From a pipe that gives nothing there is just what is queued to come. -/
theorem Orderly.ready_blocked (orderly : Orderly d) (blocked : d.medium.readLimit = some 0) :
    @Ready Pipe _ Pipe.blocked d d.retained d.unreadQueue := by
  let := Pipe.blocked
  refine ⟨⟨d.unreadQueue, ⟨orderly.sound, blocked⟩, orderly.sequential.symm, orderly.wellFormed, ?_, fun _ => ?_,
    fun random => absurd (orderly.sequential.symm.trans random) (by decide)⟩,
    orderly.length_retained.symm, orderly.fits, orderly.pos⟩
  · exact (List.take_append_drop d.cursor d.readQueue.toList).symm
  · exact (List.append_nil _).symm

/-- All that later calls will give is `s`: none fails, and what they give together is a first part of it, as
text mode shows it, with the rest to come. -/
def Replays (d : Device Pipe) (s : List UInt8) : Prop :=
  ∀ actions : List Action, (∀ action ∈ actions, ∃ n, action.asks = some n ∧ 0 < n) →
    ∃ (results : List (List UInt8)) (raw : List UInt8),
      (d.performAll actions).1.map (Except.map Reply.content) = results.map .ok ∧
      results.flatten = shown d.isText raw ∧ s = raw ++ (d.performAll actions).2.stream

theorem Orderly.replays (orderly : Orderly d) (short : d.Short) (able : d.readObstacle? = none) : d.Replays d.stream := by
  intro actions asks
  have few := orderly.short_iff.mp short
  by_cases blocked : d.medium.readLimit = some 0
  · have fewer : d.retained.length + d.unreadQueue.length ≤ Word.maxValue := by
      rw [stream, List.length_append] at few
      omega
    have ready := orderly.ready_blocked blocked
    let := Pipe.blocked
    obtain ⟨results, raw, t, room, ok, portion, -, -, reads⟩ :=
      performAll_delivers ready able fewer orderly.possible trivial actions asks
    refine ⟨results, raw, ok, portion.shows fun _ => trivial, ?_⟩
    have split := portion.split
    have waits : (d.performAll actions).2.medium.waiting = d.medium.waiting := reads.kin.medium.2
    obtain ⟨queued, has⟩ := reads.ready.supplies
    have left : t = queued ++ [] := has.streamed (reads.kin.sequential.trans orderly.sequential)
    rw [stream, stream, waits, reads.ready.unreadQueue_eq has, split, left, List.append_nil, List.append_assoc]
  · obtain ⟨results, raw, t, room, ok, portion, -, -, reads⟩ :=
      performAll_delivers orderly.ready able few orderly.possible blocked actions asks
    refine ⟨results, raw, ok, portion.shows fun _ => blocked, ?_⟩
    rw [← (reads.ready.eq_stream (reads.kin.sequential.trans orderly.sequential)).2]
    exact portion.split

end ByteFlow.Device
