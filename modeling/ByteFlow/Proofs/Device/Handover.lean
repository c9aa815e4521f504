import ByteFlow.Proofs.ChunkQueue.Handover
import ByteFlow.Proofs.Device.Upkeep

/-! Handles that are pushed to a stream are read uncopied and in turn.
A read of as many bytes as the oldest of them has takes that chunk and moves the position behind it; the medium is
not asked. -/
namespace ByteFlow.Device
open Medium

variable {σ : Type} {d : Device σ} {channel : Nat} {unread : List Handle} {b : Handle}

/-- What a call does in a hand-over through a channel. -/
def Action.role (channel : Nat) : Action → Role
  | .push c b => if c = channel then .give b else .other
  | .read n => .takeBytes n
  | _ => .other

/-- The handle that is taken with an answer. -/
def Reply.taken : Reply → List Handle
  | .handle h => h.taken
  | _ => []

/-- Where the position is after these handles. -/
def pastHandles (pos : Nat) (handles : List Handle) : Nat := (handles.map Handle.length).foldl Word.addWrapped pos

private theorem pastHandles_append (pos : Nat) (first second : List Handle) :
    pastHandles pos (first ++ second) = pastHandles (pastHandles pos first) second := by
  simp [pastHandles]

/-- A stream that can be read, byte for byte and outside a transaction, from a channel where these handles wait. -/
structure Relays (d : Device σ) (channel : Nat) (unread : List Handle) : Prop where
  able : d.readObstacle? = none
  stream : d.sequential = true
  plain : d.isText = false
  idle : d.inTransaction = false
  here : d.reading.current = channel
  carries : d.readQueue.Carries unread

variable [Medium σ]

private theorem Relays.push (relays : d.Relays channel unread) (some : 0 < b.length) :
    ∃ e, d.push channel b = (.ok (), e) ∧ e.Relays channel (unread ++ [b]) ∧ e.pos = d.pos := by
  obtain ⟨able, stream, plain, idle, here, carries⟩ := relays
  have inside : channel < d.reading.count := here ▸ d.reading.inside
  have pushed : d.push channel b = (.ok (), { d with
      reading := d.reading.change channel (ChunkQueue.append (d.heldBesideReading channel) b) }) := by
    simp [Device.push, stream, Nat.not_le.mpr inside]
  have grown : (d.reading.change channel (ChunkQueue.append (d.heldBesideReading channel) b)).queue.Carries
      (unread ++ [b]) := by
    rw [Channels.queue_change, if_pos here.symm]
    exact carries.append some _
  exact ⟨_, pushed, ⟨able, stream, plain, idle, here, grown⟩, rfl⟩

private theorem Relays.read (relays : d.Relays channel (b :: unread)) :
    ∃ h e, d.read b.length = (.ok h, e) ∧ b.Uncopied h ∧ e.Relays channel unread ∧ e.pos = Word.addWrapped d.pos h.length := by
  obtain ⟨able, stream, plain, idle, here, carries⟩ := relays
  obtain ⟨some, -, front⟩ := carries.first
  obtain ⟨uncopied, left⟩ := carries.readChunk
  have whole : b.length = d.readQueue.front.length := by simp [front]
  have read : d.read b.length = (.ok d.readQueue.readChunk.1, { d with
      reading := d.reading.put d.readQueue.readChunk.2
      pos := Word.addWrapped d.pos d.readQueue.readChunk.1.length }) := by
    simp [Device.read, able, idle, plain, ← whole, Nat.ne_of_gt some]
  have carries' : (d.reading.put d.readQueue.readChunk.2).queue.Carries unread := by
    rw [Channels.queue_put]
    exact left
  exact ⟨_, _, read, uncopied, ⟨able, stream, plain, idle, here, carries'⟩, rfl⟩

/-- A call that hands over does not fail. -/
private theorem Relays.perform (relays : d.Relays channel unread) (action : Action) (rest : List Role)
    (legal : HandsOver unread (action.role channel :: rest)) :
    ∃ reply left, (d.perform action).1 = .ok reply ∧ Hands unread (action.role channel) reply.taken left ∧
      (d.perform action).2.Relays channel left ∧ (d.perform action).2.pos = pastHandles d.pos reply.taken := by
  cases action with
  | push c b =>
    simp only [Action.role] at legal ⊢
    split at legal
    · next same =>
      subst same
      obtain ⟨some, -⟩ := legal
      obtain ⟨e, pushed, relays', still⟩ := relays.push some
      rw [Device.perform, pushed, if_pos rfl]
      exact ⟨.done, unread ++ [b], rfl, .give b, relays', still⟩
    · cases legal
  | read n =>
    cases unread with
    | nil => cases legal.1
    | cons b unread =>
      obtain ⟨whole, -⟩ := legal
      obtain rfl : b.length = n := Option.some.inj whole
      obtain ⟨h, e, read, uncopied, relays', moved⟩ := relays.read
      have taken : (Reply.handle h).taken = [h] := uncopied.taken relays.carries.first.1
      rw [Device.perform, read]
      refine ⟨.handle h, unread, rfl, ?_, relays', ?_⟩
      · rw [taken]
        exact .bytes uncopied
      · rw [taken]
        exact moved
  | _ => cases legal

private theorem Relays.performAll (relays : d.Relays channel unread) (actions : List Action)
    (legal : HandsOver unread (actions.map (Action.role channel))) :
    ∃ outs left, (d.performAll actions).1.map (Except.map Reply.taken) = outs.map .ok ∧
      HandsAll unread (actions.map (Action.role channel)) outs left ∧ (d.performAll actions).2.Relays channel left ∧
      (d.performAll actions).2.pos = pastHandles d.pos outs.flatten := by
  induction actions generalizing d unread with
  | nil => exact ⟨[], unread, rfl, .nil, relays, rfl⟩
  | cons action actions ih =>
    obtain ⟨reply, mid, answered, hands, relays', moved⟩ := relays.perform action _ legal
    obtain ⟨outs, left, answers, rest, last, end'⟩ := ih relays' (legal.rest hands)
    refine ⟨reply.taken :: outs, left, ?_, .cons hands rest, last, ?_⟩
    · simp [Device.performAll, answered, answers]
      rfl
    · simp only [Device.performAll, end', moved, List.flatten_cons, pastHandles_append]

/-- Over any medium, and whatever was done before, a stream whose channel is drained passes on the handles that are
pushed to it, as a drained queue does those that are appended. -/
theorem handles_pass_in_turn :
    (∀ (chunkSize : Nat) (script actions : List ChunkQueue.Action) (s : ChunkQueue.Session),
      s = ((ChunkQueue.Session.start chunkSize).run script).2 → s.queue.length = 0 →
      HandsOver [] (actions.map ChunkQueue.Action.role) →
        (s.run actions).2.queue.PassesOn (actions.map ChunkQueue.Action.role)
          ((s.run actions).1.map ChunkQueue.Reply.taken)) ∧
    ∀ (σ : Type) [Medium σ] (m : σ) (config : Config) (script : List (Deed σ)) (actions : List Action) (d : Device σ),
      d = ((ofMedium m config).doesAll script).2 → d.readObstacle? = none → d.sequential = true → d.isText = false →
      d.inTransaction = false → d.readQueue.length = 0 → HandsOver [] (actions.map (Action.role d.reading.current)) →
        ∃ outs, (d.performAll actions).1.map (Except.map Reply.taken) = outs.map .ok ∧
          (d.performAll actions).2.readQueue.PassesOn (actions.map (Action.role d.reading.current)) outs ∧
          (d.performAll actions).2.pos = pastHandles d.pos outs.flatten := by
  constructor
  · rintro chunkSize script actions s rfl drained legal
    exact ChunkQueue.Session.run_passesOn chunkSize script actions drained legal
  · rintro σ _ m config script actions d rfl able stream plain idle drained legal
    have queues := doesAll_queues (d := ofMedium m config) script
      (Channels.forall_single (ChunkQueue.wellFormed_withChunkSize _))
    have wf := queues _ (Channels.queue_mem _)
    obtain ⟨outs, left, answers, hands, relays, moved⟩ :=
      Relays.performAll ⟨able, stream, plain, idle, rfl, wf.carries drained⟩ actions legal
    exact ⟨outs, answers, relays.carries.passesOn hands, moved⟩

/-- Handles for a queue, of which the caller keeps the first one. -/
def appended : List ChunkQueue.Action :=
  [.append (Handle.ofFixed [] [1, 2]) true, .append (Handle.ofList [] [3]) false, .readHandle 2,
    .append (Handle.ofFixed [] [4, 5, 6]) false, .readChunk]

/-- A pipe of which three bytes were filled and taken, so that its channel has a spare chunk. -/
def relayed : Device Pipe :=
  ((ofMedium Pipe.empty ⟨4, 4, 0, false⟩).doesAll
    [.work (fun p => p.act (.feed [] 0 (Handle.ofFixed [] [7, 8, 9]))), .call (.openWith .readOnly), .call .getByte,
      .call (.skip 2)]).2

/-- Handles for its channel. -/
def passedOn : List Action := [.push 0 (Handle.ofFixed [] [1, 2]), .push 0 (Handle.ofList [] [3]), .read 2]

theorem handles_pass_in_turn_spare :
    (∃ s, s = ((ChunkQueue.Session.start 4).run [.appendBytes [7, 8, 9], .skip 3]).2 ∧
      s.queue.chunks.map Handle.length = [4] ∧
      (s.run appended).2.queue.PassesOn
        [.give (Handle.ofFixed [] [1, 2]), .give (Handle.ofList [] [3]), .takeBytes 2, .give (Handle.ofFixed [] [4, 5, 6]),
          .takeChunk]
        ((s.run appended).1.map ChunkQueue.Reply.taken)) ∧
    relayed.readQueue.chunks.map Handle.length = [4] ∧
      ∃ outs, (relayed.performAll passedOn).1.map (Except.map Reply.taken) = outs.map .ok ∧
        (relayed.performAll passedOn).2.readQueue.PassesOn
          [.give (Handle.ofFixed [] [1, 2]), .give (Handle.ofList [] [3]), .takeBytes 2] outs ∧
        (relayed.performAll passedOn).2.pos = pastHandles 3 outs.flatten := by
  refine ⟨⟨_, rfl, by decide +kernel, ?queue⟩, by decide +kernel, ?device⟩
  case queue =>
    exact handles_pass_in_turn.1 4 [.appendBytes [7, 8, 9], .skip 3] appended _ rfl (by decide +kernel) (by decide +kernel)
  case device =>
    have pos : relayed.pos = 3 := by decide +kernel
    have here : relayed.reading.current = 0 := by decide +kernel
    have passes := handles_pass_in_turn.2 Pipe Pipe.empty ⟨4, 4, 0, false⟩ _ passedOn relayed rfl (by decide +kernel)
      (by decide +kernel) (by decide +kernel) (by decide +kernel) (by decide +kernel) (by decide +kernel)
    rw [pos, here] at passes
    exact passes

end ByteFlow.Device
