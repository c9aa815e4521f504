import ByteFlow.Proofs.Device.Intake

/-! What happens to a device over a pipe.
Its holder calls it and keeps handles, while at the pipe's other end channels are fed. Feeding adds to
what is to come; calls that choose or add channels take nothing. -/
namespace ByteFlow.Device
open Medium

inductive Event where
  | call (action : Action)
  /-- Something is done at the other end. -/
  | remote (act : Pipe.Act)
  /-- Handles with these storages are held outside from now on. -/
  | hold (ids : List StorageId)

/-- The device after an event. -/
def after (d : Device Pipe) : Event → Device Pipe
  | .call action => (d.perform action).2
  | .remote act => { d with medium := d.medium.act act }
  | .hold ids => { d with outside := ids }

def afterAll (d : Device Pipe) (events : List Event) : Device Pipe := events.foldl after d

/-- What the pipe is fed by an event. -/
def feeds (d : Device Pipe) : Event → Traffic
  | .remote act => d.medium.accepts act
  | _ => []

/-- What the pipe is fed during a run. -/
def fed (d : Device Pipe) : List Event → Traffic
  | [] => []
  | event :: rest => d.feeds event ++ (d.after event).fed rest

/-- What is queued on a read channel. -/
def queuedOn (d : Device Pipe) (channel : Nat) : List UInt8 :=
  ((d.reading.queues[channel]?).map ChunkQueue.toList).getD []

variable {d e : Device Pipe} {raw : List UInt8}

theorem feeds_call (d : Device Pipe) (action : Action) : d.feeds (.call action) = [] := rfl

theorem feeds_hold (d : Device Pipe) (ids : List StorageId) : d.feeds (.hold ids) = [] := rfl

private theorem queuedOn_current (d : Device Pipe) : d.queuedOn d.reading.current = d.readQueue.toList := by
  rw [queuedOn, Channels.getElem?_current]
  rfl

private theorem queuedOn_put (d : Device Pipe) (q : ChunkQueue) {channel : Nat} (other : channel ≠ d.reading.current) :
    (((d.reading.put q).queues[channel]?).map ChunkQueue.toList).getD [] = d.queuedOn channel := by
  rw [queuedOn, Channels.put, List.getElem?_set_ne (Ne.symm other)]

/-- Taking from the stream leaves the other channels alone. -/
theorem Takes.queuedOn (takes : Takes d e raw) {channel : Nat} (other : channel ≠ d.reading.current) :
    e.queuedOn channel = d.queuedOn channel := by
  have reading : e.reading = d.reading.put e.readQueue := takes.reads.kin.reading
  rw [← queuedOn_put d e.readQueue other, ← reading]
  rfl

theorem Takes.waitingOn (takes : Takes d e raw) {channel : Nat} (other : channel ≠ d.medium.readChannel) :
    e.medium.waitingOn channel = d.medium.waitingOn channel := by
  rw [Pipe.waitingOn, Pipe.waitingOn, takes.apart.others channel other]

/-- An open device tells how much of the stream there is. -/
theorem Orderly.bytesAvailable (orderly : Orderly d) (opened : d.isOpen = true) : d.bytesAvailable = d.stream.length := by
  have cursor := orderly.cursor
  rw [orderly.wellFormed.counted] at cursor
  rw [Device.bytesAvailable, if_neg (by simp [opened])]
  dsimp only
  rw [if_pos orderly.sequential, orderly.wellFormed.counted, Pipe.available_eq orderly.sound, stream, unreadQueue,
    List.length_append, List.length_drop]

/-- Outside a transaction the stream is what is queued and waits on the current channel. -/
theorem Orderly.stream_eq (orderly : Orderly d) (opened : d.isOpen = true) (idle : d.transaction = .idle) :
    d.stream = d.queuedOn d.reading.current ++ d.medium.waitingOn d.reading.current := by
  rw [queuedOn_current, stream, unreadQueue, Device.cursor, idle, Pipe.waiting_eq, orderly.channel opened]
  rfl

/-! Opening -/

theorem orderly_ofMedium {p : Pipe} (sound : Source.Sound p) {config : Config}
    (possible : config.bufferSize < Word.requestLimit) :
    Orderly (ofMedium p config) := by
  refine ⟨rfl, sound, Channels.forall_single (ChunkQueue.wellFormed_withChunkSize _), Nat.zero_le _, trivial, ?_,
    Nat.two_pow_pos 64, fun opened => absurd opened Bool.false_ne_true, bufferSize_normalize possible⟩
  rintro _ _ ⟨⟩

theorem Orderly.openWith (orderly : Orderly d) (mode : OpenMode) : Orderly (d.openWith mode).2 := by
  rw [Device.openWith]
  dsimp only
  split
  · exact (orderly.told _).orderly orderly
  · split
    · exact (orderly.told _).orderly orderly
    · refine ⟨orderly.sequential, orderly.sound, Channels.forall_single (ChunkQueue.wellFormed_withChunkSize _),
        Nat.zero_le _, trivial, ?_, ?_, fun _ => rfl, orderly.possible⟩
      · rintro _ _ ⟨⟩
      · rw [orderly.sequential, Bool.not_true, Bool.and_false]
        exact Nat.two_pow_pos 64

/-! Events that take nothing -/

theorem Orderly.remote (orderly : Orderly d) (act : Pipe.Act) : Orderly (d.after (.remote act)) := by
  obtain ⟨sound, -, channel⟩ := Pipe.act_spec orderly.sound act
  exact { orderly with sound := sound, channel := fun opened => channel.trans (orderly.channel opened) }

theorem stream_remote (orderly : Orderly d) (opened : d.isOpen = true) (act : Pipe.Act) :
    (d.after (.remote act)).stream = d.stream ++ (d.medium.accepts act).onChannel d.reading.current := by
  obtain ⟨-, waits, channel⟩ := Pipe.act_spec orderly.sound act
  show d.unreadQueue ++ (d.medium.act act).waiting = _
  rw [Pipe.waiting_eq, channel, waits, orderly.channel opened, stream, Pipe.waiting_eq, orderly.channel opened,
    List.append_assoc]

theorem Orderly.hold (orderly : Orderly d) (ids : List StorageId) : Orderly (d.after (.hold ids)) :=
  { orderly with }

theorem Orderly.growReading (orderly : Orderly d) (n : Nat) : Orderly (d.growReading n) := by
  have same : (d.growReading n).readQueue = d.readQueue := Channels.queue_grow ..
  have queues := Channels.forall_grow (n := n) orderly.queues (ChunkQueue.wellFormed_withChunkSize d.config.chunkSize)
  exact { orderly with queues := queues, cursor := same ▸ orderly.cursor }

/-- New channels are empty. -/
theorem Channels.toList_grow (c : Channels) (n chunkSize channel : Nat) :
    (((c.grow n chunkSize).queues[channel]?).map ChunkQueue.toList).getD [] =
      ((c.queues[channel]?).map ChunkQueue.toList).getD [] := by
  rw [Channels.grow]
  by_cases inside : channel < c.queues.length
  · rw [List.getElem?_append_left inside]
  · rw [List.getElem?_append_right (Nat.not_lt.mp inside), List.getElem?_replicate,
      List.getElem?_eq_none (Nat.not_lt.mp inside)]
    split
    · exact ChunkQueue.toList_withChunkSize _
    · rfl

theorem queuedOn_growReading (d : Device Pipe) (n channel : Nat) : (d.growReading n).queuedOn channel = d.queuedOn channel :=
  Channels.toList_grow ..

/-- Outside a transaction a channel that exists is chosen for the device and for the pipe. -/
theorem selectReading_eq (d : Device Pipe) (channel : Nat) :
    (∃ errorString, (d.selectReading channel).2 = { d with errorString := errorString }) ∨
      (d.selectReading channel).2 = d ∨
        d.transaction = .idle ∧ channel < d.reading.count ∧ (d.selectReading channel).2 =
          { d with reading := d.reading.select channel, medium := Medium.select d.medium channel d.writing.current } := by
  rw [selectReading]
  split
  · exact .inl ⟨_, rfl⟩
  · next outside =>
    have idle : d.transaction = .idle := by simpa [inTransaction] using outside
    split
    · exact .inl ⟨_, rfl⟩
    · next inside =>
      split
      · exact .inr (.inl rfl)
      · exact .inr (.inr ⟨idle, Nat.not_le.mp inside, rfl⟩)

theorem Orderly.selectReading (orderly : Orderly d) (channel : Nat) : Orderly (d.selectReading channel).2 := by
  rcases selectReading_eq d channel with ⟨errorString, told⟩ | same | ⟨idle, inside, chosen⟩
  · rw [told]
    exact (orderly.told errorString).orderly orderly
  · rwa [same]
  · have start : d.cursor = 0 := by rw [Device.cursor, idle]
    rw [chosen]
    exact { orderly with
      queues := (Channels.queues_select d.reading channel).symm ▸ orderly.queues
      cursor := start.trans_le (Nat.zero_le _)
      channel := fun _ => (Channels.current_select inside).symm }

end ByteFlow.Device
