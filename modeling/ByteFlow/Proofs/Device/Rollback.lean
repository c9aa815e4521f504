import ByteFlow.Proofs.Device.Reached

/-! Transactions over a pipe give back exactly what they read.
Whatever is read, looked at or skipped in a transaction stays queued before a cursor, and what is fed
meanwhile comes behind it: all there ever was stays there, in its order. -/
namespace ByteFlow.Device
open Medium

/-- The events within a transaction: calls that read, bytes put back and channels chosen, which is refused,
and text mode switched on or off. -/
def Event.within : Event → Prop
  | .call action => action.reads ∨ (∃ b, action = .ungetByte b) ∨ (∃ channel, action = .selectReading channel) ∨
      ∃ on, action = .setText on
  | .remote _ | .hold _ => True

/-- A transaction that began at a position with `start` to come, before `fed` was fed. -/
structure Spans (d : Device Pipe) (startPos : Nat) (start : List UInt8) (channel : Nat) (fed : List UInt8) : Prop where
  orderly : Orderly d
  able : d.readObstacle? = none
  current : d.reading.current = channel
  transaction : d.transaction = .onStream startPos d.cursor
  all : d.retained ++ d.stream = start ++ fed
  pos : d.pos = Word.addWrapped startPos d.cursor

variable {d e : Device Pipe} {startPos channel : Nat} {start fed raw : List UInt8}

/-- Text mode does not decide whether the device may be read. -/
private theorem readObstacle?_text (able : d.readObstacle? = none) (on : Bool) :
    readObstacle? { d with mode := { d.mode with text := on } } = none := by
  have opened := isOpen_of_able able
  have readable : d.mode.readable = true := by
    cases readable : d.mode.readable with
    | true => rfl
    | false =>
      rw [readObstacle?, opened, readable] at able
      cases able
  have still : Device.isOpen { d with mode := { d.mode with text := on } } = true := by
    simp [Device.isOpen, OpenMode.isEmpty, OpenMode.closed, readable]
  rw [readObstacle?, still]
  dsimp only
  rw [readable]
  rfl

private theorem begin_spans (orderly : Orderly d) (able : d.readObstacle? = none) (idle : d.transaction = .idle) :
    ∃ e, d.startTransaction = (.ok (), e) ∧ Spans e d.pos d.stream d.reading.current [] := by
  have begun := orderly.startTransaction
  rw [startTransaction, inTransaction, isOpen_of_able able, idle, if_neg (by decide), if_neg (by decide),
    if_pos orderly.sequential] at begun ⊢
  refine ⟨_, rfl, begun, able, rfl, rfl, ?_, ?_⟩
  · rw [List.append_nil, retained, Device.stream, Device.stream, unreadQueue, unreadQueue, Device.cursor, Device.cursor, idle]
    rfl
  · exact (Word.addWrapped_zero orderly.pos).symm

namespace Spans

private theorem inTransaction (spans : Spans d startPos start channel fed) : d.inTransaction = true := by
  rw [Device.inTransaction, spans.transaction]
  rfl

private theorem keeps (spans : Spans d startPos start channel fed) : d.keeps false = true := by
  rw [Device.keeps, if_pos spans.orderly.sequential, spans.inTransaction]
  rfl

private theorem short (spans : Spans d startPos start channel fed) (small : start.length + fed.length ≤ Word.maxValue) :
    d.Short := by
  have all := congrArg List.length spans.all
  rw [List.length_append, List.length_append] at all
  rw [spans.orderly.short_iff, all]
  exact small

/-- What is taken stays before the cursor. -/
private theorem takes (spans : Spans d startPos start channel fed) (takes : Takes d e raw) :
    Spans e startPos start channel fed := by
  have orderly := takes.orderly spans.orderly
  have retained := takes.retained spans.orderly
  rw [spans.keeps, stay, if_pos rfl] at retained
  have moved : e.cursor = d.cursor + raw.length := by
    rw [← orderly.length_retained, retained, List.length_append, spans.orderly.length_retained]
  refine ⟨orderly, takes.reads.readObstacle?.trans spans.able, takes.current.trans spans.current, ?_, ?_, ?_⟩
  · rw [takes.reads.transaction, spans.transaction]
    rfl
  · rw [retained, List.append_assoc, ← takes.split, spans.all]
  · rw [takes.reads.pos, spans.pos, moved, Word.addWrapped_addWrapped]

/-- What is fed comes behind all else. -/
private theorem remote (spans : Spans d startPos start channel fed) (act : Pipe.Act) :
    Spans (d.after (.remote act)) startPos start channel (fed ++ (d.medium.accepts act).onChannel channel) := by
  refine { spans with orderly := spans.orderly.remote act, all := ?_ }
  rw [stream_remote spans.orderly (isOpen_of_able spans.able), ← List.append_assoc, ← List.append_assoc, ← spans.all,
    spans.current]
  rfl

private theorem setText (spans : Spans d startPos start channel fed) (on : Bool) :
    Spans (d.setText on).2 startPos start channel fed := by
  have orderly := spans.orderly.setText on
  have opened := isOpen_of_able spans.able
  rw [Device.setText, if_neg (by simp [opened])] at orderly ⊢
  exact { spans with orderly := orderly, able := readObstacle?_text spans.able on }

private theorem refused_unget (spans : Spans d startPos start channel fed) (b : UInt8) :
    d.ungetByte b = d.refuse .transactionActive "unget_char" := by
  rw [ungetByte, spans.able]
  dsimp only
  rw [if_pos spans.inTransaction]

private theorem refused_select (spans : Spans d startPos start channel fed) (other : Nat) :
    d.selectReading other = d.refuse .transactionActive "set_current_read_channel" := by
  rw [selectReading, if_pos spans.inTransaction]

private theorem after (spans : Spans d startPos start channel fed) {event : Event} (within : event.within)
    (small : start.length + fed.length ≤ Word.maxValue) :
    Spans (d.after event) startPos start channel (fed ++ (d.feeds event).onChannel channel) := by
  cases event with
  | remote act => exact spans.remote act
  | hold ids =>
    rw [feeds_hold, Traffic.onChannel_nil, List.append_nil]
    exact { spans with orderly := spans.orderly.hold ids }
  | call action =>
    rw [feeds_call, Traffic.onChannel_nil, List.append_nil]
    rcases within with reads | ⟨b, rfl⟩ | ⟨other, rfl⟩ | ⟨on, rfl⟩
    · obtain ⟨raw, takes, -⟩ := spans.orderly.draws (spans.short small) reads
      exact spans.takes takes
    · show Spans (d.ungetByte b).2 _ _ _ _
      rw [spans.refused_unget]
      exact spans.takes (spans.orderly.told _)
    · show Spans (d.selectReading other).2 _ _ _ _
      rw [spans.refused_select]
      exact spans.takes (spans.orderly.told _)
    · exact spans.setText on

private theorem afterAll (spans : Spans d startPos start channel fed) (events : List Event)
    (within : ∀ event ∈ events, event.within)
    (small : start.length + (fed ++ (d.fed events).onChannel channel).length ≤ Word.maxValue) :
    Spans (d.afterAll events) startPos start channel (fed ++ (d.fed events).onChannel channel) := by
  induction events generalizing d fed with
  | nil =>
    rw [Device.fed, Traffic.onChannel_nil, List.append_nil]
    exact spans
  | cons event rest ih =>
    rw [Device.fed, Traffic.onChannel_append, ← List.append_assoc] at small ⊢
    refine ih (spans.after (within event List.mem_cons_self) ?_)
      (fun other member => within other (List.mem_cons_of_mem _ member)) small
    rw [List.length_append, List.length_append] at small
    omega

private theorem rollback (spans : Spans d startPos start channel fed) :
    ∃ e, d.rollback = (.ok (), e) ∧ e.pos = startPos ∧ e.stream = start ++ fed ∧ e.transaction = .idle ∧ Orderly e ∧
      e.mode = d.mode := by
  have orderly := spans.orderly.rollback
  rw [Device.rollback, spans.transaction] at orderly ⊢
  refine ⟨_, rfl, rfl, ?_, rfl, orderly, rfl⟩
  have back := stream_settled d d.readQueue startPos
  rw [readQueue, Channels.put_queue] at back
  rw [back, ← spans.all, retained, stream, ← List.append_assoc, unreadQueue, List.take_append_drop]
  rfl

private theorem commit (spans : Spans d startPos start channel fed)
    (small : start.length + fed.length ≤ Word.maxValue) :
    ∃ e, d.commit = (.ok (), e) ∧ e.pos = d.pos ∧ e.transaction = .idle ∧
      Word.distance startPos e.pos ≤ (start ++ fed).length ∧
      e.stream = (start ++ fed).drop (Word.distance startPos e.pos) := by
  have cursor := spans.orderly.length_retained
  have all := congrArg List.length spans.all
  rw [List.length_append, List.length_append, cursor] at all
  have large := Word.maxValue_lt_modulus
  have passed : Word.distance startPos d.pos = d.cursor := by
    rw [spans.pos]
    exact Word.distance_addWrapped (spans.orderly.begun _ _ spans.transaction) (by omega)
  rw [Device.commit, spans.transaction]
  refine ⟨_, rfl, rfl, rfl, ?_, ?_⟩
  · show Word.distance startPos d.pos ≤ _
    rw [passed, List.length_append]
    omega
  · show _ = (start ++ fed).drop (Word.distance startPos d.pos)
    obtain ⟨-, left, -⟩ := ChunkQueue.free_spec spans.orderly.wellFormed d.cursor
    rw [passed, ← spans.all, List.drop_left' cursor, stream_settled, left]
    rfl

end Spans

/-- In whatever state a pipe is opened and read, a transaction on it refuses to put bytes back and to choose
another channel. Rolled back, it leaves the position and all that was to come before it, with what was fed
meanwhile behind that, and later calls give it all again. Committed, it leaves the same without its first
bytes, as many as the position has moved by. -/
theorem transaction_exact {config : Config} (possible : config.bufferSize < Word.requestLimit) {d : Device Pipe}
    (reached : Reached config d) (able : d.readObstacle? = none) (idle : d.transaction = .idle) (events : List Event)
    (within : ∀ event ∈ events, event.within) :
    ∃ e, d.startTransaction = (.ok (), e) ∧
      ∀ fed, fed = (e.fed events).onChannel d.reading.current → d.stream.length + fed.length ≤ Word.maxValue →
        (∀ b, (e.afterAll events).ungetByte b = (e.afterAll events).refuse .transactionActive "unget_char") ∧
        (∀ channel, (e.afterAll events).selectReading channel =
          (e.afterAll events).refuse .transactionActive "set_current_read_channel") ∧
        (∃ back, (e.afterAll events).rollback = (.ok (), back) ∧ back.transaction = .idle ∧ back.pos = d.pos ∧
          back.stream = d.stream ++ fed ∧ back.bytesAvailable = d.bytesAvailable + fed.length ∧
          back.Replays (d.stream ++ fed)) ∧
        ∃ kept, (e.afterAll events).commit = (.ok (), kept) ∧ kept.transaction = .idle ∧
          kept.pos = (e.afterAll events).pos ∧ Word.distance d.pos kept.pos ≤ (d.stream ++ fed).length ∧
          kept.stream = (d.stream ++ fed).drop (Word.distance d.pos kept.pos) := by
  have orderly := reached.orderly possible
  obtain ⟨e, begun, spans⟩ := begin_spans orderly able idle
  refine ⟨e, begun, ?_⟩
  rintro _ rfl small
  have last := spans.afterAll events within small
  rw [List.nil_append] at last
  refine ⟨last.refused_unget, last.refused_select, ?_, ?_⟩
  · obtain ⟨back, rolled, pos, stream, idle', orderly', mode⟩ := last.rollback
    have able' : back.readObstacle? = none := by
      rw [← last.able, readObstacle?, readObstacle?, isOpen, isOpen, mode]
    have retained : back.retained = [] := by rw [Device.retained, cursor, idle', List.take_zero]
    have short : back.Short := by
      rw [orderly'.short_iff, stream, retained, List.length_append]
      simpa using small
    refine ⟨back, rolled, idle', pos, stream, ?_, stream ▸ orderly'.replays short able'⟩
    rw [orderly'.bytesAvailable (isOpen_of_able able'), orderly.bytesAvailable (isOpen_of_able able), stream, List.length_append]
  · obtain ⟨kept, committed, pos, idle', moved, stream⟩ := last.commit small
    exact ⟨kept, committed, idle', pos, moved, stream⟩

/-- A text is fed, opened and partly read before a transaction. -/
def textBefore : List Event :=
  [.remote (.feed [] 0 (Handle.ofFixed [] [97, 98, 13, 10, 99])), .remote (.limitReads (some 1)),
    .call (.openWith (.forReading false true false)), .call .getByte]

/-- Within a transaction the text is read, and more of it fed. -/
def textWithin : List Event :=
  [.call (.readLine 0), .call (.setText false), .call (.peek 4), .call (.ungetByte 7), .call (.selectReading 0),
    .remote (.feed [] 0 (Handle.ofFixed [] [100, 10])), .call (.skip 2), .remote (.feed [] 1 (Handle.ofFixed [] [9]))]

theorem transaction_exact_text :
    ∃ e, ((ofMedium Pipe.empty ⟨2, 1, 0, false⟩).afterAll textBefore).startTransaction = (.ok (), e) ∧
      (∃ back, (e.afterAll textWithin).rollback = (.ok (), back) ∧ back.pos = 1 ∧
        back.stream = [98, 13, 10, 99, 100, 10] ∧ back.bytesAvailable = 6) ∧
      ∃ kept, (e.afterAll textWithin).commit = (.ok (), kept) ∧ kept.pos = 6 ∧ kept.stream = [10] := by
  have started : Reached ⟨2, 1, 0, false⟩ (ofMedium Pipe.empty ⟨2, 1, 0, false⟩) := .fresh
  have reached := started.afterAll textBefore (by decide +kernel)
  obtain ⟨e, begun, exact_⟩ := transaction_exact (by decide) reached (by decide +kernel) (by decide +kernel) textWithin
    (by simp [textWithin, Event.within, Action.reads])
  obtain rfl : e = _ := (congrArg Prod.snd begun).symm
  obtain ⟨-, -, ⟨back, rolled, -, pos, stream, available, -⟩, kept, committed, -, pos', -, stream'⟩ :=
    exact_ _ rfl (by decide +kernel)
  have six : kept.pos = 6 := pos'.trans (by decide +kernel)
  rw [six] at stream'
  exact ⟨_, begun,
    ⟨back, rolled, pos.trans (by decide +kernel), stream.trans (by decide +kernel), available.trans (by decide +kernel)⟩,
    kept, committed, six, stream'.trans (by decide +kernel)⟩

end ByteFlow.Device
