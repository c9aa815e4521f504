import ByteFlow.Proofs.Device.Harmless
import ByteFlow.Proofs.Device.Pushback

/-! A byte that was put back, until it is read.
It stands in the read queue and nowhere else. Looks and rolled-back transactions that leave the queue as it is
leave the byte there to be read next. On a random-access device some of them give the queue up, to read again
what stands in the medium, and then the byte is lost. -/
namespace ByteFlow.Device
open Medium

/-- What may come between putting a byte back and reading it: a look, or reading in a transaction that is
rolled back. -/
inductive Aside where
  | look (action : Action)
  | attempt (actions : List Action)

namespace Aside

def proper : Aside → Prop
  | look action => action.looks
  | attempt actions => ∀ action ∈ actions, action.reads

end Aside

/-- Whether a reading call asks for any byte. -/
def Action.wants : Action → Bool
  | .read n | .skip n | .peek n => 0 < n
  | .readInto buffer | .peekInto buffer => !buffer.isEmpty
  | .readLineInto room => 2 ≤ room
  | .readAll | .readLine _ | .getByte => true
  | _ => false

/-- Whether a call only looks, for `looks` as a test. -/
def Action.isLook : Action → Bool
  | .peek _ | .peekInto _ => true
  | _ => false

theorem Action.isLook_iff (action : Action) : action.isLook = true ↔ action.looks := by
  cases action <;> simp [isLook, looks]

/-- Whether a random-access device gives its queue up by an aside. -/
def Aside.givesUp (buffered : Bool) : Aside → Bool
  | .look action => !buffered && action.wants
  | .attempt actions => actions.any fun action => action.wants && (!buffered || !action.isLook)

theorem reads_of_looks {action : Action} (looks : action.looks) : action.reads := by
  cases action <;> trivial

variable {σ : Type} [Medium σ]

def passBy (d : Device σ) : Aside → Device σ
  | .look action => (d.perform action).2
  | .attempt actions => (d.startTransaction.2.performAll actions).2.rollback.2

def passAll (d : Device σ) (asides : List Aside) : Device σ := asides.foldl passBy d

/-- A device that is open to be read as bytes and has a byte to give. -/
structure Offers (b : UInt8) (d : Device σ) : Prop where
  able : d.readObstacle? = none
  plain : d.isText = false
  wellFormed : d.readQueue.WellFormed
  first : [b] <+: d.readQueue.toList

variable [Faultless σ] {d e : Device σ} {b : UInt8} {action : Action}

omit [Medium σ] [Faultless σ] in
private theorem Left.readObstacle? (left : d.Left e) : e.readObstacle? = d.readObstacle? := by
  rw [Device.readObstacle?, isOpen, left.mode]
  rfl

omit [Medium σ] [Faultless σ] in
private theorem Left.isText (left : d.Left e) : e.isText = d.isText := by
  rw [Device.isText, left.mode]
  rfl

/-- Steps that keep what is queued keep the byte. -/
private theorem Touches.offers (touches : Touches true d e) (offers : Offers b d) : Offers b e := by
  obtain ⟨wf, grown⟩ := touches.readQueue offers.wellFormed
  exact ⟨touches.left.readObstacle?.trans offers.able, touches.left.isText.trans offers.plain, wf,
    offers.first.trans (grown rfl)⟩

omit [Faultless σ] in
private theorem closeLine_plain (plain : d.isText = false) (keep : Bool) (p : Pass) : d.closeLine keep p = (p, d) := by
  rw [closeLine, plain]
  rfl

omit [Faultless σ] in
/-- Without text mode a pass ends once what is queued fills the buffer. -/
private theorem readPass_full {peeking : Bool} {buffer : List UInt8} {q : Pass}
    (took : d.takeQueued (d.keeps peeking) (.start buffer d.cursor) = (q, e)) (plain : e.isText = false) (full : q.spare = []) :
    d.readPass peeking buffer = (.ok q.filled, if peeking then e.unread (d.keeps peeking) d.pos else e.settle q) := by
  have gathered : e.gather (d.keeps peeking) q = (.ok q, e) := by
    rw [gather, full]
    rfl
  have collected : d.collect (d.keeps peeking) buffer.length (.start buffer d.cursor) = (.ok q, e) := by
    rw [collect, took]
    dsimp only
    rw [gathered]
    dsimp only
    rw [plain]
    rfl
  rw [readPass]
  dsimp only
  rw [collected]
  dsimp only
  rw [closeLine_plain plain]

omit [Faultless σ] in
/-- The byte is the next one read. -/
theorem Offers.getByte (offers : Offers b d) (idle : d.inTransaction = false) : d.getByte.1 = .ok (some b) := by
  obtain ⟨taken, -⟩ := ChunkQueue.read_spec offers.wellFormed 1
  obtain ⟨rest, all⟩ := offers.first
  have plain := offers.plain
  rw [← all, List.singleton_append, List.take_succ_cons, List.take_zero] at taken
  have took : d.takeQueued (d.keeps false) (.start [0] d.cursor) = ((Pass.start [0] d.cursor).accept [b],
      { d with reading := d.reading.put (d.readQueue.read 1).2 }.advance 1) := by
    have one : (Pass.start [0] d.cursor).spare.length = 1 := rfl
    rw [d.keeps_of_idle idle, takeQueued, if_neg Bool.false_ne_true, one]
    dsimp only
    rw [taken]
    rfl
  rw [advance_eq] at took
  rw [Device.getByte, offers.able]
  dsimp only
  rw [readPass_full took plain rfl]
  rfl

omit [Faultless σ] in
/-- Outside a transaction a byte can be put back, but not before the start of a random-access device. -/
theorem ungetByte_ok (able : d.readObstacle? = none) (idle : d.inTransaction = false)
    (room : (!d.sequential && d.pos == 0) = false) (b : UInt8) : d.ungetByte b = (.ok (), (d.ungetByte b).2) := by
  rw [ungetByte, able]
  dsimp only
  rw [if_neg (by simp [idle]), if_neg (by simp [room])]

omit [Faultless σ] in
/-- Putting a byte back offers it. -/
theorem ungetByte_offers (able : d.readObstacle? = none) (plain : d.isText = false) (wf : d.readQueue.WellFormed)
    (put : d.ungetByte b = (.ok (), e)) :
    Offers b e ∧ d.transaction = .idle ∧
      e = { d with
        reading := d.reading.put (d.readQueue.unget (d.heldBesideReading d.reading.current) b), pos := d.pos - 1 } := by
  rw [ungetByte, able] at put
  dsimp only at put
  split at put
  · cases (Prod.mk.inj put).1
  · next idle =>
    split at put
    · cases (Prod.mk.inj put).1
    · obtain ⟨-, rfl⟩ := Prod.mk.inj put
      obtain ⟨wf', bytes⟩ := ChunkQueue.unget_spec wf (d.heldBesideReading d.reading.current) b
      refine ⟨⟨able, plain, ?_, ?_⟩, ?_, rfl⟩
      · rwa [readQueue, Channels.queue_put]
      · rw [readQueue, Channels.queue_put, bytes]
        exact ⟨_, rfl⟩
      · simpa [inTransaction] using idle

omit [Medium σ] [Faultless σ] in
theorem startTransaction_eq (able : d.readObstacle? = none) (idle : d.transaction = .idle) :
    d.startTransaction = (.ok (), { d with
      transaction := if d.sequential then .onStream d.pos 0 else .onRandomAccess d.pos }) := by
  rw [startTransaction, if_neg (by simp [isOpen_of_able able]), if_neg (by simp [inTransaction, idle])]

/-! On a stream -/

private theorem Offers.stream (offers : Offers b d) (stream : d.sequential = true) (reading : action.reads)
    (keeps : action.looks ∨ d.inTransaction = true) :
    Offers b (d.perform action).2 ∧ d.Left (d.perform action).2 := by
  obtain ⟨peeking, looks, touches⟩ := perform_touches (d := d) reading
  have kept : d.keeps peeking = true := by
    rw [Device.keeps, if_pos stream]
    rcases keeps with look | inside
    · rw [looks.mpr look]
      rfl
    · rw [inside, Bool.or_true]
  rw [kept] at touches
  exact ⟨touches.offers offers, touches.left⟩

/-- In a transaction on a stream what is read stays queued. -/
private theorem Offers.streamAll (offers : Offers b d) (stream : d.sequential = true) {start cursor : Nat}
    (begun : d.transaction = .onStream start cursor) {actions : List Action} (reading : ∀ action ∈ actions, action.reads) :
    Offers b (d.performAll actions).2 ∧ (d.performAll actions).2.sequential = true ∧
      ∃ cursor, (d.performAll actions).2.transaction = .onStream start cursor := by
  induction actions generalizing d cursor with
  | nil => exact ⟨offers, stream, cursor, begun⟩
  | cons action rest ih =>
    obtain ⟨offers', left⟩ := offers.stream stream (reading action List.mem_cons_self)
      (.inr (by rw [inTransaction, begun]; rfl))
    obtain ⟨place, same⟩ := left.transaction
    rw [begun] at same
    exact ih offers' (left.sequential.trans stream) same fun other member => reading other (List.mem_cons_of_mem _ member)

private theorem Offers.passStream (offers : Offers b d) (stream : d.sequential = true) (idle : d.transaction = .idle)
    {aside : Aside}
    (proper : aside.proper) :
    Offers b (d.passBy aside) ∧ (d.passBy aside).sequential = true ∧ (d.passBy aside).transaction = .idle := by
  cases aside with
  | look action =>
    obtain ⟨offers', left⟩ := offers.stream stream (reads_of_looks proper) (.inl proper)
    obtain ⟨place, same⟩ := left.transaction
    rw [idle] at same
    exact ⟨offers', left.sequential.trans stream, same⟩
  | attempt actions =>
    rw [passBy, startTransaction_eq offers.able idle, if_pos stream]
    have begun : Offers b { d with transaction := .onStream d.pos 0 } :=
      ⟨offers.able, offers.plain, offers.wellFormed, offers.first⟩
    obtain ⟨offers', stream', cursor, kept⟩ := begun.streamAll stream rfl proper
    rw [rollback, kept]
    exact ⟨⟨offers'.able, offers'.plain, offers'.wellFormed, offers'.first⟩, stream', rfl⟩

theorem Offers.passAllStream (offers : Offers b d) (stream : d.sequential = true) (idle : d.transaction = .idle)
    {asides : List Aside} (proper : ∀ aside ∈ asides, aside.proper) :
    Offers b (d.passAll asides) ∧ (d.passAll asides).inTransaction = false := by
  induction asides generalizing d with
  | nil => exact ⟨offers, by rw [passAll, List.foldl_nil, inTransaction, idle]; rfl⟩
  | cons aside rest ih =>
    obtain ⟨offers', stream', idle'⟩ := offers.passStream stream idle (proper aside List.mem_cons_self)
    exact ih offers' stream' idle' fun other member => proper other (List.mem_cons_of_mem _ member)

/-! On a random-access device, as long as the queue is not given up -/

private theorem readPass_pos (word : d.pos < Word.modulus) (buffer : List UInt8) :
    (d.readPass true buffer).2.pos = d.pos := by
  have spares := readPass_spares d word true buffer
  rw [readPass] at spares ⊢
  dsimp only at spares ⊢
  generalize d.collect (d.keeps true) buffer.length (.start buffer d.cursor) = result at spares
  obtain ⟨failure | p, e⟩ := result
  · obtain ⟨s, -, same⟩ := spares
    have back := congrArg Device.pos same
    exact back
  · dsimp only
    rw [if_pos rfl, unread]
    split <;> rfl

theorem look_pos (word : d.pos < Word.modulus) (looks : action.looks) : (d.perform action).2.pos = d.pos := by
  cases action with
  | peek n =>
    rw [perform, answer, peek]
    split
    · rfl
    · have back := readPass_pos word (List.replicate (min n (max d.bytesAvailable d.config.bufferSize)) 0)
      dsimp only
      generalize d.readPass true (List.replicate (min n (max d.bytesAvailable d.config.bufferSize)) 0) = result at back
      obtain ⟨failure | bytes, e⟩ := result
      · exact back
      · exact back
  | peekInto buffer =>
    rw [perform, answer, peekInto]
    split
    · rfl
    · exact readPass_pos word buffer
  | _ => exact absurd looks not_false

omit [Medium σ] [Faultless σ] in
private theorem Offers.some_queued (offers : Offers b d) : 0 < d.readQueue.length := by
  rw [offers.wellFormed.counted]
  exact Nat.lt_of_lt_of_le Nat.zero_lt_one offers.first.length_le

omit [Medium σ] [Faultless σ] in
/-- A move to where the device is keeps what is queued. -/
private theorem Offers.moveTo_pos (offers : Offers b d) : d.moveTo d.pos = d := by
  have same : d.readQueue.free (d.pos - d.pos) = d.readQueue := ChunkQueue.free_eq_self (by rw [Nat.sub_self, Nat.zero_min])
  rw [moveTo, if_pos ⟨Nat.le_refl _, by rw [Nat.sub_self]; exact offers.some_queued⟩, same, readQueue, Channels.put_queue]

omit [Faultless σ] in
/-- A pass for nothing does nothing. -/
private theorem Offers.readPass_nothing (offers : Offers b d) (random : d.sequential = false)
    (word : d.pos < Word.modulus)
    {peeking : Bool} (gone : d.keeps peeking = false) : (d.readPass peeking []).2 = d := by
  have none : d.readQueue.read 0 = ([], d.readQueue) := by
    rw [ChunkQueue.read]
    rfl
  have still : { d with reading := d.reading.put d.readQueue }.advance 0 = d := by
    rw [readQueue, Channels.put_queue, advance_eq, Word.addWrapped_zero word, ite_self]
  have took : d.takeQueued (d.keeps peeking) (.start [] d.cursor) = ((Pass.start [] d.cursor).accept [], d) := by
    have zero : (Pass.start [] d.cursor).spare.length = 0 := rfl
    rw [gone, takeQueued, if_neg Bool.false_ne_true, zero, none]
    exact congrArg (Prod.mk _) still
  rw [readPass_full took offers.plain rfl]
  cases peeking with
  | true =>
    rw [if_pos rfl, gone]
    exact offers.moveTo_pos
  | false =>
    have offset : ((Pass.start [] d.cursor).accept []).offset = d.cursor := rfl
    rw [if_neg Bool.false_ne_true, settle_eq, offset, upTo_cursor, if_neg (by simp [random])]

omit [Faultless σ] in
/-- A call that wants nothing does nothing, but may be refused. -/
private theorem Offers.unwanted (offers : Offers b d) (random : d.sequential = false) (word : d.pos < Word.modulus)
    (reading : action.reads) (content : action.wants = false) (direct : action.looks → d.isBuffered = false) :
    ∃ s, (d.perform action).2 = { d with errorString := s } := by
  have gone (looks : action.looks) : d.keeps true = false := by
    rw [keeps, if_neg (by simp [random]), direct looks]
    rfl
  cases action with
  | read n =>
    obtain rfl : n = 0 := by simpa [Action.wants] using content
    refine ⟨d.errorString, ?_⟩
    rw [perform, answer, Device.read, offers.able]
    rfl
  | skip n =>
    obtain rfl : n = 0 := by simpa [Action.wants] using content
    refine ⟨d.errorString, ?_⟩
    rw [perform, answer, Device.skip, offers.able]
    rfl
  | peek n =>
    obtain rfl : n = 0 := by simpa [Action.wants] using content
    refine ⟨d.errorString, ?_⟩
    have same := offers.readPass_nothing random word (gone trivial)
    rw [perform, answer, peek, offers.able]
    dsimp only
    rw [Nat.zero_min, List.replicate_zero]
    generalize d.readPass true [] = result at same
    obtain ⟨failure | bytes, e⟩ := result
    · exact same
    · exact same
  | readInto buffer =>
    obtain rfl : buffer = [] := by simpa [Action.wants] using content
    refine ⟨d.errorString, ?_⟩
    rw [perform, answer, readInto, offers.able]
    exact offers.readPass_nothing random word (keeps_of_random random)
  | peekInto buffer =>
    obtain rfl : buffer = [] := by simpa [Action.wants] using content
    refine ⟨d.errorString, ?_⟩
    rw [perform, answer, peekInto, offers.able]
    exact offers.readPass_nothing random word (gone trivial)
  | readLineInto room =>
    have few : room < 2 := by simpa [Action.wants] using content
    rw [perform, answer, readLineInto, offers.able]
    dsimp only
    rw [if_pos few]
    exact ⟨_, rfl⟩
  | readAll => cases content
  | readLine n => cases content
  | getByte => cases content
  | _ => exact absurd reading not_false

/-- A call that leaves the queue to be read leaves the position too. -/
private theorem Offers.stays (offers : Offers b d) (random : d.sequential = false) (word : d.pos < Word.modulus)
    (reading : action.reads) (keeps : (action.wants && (!d.isBuffered || !action.isLook)) = false) :
    Offers b (d.perform action).2 ∧ d.Left (d.perform action).2 ∧ (d.perform action).2.pos = d.pos := by
  by_cases look : action.looks ∧ d.isBuffered = true
  · obtain ⟨peeking, looks, touches⟩ := perform_touches (d := d) reading
    have kept : d.keeps peeking = true := by
      rw [Device.keeps, if_neg (by simp [random]), looks.mpr look.1, look.2]
      rfl
    rw [kept] at touches
    exact ⟨touches.offers offers, touches.left, look_pos word look.1⟩
  · have direct (looks : action.looks) : d.isBuffered = false := by
      cases buffered : d.isBuffered with
      | false => rfl
      | true => exact absurd ⟨looks, buffered⟩ look
    have content : action.wants = false := by
      by_contra wants
      rw [Bool.not_eq_false] at wants
      rw [wants, Bool.true_and, Bool.or_eq_false_iff, Bool.not_eq_false', Bool.not_eq_false'] at keeps
      exact look ⟨action.isLook_iff.mp keeps.2, keeps.1⟩
    obtain ⟨s, same⟩ := offers.unwanted random word reading content direct
    rw [same]
    exact ⟨⟨offers.able, offers.plain, offers.wellFormed, offers.first⟩, { Left.refl d with }, rfl⟩

omit [Medium σ] [Faultless σ] in
private theorem Left.isBuffered (left : d.Left e) : e.isBuffered = d.isBuffered := by
  rw [Device.isBuffered, left.mode]
  rfl

omit [Medium σ] [Faultless σ] in
/-- On a random-access device reading leaves the transaction as it is. -/
private theorem Left.fits (left : d.Left e) (fits : d.transaction.Fits false) : e.transaction = d.transaction := by
  obtain ⟨place, begun⟩ := left.transaction
  rw [begun, fits.upTo_eq]

private theorem Offers.staysAll (offers : Offers b d) (random : d.sequential = false) (word : d.pos < Word.modulus)
    {actions : List Action} (reading : ∀ action ∈ actions, action.reads)
    (keeps : (Aside.attempt actions).givesUp d.isBuffered = false) :
    Offers b (d.performAll actions).2 ∧ d.Left (d.performAll actions).2 ∧ (d.performAll actions).2.pos = d.pos := by
  induction actions generalizing d with
  | nil => exact ⟨offers, .refl d, rfl⟩
  | cons action rest ih =>
    rw [Aside.givesUp, List.any_cons, Bool.or_eq_false_iff] at keeps
    obtain ⟨offers', left, pos⟩ := offers.stays random word (reading action List.mem_cons_self) keeps.1
    obtain ⟨offers_, left_, pos_⟩ := ih offers' (left.sequential.trans random) (by rwa [pos])
      (fun other member => reading other (List.mem_cons_of_mem _ member)) (by rw [left.isBuffered]; exact keeps.2)
    exact ⟨offers_, left.trans left_, pos_.trans pos⟩

private theorem Offers.passRandom (offers : Offers b d) (random : d.sequential = false) (word : d.pos < Word.modulus)
    (idle : d.transaction = .idle) {aside : Aside} (proper : aside.proper) (keeps : aside.givesUp d.isBuffered = false) :
    Offers b (d.passBy aside) ∧ d.Left (d.passBy aside) ∧ (d.passBy aside).pos = d.pos := by
  cases aside with
  | look action =>
    refine offers.stays random word (reads_of_looks proper) ?_
    rw [action.isLook_iff.mpr proper]
    simpa [Aside.givesUp, Bool.and_comm] using keeps
  | attempt actions =>
    rw [passBy, startTransaction_eq offers.able idle, if_neg (by simp [random])]
    have begun : Offers b { d with transaction := .onRandomAccess d.pos } :=
      ⟨offers.able, offers.plain, offers.wellFormed, offers.first⟩
    obtain ⟨offers', left, pos⟩ := begun.staysAll random word proper keeps
    dsimp only
    generalize (performAll { d with transaction := .onRandomAccess d.pos } actions).2 = e at *
    have begun : e.transaction = .onRandomAccess d.pos := left.fits rfl
    have back : e.moveTo d.pos = e := by
      rw [← show e.pos = d.pos from pos]
      exact offers'.moveTo_pos
    rw [rollback, begun]
    dsimp only
    rw [back]
    exact ⟨⟨offers'.able, offers'.plain, offers'.wellFormed, offers'.first⟩,
      ⟨left.sequential, left.mode, left.config, left.writing, left.outside, left.reading, 0, by rw [idle]; rfl⟩, pos⟩

theorem Offers.passAllRandom (offers : Offers b d) (random : d.sequential = false) (word : d.pos < Word.modulus)
    (idle : d.transaction = .idle) {asides : List Aside} (proper : ∀ aside ∈ asides, aside.proper)
    (keeps : ∀ aside ∈ asides, aside.givesUp d.isBuffered = false) :
    Offers b (d.passAll asides) ∧ (d.passAll asides).inTransaction = false := by
  induction asides generalizing d with
  | nil => exact ⟨offers, by rw [passAll, List.foldl_nil, inTransaction, idle]; rfl⟩
  | cons aside rest ih =>
    obtain ⟨offers', left, pos⟩ := offers.passRandom random word idle (proper aside List.mem_cons_self)
      (keeps aside List.mem_cons_self)
    refine ih offers' (left.sequential.trans random) (by rwa [pos]) ?_
      (fun other member => proper other (List.mem_cons_of_mem _ member)) fun other member => ?_
    · rw [left.fits (by rw [idle]; trivial), idle]
    · rw [left.isBuffered]
      exact keeps other (List.mem_cons_of_mem _ member)

end ByteFlow.Device
