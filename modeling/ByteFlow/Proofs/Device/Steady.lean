import ByteFlow.Proofs.Device.Harmless

/-! Read transactions over a medium that does not fail.
Whatever is called and in whatever order, a transaction runs only on an open device, is of the kind that the
medium needs, and on a stream tells how far it has read: its cursor is inside the queue, and the position is
as many bytes past where it began. -/
namespace ByteFlow.Device
open Medium

variable {σ : Type}

/-- A device whose transaction, if there is one, is in step with the read queue and the position. -/
structure Steady (d : Device σ) : Prop where
  queues : ∀ q ∈ d.reading.queues, q.WellFormed
  usable : d.isOpen = true → (d.mode.readable || d.mode.writable) = true
  active : d.inTransaction = true → d.isOpen = true
  kind : d.transaction.Fits d.sequential
  cursor : d.cursor ≤ d.readQueue.length
  word : d.sequential = true → d.pos < Word.modulus
  begun : ∀ startPos cursor, d.transaction = .onStream startPos cursor →
    startPos < Word.modulus ∧ d.pos = Word.addWrapped startPos cursor

variable {d e f : Device σ} {keep : Bool} {p : Pass}

theorem Steady.wellFormed (steady : Steady d) : d.readQueue.WellFormed := steady.queues _ (Channels.queue_mem _)

private theorem addWrapped_lt (a b : Nat) : Word.addWrapped a b < Word.modulus := Nat.mod_lt _ (Nat.two_pow_pos 64)

theorem cursor_of_random (random : d.sequential = false) (kind : d.transaction.Fits d.sequential) : d.cursor = 0 := by
  rw [random] at kind
  obtain idle | ⟨place, begun⟩ := kind.of_random
  · rw [cursor, idle]
  · rw [cursor, begun]

/-- Without a transaction only the queues count, and that the position is one. -/
theorem steady_idle (queues : ∀ q ∈ d.reading.queues, q.WellFormed)
    (usable : d.isOpen = true → (d.mode.readable || d.mode.writable) = true) (idle : d.transaction = .idle)
    (word : d.sequential = true → d.pos < Word.modulus) : Steady d where
  queues := queues
  usable := usable
  active inside := by
    rw [inTransaction, idle] at inside
    cases inside
  kind := by
    rw [idle]
    trivial
  cursor := by
    rw [cursor, idle]
    exact Nat.zero_le _
  word := word
  begun startPos cursor begun := by
    rw [idle] at begun
    cases begun

/-- What is steady stays so if the transaction stays, and on a stream the position too, as long as the
queue reaches the cursor. -/
theorem Steady.still (steady : Steady d) (sequential : e.sequential = d.sequential) (mode : e.mode = d.mode)
    (transaction : e.transaction = d.transaction) (queues : ∀ q ∈ e.reading.queues, q.WellFormed)
    (stream : d.sequential = true → d.cursor ≤ e.readQueue.length ∧ e.pos = d.pos) : Steady e where
  queues := queues
  usable opened := by
    rw [isOpen, mode] at opened
    rw [mode]
    exact steady.usable opened
  active inside := by
    rw [inTransaction, transaction] at inside
    rw [isOpen, mode]
    exact steady.active inside
  kind := by
    rw [transaction, sequential]
    exact steady.kind
  cursor := by
    have same : e.cursor = d.cursor := by rw [Device.cursor, transaction, Device.cursor]
    rw [same]
    cases kind : d.sequential with
    | true => exact (stream kind).1
    | false =>
      rw [cursor_of_random kind steady.kind]
      exact Nat.zero_le _
  word streams := by
    rw [sequential] at streams
    rw [(stream streams).2]
    exact steady.word streams
  begun startPos cursor begun := by
    rw [transaction] at begun
    have streams : d.sequential = true := by
      have kind := steady.kind
      rw [begun] at kind
      exact kind
    rw [(stream streams).2]
    exact steady.begun startPos cursor begun

theorem Steady.said (steady : Steady d) (errorString : String) : Steady { d with errorString := errorString } :=
  steady.still rfl rfl rfl steady.queues fun _ => ⟨steady.cursor, rfl⟩

/-- Reading went `n` bytes along a stream, past a cursor if there is a transaction. -/
structure Strides (d e : Device σ) (n : Nat) : Prop where
  pos : e.pos = Word.addWrapped d.pos n
  cursor : d.inTransaction = true → e.cursor = d.cursor + n
  inside : e.cursor ≤ e.readQueue.length

variable [Medium σ] [Faultless σ]

/-- Steps that tell how far they went along a stream keep the device steady. -/
theorem Touches.steady (touches : Touches keep d e) (steady : Steady d)
    (strides : d.sequential = true → ∃ n, Strides d e n) : Steady e := by
  have left := touches.left
  have queues : ∀ q ∈ e.reading.queues, q.WellFormed := by
    rw [left.reading]
    exact Channels.forall_put steady.queues (touches.readQueue steady.wellFormed).1
  have same : e.isOpen = d.isOpen := by rw [isOpen, left.mode, isOpen]
  obtain ⟨place, transaction⟩ := left.transaction
  cases kind : d.sequential with
  | false =>
    have fits := steady.kind
    rw [kind] at fits
    rw [fits.upTo_eq] at transaction
    exact steady.still left.sequential left.mode transaction queues fun stream => absurd (stream.symm.trans kind) (by decide)
  | true =>
    obtain ⟨n, pos, cursor, inside⟩ := strides kind
    refine ⟨queues, fun opened => ?_, fun active => ?_, ?_, inside, fun _ => ?_, fun startPos cursor' begun => ?_⟩
    · rw [left.mode]
      exact steady.usable (same ▸ opened)
    · refine same.trans (steady.active ?_)
      rw [inTransaction, transaction] at active
      cases at_ : d.transaction with
      | idle =>
        rw [at_] at active
        cases active
      | onStream startPos cursor => rw [inTransaction, at_]; rfl
      | onRandomAccess startPos => rw [inTransaction, at_]; rfl
    · rw [transaction, left.sequential]
      have fits := steady.kind
      cases at_ : d.transaction with
      | idle => trivial
      | onStream startPos cursor => exact kind
      | onRandomAccess startPos =>
        rw [at_] at fits
        exact fits
    · rw [pos]
      exact addWrapped_lt d.pos n
    · rw [transaction] at begun
      cases at_ : d.transaction with
      | idle =>
        rw [at_] at begun
        cases begun
      | onRandomAccess startPos =>
        rw [at_] at begun
        cases begun
      | onStream startPos' before =>
        obtain ⟨small, counted⟩ := steady.begun startPos' before at_
        have here : d.cursor = before := by rw [Device.cursor, at_]
        have there : e.cursor = cursor' := by rw [Device.cursor, transaction, begun]
        have moved := cursor (by rw [inTransaction, at_]; rfl)
        rw [here, there] at moved
        rw [at_] at begun
        obtain ⟨rfl, -⟩ := Transaction.onStream.inj begun
        refine ⟨small, ?_⟩
        rw [pos, counted, Word.addWrapped_addWrapped, moved]

/-- Asking the medium for more only adds to what is queued. -/
structure Grows (d e : Device σ) : Prop where
  sequential : e.sequential = d.sequential
  transaction : e.transaction = d.transaction
  pos : e.pos = d.pos
  wellFormed : e.readQueue.WellFormed
  longer : d.readQueue.length ≤ e.readQueue.length

private theorem fill_grows (wf : d.readQueue.WellFormed) (chunk : Nat) : Grows d (d.fill chunk).2 := by
  obtain ⟨wf', grown⟩ : (d.fill chunk).2.readQueue.WellFormed ∧ _ := fill_queue wf
  have longer := grown.length_le
  rw [← wf'.counted, ← wf.counted] at longer
  obtain ⟨m, q, mediumPos, filled, -⟩ := d.fill_parts chunk
  rw [filled] at wf' longer ⊢
  exact ⟨rfl, rfl, rfl, wf', longer⟩

private theorem lookAhead_grows (wf : d.readQueue.WellFormed) (place : Nat) : Grows d (d.lookAhead place) := by
  obtain ⟨m, mediumPos, synced, -⟩ := d.sync_parts
  rw [lookAhead]
  split
  · exact ⟨rfl, rfl, rfl, wf, Nat.le_refl _⟩
  · generalize d.sync = result at synced
    obtain ⟨failure | done, e⟩ := result
    · obtain rfl : e = _ := synced
      exact ⟨rfl, rfl, rfl, wf, Nat.le_refl _⟩
    · obtain rfl : e = _ := synced
      obtain ⟨sequential, transaction, pos, wf', longer⟩ := fill_grows (d := { d with medium := m, mediumPos := mediumPos }) wf
        (fillSize { d with medium := m, mediumPos := mediumPos })
      exact ⟨sequential, transaction, pos, wf', longer⟩

/-! A pass over a stream -/

/-- A pass over a stream leaves the transaction and the position alone until it is over, and where bytes
stay queued it is as far along the queue as it has read. -/
structure Trails (keep : Bool) (d : Device σ) (p : Pass) (e : Device σ) : Prop where
  sequential : e.sequential = true
  transaction : e.transaction = d.transaction
  pos : e.pos = d.pos
  wellFormed : e.readQueue.WellFormed
  inside : keep = true → p.offset = d.cursor + p.consumed ∧ p.offset ≤ e.readQueue.length

omit [Medium σ] [Faultless σ] in
private theorem Trails.advance (trails : Trails keep d p e) (n : Nat) : Trails keep d p (e.advance n) := by
  rwa [Device.advance, if_pos trails.sequential]

omit [Medium σ] [Faultless σ] in
private theorem Trails.grows (trails : Trails keep d p e) (grows : Grows e f) : Trails keep d p f := by
  refine ⟨grows.sequential.trans trails.sequential, grows.transaction.trans trails.transaction,
    grows.pos.trans trails.pos, grows.wellFormed, fun keeps => ?_⟩
  obtain ⟨moved, inside⟩ := trails.inside keeps
  exact ⟨moved, Nat.le_trans inside grows.longer⟩

omit [Medium σ] [Faultless σ] in
private theorem Trails.takeQueued (trails : Trails keep d p e) :
    Trails keep d (e.takeQueued keep p).1 (e.takeQueued keep p).2 := by
  rw [Device.takeQueued]
  cases keep with
  | true =>
    obtain ⟨moved, inside⟩ := trails.inside rfl
    have fits : p.offset + (e.readQueue.peek p.spare.length p.offset).length ≤ e.readQueue.length := by
      rw [ChunkQueue.peek_eq, List.length_take, List.length_drop, ← trails.wellFormed.counted]
      omega
    have trails' : Trails true d { p.accept (e.readQueue.peek p.spare.length p.offset) with
        offset := p.offset + (e.readQueue.peek p.spare.length p.offset).length } e := by
      refine ⟨trails.sequential, trails.transaction, trails.pos, trails.wellFormed, fun _ => ⟨?_, fits⟩⟩
      simp only [Pass.accept]
      omega
    exact trails'.advance _
  | false =>
    obtain ⟨-, wf, -⟩ := ChunkQueue.read_spec trails.wellFormed p.spare.length
    have trails' : Trails false d (p.accept (e.readQueue.read p.spare.length).1)
        { e with reading := e.reading.put (e.readQueue.read p.spare.length).2 } := by
      refine ⟨trails.sequential, trails.transaction, trails.pos, ?_, fun keeps => by cases keeps⟩
      rwa [readQueue, Channels.queue_put]
    exact trails'.advance _

/-- What a pass came to, whether it failed or not. -/
def Ends (keep : Bool) (d : Device σ) : Except IoError Pass × Device σ → Prop
  | (.error _, e) => ∃ p, Trails keep d p e
  | (.ok p, e) => Trails keep d p e

private theorem Trails.refill (trails : Trails keep d p e) :
    match e.refill keep p with
    | (.error _, f) => Trails keep d p f
    | (.ok (_, q), f) => Trails keep d q f := by
  have synced : e.sync = (.ok (), e) := by rw [sync, if_pos (.inl trails.sequential)]
  rw [Device.refill, synced]
  dsimp only
  by_cases direct : ((!e.isBuffered || decide (e.config.bufferSize ≤ p.spare.length)) && !keep) = true
  · rw [if_pos direct]
    have gone : keep = false := by
      rw [Bool.and_eq_true, Bool.not_eq_true'] at direct
      exact direct.2
    have anyPass (m : σ) (q : Pass) : Trails keep d q { e with medium := m } :=
      ⟨trails.sequential, trails.transaction, trails.pos, trails.wellFormed,
        fun keeps => absurd (keeps.symm.trans gone) (by decide)⟩
    obtain ⟨bytes, m, read, -⟩ := Faultless.read_ok e.heldBesideMedium e.medium p.spare.length
    rw [read]
    dsimp only
    rw [follow, if_pos trails.sequential]
    exact (anyPass m _).advance _
  · rw [if_neg direct]
    have filled := trails.grows (fill_grows trails.wellFormed
      (if e.isBuffered then e.config.bufferSize else min p.spare.length e.config.bufferSize))
    generalize e.fill (if e.isBuffered then e.config.bufferSize else min p.spare.length e.config.bufferSize) = result at filled
    obtain ⟨failure | got, f⟩ := result
    · exact filled
    · exact ⟨filled.sequential, filled.transaction, filled.pos, filled.wellFormed, filled.inside⟩

private theorem Trails.gather (trails : Trails keep d p e) : Ends keep d (e.gather keep p) := by
  induction left : p.spare.length using Nat.strongRecOn generalizing e p with
  | ind _ ih =>
    subst left
    have refilled := trails.refill
    rw [Device.gather]
    split
    · exact trails
    · generalize e.refill keep p = result at refilled
      obtain ⟨failure | ⟨got, q⟩, f⟩ := result
      · dsimp only at refilled ⊢
        split
        · exact ⟨p, refilled⟩
        · exact ⟨refilled.sequential, refilled.transaction, refilled.pos, refilled.wellFormed, refilled.inside⟩
      · dsimp only at refilled ⊢
        split
        · exact refilled
        · have taken := refilled.takeQueued
          generalize f.takeQueued keep q = result at taken
          obtain ⟨next, g⟩ := result
          dsimp only at taken ⊢
          split
          · next shorter => exact ih _ shorter taken rfl
          · exact taken

private theorem Trails.collect (trails : Trails keep d p e) (room : Nat) : Ends keep d (e.collect keep room p) := by
  induction left : room - p.decided using Nat.strongRecOn generalizing e p with
  | ind _ ih =>
    subst left
    have taken := trails.takeQueued
    rw [Device.collect]
    generalize e.takeQueued keep p = result at taken
    obtain ⟨q, f⟩ := result
    dsimp only at taken ⊢
    have gathered := taken.gather
    generalize f.gather keep q = result at gathered
    obtain ⟨failure | q, g⟩ := result
    · exact gathered
    · have trails : Trails keep d q g := gathered
      have stripped : Trails keep d q.strip g :=
        ⟨trails.sequential, trails.transaction, trails.pos, trails.wellFormed, trails.inside⟩
      dsimp only
      split
      · split
        · exact ih _ (by omega) stripped rfl
        · exact stripped
      · exact trails

private theorem Trails.closeLine (trails : Trails keep d p e) :
    Trails keep d (e.closeLine keep p).1 (e.closeLine keep p).2 := by
  rw [Device.closeLine]
  split
  · have looked := trails.grows (lookAhead_grows trails.wellFormed (if keep then p.offset else 0))
    dsimp only
    generalize e.lookAhead (if keep then p.offset else 0) = f at looked
    by_cases paired : f.readQueue.peek 1 (if keep then p.offset else 0) = [Byte.lineFeed]
    · rw [if_pos paired]
      cases keep with
      | true =>
        obtain ⟨moved, -⟩ := looked.inside rfl
        have reached : p.offset + 1 ≤ f.readQueue.length := by
          have length := congrArg List.length paired
          rw [if_pos rfl, ChunkQueue.peek_eq, List.length_take, List.length_drop, ← looked.wellFormed.counted,
            List.length_singleton] at length
          omega
        have further : Trails true d { p.closeLine with offset := p.offset + 1 } f := by
          refine ⟨looked.sequential, looked.transaction, looked.pos, looked.wellFormed, fun _ => ⟨?_, reached⟩⟩
          simp only [Pass.closeLine]
          omega
        exact further.advance 1
      | false =>
        obtain ⟨wf, -⟩ := ChunkQueue.free_spec looked.wellFormed 1
        have further : Trails false d p.closeLine { f with reading := f.reading.put (f.readQueue.free 1) } := by
          refine ⟨looked.sequential, looked.transaction, looked.pos, ?_, fun keeps => by cases keeps⟩
          rwa [readQueue, Channels.queue_put]
        exact further.advance 1
    · rw [if_neg paired]
      exact looked
  · exact trails

omit [Medium σ] [Faultless σ] in
/-- Where the bytes go there is no transaction to count them. -/
theorem cursor_of_gone (stream : d.sequential = true) {peeking : Bool} (gone : d.keeps peeking = false) : d.cursor = 0 := by
  have idle : d.transaction = .idle := by
    rw [keeps, if_pos stream, Bool.or_eq_false_iff] at gone
    simpa [inTransaction] using gone.2
  rw [cursor, idle]

omit [Medium σ] [Faultless σ] in
/-- The queue reaches the cursor during a pass. -/
private theorem Trails.reaches (trails : Trails keep d p e) (gone : keep = false → d.cursor = 0) :
    d.cursor ≤ e.readQueue.length := by
  cases keep with
  | true =>
    obtain ⟨moved, inside⟩ := trails.inside rfl
    omega
  | false =>
    rw [gone rfl]
    exact Nat.zero_le _

omit [Medium σ] [Faultless σ] in
private theorem Trails.stands (trails : Trails keep d p e) (steady : Steady d) (stream : d.sequential = true)
    (gone : keep = false → d.cursor = 0) : Strides d e 0 := by
  have same : e.cursor = d.cursor := by rw [Device.cursor, trails.transaction, Device.cursor]
  refine ⟨?_, fun _ => same, same ▸ trails.reaches gone⟩
  rw [trails.pos, Word.addWrapped_zero (steady.word stream)]

omit [Medium σ] [Faultless σ] in
/-- A pass that is over has gone as far as it says. -/
private theorem Trails.settle (trails : Trails keep d p e) (steady : Steady d) (stream : d.sequential = true)
    (gone : keep = false → d.transaction = .idle) : Strides d (e.settle p) p.consumed := by
  have fits := steady.kind
  rw [stream] at fits
  rw [settle_eq, trails.transaction, trails.pos, if_pos trails.sequential]
  cases at_ : d.transaction with
  | idle =>
    have outside : d.inTransaction = false := by rw [inTransaction, at_]; rfl
    exact ⟨rfl, fun inside => absurd (inside.symm.trans outside) (by decide), Nat.zero_le _⟩
  | onRandomAccess startPos =>
    rw [at_] at fits
    cases fits
  | onStream startPos before =>
    cases keep with
    | false => cases (gone rfl).symm.trans at_
    | true =>
      obtain ⟨moved, inside⟩ := trails.inside rfl
      exact ⟨rfl, fun _ => moved, inside⟩

theorem readPass_strides (steady : Steady d) (stream : d.sequential = true) (peeking : Bool) (buffer : List UInt8) :
    ∃ n, Strides d (d.readPass peeking buffer).2 n := by
  have start : Trails (d.keeps peeking) d (.start buffer d.cursor) d :=
    ⟨stream, rfl, rfl, steady.wellFormed, fun _ => ⟨rfl, steady.cursor⟩⟩
  have collected := start.collect buffer.length
  rw [readPass]
  dsimp only
  generalize d.collect (d.keeps peeking) buffer.length (.start buffer d.cursor) = result at collected
  obtain ⟨failure | p, e⟩ := result
  · obtain ⟨p, trails⟩ := collected
    obtain ⟨pos, cursor, inside⟩ := trails.stands steady stream (cursor_of_gone stream)
    exact ⟨0, pos, cursor, inside⟩
  · have closed := Trails.closeLine collected
    dsimp only
    generalize e.closeLine (d.keeps peeking) p = result at closed
    obtain ⟨q, f⟩ := result
    cases peeking with
    | true =>
      obtain ⟨pos, cursor, inside⟩ := closed.stands steady stream (cursor_of_gone stream)
      have kept : d.keeps true = true := by rw [keeps, if_pos stream, Bool.true_or]
      rw [if_pos rfl, unread, if_pos kept]
      exact ⟨0, (Word.addWrapped_zero (steady.word stream)).symm, cursor, inside⟩
    | false =>
      rw [if_neg Bool.false_ne_true]
      refine ⟨q.consumed, closed.settle steady stream fun gone => ?_⟩
      rw [keeps, if_pos stream, Bool.or_eq_false_iff] at gone
      simpa [inTransaction] using gone.2

/-! A line of a stream -/

/-- A line pass over a stream counts each byte at once, and where bytes stay queued it tells itself how far
along the queue it is. -/
structure Paces (keep : Bool) (d : Device σ) (place : Nat) (e : Device σ) : Prop where
  sequential : e.sequential = true
  transaction : e.transaction = d.transaction
  wellFormed : e.readQueue.WellFormed
  moved : ∃ n, e.pos = Word.addWrapped d.pos n ∧ (keep = true → place = d.cursor + n ∧ place ≤ e.readQueue.length)

variable {place : Nat}

omit [Medium σ] [Faultless σ] in
private theorem Paces.grows (paces : Paces keep d place e) (grows : Grows e f) : Paces keep d place f := by
  obtain ⟨n, pos, inside⟩ := paces.moved
  refine ⟨grows.sequential.trans paces.sequential, grows.transaction.trans paces.transaction, grows.wellFormed,
    n, grows.pos.trans pos, fun keeps => ?_⟩
  obtain ⟨there, inside⟩ := inside keeps
  exact ⟨there, Nat.le_trans inside grows.longer⟩

private theorem Paces.lookAhead (paces : Paces keep d place e) (next : Nat) : Paces keep d place (e.lookAhead next) :=
  paces.grows (lookAhead_grows paces.wellFormed next)

omit [Medium σ] [Faultless σ] in
/-- Bytes of the queue that stay there are gone past. -/
private theorem Paces.along (paces : Paces true d place e) {n : Nat} (inside : place + n ≤ e.readQueue.length) :
    Paces true d (place + n) { e with pos := Word.addWrapped e.pos n } := by
  obtain ⟨m, pos, there⟩ := paces.moved
  refine ⟨paces.sequential, paces.transaction, paces.wellFormed, m + n, ?_, fun _ => ⟨?_, inside⟩⟩
  · dsimp only
    rw [pos, Word.addWrapped_addWrapped]
  · rw [(there rfl).1, Nat.add_assoc]

omit [Medium σ] [Faultless σ] in
private theorem Paces.free (paces : Paces false d place e) (n : Nat) :
    Paces false d place { e with pos := Word.addWrapped e.pos n, reading := e.reading.put (e.readQueue.free n) } := by
  obtain ⟨m, pos, -⟩ := paces.moved
  refine ⟨paces.sequential, paces.transaction, ?_, m + n, ?_, fun keeps => by cases keeps⟩
  · rw [readQueue, Channels.queue_put]
    exact (ChunkQueue.free_spec paces.wellFormed n).1
  · dsimp only
    rw [pos, Word.addWrapped_addWrapped]

omit [Medium σ] [Faultless σ] in
private theorem Paces.takeLine (paces : Paces keep d place e) (room : Nat) :
    Paces keep d (e.takeLine keep room place).2.1 (e.takeLine keep room place).2.2 := by
  rw [Device.takeLine]
  dsimp only
  cases keep with
  | true =>
    obtain ⟨n, -, there⟩ := paces.moved
    have fits (take : Nat) : place + (e.readQueue.peek take place).length ≤ e.readQueue.length := by
      have inside := (there rfl).2
      rw [ChunkQueue.peek_eq, List.length_take, List.length_drop, ← paces.wellFormed.counted]
      omega
    exact paces.along (fits _)
  | false => exact paces.free _

/-- What a line came to, whether it failed or not. -/
def Halts (keep : Bool) (d : Device σ) (place : Nat) : Except IoError (List UInt8 × Nat) × Device σ → Prop
  | (.error _, e) => Paces keep d place e
  | (.ok (_, next), e) => Paces keep d next e

private theorem Paces.rawLine (paces : Paces keep d place e) (room : Nat) :
    Halts keep d place (e.rawLine keep room place) := by
  induction room using Nat.strongRecOn generalizing e place with
  | ind room ih =>
    have provided := paces.lookAhead place
    rw [lookAhead_eq] at provided
    rw [Device.rawLine]
    split
    · exact paces
    · generalize e.provideByte place = result at provided
      obtain ⟨failure | there, f⟩ := result
      · exact provided
      · cases there with
        | false => exact provided
        | true =>
          have taken := Paces.takeLine provided room
          dsimp only
          generalize f.takeLine keep room place = result at taken
          obtain ⟨bytes, next, g⟩ := result
          dsimp only
          split
          · have rest := ih (room - bytes.length) (by omega) taken
            generalize g.rawLine keep (room - bytes.length) next = result at rest
            obtain ⟨failure | ⟨more, last⟩, h⟩ := result
            · exact ⟨rest.sequential, rest.transaction, rest.wellFormed, rest.moved⟩
            · exact rest
          · exact taken

private theorem Paces.normalizeEnd (paces : Paces keep d place e) (line : List UInt8) :
    Paces keep d (e.normalizeEnd keep line place).2.1 (e.normalizeEnd keep line place).2.2 := by
  rw [Device.normalizeEnd]
  dsimp only
  split
  · exact paces
  · split
    · exact paces
    · split
      · have looked := paces.lookAhead place
        generalize e.lookAhead place = f at looked
        split
        · next paired =>
          cases keep with
          | true =>
            obtain ⟨n, -, there⟩ := looked.moved
            have reached : place + 1 ≤ f.readQueue.length := by
              have length := congrArg List.length paired
              rw [ChunkQueue.peek_eq, List.length_take, List.length_drop, ← looked.wellFormed.counted,
                List.length_singleton] at length
              omega
            exact looked.along reached
          | false => exact looked.free 1
        · exact looked
      · exact paces

theorem linePass_strides (steady : Steady d) (stream : d.sequential = true) (room : Nat) :
    ∃ n, Strides d (d.linePass room).2 n := by
  have start : Paces d.keepsLine d d.cursor d :=
    ⟨stream, rfl, steady.wellFormed, 0, (Word.addWrapped_zero (steady.word stream)).symm, fun _ => ⟨rfl, steady.cursor⟩⟩
  -- Without a transaction the cursor is not moved, and stays where it is anyway.
  have ends {e : Device σ} {place : Nat} (paces : Paces d.keepsLine d place e) : ∃ n, Strides d (e.moveCursor place) n := by
    obtain ⟨n, pos, there⟩ := paces.moved
    refine ⟨n, ?_⟩
    have fits := steady.kind
    rw [moveCursor_eq, paces.transaction]
    rw [stream] at fits
    cases at_ : d.transaction with
    | idle =>
      have outside : d.inTransaction = false := by rw [inTransaction, at_]; rfl
      exact ⟨pos, fun inside => absurd (inside.symm.trans outside) (by decide), Nat.zero_le _⟩
    | onRandomAccess startPos =>
      rw [at_] at fits
      cases fits
    | onStream startPos before =>
      have keeps : d.keepsLine = true := by rw [keepsLine, stream, inTransaction, at_]; rfl
      obtain ⟨moved, inside⟩ := there keeps
      exact ⟨pos, fun _ => moved, inside⟩
  have raw := start.rawLine room
  rw [linePass]
  dsimp only
  generalize d.rawLine d.keepsLine room d.cursor = result at raw
  obtain ⟨failure | ⟨line, place⟩, e⟩ := result
  · have raw : Paces d.keepsLine d d.cursor e := raw
    have same : e.cursor = d.cursor := by rw [Device.cursor, raw.transaction, Device.cursor]
    have still : e.moveCursor d.cursor = e := by rw [moveCursor_eq, ← same, upTo_cursor]
    obtain ⟨n, strides⟩ := ends raw
    rw [still] at strides
    exact ⟨n, strides.pos, strides.cursor, strides.inside⟩
  · exact ends (Paces.normalizeEnd raw line)

end ByteFlow.Device
