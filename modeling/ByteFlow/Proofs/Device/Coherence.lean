import ByteFlow.Proofs.Device.Bout
import ByteFlow.Proofs.Medium.Holder

/-! What a device does to storages that others look at.
Its handles are the chunks of all its queues and what its medium holds. Each step of a call changes one queue
or the medium, which count everything else as held; so a call leaves alone what callers kept or were given. -/
namespace ByteFlow.Device
open Medium Handle

variable {σ : Type}

/-- The handles that come with a call. -/
def Action.given : Action → List Handle
  | .push _ data => [data]
  | _ => []

/-- The handles that go out with a reply. -/
def Reply.handles : Reply → List Handle
  | .handle h => [h]
  | _ => []

/-- The handles that go out with an answer. -/
def answered (result : Except Failure Reply) : List Handle := result.toOption.toList.flatMap Reply.handles

/-! The handles of a device -/

/-- The chunks of all queues in one direction. -/
def Channels.handles (c : Channels) : List Handle := c.queues.flatMap ChunkQueue.chunks

private theorem Channels.ids_handles (c : Channels) : Handle.ids c.handles = c.ids := ChunkQueue.ids_chunks c.queues

/-- A queue may change as one that counts those beside it as held. -/
private theorem Channels.set_becomes {held : List StorageId} {c : Channels} {channel : Nat} {q r : ChunkQueue}
    {given taken : List Handle} (here : c.queues[channel]? = some q)
    (becomes : Becomes (c.idsBeside channel ++ held) (given ++ q.chunks) (taken ++ r.chunks)) :
    Becomes held (given ++ c.handles) (taken ++ (c.queues.set channel r).flatMap ChunkQueue.chunks) := by
  rw [idsBeside, ← ChunkQueue.ids_chunks] at becomes
  exact .part ChunkQueue.chunks here becomes

@[simp] theorem Channels.handles_select (c : Channels) (channel : Nat) : (c.select channel).handles = c.handles := by
  rw [select]
  split <;> rfl

private theorem Channels.single_covers {hs : List Handle} (chunkSize : Nat) :
    Covers hs (single chunkSize).handles := .blank

private theorem Channels.grow_covers (c : Channels) (n chunkSize : Nat) :
    Covers c.handles (c.grow n chunkSize).handles :=
  have blank : Covers [] (ChunkQueue.withChunkSize chunkSize).chunks := .blank
  .pad ChunkQueue.chunks blank c.queues _

variable [Medium σ] [Holder σ]

/-- All handles of a device. -/
def handles (d : Device σ) : List Handle := d.reading.handles ++ (d.writing.handles ++ Holder.handles d.medium)

private theorem ids_handles_subset (d : Device σ) : Handle.ids d.handles ++ d.outside ⊆ d.held := by
  intro id member
  have medium := @Holder.ids_subset _ _ _ d.medium id
  simp only [handles, ids_append, Channels.ids_handles, held, heldBesideMedium, List.mem_append] at member ⊢
  tauto

/-- A device takes handles over and gives others out, and nothing is written that others look at. -/
structure Trades (d : Device σ) (given taken : List Handle) (e : Device σ) : Prop where
  outside : e.outside = d.outside
  becomes : Becomes d.outside (given ++ d.handles) (taken ++ e.handles)

/-- From one state to the other nothing was written that others look at. -/
abbrev Coheres (d e : Device σ) : Prop := d.Trades [] [] e

variable {d e f : Device σ} {given taken : List Handle}

/-- A read queue changes alone. -/
private theorem Trades.of_reading {channel : Nat} {q r : ChunkQueue} (here : d.reading.queues[channel]? = some q)
    (becomes : Becomes (d.heldBesideReading channel) (given ++ q.chunks) (taken ++ r.chunks))
    (reading : e.reading.queues = d.reading.queues.set channel r) (writing : e.writing = d.writing)
    (medium : e.medium = d.medium) (outside : e.outside = d.outside) : d.Trades given taken e := by
  have changed : Becomes (Handle.ids (d.writing.handles ++ Holder.handles d.medium) ++ d.outside)
      (given ++ d.reading.handles) (taken ++ e.reading.handles) := by
    have same : e.reading.handles = (d.reading.queues.set channel r).flatMap ChunkQueue.chunks :=
      congrArg (List.flatMap ChunkQueue.chunks) reading
    rw [same]
    refine Channels.set_becomes here (becomes.mono fun id member => ?_)
    have own := @Holder.ids_subset _ _ _ d.medium id
    simp only [heldBesideReading, ids_append, Channels.ids_handles, List.mem_append] at member ⊢
    tauto
  have beside := changed.beside
  rw [List.append_assoc, List.append_assoc] at beside
  refine ⟨outside, ?_⟩
  rw [handles, handles, writing, medium]
  exact beside

/-- The medium changes alone. -/
theorem Trades.of_medium
    (becomes : Becomes d.heldBesideMedium (given ++ Holder.handles d.medium) (taken ++ Holder.handles e.medium))
    (reading : e.reading = d.reading) (writing : e.writing = d.writing) (outside : e.outside = d.outside) :
    d.Trades given taken e := by
  have changed : Becomes d.outside (d.reading.handles ++ (d.writing.handles ++ (given ++ Holder.handles d.medium)))
      (d.reading.handles ++ (d.writing.handles ++ (taken ++ Holder.handles e.medium))) := by
    refine .behind (.behind (becomes.mono fun id member => ?_))
    simp only [heldBesideMedium, Channels.ids_handles, List.mem_append] at member ⊢
    tauto
  refine ⟨outside, ?_⟩
  rw [handles, handles, reading, writing]
  refine (Becomes.of_covers (.of_subset ?_)).trans (changed.trans (.of_covers (.of_subset ?_)))
  · intro h member
    simp only [List.mem_append] at member ⊢
    tauto
  · intro h member
    simp only [List.mem_append] at member ⊢
    tauto

namespace Coheres

private theorem of_becomes (outside : e.outside = d.outside) (becomes : Becomes d.outside d.handles e.handles) :
    d.Coheres e :=
  ⟨outside, becomes⟩

private theorem refl (d : Device σ) : d.Coheres d := ⟨rfl, .refl _⟩

private theorem trans (first : d.Coheres e) (second : e.Coheres f) : d.Coheres f :=
  ⟨second.outside.trans first.outside, first.becomes.trans (first.outside ▸ second.becomes)⟩

private theorem of_result {α : Type} {result : α × Device σ} (coheres : d.Coheres result.2) {a : α}
    (eq : result = (a, e)) :
    d.Coheres e := by
  rwa [eq] at coheres

/-- What holds the same queues over the same medium looks where it looked. -/
private theorem of_same (reading : e.reading = d.reading) (writing : e.writing = d.writing)
    (medium : e.medium = d.medium)
    (outside : e.outside = d.outside) : d.Coheres e := by
  refine of_becomes outside ?_
  rw [handles, handles, reading, writing, medium]
  exact .refl _

/-- The current read queue changes alone. -/
private theorem of_reading {q : ChunkQueue}
    (becomes : Becomes (d.heldBesideReading d.reading.current) d.readQueue.chunks q.chunks)
    (reading : e.reading = d.reading.put q) (writing : e.writing = d.writing) (medium : e.medium = d.medium)
    (outside : e.outside = d.outside) : d.Coheres e :=
  Trades.of_reading d.reading.getElem?_current becomes (congrArg Channels.queues reading) writing medium outside

/-- The current write queue changes alone. -/
private theorem of_writing {q : ChunkQueue} (becomes : Becomes d.heldBesideWriting d.writeQueue.chunks q.chunks)
    (reading : e.reading = d.reading) (writing : e.writing = d.writing.put q) (medium : e.medium = d.medium)
    (outside : e.outside = d.outside) : d.Coheres e := by
  have changed : Becomes (Handle.ids (Holder.handles d.medium) ++ (Handle.ids d.reading.handles ++ d.outside))
      ([] ++ d.writing.handles) ([] ++ (d.writing.put q).handles) := by
    refine Channels.set_becomes d.writing.getElem?_current (becomes.mono fun id member => ?_)
    have own := @Holder.ids_subset _ _ _ d.medium id
    simp only [heldBesideWriting, Channels.ids_handles, List.mem_append] at member ⊢
    tauto
  refine of_becomes outside ?_
  rw [handles, handles, reading, writing, medium]
  exact .behind (.beside changed)

/-- The medium changes alone. -/
private theorem of_medium (becomes : Becomes d.heldBesideMedium (Holder.handles d.medium) (Holder.handles e.medium))
    (reading : e.reading = d.reading) (writing : e.writing = d.writing) (outside : e.outside = d.outside) :
    d.Coheres e :=
  Trades.of_medium becomes reading writing outside

/-- Channels and a medium that hold views of what they held. -/
private theorem of_covers (reading : Covers d.reading.handles e.reading.handles)
    (writing : Covers d.writing.handles e.writing.handles) (medium : Covers (Holder.handles d.medium) (Holder.handles e.medium))
    (outside : e.outside = d.outside) : d.Coheres e :=
  of_becomes outside (.of_covers (reading.append (writing.append medium)))

end Coheres

/-! Reading -/

private theorem sync_coheres (d : Device σ) : d.Coheres d.sync.2 := by
  obtain ⟨m, mediumPos, synced, same | sought⟩ := d.sync_parts
  · rw [synced]
    exact .of_same rfl rfl same rfl
  · rw [synced]
    refine .of_medium ?_ rfl rfl rfl
    rw [sought]
    exact Holder.seek _ d.medium d.pos

private theorem readThrough_coheres (d : Device σ) (n : Nat) : d.Coheres (d.readThrough n) := by
  obtain ⟨mediumPos, read⟩ := d.readThrough_parts n
  rw [read]
  exact .of_medium (.of_covers (Holder.read _ d.medium n)) rfl rfl rfl

/-- Room is made behind the queued bytes, and what came is written there. -/
private theorem fill_coheres (d : Device σ) (chunk : Nat) : d.Coheres (d.fill chunk).2 := by
  rw [fill]
  dsimp only
  split
  · exact .refl d
  · next q granted =>
    have reserved := ChunkQueue.reserve_becomes granted
    have covers := Holder.read d.heldBesideMedium d.medium chunk
    have chopped (q : ChunkQueue) (n : Nat) : Becomes (d.heldBesideReading d.reading.current) q.chunks (q.chop n).chunks :=
      .of_covers (ChunkQueue.remains_chop q n).covers
    split
    · next e m came =>
      rw [came] at covers
      have queued : d.Coheres { d with reading := d.reading.put (q.chop chunk) } :=
        .of_reading (reserved.trans (chopped q chunk)) rfl rfl rfl rfl
      exact queued.trans (.of_medium (.of_covers covers) rfl rfl rfl)
    · next delivery m came =>
      rw [came] at covers
      rw [follow_eq]
      generalize delivery.bytes ++ (q.slot chunk).drop delivery.bytes.length = slot
      have filled := reserved.trans (ChunkQueue.fill_becomes q slot)
      have queued : d.Coheres { d with reading := d.reading.put ((q.fill _ slot).chop (chunk - min delivery.count chunk)) } :=
        .of_reading (filled.trans (chopped _ _)) rfl rfl rfl rfl
      exact queued.trans (.of_medium (.of_covers covers) rfl rfl rfl)

private theorem Touch.coheres {keep : Bool} (step : Touch keep d e) : d.Coheres e := by
  cases step with
  | note pos place errorString => exact .of_same rfl rfl rfl rfl
  | sync => exact sync_coheres d
  | read gone n => exact readThrough_coheres d n
  | fill chunk => exact fill_coheres d chunk
  | drop gone q kept remains => exact .of_reading (.of_covers remains.covers) rfl rfl rfl rfl

private theorem Touches.coheres {keep : Bool} (touches : Touches keep d e) : d.Coheres e := by
  induction touches with
  | refl => exact .refl d
  | tail _ step ih => exact ih.trans step.coheres

private theorem Bout.coheres {peeking : Bool} (bout : Bout peeking d e) : d.Coheres e := by
  cases bout with
  | said errorString => exact .of_same rfl rfl rfl rfl
  | pass buffer => exact (readPass_touches d peeking buffer).coheres
  | line reads room => exact (linePass_touches d room).coheres
  | chunk reads idle =>
    exact .of_reading (.of_covers (ChunkQueue.remains_readChunk d.readQueue).covers) rfl rfl rfl rfl
  | skip reads direct n => exact .of_reading (.of_covers (ChunkQueue.remains_free d.readQueue n).covers) rfl rfl rfl rfl
  | jump random place => exact .of_same rfl rfl rfl rfl

private theorem Bouts.coheres {peeking : Bool} (bouts : Bouts peeking d e) : d.Coheres e := by
  induction bouts with
  | refl => exact .refl d
  | tail _ bout ih => exact ih.trans bout.coheres

/-! Writing -/

private theorem writes_becomes {held : List StorageId} {m m' : σ} (writes : Writes held m m') :
    Becomes held (Holder.handles m) (Holder.handles m') := by
  induction writes with
  | refl => exact .refl _
  | tail _ step ih =>
    obtain ⟨bytes, rfl⟩ := step
    exact ih.trans (Holder.write held _ bytes)

private theorem Put.coheres (step : Put d e) : d.Coheres e := by
  cases step with
  | said errorString => exact .of_same rfl rfl rfl rfl
  | sync => exact sync_coheres d
  | offered direct bytes =>
    obtain ⟨m, offered, writes⟩ := d.offer_parts bytes
    rw [offered, follow_eq, advance_eq]
    exact .of_medium (writes_becomes writes) rfl rfl rfl
  | queue stream buffered able bytes =>
    exact .of_writing (ChunkQueue.appendBytes_becomes d.writeQueue bytes) rfl rfl rfl rfl
  | handed some => exact .of_medium (Holder.write _ d.medium _) rfl rfl rfl
  | sent n => exact .of_writing (.of_covers (ChunkQueue.remains_free d.writeQueue n).covers) rfl rfl rfl rfl
  | chosen channel inside =>
    refine .of_covers (.refl _) ?_ (Holder.select d.medium _ _) rfl
    rw [Channels.handles_select]
    exact .refl _
  | flush => exact .of_medium (.of_covers (Holder.flush d.medium)) rfl rfl rfl
  | forget random n => exact .of_reading (.of_covers (ChunkQueue.remains_free d.readQueue n).covers) rfl rfl rfl rfl

private theorem Puts.coheres (puts : Puts d e) : d.Coheres e := by
  induction puts with
  | refl => exact .refl d
  | tail _ step ih => exact ih.trans step.coheres

/-! Opening, closing and moving -/

private theorem refuse_coheres {α : Type} (d : Device σ) (kind : FailureKind) (call : String) :
    d.Coheres (d.refuse kind call : Except Failure α × Device σ).2 := .of_same rfl rfl rfl rfl

private theorem openWith_coheres (d : Device σ) (mode : OpenMode) : d.Coheres (d.openWith mode).2 := by
  have opened := Holder.openWith d.medium mode.normalized
  rw [openWith]
  dsimp only
  split
  · exact refuse_coheres d _ _
  · split
    · exact refuse_coheres d _ _
    · split
      · next e m came =>
        rw [came] at opened
        exact .of_covers (.refl _) (.refl _) opened rfl
      · next m came =>
        rw [came] at opened
        exact .of_covers (Channels.single_covers _) (Channels.single_covers _) (opened.trans (Holder.select m 0 0)) rfl

private theorem close_coheres (d : Device σ) : d.Coheres d.close.2 := by
  have flushed := (flushAll_puts d).coheres
  rw [close]
  split
  · exact .refl d
  · generalize d.flushAll = result at flushed
    obtain ⟨result, e⟩ := result
    have closed (errorString : String) : e.Coheres { e with
        medium := (Medium.close e.medium).2
        mode := .closed
        reading := .single e.config.chunkSize
        pos := 0
        mediumPos := 0
        transaction := .idle
        errorString := errorString } :=
      .of_covers (Channels.single_covers _) (.refl _) (Holder.close e.medium) rfl
    dsimp only at flushed ⊢
    split
    · exact flushed.trans (closed _)
    · exact flushed.trans (closed _)
    · exact flushed.trans (closed e.errorString)

private theorem seek_coheres (d : Device σ) (place : Nat) : d.Coheres (d.seek place).2 := by
  have sought := Holder.seek d.heldBesideMedium d.medium place
  rw [seek]
  split
  · exact refuse_coheres d _ _
  · split
    · exact refuse_coheres d _ _
    · split
      · exact (moveTo_touches rfl d place).coheres
      · split
        · next m came =>
          rw [came] at sought
          have cleared : d.Coheres { d with medium := m, reading := d.reading } := .of_medium sought rfl rfl rfl
          exact cleared.trans (.of_reading (.of_covers (ChunkQueue.remains_clear _).covers) rfl rfl rfl rfl)
        · next e m came =>
          rw [came] at sought
          split
          · exact .of_medium sought rfl rfl rfl
          · exact .of_medium sought rfl rfl rfl

private theorem ungetByte_coheres (d : Device σ) (b : UInt8) : d.Coheres (d.ungetByte b).2 := by
  rw [ungetByte]
  split
  · exact refuse_coheres d _ _
  · split
    · exact refuse_coheres d _ _
    · split
      · exact refuse_coheres d _ _
      · exact .of_reading (ChunkQueue.unget_becomes d.readQueue b) rfl rfl rfl rfl

/-! Transactions and channels -/

private theorem startTransaction_coheres (d : Device σ) : d.Coheres d.startTransaction.2 := by
  rw [startTransaction]
  split
  · exact refuse_coheres d _ _
  · split
    · exact refuse_coheres d _ _
    · exact .of_same rfl rfl rfl rfl

private theorem commit_coheres (d : Device σ) : d.Coheres d.commit.2 := by
  rw [commit]
  split
  · exact refuse_coheres d _ _
  · exact .of_reading (.of_covers (ChunkQueue.remains_free d.readQueue _).covers) rfl rfl rfl rfl
  · exact .of_same rfl rfl rfl rfl

private theorem rollback_coheres (d : Device σ) : d.Coheres d.rollback.2 := by
  rw [rollback]
  split
  · exact refuse_coheres d _ _
  · exact .of_same rfl rfl rfl rfl
  · next startPos _ =>
    have moved : d.Coheres (d.moveTo startPos) := (moveTo_touches rfl d startPos).coheres
    exact moved.trans (.of_same rfl rfl rfl rfl)

private theorem selectReading_coheres (d : Device σ) (channel : Nat) : d.Coheres (d.selectReading channel).2 := by
  rw [selectReading]
  split
  · exact refuse_coheres d _ _
  · split
    · exact refuse_coheres d _ _
    · split
      · exact .refl d
      · refine .of_covers ?_ (.refl _) (Holder.select d.medium _ _) rfl
        rw [Channels.handles_select]
        exact .refl _

private theorem setText_coheres (d : Device σ) (on : Bool) : d.Coheres (d.setText on).2 := by
  rw [setText]
  split
  · exact refuse_coheres d _ _
  · exact .of_same rfl rfl rfl rfl

/-! Handles that come with a call, and those that go out with its answer -/

/-- Bytes that are copied out are nobody's business. -/
private theorem Coheres.lends (coheres : d.Coheres e) (bytes : List UInt8) : d.Trades [] [ofList e.held bytes] e := by
  refine ⟨coheres.outside, coheres.becomes.trans (.of_copy bytes ?_)⟩
  rw [← coheres.outside]
  exact ids_handles_subset e

private theorem read_trades (d : Device σ) (n : Nat) : d.Trades [] (d.read n).1.toOption.toList (d.read n).2 := by
  rw [Device.read]
  split
  · exact refuse_coheres d _ _
  · split
    · exact ⟨rfl, .of_covers (.cons .blank (.refl _))⟩
    · split
      · exact Trades.of_reading d.reading.getElem?_current (.of_covers (ChunkQueue.readChunk_covers d.readQueue)) rfl rfl rfl rfl
      · have steps := (readSteps_bouts d n).coheres
        split
        · next came => exact steps.of_result came
        · next bytes e came => exact (steps.of_result came).lends bytes

private theorem readAll_trades (d : Device σ) : d.Trades [] d.readAll.1.toOption.toList d.readAll.2 := by
  rw [readAll]
  split
  · exact refuse_coheres d _ _
  · have pieces := (readPieces_bouts d Word.maxValue).coheres
    split
    · next came => exact pieces.of_result came
    · next all e came => exact (pieces.of_result came).lends _

private theorem peek_trades (d : Device σ) (n : Nat) : d.Trades [] (d.peek n).1.toOption.toList (d.peek n).2 := by
  rw [peek]
  split
  · exact refuse_coheres d _ _
  · dsimp only
    have passed := (readPass_touches d true (List.replicate (min n (max d.bytesAvailable d.config.bufferSize)) 0)).coheres
    split
    · next came => exact passed.of_result came
    · next bytes e came => exact (passed.of_result came).lends bytes

private theorem readLine_trades (d : Device σ) (n : Nat) :
    d.Trades [] (d.readLine n).1.toOption.toList (d.readLine n).2 := by
  rw [readLine]
  split
  · exact refuse_coheres d _ _
  · have steps := (lineSteps_bouts d (if n = 0 then Word.maxValue else n)).coheres
    split
    · next came => exact steps.of_result came
    · next line e came => exact (steps.of_result came).lends line

/-- What is pushed is taken over as it is, and stays what it is for whoever kept it. -/
private theorem push_trades (d : Device σ) (channel : Nat) (data : Handle) :
    d.Trades [data] [] (d.push channel data).2 := by
  have left (e : Device σ) (coheres : d.Coheres e) : d.Trades [data] [] e :=
    ⟨coheres.outside, .trans (.of_covers (.of_subset (List.subset_cons_self ..))) coheres.becomes⟩
  rw [push]
  split
  · exact left _ (refuse_coheres d _ _)
  · next inside =>
    split
    · exact left _ (refuse_coheres d _ _)
    · obtain ⟨q, here⟩ : ∃ q, d.reading.queues[channel]? = some q :=
        ⟨_, List.getElem?_eq_getElem (Nat.not_le.mp inside)⟩
      exact .of_reading here (ChunkQueue.append_becomes q data) (modify_eq_set here _) rfl rfl rfl

/-! All calls -/

private theorem answer_coheres {α : Type} {f : α → Reply} (bare : ∀ a, (f a).handles = [])
    {result : Except Failure α × Device σ}
    (coheres : d.Coheres result.2) : d.Trades [] (answered (answer f result).1) (answer f result).2 := by
  obtain ⟨failure | a, e⟩ := result
  · exact coheres
  · have none : answered (answer f (.ok a, e)).1 = [] := by
      simp [answered, answer, Except.map, Except.toOption, bare]
    rw [none]
    exact coheres

private theorem answer_trades {result : Except Failure Handle × Device σ}
    (trades : d.Trades [] result.1.toOption.toList result.2) :
    d.Trades [] (answered (answer .handle result).1) (answer .handle result).2 := by
  obtain ⟨failure | h, e⟩ := result
  · exact trades
  · exact trades

/-- No call writes what those look at whose handles it takes over, or who hold or are given others. -/
theorem perform_trades (d : Device σ) (action : Action) :
    d.Trades action.given (answered (d.perform action).1) (d.perform action).2 := by
  cases action with
  | openWith mode => exact answer_coheres (fun _ => rfl) (openWith_coheres d mode)
  | close => exact answer_coheres (fun _ => rfl) (close_coheres d)
  | flush => exact answer_coheres (fun _ => rfl) (flush_puts d).coheres
  | read n => exact answer_trades (read_trades d n)
  | readAll => exact answer_trades (readAll_trades d)
  | readInto buffer => exact answer_coheres (fun _ => rfl) (readInto_bouts d buffer).coheres
  | peek n => exact answer_trades (peek_trades d n)
  | peekInto buffer => exact answer_coheres (fun _ => rfl) (peekInto_bouts d buffer).coheres
  | readLine n => exact answer_trades (readLine_trades d n)
  | readLineInto room => exact answer_coheres (fun _ => rfl) (readLineInto_bouts d room).coheres
  | skip n => exact answer_coheres (fun _ => rfl) (skip_bouts d n).coheres
  | getByte => exact answer_coheres (fun _ => rfl) (getByte_bouts d).coheres
  | ungetByte b => exact answer_coheres (fun _ => rfl) (ungetByte_coheres d b)
  | write bytes => exact answer_coheres (fun _ => rfl) (write_puts d bytes).coheres
  | putByte b => exact answer_coheres (fun _ => rfl) (putByte_puts d b).coheres
  | seek place => exact answer_coheres (fun _ => rfl) (seek_coheres d place)
  | reset => exact answer_coheres (fun _ => rfl) (seek_coheres d 0)
  | startTransaction => exact answer_coheres (fun _ => rfl) (startTransaction_coheres d)
  | commit => exact answer_coheres (fun _ => rfl) (commit_coheres d)
  | rollback => exact answer_coheres (fun _ => rfl) (rollback_coheres d)
  | growReading n => exact Coheres.of_covers (d.reading.grow_covers n _) (.refl _) (.refl _) rfl
  | growWriting n => exact Coheres.of_covers (.refl _) (d.writing.grow_covers n _) (.refl _) rfl
  | selectReading channel => exact answer_coheres (fun _ => rfl) (selectReading_coheres d channel)
  | selectWriting channel => exact answer_coheres (fun _ => rfl) (selectWriting_puts d channel).coheres
  | push channel data =>
    have pushed := push_trades d channel data
    rw [perform]
    generalize d.push channel data = result at pushed
    obtain ⟨failure | done, e⟩ := result
    · exact pushed
    · exact pushed
  | setText on => exact answer_coheres (fun _ => rfl) (setText_coheres d on)

end ByteFlow.Device
