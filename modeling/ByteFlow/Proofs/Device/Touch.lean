import ByteFlow.Proofs.ChunkQueue.Remains
import ByteFlow.Proofs.Device.Peek
import ByteFlow.Proofs.Device.Put
import ByteFlow.Proofs.Medium.Faultless

/-! What a reading call may do to a device, step by step.
It finds the medium, reads from it, queues what came, moves the position and says what failed. Only where
reading takes the bytes does it read past the queue or drop any of those queued. Each pass is a run of such
steps, over any medium and from any state, so that what every step leaves alone no pass changes. -/
namespace ByteFlow.Device
open Medium

variable {σ : Type} [Medium σ]

/-- Reads from the medium past the queue. -/
def readThrough (d : Device σ) (n : Nat) : Device σ :=
  match Medium.read d.heldBesideMedium d.medium n with
  | (.error _, m) => { d with medium := m }
  | (.ok delivery, m) => follow { d with medium := m } (min delivery.count n)

/-- A step of a reading call, which leaves the queued bytes queued if `keep` is set. -/
inductive Touch (keep : Bool) (d : Device σ) : Device σ → Prop where
  | note (pos place : Nat) (errorString : String) :
      Touch keep d { d with pos := pos, transaction := d.transaction.upTo place, errorString := errorString }
  | sync : Touch keep d d.sync.2
  | read (gone : keep = false) (n : Nat) : Touch keep d (d.readThrough n)
  | fill (chunk : Nat) : Touch keep d (d.fill chunk).2
  | drop (gone : keep = false) (q : ChunkQueue) (kept : d.readQueue.WellFormed → q.WellFormed)
      (remains : d.readQueue.Remains q) : Touch keep d { d with reading := d.reading.put q }

/-- Steps one after the other. -/
def Touches (keep : Bool) : Device σ → Device σ → Prop := Relation.ReflTransGen (Touch keep)

variable {keep : Bool} {d e f : Device σ}

private theorem Touch.touches (step : Touch keep d e) : Touches keep d e := Relation.ReflTransGen.single step

namespace Touches

theorem refl (d : Device σ) : Touches keep d d := Relation.ReflTransGen.refl

theorem trans (first : Touches keep d e) (second : Touches keep e f) : Touches keep d f :=
  Relation.ReflTransGen.trans first second

theorem of_pos (d : Device σ) (pos : Nat) : Touches keep d { d with pos := pos } := by
  have step : Touches keep d _ := (Touch.note pos d.cursor d.errorString).touches
  rwa [upTo_cursor] at step

theorem said (d : Device σ) (errorString : String) : Touches keep d { d with errorString := errorString } := by
  have step : Touches keep d _ := (Touch.note d.pos d.cursor errorString).touches
  rwa [upTo_cursor] at step

theorem dropped (gone : keep = false) {q : ChunkQueue} (kept : d.readQueue.WellFormed → q.WellFormed)
    (remains : d.readQueue.Remains q) : Touches keep d { d with reading := d.reading.put q } :=
  (Touch.drop gone q kept remains).touches

private theorem of_result {α : Type} {result : α × Device σ} (touches : Touches keep d result.2) {a : α}
    (eq : result = (a, e)) :
    Touches keep d e := by
  rwa [eq] at touches

end Touches

private theorem advance_touches (d : Device σ) (n : Nat) : Touches keep d (d.advance n) := by
  rw [advance_eq]
  exact .of_pos d _

private theorem sync_touches (d : Device σ) : Touches keep d d.sync.2 := Touch.sync.touches

private theorem fill_touches (d : Device σ) (chunk : Nat) :
    Touches keep d (d.fill chunk).2 := (Touch.fill chunk).touches

/-- Queued bytes that are taken are the first ones. -/
private theorem free_touches (gone : keep = false) (d : Device σ) (n : Nat) :
    Touches keep d { d with reading := d.reading.put (d.readQueue.free n) } :=
  .dropped gone (fun wf => (ChunkQueue.free_spec wf n).1) (ChunkQueue.remains_free _ n)

/-! Passes -/

theorem takeQueued_touches (d : Device σ) (p : Pass) : Touches keep d (d.takeQueued keep p).2 := by
  rw [takeQueued]
  split
  · exact advance_touches d _
  · next gone =>
    refine .trans (.dropped (by simpa using gone) ?_ (ChunkQueue.remains_read _ _)) (advance_touches _ _)
    exact fun wf => (ChunkQueue.read_spec wf p.spare.length).2.1

private theorem refill_touches (d : Device σ) (p : Pass) : Touches keep d (d.refill keep p).2 := by
  have synced : Touches keep d d.sync.2 := sync_touches d
  rw [refill]
  split
  · next found => exact synced.of_result found
  · next e found =>
    have synced := synced.of_result found
    dsimp only
    split
    · next direct =>
      have gone : keep = false := by
        rw [Bool.and_eq_true, Bool.not_eq_true'] at direct
        exact direct.2
      have read : Touches keep e _ := (Touch.read gone p.spare.length).touches
      rw [readThrough] at read
      split
      · next came =>
        rw [came] at read
        exact synced.trans read
      · next came =>
        rw [came] at read
        exact synced.trans (read.trans (advance_touches _ _))
    · have filled : Touches keep e _ := fill_touches e (if e.isBuffered then e.config.bufferSize else
        min p.spare.length e.config.bufferSize)
      split
      · next came => exact synced.trans (filled.of_result came)
      · next came => exact synced.trans (filled.of_result came)

theorem gather_touches (d : Device σ) (p : Pass) : Touches keep d (d.gather keep p).2 := by
  fun_induction gather d keep p with
  | case1 d p done => exact .refl d
  | case2 d p some e f failed none => exact (refill_touches d p).of_result failed
  | case3 d p some e f failed some_ => exact ((refill_touches d p).of_result failed).trans (.said f _)
  | case4 d p some more e came => exact (refill_touches d p).of_result came
  | case5 d p some got more e came positive next f taken shorter ih =>
    have refilled : Touches keep d e := (refill_touches d p).of_result came
    have queued : Touches keep e f := (takeQueued_touches e more).of_result taken
    exact refilled.trans (queued.trans ih)
  | case6 d p some got more e came positive next f taken full =>
    have refilled : Touches keep d e := (refill_touches d p).of_result came
    exact refilled.trans ((takeQueued_touches e more).of_result taken)

private theorem collect_touches (d : Device σ) (room : Nat) (p : Pass) : Touches keep d (d.collect keep room p).2 := by
  induction left : room - p.decided using Nat.strongRecOn generalizing d p with
  | ind _ ih =>
    subst left
    have queued : Touches keep d (d.takeQueued keep p).2 := takeQueued_touches d p
    rw [collect]
    generalize d.takeQueued keep p = result at queued
    obtain ⟨q, e⟩ := result
    have gathered := Touches.trans queued (gather_touches e q)
    dsimp only
    generalize e.gather keep q = result at gathered
    obtain ⟨failure | q, f⟩ := result
    · exact gathered
    · dsimp only
      split
      · split
        · exact gathered.trans (ih _ (by omega) f q.strip rfl)
        · exact gathered
      · exact gathered

private theorem lookAhead_touches (d : Device σ) (place : Nat) : Touches keep d (d.lookAhead place) := by
  have synced : Touches keep d d.sync.2 := sync_touches d
  rw [lookAhead]
  split
  · exact .refl d
  · split
    · next found => exact synced.of_result found
    · next e found => exact (synced.of_result found).trans (fill_touches e e.fillSize)

private theorem closeLine_touches (d : Device σ) (p : Pass) : Touches keep d (d.closeLine keep p).2 := by
  rw [closeLine]
  split
  · dsimp only
    generalize (if keep = true then p.offset else 0) = place
    have looked : Touches keep d (d.lookAhead place) := lookAhead_touches d place
    generalize d.lookAhead place = e at looked
    split
    · split
      · exact looked.trans (advance_touches e 1)
      · next gone => exact looked.trans (.trans (free_touches (by simpa using gone) e 1) (advance_touches _ 1))
    · exact looked
  · exact .refl d

theorem moveTo_touches (gone : keep = false) (d : Device σ) (place : Nat) : Touches keep d (d.moveTo place) := by
  rw [moveTo]
  split
  · exact .trans (free_touches gone d _) (.of_pos _ place)
  · exact .trans (.dropped gone (fun _ => (ChunkQueue.clear_spec _).1) (ChunkQueue.remains_clear _)) (.of_pos _ place)

private theorem unread_touches (d : Device σ) (place : Nat) : Touches keep d (d.unread keep place) := by
  rw [unread]
  split
  · exact .of_pos d place
  · next gone => exact moveTo_touches (by simpa using gone) d place

private theorem moveCursor_touches (d : Device σ) (place : Nat) : Touches keep d (d.moveCursor place) := by
  rw [moveCursor_eq]
  exact (Touch.note d.pos place d.errorString).touches

private theorem settle_touches (d : Device σ) (p : Pass) : Touches keep d (d.settle p) := by
  rw [settle_eq]
  exact (Touch.note _ p.offset d.errorString).touches

theorem readPass_touches (d : Device σ) (peeking : Bool) (buffer : List UInt8) :
    Touches (d.keeps peeking) d (d.readPass peeking buffer).2 := by
  have collected : Touches (d.keeps peeking) d _ := collect_touches d buffer.length (.start buffer d.cursor)
  rw [readPass]
  dsimp only
  split
  · next failed => exact (collected.of_result failed).trans (.said _ _)
  · next p e came =>
    have closed := (collected.of_result came).trans (closeLine_touches e p)
    dsimp only
    split
    · exact closed.trans (unread_touches _ d.pos)
    · exact closed.trans (settle_touches _ _)

/-! Lines -/

private theorem takeLine_touches (d : Device σ) (room place : Nat) :
    Touches keep d (d.takeLine keep room place).2.2 := by
  rw [takeLine]
  dsimp only
  split
  · exact .of_pos d _
  · next gone => exact .trans (free_touches (by simpa using gone) d _) (.of_pos _ _)

private theorem provideByte_touches (d : Device σ) (place : Nat) : Touches keep d (d.provideByte place).2 := by
  rw [← lookAhead_eq]
  exact lookAhead_touches d place

private theorem rawLine_touches (d : Device σ) (room place : Nat) : Touches keep d (d.rawLine keep room place).2 := by
  induction room using Nat.strongRecOn generalizing d place with
  | ind room ih =>
    have provided : Touches keep d (d.provideByte place).2 := provideByte_touches d place
    rw [rawLine]
    split
    · exact .refl d
    · generalize d.provideByte place = result at provided
      obtain ⟨failure | there, e⟩ := result
      · exact provided
      · cases there with
        | false => exact provided
        | true =>
          have taken := Touches.trans provided (takeLine_touches e room place)
          dsimp only
          generalize e.takeLine keep room place = result at taken
          obtain ⟨bytes, next, f⟩ := result
          dsimp only
          split
          · have rest := Touches.trans taken (ih (room - bytes.length) (by omega) f next)
            generalize f.rawLine keep (room - bytes.length) next = result at rest
            obtain ⟨failure | more, g⟩ := result
            · exact rest.trans (.said g _)
            · exact rest
          · exact taken

private theorem normalizeEnd_touches (d : Device σ) (line : List UInt8) (place : Nat) :
    Touches keep d (d.normalizeEnd keep line place).2.2 := by
  rw [normalizeEnd]
  dsimp only
  split
  · exact .refl d
  · split
    · exact .refl d
    · split
      · have looked : Touches keep d (d.lookAhead place) := lookAhead_touches d place
        generalize d.lookAhead place = e at looked
        split
        · split
          · exact looked.trans (.of_pos e _)
          · next gone => exact looked.trans (.trans (free_touches (by simpa using gone) e 1) (.of_pos _ _))
        · exact looked
      · exact .refl d

theorem linePass_touches (d : Device σ) (room : Nat) : Touches (d.keeps false) d (d.linePass room).2 := by
  have raw : Touches (d.keeps false) d _ := rawLine_touches d room d.cursor
  rw [keeps_false] at raw ⊢
  rw [linePass]
  dsimp only
  generalize d.rawLine d.keepsLine room d.cursor = result at raw
  obtain ⟨failure | ⟨line, place⟩, e⟩ := result
  · exact raw.trans (.said e _)
  · exact raw.trans (.trans (normalizeEnd_touches e line place) (moveCursor_touches _ _))

/-! What no step changes -/

/-- What reading leaves alone, but for how far a transaction has read. -/
structure Left (d e : Device σ) : Prop where
  sequential : e.sequential = d.sequential
  mode : e.mode = d.mode
  config : e.config = d.config
  writing : e.writing = d.writing
  outside : e.outside = d.outside
  reading : e.reading = d.reading.put e.readQueue
  transaction : ∃ place, e.transaction = d.transaction.upTo place

omit [Medium σ] in
theorem Left.refl (d : Device σ) : d.Left d :=
  ⟨rfl, rfl, rfl, rfl, rfl, (Channels.put_queue d.reading).symm, d.cursor, (upTo_cursor d).symm⟩

omit [Medium σ] in
theorem Left.trans (first : d.Left e) (second : e.Left f) : d.Left f := by
  obtain ⟨place, begun⟩ := first.transaction
  obtain ⟨place', begun'⟩ := second.transaction
  refine ⟨second.sequential.trans first.sequential, second.mode.trans first.mode, second.config.trans first.config,
    second.writing.trans first.writing, second.outside.trans first.outside, ?_, place', ?_⟩
  · rw [second.reading, first.reading, Channels.put_put]
  · rw [begun', begun, Transaction.upTo_upTo]

/-- A fill reads from the medium, if at all, and changes the read queue and where the medium stands. -/
theorem fill_parts (d : Device σ) (chunk : Nat) : ∃ m q mediumPos,
    (d.fill chunk).2 = { d with medium := m, reading := d.reading.put q, mediumPos := mediumPos } ∧
      (m = d.medium ∨ m = (Medium.read d.heldBesideMedium d.medium chunk).2) := by
  rw [fill]
  dsimp only
  split
  · exact ⟨d.medium, d.readQueue, d.mediumPos, by rw [readQueue, Channels.put_queue], .inl rfl⟩
  · split
    · next came => exact ⟨_, _, d.mediumPos, rfl, .inr (congrArg Prod.snd came).symm⟩
    · next came =>
      rw [follow_eq]
      exact ⟨_, _, _, rfl, .inr (congrArg Prod.snd came).symm⟩

theorem readThrough_parts (d : Device σ) (n : Nat) : ∃ mediumPos, d.readThrough n =
    { d with medium := (Medium.read d.heldBesideMedium d.medium n).2, mediumPos := mediumPos } := by
  rw [readThrough]
  split
  · next came => exact ⟨d.mediumPos, by rw [came]⟩
  · next came => exact ⟨_, by rw [came, follow_eq]⟩

private theorem Touch.left (step : Touch keep d e) : d.Left e := by
  have of_parts (m : σ) (q : ChunkQueue) (mediumPos : Nat) :
      d.Left { d with medium := m, reading := d.reading.put q, mediumPos := mediumPos } :=
    ⟨rfl, rfl, rfl, rfl, rfl, by rw [readQueue, Channels.queue_put], d.cursor, (upTo_cursor d).symm⟩
  cases step with
  | note pos place errorString =>
    exact ⟨rfl, rfl, rfl, rfl, rfl, (Channels.put_queue d.reading).symm, place, rfl⟩
  | sync =>
    obtain ⟨m, mediumPos, synced, -⟩ := d.sync_parts
    rw [synced]
    exact { Left.refl d with }
  | read gone n =>
    obtain ⟨mediumPos, read⟩ := d.readThrough_parts n
    rw [read]
    exact { Left.refl d with }
  | fill chunk =>
    obtain ⟨m, q, mediumPos, filled, -⟩ := d.fill_parts chunk
    rw [filled]
    exact of_parts m q mediumPos
  | drop gone q kept remains => exact of_parts d.medium q d.mediumPos

theorem Touches.left (touches : Touches keep d e) : d.Left e := by
  induction touches with
  | refl => exact .refl d
  | tail _ step ih => exact ih.trans step.left

/-- What neither finding the medium nor reading from it changes, no step changes. -/
private theorem Touch.medium {p : σ → Prop} (seeks : ∀ held m place, p m → p (Medium.seek held m place).2)
    (reads : ∀ held m n, p m → p (Medium.read held m n).2) (step : Touch keep d e) (before : p d.medium) : p e.medium := by
  cases step with
  | note pos place errorString => exact before
  | sync =>
    obtain ⟨m, mediumPos, synced, same | sought⟩ := d.sync_parts
    · rw [synced, same]
      exact before
    · rw [synced, sought]
      exact seeks _ d.medium d.pos before
  | read gone n =>
    obtain ⟨mediumPos, read⟩ := d.readThrough_parts n
    rw [read]
    exact reads _ d.medium n before
  | fill chunk =>
    obtain ⟨m, q, mediumPos, filled, same | read⟩ := d.fill_parts chunk
    · rw [filled, same]
      exact before
    · rw [filled, read]
      exact reads _ d.medium chunk before
  | drop gone q kept remains => exact before

theorem Touches.medium {p : σ → Prop} (seeks : ∀ held m place, p m → p (Medium.seek held m place).2)
    (reads : ∀ held m n, p m → p (Medium.read held m n).2) (touches : Touches keep d e) (before : p d.medium) :
    p e.medium := by
  induction touches with
  | refl => exact before
  | tail _ step ih => exact step.medium seeks reads ih

omit [Medium σ] in
/-- How a call reads does not change while it does. -/
theorem Left.keeps (left : d.Left e) (peeking : Bool) : e.keeps peeking = d.keeps peeking := by
  obtain ⟨place, begun⟩ := left.transaction
  have same : e.inTransaction = d.inTransaction := by
    rw [inTransaction, inTransaction, begun]
    cases d.transaction <;> rfl
  rw [Device.keeps, Device.keeps, left.sequential, same, isBuffered, left.mode]
  rfl

/-! What a faultless medium leaves in order -/

section
variable [Faultless σ]

/-- A fill queues bytes behind the others. -/
theorem fill_queue {chunk : Nat} (wf : d.readQueue.WellFormed) :
    (d.fill chunk).2.readQueue.WellFormed ∧ d.readQueue.toList <+: (d.fill chunk).2.readQueue.toList := by
  rw [fill]
  dsimp only
  cases granted : d.readQueue.reserve? (d.heldBesideReading d.reading.current) chunk with
  | none => exact ⟨wf, List.prefix_refl _⟩
  | some q =>
    obtain ⟨bytes, m, read, few⟩ := Faultless.read_ok d.heldBesideMedium d.medium chunk
    rw [read]
    dsimp only
    obtain ⟨wf', filled⟩ := fill_chop_spec wf granted few
    rw [Nat.min_eq_left few, follow_eq, readQueue, Channels.queue_put]
    exact ⟨wf', filled ▸ List.prefix_append _ _⟩

private theorem Touch.readQueue (step : Touch keep d e) (wf : d.readQueue.WellFormed) :
    e.readQueue.WellFormed ∧ (keep = true → d.readQueue.toList <+: e.readQueue.toList) := by
  cases step with
  | note pos place errorString => exact ⟨wf, fun _ => List.prefix_refl _⟩
  | sync =>
    obtain ⟨m, mediumPos, synced, -⟩ := d.sync_parts
    rw [synced]
    exact ⟨wf, fun _ => List.prefix_refl _⟩
  | read gone n =>
    obtain ⟨mediumPos, read⟩ := d.readThrough_parts n
    rw [read]
    exact ⟨wf, fun _ => List.prefix_refl _⟩
  | fill chunk => exact ⟨(fill_queue wf).1, fun _ => (fill_queue wf).2⟩
  | drop gone q kept remains =>
    refine ⟨?_, fun keeps => absurd (keeps.symm.trans gone) (by decide)⟩
    rw [Device.readQueue, Channels.queue_put]
    exact kept wf

/-- The read queue stays well formed, and where bytes are kept it only grows. -/
theorem Touches.readQueue (touches : Touches keep d e) (wf : d.readQueue.WellFormed) :
    e.readQueue.WellFormed ∧ (keep = true → d.readQueue.toList <+: e.readQueue.toList) := by
  induction touches with
  | refl => exact ⟨wf, fun _ => List.prefix_refl _⟩
  | tail _ step ih =>
    obtain ⟨wf', grown⟩ := step.readQueue ih.1
    exact ⟨wf', fun keeps => (ih.2 keeps).trans (grown keeps)⟩

end

end ByteFlow.Device
