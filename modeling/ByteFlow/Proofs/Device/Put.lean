import ByteFlow.Device.Control
import ByteFlow.Proofs.Device.Pass
import Mathlib.Logic.Relation

/-! What a writing call may do to a device, step by step.
It finds the medium and offers it bytes, or queues them and hands queued ones on, and says what failed. Only
where a stream is written through the queue does it queue any, and only queued bytes are handed on. Flushing
and choosing a write channel are such runs too. -/
namespace ByteFlow.Device
open Medium

variable {σ : Type} [Medium σ]

/-- A step of a writing call. -/
inductive Put (d : Device σ) : Device σ → Prop where
  | said (errorString : String) : Put d { d with errorString := errorString }
  | sync : Put d d.sync.2
  | offered (direct : (d.sequential && d.isBuffered) = false) (bytes : List UInt8) :
      Put d (((d.offer bytes).2.2.follow (d.offer bytes).1).advance (d.offer bytes).1)
  | queue (stream : d.sequential = true) (buffered : d.isBuffered = true) (able : d.mode.writable = true)
      (bytes : List UInt8) :
      Put d { d with writing := d.writing.put (d.writeQueue.appendBytes d.heldBesideWriting bytes) }
  | handed (some : d.writeQueue.isEmpty = false) :
      Put d { d with medium := (Medium.write d.heldBesideMedium d.medium d.writeQueue.front).2 }
  | sent (n : Nat) : Put d { d with writing := d.writing.put (d.writeQueue.free n) }
  | chosen (channel : Nat) (inside : channel < d.writing.count) : Put d { d with
      writing := d.writing.select channel
      medium := Medium.select d.medium d.reading.current channel }
  | flush : Put d { d with medium := (Medium.flush d.medium).2 }
  | forget (random : d.sequential = false) (n : Nat) :
      Put d { d with reading := d.reading.put (d.readQueue.free n) }

/-- Steps one after the other. -/
def Puts : Device σ → Device σ → Prop := Relation.ReflTransGen Put

variable {d e f : Device σ}

private theorem Put.puts (step : Put d e) : Puts d e := Relation.ReflTransGen.single step

namespace Puts

theorem refl (d : Device σ) : Puts d d := Relation.ReflTransGen.refl

private theorem trans (first : Puts d e) (second : Puts e f) : Puts d f := Relation.ReflTransGen.trans first second

private theorem of_result {α : Type} {result : α × Device σ} (puts : Puts d result.2) {a : α} (eq : result = (a, e)) :
    Puts d e := by
  rwa [eq] at puts

end Puts

/-! What no step changes -/

theorem sync_parts (d : Device σ) : ∃ m mediumPos, d.sync.2 = { d with medium := m, mediumPos := mediumPos } ∧
    (m = d.medium ∨ m = (Medium.seek d.heldBesideMedium d.medium d.pos).2) := by
  rw [sync]
  split
  · exact ⟨d.medium, d.mediumPos, rfl, .inl rfl⟩
  · split
    · next sought => exact ⟨_, d.mediumPos, rfl, .inr (congrArg Prod.snd sought).symm⟩
    · next sought => exact ⟨_, d.pos, rfl, .inr (congrArg Prod.snd sought).symm⟩

/-- Writes to a medium, one after the other. -/
def Writes (held : List StorageId) : σ → σ → Prop :=
  Relation.ReflTransGen fun m m' => ∃ bytes, m' = (Medium.write held m bytes).2

/-- Offering writes to the medium and does nothing else. -/
theorem offer_parts (d : Device σ) (bytes : List UInt8) :
    ∃ m, (d.offer bytes).2.2 = { d with medium := m } ∧ Writes d.heldBesideMedium d.medium m := by
  fun_induction offer d bytes with
  | case1 d bytes none => exact ⟨d.medium, rfl, .refl⟩
  | case2 d bytes some e m wrote => exact ⟨m, rfl, .single ⟨bytes, by rw [wrote]⟩⟩
  | case3 d bytes some count m wrote n d' shorter more stop e rest ih =>
    obtain ⟨m', same, writes⟩ := ih
    rw [rest] at same
    exact ⟨m', same, .head ⟨bytes, by rw [wrote]⟩ writes⟩
  | case4 d bytes some count m wrote n d' full => exact ⟨m, rfl, .single ⟨bytes, by rw [wrote]⟩⟩

/-- What writing leaves alone. -/
structure Apart (d e : Device σ) : Prop where
  sequential : e.sequential = d.sequential
  mode : e.mode = d.mode
  config : e.config = d.config
  transaction : e.transaction = d.transaction
  outside : e.outside = d.outside
  readCount : e.reading.count = d.reading.count
  count : e.writing.count = d.writing.count
  reading : d.sequential = true → e.reading = d.reading
  pos : d.sequential = true → e.pos = d.pos

omit [Medium σ] in
private theorem Apart.refl (d : Device σ) : d.Apart d := ⟨rfl, rfl, rfl, rfl, rfl, rfl, rfl, fun _ => rfl, fun _ => rfl⟩

omit [Medium σ] in
private theorem Apart.trans (first : d.Apart e) (second : e.Apart f) : d.Apart f where
  sequential := second.sequential.trans first.sequential
  mode := second.mode.trans first.mode
  config := second.config.trans first.config
  transaction := second.transaction.trans first.transaction
  outside := second.outside.trans first.outside
  readCount := second.readCount.trans first.readCount
  count := second.count.trans first.count
  reading := fun stream => (second.reading (first.sequential.trans stream)).trans (first.reading stream)
  pos := fun stream => (second.pos (first.sequential.trans stream)).trans (first.pos stream)

private theorem Put.apart (step : Put d e) : d.Apart e := by
  have same := Apart.refl d
  cases step with
  | sync =>
    obtain ⟨m, mediumPos, synced, -⟩ := d.sync_parts
    rw [synced]
    exact { same with }
  | offered direct bytes =>
    obtain ⟨m, offered, -⟩ := d.offer_parts bytes
    rw [offered, follow_eq, advance_eq]
    exact { same with pos := fun stream => if_pos stream }
  | queue stream buffered able bytes => exact { same with count := d.writing.count_put _ }
  | sent n => exact { same with count := d.writing.count_put _ }
  | chosen channel inside => exact { same with count := d.writing.count_select channel }
  | forget random n =>
    exact { same with
      readCount := d.reading.count_put _
      reading := fun stream => absurd (stream.symm.trans random) (by decide) }
  | _ => exact { same with }

theorem Puts.apart (puts : Puts d e) : d.Apart e := by
  induction puts with
  | refl => exact .refl d
  | tail _ step ih => exact ih.trans step.apart

/-! Writing -/

private theorem writePiece_puts (able : d.mode.writable = true) (bytes : List UInt8) :
    Puts d (d.writePiece bytes).2 := by
  rw [writePiece]
  split
  · exact .refl d
  · split
    · next queues =>
      rw [Bool.and_eq_true] at queues
      exact (Put.queue queues.1 queues.2 able bytes).puts
    · next direct =>
      have moved := (Put.offered (Bool.of_not_eq_true direct) bytes).puts
      generalize d.offer bytes = result at moved
      obtain ⟨done, stop, e⟩ := result
      dsimp only at moved ⊢
      split
      · exact moved
      · split
        · exact moved.trans (Put.said _).puts
        · exact moved.trans (Put.said _).puts

private theorem writeLines_puts (able : d.mode.writable = true) (lines : List (List UInt8)) :
    Puts d (d.writeLines lines).2 := by
  induction lines generalizing d with
  | nil => exact .refl d
  | cons line rest ih =>
    rw [writeLines]
    generalize (if (line.getLast? == some Byte.lineFeed) = true then line.dropLast else line) = body
    have first := writePiece_puts able body
    generalize d.writePiece body = result at first
    obtain ⟨failure | n, e⟩ := result
    · exact first
    · dsimp only
      split
      · exact first
      · have able' : e.mode.writable = true := by rwa [first.apart.mode]
        have second := first.trans (writePiece_puts able' [Byte.carriageReturn, Byte.lineFeed])
        generalize e.writePiece [Byte.carriageReturn, Byte.lineFeed] = result at second
        obtain ⟨failure | k, f⟩ := result
        · exact second
        · dsimp only at second ⊢
          split
          · exact second
          · have able'' : f.mode.writable = true := by rwa [second.apart.mode]
            have others := second.trans (ih able'')
            generalize f.writeLines rest = result at others
            obtain ⟨failure | more, g⟩ := result
            · exact others
            · exact others

theorem drain_puts (d : Device σ) (all : Bool) : Puts d (d.drain all).2 := by
  fun_induction drain d all with
  | case1 d none => exact .refl d
  | case2 d some block e m wrote =>
    have step := (Put.handed (d := d) (Bool.of_not_eq_true some)).puts
    rwa [wrote] at step
  | case3 d some block count m wrote n nothing =>
    have step := (Put.handed (d := d) (Bool.of_not_eq_true some)).puts
    rwa [wrote] at step
  | case4 d some block count m wrote n something rest next shorter ih =>
    have step := (Put.handed (d := d) (Bool.of_not_eq_true some)).puts
    rw [wrote] at step
    exact (step.trans (Put.sent (d := { d with medium := m }) n).puts).trans ih
  | case5 d some block count m wrote n something rest next stays =>
    have step := (Put.handed (d := d) (Bool.of_not_eq_true some)).puts
    rw [wrote] at step
    exact step.trans (Put.sent (d := { d with medium := m }) n).puts

private theorem afterWrite_puts (d : Device σ) (startPos : Nat) : Puts d (d.afterWrite startPos) := by
  rw [afterWrite]
  split
  · next random => exact (Put.forget (by simpa using random) _).puts
  · split
    · have drained := drain_puts d false
      split
      · next handed => exact drained.of_result handed
      · next handed => exact (drained.of_result handed).trans (Put.said _).puts
    · exact .refl d

/-- Bytes go out as they are or line by line. -/
theorem outgoing_puts (able : d.mode.writable = true) (bytes : List UInt8) :
    Puts d (if d.isText && d.config.crlfOnWrite then d.writeLines (Newline.lines bytes) else d.writePiece bytes).2 := by
  split
  · exact writeLines_puts able _
  · exact writePiece_puts able bytes

omit [Medium σ] in
theorem writable_of_able (able : d.writeObstacle? = none) : d.isOpen = true ∧ d.mode.writable = true := by
  rw [writeObstacle?] at able
  split at able
  · cases able
  · next opened =>
    split at able
    · cases able
    · next writable => exact ⟨by simpa using opened, by simpa using writable⟩

theorem write_puts (d : Device σ) (bytes : List UInt8) : Puts d (d.write bytes).2 := by
  rw [Device.write]
  cases obstacle : d.writeObstacle? with
  | some kind => exact (Put.said _).puts
  | none =>
    dsimp only
    split
    · exact .refl d
    · have synced := (Put.sync (d := d)).puts
      generalize d.sync = result at synced
      obtain ⟨failure | done, e⟩ := result
      · exact synced.trans (Put.said _).puts
      · have able : e.mode.writable = true := by
          rw [synced.apart.mode]
          exact (writable_of_able obstacle).2
        have wrote := synced.trans (outgoing_puts able bytes)
        dsimp only
        generalize (if e.isText && e.config.crlfOnWrite then e.writeLines (Newline.lines bytes)
          else e.writePiece bytes) = result at wrote
        obtain ⟨failure | n, f⟩ := result
        · exact wrote
        · exact wrote.trans (afterWrite_puts f e.pos)

theorem putByte_puts (d : Device σ) (b : UInt8) : Puts d (d.putByte b).2 := by
  rw [putByte_eq]
  exact write_puts d [b]

/-! Flushing and choosing -/

theorem switchWriting_puts {channel : Nat} (inside : channel < d.writing.count) : Puts d (d.switchWriting channel) := by
  rw [switchWriting]
  split
  · exact .refl d
  · exact (Put.chosen channel inside).puts

private theorem drainChannels_puts (d : Device σ) (channels : List Nat) : Puts d (d.drainChannels channels).2 := by
  induction channels generalizing d with
  | nil => exact .refl d
  | cons channel rest ih =>
    rw [drainChannels]
    split
    · exact ih d
    · next some =>
      have inside : channel < d.writing.count := by
        by_contra outside
        rw [List.getElem?_eq_none (Nat.not_lt.mp outside)] at some
        exact some rfl
      have drained := (switchWriting_puts inside).trans (drain_puts _ true)
      split
      · next handed => exact drained.of_result handed
      · next e handed => exact (drained.of_result handed).trans (ih e)

/-- Where nothing is queued to be written there is nothing to drain. -/
private theorem drainChannels_unsent (unsent : ∀ q ∈ d.writing.queues, q.isEmpty = true) (channels : List Nat) :
    d.drainChannels channels = (.ok (), d) := by
  induction channels with
  | nil => rfl
  | cons channel rest ih =>
    have empty : ((d.writing.queues[channel]?).map ChunkQueue.isEmpty).getD true = true := by
      cases found : d.writing.queues[channel]? with
      | none => rfl
      | some q => exact unsent q (List.mem_of_getElem? found)
    rw [drainChannels, if_pos empty, ih]

theorem flushAll_unsent (unsent : ∀ q ∈ d.writing.queues, q.isEmpty = true) :
    d.flushAll = ((Medium.flush d.medium).1, { d with medium := (Medium.flush d.medium).2 }) := by
  rw [flushAll, drainChannels_unsent unsent]
  dsimp only
  rw [switchWriting, if_pos rfl]

theorem flushAll_puts (d : Device σ) : Puts d d.flushAll.2 := by
  have drained := drainChannels_puts d (List.range d.writing.count)
  rw [flushAll]
  generalize d.drainChannels (List.range d.writing.count) = result at drained
  obtain ⟨result, e⟩ := result
  have inside : d.writing.current < e.writing.count := by
    rw [drained.apart.count]
    exact d.writing.inside
  have back := drained.trans (switchWriting_puts inside)
  dsimp only at back ⊢
  cases result with
  | error failure => exact back
  | ok done => exact back.trans Put.flush.puts

theorem flush_puts (d : Device σ) : Puts d d.flush.2 := by
  have flushed := flushAll_puts d
  rw [Device.flush]
  split
  · exact (Put.said _).puts
  · split
    · next handed => exact flushed.of_result handed
    · next handed => exact (flushed.of_result handed).trans (Put.said _).puts

theorem selectWriting_puts (d : Device σ) (channel : Nat) : Puts d (d.selectWriting channel).2 := by
  rw [selectWriting]
  split
  · exact (Put.said _).puts
  · next inside => exact switchWriting_puts (Nat.not_le.mp inside)

end ByteFlow.Device
