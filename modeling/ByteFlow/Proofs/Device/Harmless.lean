import ByteFlow.Device.Stream
import ByteFlow.Proofs.Device.Unsaid

/-! A call that fails changes nothing.
Over a medium that does not fail of its own, whatever a call does before it gives up is undone or nothing at
all: refusals come first, moves of the medium that it refuses leave it as it was, and a pass that took bytes
no longer fails. All that is left of a failure is what is said of it, which no later call heeds. -/
namespace ByteFlow.Device
open Medium

variable {σ α β : Type}

/-- A failed call leaves the device as it was but for what is said of the failure, and something is said. -/
def Spares (d : Device σ) : Except Failure α × Device σ → Prop
  | (.error _, e) => ∃ s, s ≠ "" ∧ e = d.telling s
  | (.ok _, _) => True

section
variable {d : Device σ}

private theorem said_ne_empty (call text : String) : call ++ ": " ++ text ≠ "" := by
  intro none
  have length := congrArg String.length none
  rw [String.length_append, String.length_append] at length
  simp at length

private theorem refuse_spares (d : Device σ) (kind : FailureKind) (call : String) :
    d.Spares (d.refuse kind call : Except Failure α × Device σ) := ⟨_, said_ne_empty call _, rfl⟩

private theorem broken_spares (d : Device σ) (e : IoError) (call : String) :
    d.Spares (d.broken e call : Except Failure α × Device σ) := ⟨_, said_ne_empty call _, rfl⟩

private theorem Spares.answer {result : Except Failure α × Device σ} (spares : d.Spares result) (f : α → Reply) :
    d.Spares (answer f result) := by
  obtain ⟨failure | a, e⟩ := result
  · exact spares
  · trivial

end

variable [Medium σ] [Faultless σ] {d e f : Device σ} {keep : Bool} {err : IoError}

/-! Passes -/

private theorem sync_failed (failed : d.sync = (.error err, e)) : e = d := by
  rw [sync] at failed
  split at failed
  · cases failed
  · split at failed
    · next sought =>
      obtain ⟨-, rfl⟩ := Prod.mk.inj failed
      rw [Faultless.seek_refused sought]
    · cases failed

private theorem fill_ok (d : Device σ) (chunk : Nat) : ∃ got e, d.fill chunk = (.ok got, e) := by
  rw [fill]
  dsimp only
  split
  · exact ⟨_, _, rfl⟩
  · obtain ⟨bytes, m, read, -⟩ := Faultless.read_ok d.heldBesideMedium d.medium chunk
    rw [read]
    exact ⟨_, _, rfl⟩

/-- Where the medium is asked and gives something, it goes into the buffer or into the queue. -/
private theorem refill_cases (d : Device σ) (keep : Bool) (p : Pass) :
    (∃ err, d.refill keep p = (.error err, d)) ∨
      ∃ got more e, d.refill keep p = (.ok (got, more), e) ∧
        (got = 0 ∨ more.filled ≠ [] ∨ more.filled = p.filled ∧ more.spare = p.spare) := by
  rw [refill]
  rcases synced : d.sync with ⟨err | _, e⟩
  · obtain rfl := sync_failed synced
    exact .inl ⟨err, rfl⟩
  · right
    dsimp only
    split
    · obtain ⟨bytes, m, read, few⟩ := Faultless.read_ok e.heldBesideMedium e.medium p.spare.length
      rw [read]
      refine ⟨_, _, _, rfl, ?_⟩
      rw [Nat.min_eq_left few]
      refine Classical.or_iff_not_imp_left.mpr fun positive => .inl fun none => ?_
      -- What was delivered is not nothing, so that something was accepted.
      have none : p.filled ++ (bytes ++ p.spare.drop bytes.length).take bytes.length = [] := none
      rw [List.take_left] at none
      exact positive (List.length_eq_zero_iff.mpr (List.append_eq_nil_iff.mp none).2)
    · obtain ⟨got, f, filled⟩ := fill_ok e (if e.isBuffered then e.config.bufferSize else min p.spare.length e.config.bufferSize)
      rw [filled]
      exact ⟨got, _, f, rfl, .inr (.inr ⟨rfl, rfl⟩)⟩

omit [Medium σ] [Faultless σ] in
theorem takeQueued_cases (d : Device σ) (keep : Bool) (p : Pass) :
    ∃ bytes, (d.takeQueued keep p).1.filled = p.filled ++ bytes ∧
      (d.takeQueued keep p).1.spare = p.spare.drop bytes.length ∧
      (bytes = [] → d.pos < Word.modulus → (d.takeQueued keep p).2 = d) := by
  have still (word : d.pos < Word.modulus) : d.advance 0 = d := by
    rw [advance_eq, Word.addWrapped_zero word, ite_self]
  rw [takeQueued]
  cases keep with
  | true =>
    refine ⟨_, rfl, rfl, fun none word => ?_⟩
    dsimp only
    rw [none]
    exact still word
  | false =>
    refine ⟨_, rfl, rfl, fun none word => ?_⟩
    have same : (d.readQueue.read p.spare.length).2 = d.readQueue := by
      rw [ChunkQueue.read] at none ⊢
      dsimp only at none ⊢
      split at none
      · next some =>
        rw [(List.append_eq_nil_iff.mp none).1] at some
        exact absurd some.1 (Nat.lt_irrefl 0)
      · next nothing => rw [dif_neg nothing]
    dsimp only
    rw [none, same, readQueue, Channels.put_queue]
    exact still word

/-- What fails took nothing. -/
private theorem gather_failed {p : Pass} (failed : d.gather keep p = (.error err, e)) : p.filled = [] ∧ e = d := by
  induction left : p.spare.length using Nat.strongRecOn generalizing d p with
  | ind _ ih =>
    subst left
    rw [gather] at failed
    split at failed
    · cases failed
    · rcases refill_cases d keep p with ⟨err', refilled⟩ | ⟨got, more, d', refilled, came⟩
      · rw [refilled] at failed
        dsimp only at failed
        split at failed
        · next nothing =>
          obtain ⟨-, rfl⟩ := Prod.mk.inj failed
          exact ⟨List.isEmpty_iff.mp nothing, rfl⟩
        · cases failed
      · rw [refilled] at failed
        dsimp only at failed
        split at failed
        · cases failed
        · next positive =>
          obtain ⟨bytes, filled, spare, -⟩ := takeQueued_cases d' keep more
          split at failed
          · next shorter =>
            obtain ⟨nothing, -⟩ := ih _ shorter failed rfl
            obtain ⟨none, rfl⟩ := List.append_eq_nil_iff.mp (filled.symm.trans nothing)
            rcases came with zero | took | ⟨-, same⟩
            · exact absurd zero positive
            · exact absurd none took
            · rw [spare, same, List.length_nil, List.drop_zero] at shorter
              exact absurd shorter (Nat.lt_irrefl _)
          · cases failed

private theorem collect_failed {room : Nat} {p : Pass} (failed : d.collect keep room p = (.error err, e)) :
    p.filled = [] ∧ (d.pos < Word.modulus → e = d) := by
  induction left : room - p.decided using Nat.strongRecOn generalizing d p with
  | ind _ ih =>
    subst left
    obtain ⟨bytes, filled, -, still⟩ := takeQueued_cases d keep p
    rw [collect] at failed
    generalize d.takeQueued keep p = result at failed filled still
    obtain ⟨q, d'⟩ := result
    dsimp only at failed filled still
    rcases gathered : d'.gather keep q with ⟨err' | q', f⟩
    · rw [gathered] at failed
      obtain ⟨nothing, same⟩ := gather_failed gathered
      obtain ⟨none, rfl⟩ := List.append_eq_nil_iff.mp (filled.symm.trans nothing)
      obtain ⟨-, rfl⟩ := Prod.mk.inj failed
      exact ⟨none, fun word => same.trans (still rfl word)⟩
    · rw [gathered] at failed
      dsimp only at failed
      split at failed
      · next drops =>
        split at failed
        · next goes =>
          -- A pass that goes on has decided some byte, which it keeps.
          obtain ⟨nothing, -⟩ := ih _ (by omega) failed rfl
          rw [Bool.and_eq_true, decide_eq_true_eq] at drops
          obtain ⟨-, -, decided, -⟩ := q'.strip_spec (Nat.le_of_lt drops.2)
          rw [nothing] at decided
          rw [decided] at goes
          exact absurd goes.2.1 (Nat.not_lt_zero _)
        · cases failed
      · cases failed

theorem readPass_spares (d : Device σ) (word : d.pos < Word.modulus) (peeking : Bool) (buffer : List UInt8) :
    d.Spares (d.readPass peeking buffer) := by
  rw [readPass]
  dsimp only
  rcases collected : d.collect (d.keeps peeking) buffer.length (.start buffer d.cursor) with ⟨err | p, e⟩
  · obtain ⟨-, same⟩ := collect_failed collected
    obtain rfl := same word
    exact broken_spares e err "read"
  · trivial

private theorem rawLine_failed {room place : Nat} (failed : d.rawLine keep room place = (.error err, e)) : e = d := by
  rw [rawLine] at failed
  split at failed
  · cases failed
  · rcases provided : d.provideByte place with ⟨err' | there, f⟩
    · rw [provided] at failed
      obtain ⟨-, rfl⟩ := Prod.mk.inj failed
      rw [provideByte] at provided
      split at provided
      · cases provided
      · rcases synced : d.sync with ⟨err | _, g⟩
        · rw [synced] at provided
          obtain ⟨-, rfl⟩ := Prod.mk.inj provided
          exact sync_failed synced
        · obtain ⟨got, h, filled⟩ := fill_ok g g.fillSize
          rw [synced] at provided
          dsimp only at provided
          rw [filled] at provided
          cases provided
    · rw [provided] at failed
      cases there with
      | false => cases failed
      | true =>
        dsimp only at failed
        split at failed
        · split at failed
          · cases failed
          · cases failed
        · cases failed

private theorem linePass_spares (d : Device σ) (room : Nat) : d.Spares (d.linePass room) := by
  rw [linePass]
  dsimp only
  rcases raw : d.rawLine d.keepsLine room d.cursor with ⟨err | ⟨line, place⟩, e⟩
  · obtain rfl := rawLine_failed raw
    exact broken_spares e err "read_line"
  · trivial

/-! Reading calls -/

private theorem readSteps_spares (d : Device σ) (word : d.pos < Word.modulus) (n : Nat) : d.Spares (d.readSteps n) := by
  rw [readSteps]
  split
  · have pass := readPass_spares d word false (List.replicate (min n (max d.config.bufferSize d.readQueue.length)) 0)
    dsimp only
    generalize d.readPass false (List.replicate (min n (max d.config.bufferSize d.readQueue.length)) 0) = result at pass
    obtain ⟨failure | bytes, e⟩ := result
    · exact pass
    · dsimp only
      split
      · trivial
      · split <;> trivial
  · trivial

private theorem read_spares (d : Device σ) (word : d.pos < Word.modulus) (n : Nat) : d.Spares (d.read n) := by
  rw [Device.read]
  split
  · exact refuse_spares d _ _
  · split
    · trivial
    · split
      · trivial
      · have steps := readSteps_spares d word n
        generalize d.readSteps n = result at steps
        obtain ⟨failure | bytes, e⟩ := result
        · exact steps
        · trivial

private theorem readPieces_spares (d : Device σ) (word : d.pos < Word.modulus) (room : Nat) :
    d.Spares (d.readPieces room) := by
  have read := read_spares d word Word.maxValue
  rw [readPieces]
  generalize d.read Word.maxValue = result at read
  obtain ⟨failure | piece, e⟩ := result
  · exact read
  · dsimp only
    split
    · split <;> trivial
    · trivial

private theorem readAll_spares (d : Device σ) (word : d.pos < Word.modulus) : d.Spares d.readAll := by
  rw [readAll]
  split
  · exact refuse_spares d _ _
  · have pieces := readPieces_spares d word Word.maxValue
    generalize d.readPieces Word.maxValue = result at pieces
    obtain ⟨failure | pieces, e⟩ := result
    · exact pieces
    · trivial

private theorem readInto_spares (d : Device σ) (word : d.pos < Word.modulus) (buffer : List UInt8) :
    d.Spares (d.readInto buffer) := by
  rw [readInto]
  split
  · exact refuse_spares d _ _
  · exact readPass_spares d word false buffer

private theorem peekInto_spares (d : Device σ) (word : d.pos < Word.modulus) (buffer : List UInt8) :
    d.Spares (d.peekInto buffer) := by
  rw [peekInto]
  split
  · exact refuse_spares d _ _
  · exact readPass_spares d word true buffer

private theorem peek_spares (d : Device σ) (word : d.pos < Word.modulus) (n : Nat) : d.Spares (d.peek n) := by
  rw [peek]
  split
  · exact refuse_spares d _ _
  · have pass := readPass_spares d word true (List.replicate (min n (max d.bytesAvailable d.config.bufferSize)) 0)
    dsimp only
    generalize d.readPass true (List.replicate (min n (max d.bytesAvailable d.config.bufferSize)) 0) = result at pass
    obtain ⟨failure | bytes, e⟩ := result
    · exact pass
    · trivial

private theorem getByte_spares (d : Device σ) (word : d.pos < Word.modulus) : d.Spares d.getByte := by
  rw [getByte]
  split
  · exact refuse_spares d _ _
  · have pass := readPass_spares d word false [0]
    generalize d.readPass false [0] = result at pass
    obtain ⟨failure | bytes, e⟩ := result
    · exact pass
    · trivial

private theorem lineSteps_spares (d : Device σ) (n : Nat) : d.Spares (d.lineSteps n) := by
  rw [lineSteps]
  split
  · have pass := linePass_spares d (min n d.config.bufferSize)
    dsimp only
    generalize d.linePass (min n d.config.bufferSize) = result at pass
    obtain ⟨failure | bytes, e⟩ := result
    · exact pass
    · dsimp only
      split
      · trivial
      · split <;> trivial
  · trivial

private theorem readLine_spares (d : Device σ) (n : Nat) : d.Spares (d.readLine n) := by
  rw [readLine]
  split
  · exact refuse_spares d _ _
  · have steps := lineSteps_spares d (if n = 0 then Word.maxValue else n)
    generalize d.lineSteps (if n = 0 then Word.maxValue else n) = result at steps
    obtain ⟨failure | line, e⟩ := result
    · exact steps
    · trivial

private theorem readLineInto_spares (d : Device σ) (room : Nat) : d.Spares (d.readLineInto room) := by
  rw [readLineInto]
  split
  · exact refuse_spares d _ _
  · split
    · exact refuse_spares d _ _
    · exact linePass_spares d _

private theorem skipSteps_spares (d : Device σ) (word : d.pos < Word.modulus) (n : Nat) (scratch : List UInt8) :
    d.Spares (d.skipSteps n scratch) := by
  rw [skipSteps]
  split
  · have pass := readPass_spares d word false (scratch.take (min n scratchSize))
    dsimp only
    generalize d.readPass false (scratch.take (min n scratchSize)) = result at pass
    obtain ⟨failure | bytes, e⟩ := result
    · exact pass
    · dsimp only
      split
      · trivial
      · split <;> trivial
  · trivial

private theorem skip_spares (d : Device σ) (word : d.pos < Word.modulus) (n : Nat) : d.Spares (d.skip n) := by
  rw [Device.skip]
  split
  · exact refuse_spares d _ _
  · split
    · trivial
    · split
      · exact skipSteps_spares d word n _
      · dsimp only
        split
        · trivial
        · split
          · trivial
          · by_cases none : (d.readQueue.skip n).1 = 0
            · have same : (d.readQueue.skip n).2 = d.readQueue := ChunkQueue.free_eq_self none
              rw [none, same, readQueue, Channels.put_queue, Word.addWrapped_zero word]
              have steps := skipSteps_spares d word (n - 0) (List.replicate scratchSize 0)
              rw [skipByReading]
              generalize d.skipSteps (n - 0) (List.replicate scratchSize 0) = result at steps
              obtain ⟨failure | more, e⟩ := result
              · exact steps
              · trivial
            · split
              · trivial
              · rw [if_neg none]
                trivial

omit [Faultless σ] in
private theorem ungetByte_spares (d : Device σ) (b : UInt8) : d.Spares (d.ungetByte b) := by
  rw [ungetByte]
  split
  · exact refuse_spares d _ _
  · split
    · exact refuse_spares d _ _
    · split
      · exact refuse_spares d _ _
      · trivial

/-! Writing -/

private theorem offer_ok (d : Device σ) (bytes : List UInt8) : ∃ n e, d.offer bytes = (n, none, e) := by
  induction left : bytes.length using Nat.strongRecOn generalizing d bytes with
  | ind _ ih =>
    subst left
    rw [offer]
    split
    · exact ⟨_, _, rfl⟩
    · obtain ⟨count, m, wrote⟩ := Faultless.write_ok d.heldBesideMedium d.medium bytes
      rw [wrote]
      dsimp only
      split
      · next some =>
        obtain ⟨n, e, rest⟩ := ih (bytes.drop (min count bytes.length)).length (by rw [List.length_drop]; omega)
          { d with medium := m } _ rfl
        rw [rest]
        exact ⟨_, _, rfl⟩
      · exact ⟨_, _, rfl⟩

private theorem writePiece_ok (d : Device σ) (bytes : List UInt8) : ∃ n e, d.writePiece bytes = (.ok n, e) := by
  rw [writePiece]
  split
  · exact ⟨_, _, rfl⟩
  · split
    · exact ⟨_, _, rfl⟩
    · obtain ⟨n, e, offered⟩ := offer_ok d bytes
      rw [offered]
      exact ⟨_, _, rfl⟩

private theorem writeLines_ok (d : Device σ) (lines : List (List UInt8)) : ∃ n e, d.writeLines lines = (.ok n, e) := by
  cases lines with
  | nil => exact ⟨0, d, rfl⟩
  | cons line rest =>
    rw [writeLines]
    generalize (if (line.getLast? == some Byte.lineFeed) = true then line.dropLast else line) = body
    obtain ⟨n, e, first⟩ := writePiece_ok d body
    rw [first]
    dsimp only
    split
    · exact ⟨_, _, rfl⟩
    · obtain ⟨k, f, second⟩ := writePiece_ok e [Byte.carriageReturn, Byte.lineFeed]
      rw [second]
      dsimp only
      split
      · exact ⟨_, _, rfl⟩
      · split <;> exact ⟨_, _, rfl⟩

private theorem write_spares (d : Device σ) (bytes : List UInt8) : d.Spares (d.write bytes) := by
  rw [Device.write]
  split
  · exact refuse_spares d _ _
  · split
    · trivial
    · rcases synced : d.sync with ⟨err | _, e⟩
      · obtain rfl := sync_failed synced
        exact broken_spares e err "write"
      · dsimp only
        have wrote : ∃ n f, (if e.isText && e.config.crlfOnWrite then e.writeLines (Newline.lines bytes)
            else e.writePiece bytes) = (.ok n, f) := by
          split
          · exact writeLines_ok e _
          · exact writePiece_ok e bytes
        obtain ⟨n, f, wrote⟩ := wrote
        rw [wrote]
        trivial

private theorem putByte_spares (d : Device σ) (b : UInt8) : d.Spares (d.putByte b) := by
  have wrote := write_spares d [b]
  rw [putByte_eq]
  generalize d.write [b] = result at wrote
  obtain ⟨failure | n, e⟩ := result
  · exact wrote
  · trivial

private theorem drain_ok (d : Device σ) (all : Bool) : ∃ e, d.drain all = (.ok (), e) := by
  induction left : d.writeQueue.length using Nat.strongRecOn generalizing d with
  | ind _ ih =>
    subst left
    rw [drain]
    split
    · exact ⟨_, rfl⟩
    · obtain ⟨count, m, wrote⟩ := Faultless.write_ok d.heldBesideMedium d.medium d.writeQueue.front
      dsimp only
      rw [wrote]
      dsimp only
      split
      · exact ⟨_, rfl⟩
      · split
        · next shorter =>
          refine ih _ ?_ { d with
            medium := m, writing := d.writing.put (d.writeQueue.free (min count d.writeQueue.front.length)) } rfl
          rw [writeQueue, Channels.queue_put]
          exact shorter.1
        · exact ⟨_, rfl⟩

private theorem drainChannels_ok (d : Device σ) (channels : List Nat) :
    ∃ e, d.drainChannels channels = (.ok (), e) := by
  induction channels generalizing d with
  | nil => exact ⟨d, rfl⟩
  | cons channel rest ih =>
    rw [drainChannels]
    split
    · exact ih d
    · obtain ⟨e, drained⟩ := drain_ok (d.switchWriting channel) true
      rw [drained]
      exact ih e

private theorem flushAll_ok (d : Device σ) : ∃ e, d.flushAll = (.ok (), e) := by
  obtain ⟨e, drained⟩ := drainChannels_ok d (List.range d.writing.count)
  obtain ⟨m, flushed⟩ := Faultless.flush_ok (e.switchWriting d.writing.current).medium
  rw [flushAll, drained]
  dsimp only
  rw [flushed]
  exact ⟨_, rfl⟩

private theorem flush_spares (d : Device σ) : d.Spares d.flush := by
  rw [flush]
  split
  · exact refuse_spares d _ _
  · obtain ⟨e, flushed⟩ := flushAll_ok d
    rw [flushed]
    trivial

/-! Other calls -/

private theorem openWith_spares (d : Device σ) (mode : OpenMode) : d.Spares (d.openWith mode) := by
  rw [Device.openWith]
  dsimp only
  split
  · exact refuse_spares d _ _
  · split
    · exact refuse_spares d _ _
    · obtain ⟨m, opened⟩ := Faultless.openWith_ok d.medium mode.normalized
      rw [opened]
      trivial

private theorem close_spares (d : Device σ) : d.Spares d.close := by
  rw [Device.close]
  split
  · trivial
  · obtain ⟨e, flushed⟩ := flushAll_ok d
    obtain ⟨m, closed⟩ := Faultless.close_ok e.medium
    rw [flushed]
    dsimp only
    rw [closed]
    trivial

private theorem seek_spares (d : Device σ) (place : Nat) : d.Spares (d.seek place) := by
  rw [Device.seek]
  split
  · exact refuse_spares d _ _
  · split
    · exact refuse_spares d _ _
    · split
      · trivial
      · split
        · trivial
        · next sought =>
          obtain rfl := Faultless.seek_refused sought
          split
          · exact refuse_spares d _ _
          · exact broken_spares d _ _

section
omit [Medium σ] [Faultless σ]

private theorem startTransaction_spares (d : Device σ) : d.Spares d.startTransaction := by
  rw [startTransaction]
  split
  · exact refuse_spares d _ _
  · split
    · exact refuse_spares d _ _
    · trivial

private theorem commit_spares (d : Device σ) : d.Spares d.commit := by
  rw [commit]
  split
  · exact refuse_spares d _ _
  · trivial
  · trivial

private theorem rollback_spares (d : Device σ) : d.Spares d.rollback := by
  rw [rollback]
  split
  · exact refuse_spares d _ _
  · trivial
  · trivial

private theorem setText_spares (d : Device σ) (on : Bool) : d.Spares (d.setText on) := by
  rw [setText]
  split
  · exact refuse_spares d _ _
  · trivial

end

section
omit [Faultless σ]

private theorem selectReading_spares (d : Device σ) (channel : Nat) : d.Spares (d.selectReading channel) := by
  rw [selectReading]
  split
  · exact refuse_spares d _ _
  · split
    · exact refuse_spares d _ _
    · split <;> trivial

private theorem selectWriting_spares (d : Device σ) (channel : Nat) : d.Spares (d.selectWriting channel) := by
  rw [selectWriting]
  split
  · exact refuse_spares d _ _
  · trivial

private theorem push_spares (d : Device σ) (channel : Nat) (data : Handle) : d.Spares (d.push channel data) := by
  rw [push]
  split
  · exact refuse_spares d _ _
  · split
    · exact refuse_spares d _ _
    · trivial

end

/-- Every call that fails spares the device. -/
private theorem perform_spares (d : Device σ) (word : d.pos < Word.modulus) (action : Action) :
    d.Spares (d.perform action) := by
  cases action with
  | openWith mode => exact (openWith_spares d mode).answer _
  | close => exact (close_spares d).answer _
  | flush => exact (flush_spares d).answer _
  | read n => exact (read_spares d word n).answer _
  | readAll => exact (readAll_spares d word).answer _
  | readInto buffer => exact (readInto_spares d word buffer).answer _
  | peek n => exact (peek_spares d word n).answer _
  | peekInto buffer => exact (peekInto_spares d word buffer).answer _
  | readLine n => exact (readLine_spares d n).answer _
  | readLineInto room => exact (readLineInto_spares d room).answer _
  | skip n => exact (skip_spares d word n).answer _
  | getByte => exact (getByte_spares d word).answer _
  | ungetByte b => exact (ungetByte_spares d b).answer _
  | write bytes => exact (write_spares d bytes).answer _
  | putByte b => exact (putByte_spares d b).answer _
  | seek place => exact (seek_spares d place).answer _
  | reset => exact (seek_spares d 0).answer _
  | startTransaction => exact (startTransaction_spares d).answer _
  | commit => exact (commit_spares d).answer _
  | rollback => exact (rollback_spares d).answer _
  | growReading n => trivial
  | growWriting n => trivial
  | selectReading channel => exact (selectReading_spares d channel).answer _
  | selectWriting channel => exact (selectWriting_spares d channel).answer _
  | push channel data => exact (push_spares d channel data).answer _
  | setText on => exact (setText_spares d on).answer _

/-! Scripts -/

/-- What is done with a device. -/
inductive Deed (σ : Type) where
  | call (action : Action)
  /-- It is moved as a byte stream. -/
  | move (target : Target)
  /-- A line of it is read as text. -/
  | line
  /-- Its medium is worked on from outside. -/
  | work (act : σ → σ)
  /-- Handles with these storages are held outside from now on. -/
  | hold (ids : List StorageId)

/-- What is answered. -/
inductive Outcome where
  | reply (result : Except Failure Reply)
  | place (result : Except IoError Nat)
  | text (result : Option (Except IoError String))
  | nothing

/-- Whether a call, or a move as a byte stream, failed. -/
def Outcome.failed : Outcome → Bool
  | .reply (.error _) | .place (.error _) => true
  | _ => false

def does (d : Device σ) : Deed σ → Outcome × Device σ
  | .call action => ((.reply (d.perform action).1), (d.perform action).2)
  | .move target => ((.place (d.moveToTarget target).1), (d.moveToTarget target).2)
  | .line => ((.text d.nextLine.1), d.nextLine.2)
  | .work act => (.nothing, { d with medium := act d.medium })
  | .hold ids => (.nothing, { d with outside := ids })

def doesAll (d : Device σ) : List (Deed σ) → List Outcome × Device σ
  | [] => ([], d)
  | deed :: rest =>
    let next := (d.does deed).2.doesAll rest
    ((d.does deed).1 :: next.1, next.2)

/-- A deed that fails has changed nothing but what is said of the last failure; something is said unless
there is no such place to move to. Whatever is done later comes out as if it had not been tried. -/
def Harmless (d : Device σ) (deed : Deed σ) : Prop :=
  (d.does deed).1.failed = true →
    (∃ s, (d.does deed).2 = { d with errorString := s } ∧
      (s ≠ "" ∨ ∃ target, deed = .move target ∧ d.place? target = none)) ∧
    ∀ script, ((d.does deed).2.doesAll script).1 = (d.doesAll script).1 ∧
      ∃ s, ((d.does deed).2.doesAll script).2 = { (d.doesAll script).2 with errorString := s }

omit [Faultless σ] in
private theorem does_telling (d : Device σ) (s : String) (deed : Deed σ) :
    ∃ t, (d.telling s).does deed = ((d.does deed).1, (d.does deed).2.telling t) := by
  cases deed with
  | call action =>
    obtain ⟨t, same⟩ := perform_telling d s action
    rw [does, same]
    exact ⟨t, rfl⟩
  | move target =>
    obtain ⟨t, same⟩ := moveToTarget_telling d s target
    rw [does, same]
    exact ⟨t, rfl⟩
  | line =>
    obtain ⟨t, same⟩ := nextLine_telling d s
    rw [does, same]
    exact ⟨t, rfl⟩
  | work act => exact ⟨s, rfl⟩
  | hold ids => exact ⟨s, rfl⟩

omit [Faultless σ] in
private theorem doesAll_telling (d : Device σ) (s : String) (script : List (Deed σ)) :
    ∃ t, (d.telling s).doesAll script = ((d.doesAll script).1, (d.doesAll script).2.telling t) := by
  induction script generalizing d s with
  | nil => exact ⟨s, rfl⟩
  | cons deed rest ih =>
    obtain ⟨t, same⟩ := does_telling d s deed
    obtain ⟨u, others⟩ := ih (d.does deed).2 t
    rw [doesAll, same]
    dsimp only
    rw [others]
    exact ⟨u, rfl⟩

/-- What a failed call says is all it leaves. -/
private theorem does_spares (d : Device σ) (word : d.pos < Word.modulus) (deed : Deed σ)
    (failed : (d.does deed).1.failed = true) :
    ∃ s, (d.does deed).2 = d.telling s ∧ (s ≠ "" ∨ ∃ target, deed = .move target ∧ d.place? target = none) := by
  cases deed with
  | call action =>
    have spares := perform_spares d word action
    rw [does] at failed ⊢
    generalize d.perform action = result at spares failed
    obtain ⟨failure | reply, e⟩ := result
    · obtain ⟨s, some, same⟩ := spares
      exact ⟨s, same, .inl some⟩
    · cases failed
  | move target =>
    rw [does, moveToTarget] at failed ⊢
    cases found : d.place? target with
    | none => exact ⟨d.errorString, rfl, .inr ⟨target, rfl, found⟩⟩
    | some place =>
      rw [found] at failed
      have spares := seek_spares d place
      dsimp only at failed ⊢
      generalize d.seek place = result at spares failed
      obtain ⟨failure | done, e⟩ := result
      · obtain ⟨s, some, same⟩ := spares
        exact ⟨s, same, .inl some⟩
      · cases failed
  | line => cases failed
  | work act => cases failed
  | hold ids => cases failed

private theorem harmless_of_faultless (d : Device σ) (word : d.pos < Word.modulus) (deed : Deed σ) :
    d.Harmless deed := by
  intro failed
  have left := does_spares d word deed failed
  refine ⟨left, fun script => ?_⟩
  obtain ⟨s, same, -⟩ := left
  obtain ⟨t, later⟩ := doesAll_telling d s script
  rw [same, later]
  exact ⟨rfl, t, rfl⟩

/-- On a device over memory or over a pipe, in any state whose position a machine word holds, a call that fails
or a move as a byte stream that fails leaves everything as it was but the error string. It says there what
failed, but for a move to a place that there is not. Any script done afterwards gives the same answers as if
the failed call had not been made, and leaves the same device but for the error string. -/
theorem failures_change_nothing :
    (∀ d : Device Medium.Memory, d.pos < Word.modulus → ∀ deed, d.Harmless deed) ∧
      ∀ d : Device Medium.Pipe, d.pos < Word.modulus → ∀ deed, d.Harmless deed :=
  ⟨harmless_of_faultless, harmless_of_faultless⟩

/-- Letters in memory, opened to be read. -/
def shelf : Device Medium.Memory :=
  ((ofMedium (Medium.Memory.ofHandle (Handle.ofFixed [] [97, 98, 99])) ⟨4, 1, 0, false⟩).openWith .readOnly).2

/-- A pipe in a transaction that has read a letter. -/
def reader : Device Medium.Pipe :=
  (((ofMedium (Medium.Pipe.empty.feed [] 0 (Handle.ofFixed [] [97, 98, 99])).2 ⟨4, 1, 0, false⟩).openWith .readOnly).2.performAll
    [.startTransaction, .getByte]).2

theorem failures_change_nothing_refused :
    (∃ s, s ≠ "" ∧ (shelf.perform (.seek 9)).2 = { shelf with errorString := s }) ∧
    (∃ s, (shelf.moveToTarget (.here (-1))).2 = { shelf with errorString := s }) ∧
    (∃ s, s ≠ "" ∧ (reader.perform (.ungetByte 120)).2 = { reader with errorString := s }) ∧
    ((reader.perform (.ungetByte 120)).2.doesAll [.call .getByte, .call .rollback, .call (.read 9)]).1 =
      (reader.doesAll [.call .getByte, .call .rollback, .call (.read 9)]).1 := by
  obtain ⟨memory, pipe⟩ := failures_change_nothing
  obtain ⟨⟨s, sought, said⟩, -⟩ := memory shelf (by decide +kernel) (.call (.seek 9)) (by decide +kernel)
  obtain ⟨⟨t, moved, -⟩, -⟩ := memory shelf (by decide +kernel) (.move (.here (-1))) (by decide +kernel)
  obtain ⟨⟨u, put, told⟩, later⟩ := pipe reader (by decide +kernel) (.call (.ungetByte 120)) (by decide +kernel)
  refine ⟨⟨s, said.resolve_right ?_, sought⟩, ⟨t, moved⟩, ⟨u, told.resolve_right ?_, put⟩, (later _).1⟩
  · rintro ⟨target, other, -⟩
    cases other
  · rintro ⟨target, other, -⟩
    cases other

end ByteFlow.Device
