import ByteFlow.Device.Session
import ByteFlow.Proofs.Device.Touch

/-! What a reading call does, pass by pass.
Whatever a call is asked for, it makes passes over the queue and the medium; beside these it hands out the
first chunk, drops what is queued or moves on without reading. What every such bout keeps, each reading call
keeps. -/
namespace ByteFlow.Device
open Medium

variable {σ : Type} [Medium σ]

/-- One part of a call that reads or, if `peeking` is set, looks. -/
inductive Bout (peeking : Bool) (d : Device σ) : Device σ → Prop where
  | said (errorString : String) : Bout peeking d { d with errorString := errorString }
  | pass (buffer : List UInt8) : Bout peeking d (d.readPass peeking buffer).2
  | line (reads : peeking = false) (room : Nat) : Bout peeking d (d.linePass room).2
  | chunk (reads : peeking = false) (idle : d.inTransaction = false) :
      Bout peeking d { d with
        reading := d.reading.put d.readQueue.readChunk.2
        pos := Word.addWrapped d.pos d.readQueue.readChunk.1.length }
  | skip (reads : peeking = false) (direct : (d.sequential && d.inTransaction) = false) (n : Nat) :
      Bout peeking d { d with
        reading := d.reading.put (d.readQueue.skip n).2
        pos := Word.addWrapped d.pos (d.readQueue.skip n).1 }
  | jump (random : d.sequential = false) (place : Nat) : Bout peeking d { d with pos := place }

/-- Bouts one after the other. -/
def Bouts (peeking : Bool) : Device σ → Device σ → Prop := Relation.ReflTransGen (Bout peeking)

variable {peeking : Bool} {d e f : Device σ}

namespace Bouts

private theorem refl (d : Device σ) : Bouts peeking d d := Relation.ReflTransGen.refl

private theorem trans (first : Bouts peeking d e) (second : Bouts peeking e f) : Bouts peeking d f :=
  Relation.ReflTransGen.trans first second

private theorem of_result {α : Type} {result : α × Device σ} (bouts : Bouts peeking d result.2) {a : α}
    (eq : result = (a, e)) :
    Bouts peeking d e := by
  rwa [eq] at bouts

end Bouts

private theorem Bout.bouts (bout : Bout peeking d e) : Bouts peeking d e := Relation.ReflTransGen.single bout

private theorem readPass_bouts (d : Device σ) (buffer : List UInt8) : Bouts peeking d (d.readPass peeking buffer).2 :=
  (Bout.pass buffer).bouts

private theorem linePass_bouts (d : Device σ) (room : Nat) :
    Bouts false d (d.linePass room).2 := (Bout.line rfl room).bouts

/-- What is refused is not read. -/
private theorem refuse_bouts {α : Type} (d : Device σ) (kind : FailureKind) (call : String) :
    Bouts peeking d (d.refuse kind call : Except Failure α × Device σ).2 := (Bout.said _).bouts

/-! Calls -/

theorem readInto_bouts (d : Device σ) (buffer : List UInt8) : Bouts false d (d.readInto buffer).2 := by
  rw [readInto]
  split
  · exact refuse_bouts d _ _
  · exact readPass_bouts d buffer

theorem peekInto_bouts (d : Device σ) (buffer : List UInt8) : Bouts true d (d.peekInto buffer).2 := by
  rw [peekInto]
  split
  · exact refuse_bouts d _ _
  · exact readPass_bouts d buffer

private theorem peek_bouts (d : Device σ) (n : Nat) : Bouts true d (d.peek n).2 := by
  have passed : Bouts true d _ := readPass_bouts d (List.replicate (min n (max d.bytesAvailable d.config.bufferSize)) 0)
  rw [peek]
  split
  · exact refuse_bouts d _ _
  · dsimp only
    split
    · next read => exact passed.of_result read
    · next read => exact passed.of_result read

theorem getByte_bouts (d : Device σ) : Bouts false d d.getByte.2 := by
  have passed : Bouts false d _ := readPass_bouts d [0]
  rw [getByte]
  split
  · exact refuse_bouts d _ _
  · split
    · next read => exact passed.of_result read
    · next read => exact passed.of_result read

theorem readSteps_bouts (d : Device σ) (n : Nat) : Bouts false d (d.readSteps n).2 := by
  fun_induction readSteps d n with
  | case1 d n some step failure e read => exact (readPass_bouts d _).of_result read
  | case2 d n some step bytes after read short => exact (readPass_bouts d _).of_result read
  | case3 d n some step bytes after read full more e rest ih =>
    rw [rest] at ih
    exact .trans ((readPass_bouts d _).of_result read) ih
  | case4 d n some step bytes after read full failure e rest ih =>
    rw [rest] at ih
    exact .trans ((readPass_bouts d _).of_result read) ih
  | case5 d n none => exact .refl d

private theorem read_bouts (d : Device σ) (n : Nat) : Bouts false d (d.read n).2 := by
  rw [Device.read]
  split
  · exact refuse_bouts d _ _
  · split
    · exact .refl d
    · split
      · next chunk =>
        have idle : d.inTransaction = false := by
          simp only [Bool.and_eq_true, Bool.not_eq_true'] at chunk
          exact chunk.1.1
        exact (Bout.chunk rfl idle).bouts
      · have steps := readSteps_bouts d n
        split
        · next read => exact steps.of_result read
        · next read => exact steps.of_result read

theorem readPieces_bouts (d : Device σ) (room : Nat) : Bouts false d (d.readPieces room).2 := by
  fun_induction readPieces d room with
  | case1 d room failure e read => exact (read_bouts d _).of_result read
  | case2 d room piece e read some pieces f rest ih =>
    rw [rest] at ih
    exact .trans ((read_bouts d _).of_result read) ih
  | case3 d room piece e read some failure f rest ih =>
    rw [rest] at ih
    exact .trans ((read_bouts d _).of_result read) ih
  | case4 d room piece e read none => exact (read_bouts d _).of_result read

private theorem readAll_bouts (d : Device σ) : Bouts false d d.readAll.2 := by
  rw [readAll]
  split
  · exact refuse_bouts d _ _
  · have pieces := readPieces_bouts d Word.maxValue
    split
    · next read => exact pieces.of_result read
    · next read => exact pieces.of_result read

private theorem skipSteps_bouts (d : Device σ) (n : Nat) (scratch : List UInt8) :
    Bouts false d (d.skipSteps n scratch).2 := by
  fun_induction skipSteps d n scratch with
  | case1 d n scratch some want failure e read => exact (readPass_bouts d _).of_result read
  | case2 d n scratch some want bytes after read short => exact (readPass_bouts d _).of_result read
  | case3 d n scratch some want bytes after read full more e rest ih =>
    rw [rest] at ih
    exact .trans ((readPass_bouts d _).of_result read) ih
  | case4 d n scratch some want bytes after read full failure e rest ih =>
    rw [rest] at ih
    exact .trans ((readPass_bouts d _).of_result read) ih
  | case5 d n scratch none => exact .refl d

theorem skip_bouts (d : Device σ) (n : Nat) : Bouts false d (d.skip n).2 := by
  rw [Device.skip]
  split
  · exact refuse_bouts d _ _
  · split
    · exact .refl d
    · split
      · exact skipSteps_bouts d n _
      · next direct =>
        have untouched : (d.sequential && d.inTransaction) = false := by
          simp only [Bool.or_eq_true, not_or, Bool.not_eq_true] at direct
          exact direct.2
        have dropped : Bouts false d _ := (Bout.skip rfl untouched n).bouts
        dsimp only
        split
        · exact dropped
        · split
          · next random => exact dropped.trans (Bout.jump (by simpa using random) _).bouts
          · have skipped := dropped.trans (skipSteps_bouts _ (n - (d.readQueue.skip n).1) (List.replicate scratchSize 0))
            rw [skipByReading]
            split
            · next read => exact skipped.of_result read
            · next read => exact skipped.of_result read

theorem lineSteps_bouts (d : Device σ) (n : Nat) : Bouts false d (d.lineSteps n).2 := by
  fun_induction lineSteps d n with
  | case1 d n some step failure e read => exact (linePass_bouts d _).of_result read
  | case2 d n some step bytes after read ends => exact (linePass_bouts d _).of_result read
  | case3 d n some step bytes after read goes more e rest ih =>
    rw [rest] at ih
    exact .trans ((linePass_bouts d _).of_result read) ih
  | case4 d n some step bytes after read goes failure e rest ih =>
    rw [rest] at ih
    exact .trans ((linePass_bouts d _).of_result read) ih
  | case5 d n none => exact .refl d

theorem readLine_bouts (d : Device σ) (n : Nat) : Bouts false d (d.readLine n).2 := by
  have steps := lineSteps_bouts d (if n = 0 then Word.maxValue else n)
  rw [readLine]
  split
  · exact refuse_bouts d _ _
  · split
    · next read => exact steps.of_result read
    · next read => exact steps.of_result read

theorem readLineInto_bouts (d : Device σ) (room : Nat) : Bouts false d (d.readLineInto room).2 := by
  rw [readLineInto]
  split
  · exact refuse_bouts d _ _
  · split
    · exact refuse_bouts d _ _
    · exact linePass_bouts d _

/-- Every reading call is a run of bouts, which look if the call does. -/
theorem perform_bouts {action : Action} (reading : action.reads) :
    ∃ peeking, (peeking = true ↔ action.looks) ∧ Bouts peeking d (d.perform action).2 := by
  cases action with
  | read n => exact ⟨false, by simp [Action.looks], read_bouts d n⟩
  | readAll => exact ⟨false, by simp [Action.looks], readAll_bouts d⟩
  | readInto buffer => exact ⟨false, by simp [Action.looks], readInto_bouts d buffer⟩
  | peek n => exact ⟨true, by simp [Action.looks], peek_bouts d n⟩
  | peekInto buffer => exact ⟨true, by simp [Action.looks], peekInto_bouts d buffer⟩
  | readLine n => exact ⟨false, by simp [Action.looks], readLine_bouts d n⟩
  | readLineInto room => exact ⟨false, by simp [Action.looks], readLineInto_bouts d room⟩
  | skip n => exact ⟨false, by simp [Action.looks], skip_bouts d n⟩
  | getByte => exact ⟨false, by simp [Action.looks], getByte_bouts d⟩
  | _ => exact absurd reading not_false

/-! Steps -/

omit [Medium σ] in
theorem keeps_of_idle (d : Device σ) (idle : d.inTransaction = false) : d.keeps false = false := by
  rw [keeps, idle]
  cases d.sequential <;> rfl

omit [Medium σ] in
private theorem keeps_of_direct (d : Device σ) (direct : (d.sequential && d.inTransaction) = false) :
    d.keeps false = false := by
  rw [keeps]
  cases stream : d.sequential with
  | true => simpa [stream] using direct
  | false => rfl

/-- A bout is a run of steps. -/
theorem Bout.touches (bout : Bout peeking d e) : Touches (d.keeps peeking) d e := by
  cases bout with
  | said errorString => exact .said d _
  | pass buffer => exact readPass_touches d peeking buffer
  | line reads room =>
    subst reads
    exact linePass_touches d room
  | chunk reads idle =>
    subst reads
    have gone := d.keeps_of_idle idle
    exact .trans (.dropped gone (fun wf => (ChunkQueue.readChunk_spec wf).2.1) (ChunkQueue.remains_readChunk _)) (.of_pos _ _)
  | skip reads direct n =>
    subst reads
    have gone := d.keeps_of_direct direct
    exact .trans (.dropped gone (fun wf => (ChunkQueue.skip_spec wf n).2.1) (ChunkQueue.remains_free _ n)) (.of_pos _ _)
  | jump random place => exact .of_pos d place

theorem Bouts.touches (bouts : Bouts peeking d e) : Touches (d.keeps peeking) d e := by
  induction bouts with
  | refl => exact .refl d
  | tail before bout ih =>
    have step := bout.touches
    rw [ih.left.keeps] at step
    exact ih.trans step

/-- Every reading call is a run of steps; a look keeps what is queued wherever looking does. -/
theorem perform_touches {action : Action} (reading : action.reads) :
    ∃ peeking, (peeking = true ↔ action.looks) ∧ Touches (d.keeps peeking) d (d.perform action).2 := by
  obtain ⟨peeking, looks, bouts⟩ := perform_bouts (d := d) reading
  exact ⟨peeking, looks, bouts.touches⟩

end ByteFlow.Device
