import ByteFlow.Proofs.Device.Run
import ByteFlow.Proofs.Device.Skip

/-! What any reading call does with the bytes to come.
Whether it hands bytes out, skips them or looks at them, it takes a first part of them or none, and fails
only without having taken any. -/
namespace ByteFlow.Device
open Medium

/-- The calls that read, look or skip. -/
def Action.reads : Action → Prop
  | .read _ | .readAll | .readInto _ | .peek _ | .peekInto _ | .readLine _ | .readLineInto _ | .skip _ | .getByte => True
  | _ => False

/-- What the reply to a reading call shows of the bytes it took, if text mode is off. -/
def Shows (action : Action) (raw : List UInt8) : Except Failure Reply → Prop
  | .error _ => raw = []
  | .ok reply =>
    match action with
    | .peek _ | .peekInto _ => raw = []
    | .skip _ => reply = .size raw.length
    | _ => reply.content = raw

variable {σ : Type} [Medium σ] [Source σ] {d : Device σ} {room : Nat} {before s : List UInt8} {action : Action}

/-- A reading call takes the first bytes to come and shows them, or only looks. -/
def Draws (d : Device σ) (before s : List UInt8) (action : Action) (result : Except Failure Reply × Device σ) : Prop :=
  (∃ raw t, s = raw ++ t ∧ d.Reads result.2 before raw t ∧ (d.isText = false → Shows action raw result.1)) ∨
    ∃ raw t, d.Looks result.2 before raw s t ∧ Shows action [] result.1

private theorem Draws.nothing {failure : Failure} {e : Device σ} (reads : d.Reads e before [] s) :
    d.Draws before s action (.error failure, e) := .inl ⟨[], s, rfl, reads, fun _ => rfl⟩

private theorem Ready.refuse (ready : d.Ready before s) (action : Action) {α : Type} (f : α → Reply)
    (kind : FailureKind)
    (call : String) :
    d.Draws before s action (answer f (d.refuse kind call)) := by
  obtain ⟨queued, has⟩ := ready.supplies
  exact .nothing (ready.stays (.refl d) has rfl _)

private theorem Delivers.draws {done : List UInt8 → List UInt8 → Prop} {result : Except Failure Reply × Device σ}
    (delivers : d.Delivers before s room done (result.1.map Reply.content, result.2))
    (shows : ∀ reply raw, reply.content = raw → Shows action raw (.ok reply)) : d.Draws before s action result := by
  obtain ⟨failure | reply, e⟩ := result
  · exact .nothing delivers.1
  · obtain ⟨raw, t, portion, -, reads⟩ := delivers
    exact .inl ⟨raw, t, portion.split, reads, fun plain => shows reply raw (portion.eq_of_plain plain)⟩

private theorem Previews.draws {result : Except Failure Reply × Device σ}
    (previews : d.Previews before s room (result.1.map Reply.content, result.2))
    (looks : ∀ reply, Shows action [] (.ok reply)) : d.Draws before s action result := by
  obtain ⟨failure | reply, e⟩ := result
  · exact .nothing previews.1
  · obtain ⟨raw, t, u, -, -, saw⟩ := previews
    exact .inr ⟨raw, u, saw, looks reply⟩

private theorem Passes.draws {n : Nat} {result : Except Failure Nat × Device σ}
    (passes : d.Passes before s room result) :
    d.Draws before s (.skip n) (answer .size result) := by
  obtain ⟨failure | count, e⟩ := result
  · exact .nothing passes.1
  · obtain ⟨bytes, raw, t, rfl, portion, -, reads⟩ := passes
    refine .inl ⟨raw, t, portion.split, reads, fun plain => ?_⟩
    rw [portion.eq_of_plain plain]
    rfl

private theorem skip_draws (ready : d.Ready before s) (able : d.readObstacle? = none) (n : Nat)
    (possible : d.config.bufferSize < Word.requestLimit) : d.Draws before s (.skip n) (answer .size (d.skip n)) := by
  by_cases reading : d.sequential = true ∨ d.isText = true
  · exact (skip_passes ready able reading n possible).draws
  · obtain ⟨random, plain⟩ : d.sequential = false ∧ d.isText = false := by simpa using reading
    obtain rfl := ready.before_eq_nil (keeps_of_random random)
    obtain ⟨e, skipped, reads⟩ := skip_eq ready able random plain n
    rw [skipped]
    refine .inl ⟨s.take n, s.drop n, (List.take_append_drop n s).symm, reads, fun _ => ?_⟩
    rw [← List.length_take]
    rfl

omit [Source σ] in
/-- A device that may not be read refuses every reading call. -/
private theorem perform_refused {kind : FailureKind} (obstacle : d.readObstacle? = some kind) (reading : action.reads) :
    ∃ call, d.perform action = answer (fun _ : Unit => .done) (d.refuse kind call) := by
  cases action with
  | read n =>
    rw [perform, Device.read, obstacle]
    exact ⟨_, rfl⟩
  | readAll =>
    rw [perform, readAll, obstacle]
    exact ⟨_, rfl⟩
  | readInto buffer =>
    rw [perform, readInto, obstacle]
    exact ⟨_, rfl⟩
  | peek n =>
    rw [perform, peek, obstacle]
    exact ⟨_, rfl⟩
  | peekInto buffer =>
    rw [perform, peekInto, obstacle]
    exact ⟨_, rfl⟩
  | readLine n =>
    rw [perform, readLine, obstacle]
    exact ⟨_, rfl⟩
  | readLineInto room =>
    rw [perform, readLineInto, obstacle]
    exact ⟨_, rfl⟩
  | skip n =>
    rw [perform, skip, obstacle]
    exact ⟨_, rfl⟩
  | getByte =>
    rw [perform, getByte, obstacle]
    exact ⟨_, rfl⟩
  | _ => exact absurd reading not_false

theorem perform_draws (ready : d.Ready before s) (short : before.length + s.length ≤ Word.maxValue)
    (possible : d.config.bufferSize < Word.requestLimit) (reading : action.reads) :
    d.Draws before s action (d.perform action) := by
  cases able : d.readObstacle? with
  | some kind =>
    obtain ⟨call, refused⟩ := perform_refused able reading
    rw [refused]
    exact ready.refuse action _ kind call
  | none =>
    cases action with
    | read n =>
      have delivers := read_delivers ready able n possible
      exact Delivers.draws (by rwa [perform, answer_map]) fun _ _ => id
    | readAll =>
      have delivers := readAll_delivers ready able (by omega) possible
      exact Delivers.draws (by rwa [perform, answer_map]) fun _ _ => id
    | readInto buffer =>
      have delivers := readInto_delivers ready able buffer possible
      exact Delivers.draws (by rwa [perform, answer_bytes]) fun _ _ => id
    | readLine n =>
      have delivers := readLine_delivers ready able short possible n
      exact Delivers.draws (by rwa [perform, answer_map]) fun _ _ => id
    | readLineInto room =>
      by_cases enough : 2 ≤ room
      · have delivers := readLineInto_delivers ready able short possible enough
        exact Delivers.draws (by rwa [perform, answer_bytes]) fun _ _ => id
      · rw [perform, readLineInto, able]
        dsimp only
        rw [if_pos (Nat.not_le.mp enough)]
        exact ready.refuse _ .bytes .invalidArgument "read_line"
    | getByte =>
      have delivers := getByte_delivers ready able possible
      exact Delivers.draws (by rwa [perform, answer_map]) fun _ _ => id
    | peek n =>
      have previews := peek_previews ready able n possible
      exact Previews.draws (by rwa [perform, answer_map]) fun _ => rfl
    | peekInto buffer =>
      have previews := peekInto_previews ready able buffer possible
      exact Previews.draws (by rwa [perform, answer_bytes]) fun _ => rfl
    | skip n => exact skip_draws ready able n possible
    | _ => exact absurd reading not_false

end ByteFlow.Device
