import ByteFlow.Device.Read
import ByteFlow.Proofs.Device.Portion

/-! Reading calls that go on in steps.
Together the steps give what one step of the whole size would give; a step that fails only ends them. -/
namespace ByteFlow.Device
open Medium

variable {σ : Type} [Medium σ] [Source σ] {d e f : Device σ} {room more : Nat}
  {before raw raw' s t u bytes rest : List UInt8}

/-- The result of a call for up to `room` bytes: the next ones, or a failure that takes none. What is
given before what is left has a property of the call. -/
def Delivers (d : Device σ) (before s : List UInt8) (room : Nat) (done : List UInt8 → List UInt8 → Prop) :
    Except Failure (List UInt8) × Device σ → Prop
  | (.ok bytes, e) => ∃ raw t, d.Portion room s raw t bytes ∧ done bytes t ∧ d.Reads e before raw t
  | (.error _, e) => d.Reads e before [] s ∧ ¬ Source.Steady d.medium

/-! Portions one behind the other -/

theorem shown_append {text : Bool} {a b : List UInt8} (whole : text = true → ¬ Newline.Parts a b) :
    shown text (a ++ b) = shown text a ++ shown text b := by
  cases text with
  | false => rfl
  | true => exact Newline.normalize_append a b (whole rfl)

theorem Reads.isText (reads : d.Reads e before raw t) : e.isText = d.isText := reads.kin.isText

theorem Reads.readObstacle? (reads : d.Reads e before raw t) : e.readObstacle? = d.readObstacle? := by
  have mode : e.mode = d.mode := reads.kin.mode
  rw [Device.readObstacle?, Device.readObstacle?, isOpen, isOpen, mode]

theorem Reads.steady_iff (reads : d.Reads e before raw t) : Source.Steady e.medium ↔ Source.Steady d.medium :=
  reads.kin.steady_iff

theorem Reads.prompt_iff (reads : d.Reads e before raw t) : Source.Prompt e.medium ↔ Source.Prompt d.medium :=
  reads.kin.prompt_iff

private theorem Reads.inTransaction (reads : d.Reads e before raw t) : e.inTransaction = d.inTransaction := by
  rw [Device.inTransaction, reads.transaction, Device.inTransaction]
  cases d.transaction <;> rfl

private theorem Reads.keeps (reads : d.Reads e before raw t) : e.keeps false = d.keeps false := by
  have kind : e.sequential = d.sequential := reads.kin.sequential
  simp only [Device.keeps, kind, reads.inTransaction, Bool.false_and]

theorem Reads.trans (first : d.Reads e before raw t) (second : e.Reads f (stay (d.keeps false) before raw) raw' u) :
    d.Reads f before (raw ++ raw') u := by
  have ready := second.ready
  have pos := second.pos
  rw [first.keeps, stay_append] at ready
  rw [first.pos] at pos
  refine ⟨ready, ?_, ?_, ?_⟩
  · rw [pos, Word.addWrapped_addWrapped, List.length_append]
  · have later : Kin { e with transaction := d.transaction } { f with transaction := d.transaction } :=
      ⟨second.kin.sequential, second.kin.mode, second.kin.config, second.kin.reading, second.kin.writing, rfl,
        second.kin.outside, second.kin.medium⟩
    exact first.kin.trans later
  · rw [second.transaction, first.transaction, Transaction.upTo_upTo]

theorem Portion.none (d : Device σ) (s : List UInt8) : d.Portion 0 s [] s [] := by
  refine ⟨rfl, fun _ => (shown_nil _).symm, Nat.le_refl _, Nat.le_refl _, Iff.rfl, ?_, ?_⟩
  · rintro - - ⟨last, -⟩
    cases last
  · intro _ some
    exact absurd rfl some

/-- A portion goes on with the next one. -/
theorem Portion.append (first : d.Portion room s raw t bytes) (reads : d.Reads e before raw t)
    (second : e.Portion more t raw' u rest) :
    d.Portion (room + more) s (raw ++ raw') u (bytes ++ rest) := by
  have split := second.split
  subst split
  refine ⟨?_, fun faithful => ?_, ?_, ?_, ?_, fun st text => ?_, fun st some bytes_left none => ?_⟩
  · rw [first.split, List.append_assoc]
  · rw [first.shows faithful, second.shows (by rwa [reads.isText, reads.steady_iff]), reads.isText, shown_append]
    rintro text ⟨last, head⟩
    refine first.whole (faithful text) text ⟨last, ?_⟩
    rw [List.head?_append, head]
    rfl
  · have := first.fits
    have := second.fits
    rw [List.length_append]
    omega
  · have := first.shorter
    have := second.shorter
    rw [List.length_append, List.length_append]
    omega
  · rw [List.append_eq_nil_iff, List.append_eq_nil_iff, first.empty_iff, second.empty_iff]
  · by_cases none : raw' = []
    · rw [none, List.append_nil]
      rw [none, List.nil_append] at first
      exact first.whole st text
    · rintro ⟨last, head⟩
      rw [List.getLast?_append_of_ne_nil _ none] at last
      exact second.whole (reads.steady_iff.mpr st) (reads.isText.trans text) ⟨last, head⟩
  · obtain ⟨none, none'⟩ := List.append_eq_nil_iff.mp none
    by_cases zero : room = 0
    · rw [first.split, none] at bytes_left
      exact second.steady (reads.steady_iff.mpr st) (by omega) bytes_left none'
    · exact first.steady st zero bytes_left none

/-- Without text mode bytes are given as they are. -/
theorem Portion.eq_of_plain (portion : d.Portion room s raw t bytes) (plain : d.isText = false) : bytes = raw := by
  have same := portion.shows fun text => absurd (plain.symm.trans text) Bool.false_ne_true
  rwa [plain] at same

theorem Portion.plain (plain : d.isText = false) (raw t : List UInt8) : d.Portion raw.length (raw ++ t) raw t raw := by
  refine ⟨rfl, fun _ => ?_, Nat.le_refl _, Nat.le_refl _, Iff.rfl, fun _ text => ?_, fun _ some _ none => ?_⟩
  · rw [plain]
    rfl
  · rw [plain] at text
    cases text
  · rw [none] at some
    exact some rfl

/-- What comes short of a request is as good an answer to a larger one. -/
theorem Portion.widen (portion : d.Portion room s raw t bytes) (positive : 0 < room) (more : Nat)
    (wider : room ≤ more) : d.Portion more s raw t bytes := by
  refine ⟨portion.split, portion.shows, Nat.le_trans portion.fits wider, portion.shorter, portion.empty_iff,
    portion.whole, fun st _ => ?_⟩
  exact portion.steady st (by omega)

/-- No call gives more bytes than there are. -/
private theorem Portion.bounded (portion : d.Portion room s raw t bytes) (positive : 0 < room) :
    d.Portion s.length s raw t bytes := by
  refine ⟨portion.split, portion.shows, ?_, portion.shorter, portion.empty_iff, portion.whole, fun st _ => ?_⟩
  · have := congrArg List.length portion.split
    have := portion.shorter
    rw [List.length_append] at *
    omega
  · exact portion.steady st (by omega)

/-- A prompt medium gives just as much as is asked for. -/
theorem Portion.eq_take (portion : d.Portion room s raw t bytes) (fills : d.Fills room bytes t)
    (prompt : Source.Prompt d.medium) : bytes = (shown d.isText s).take room := by
  have steady := Source.steady_of_prompt prompt
  have split : shown d.isText s = bytes ++ shown d.isText t := by
    rw [portion.split, shown_append (portion.whole steady), portion.shows fun _ => steady]
  rw [split]
  rcases fills prompt with full | rfl
  · rw [← full, List.take_left]
  · rw [shown_nil, List.append_nil, List.take_of_length_le portion.fits]

theorem Delivers.none {done : List UInt8 → List UInt8 → Prop} (ready : d.Ready before s) (nothing : done [] s) :
    d.Delivers before s 0 done (.ok [], d) := by
  obtain ⟨queued, has⟩ := ready.supplies
  exact ⟨[], s, .none d s, nothing, ready.stays (.refl d) has rfl d.errorString⟩

/-! Reading -/

/-- Queued bytes may be taken without a pass. -/
theorem Ready.takes {q : ChunkQueue} {queued : List UInt8} (ready : d.Ready before (raw ++ t)) (goes : d.keeps false = false)
    (has : d.Supplies before (raw ++ queued) (raw ++ t)) (wf : q.WellFormed) (left : q.toList = before ++ queued) :
    d.Reads { d with reading := d.reading.put q, pos := Word.addWrapped d.pos raw.length } before raw t := by
  have moved : Moved false d _ before raw queued t := has.move wf left
  have unwrapped := has.unwrapped
  have supplies := moved.supplies
  rw [← goes] at supplies
  have reads := ready.reads moved.kin supplies d.cursor
    (fun stays => absurd (goes.symm.trans stays) Bool.false_ne_true) rfl (fun random => ?_) d.errorString
  · dsimp only at reads
    rwa [upTo_cursor] at reads
  · rw [← unwrapped, if_neg (by simp [random])]

/-- The first queued chunk may be taken as it is. -/
theorem Ready.takes_front (ready : d.Ready before s) (goes : d.keeps false = false) :
    ∃ t, s = d.readQueue.front ++ t ∧ d.readQueue.readChunk.1.content = d.readQueue.front ∧
      d.Reads { d with
        reading := d.reading.put d.readQueue.readChunk.2
        pos := Word.addWrapped d.pos d.readQueue.readChunk.1.length } before d.readQueue.front t := by
  obtain ⟨queued, has⟩ := ready.supplies
  obtain ⟨front, wf, cut, -⟩ := ChunkQueue.readChunk_spec has.wellFormed
  obtain rfl := ready.before_eq_nil goes
  have bytes := has.bytes
  rw [cut, front, List.nil_append] at bytes
  subst bytes
  obtain ⟨t, rfl⟩ : ∃ t, s = d.readQueue.front ++ t := by
    obtain ⟨tail, rfl⟩ := has.queued_prefix
    exact ⟨_, List.append_assoc ..⟩
  have reads := ready.takes goes has wf rfl
  rw [← front, Handle.length_content, front] at reads
  exact ⟨t, rfl, front, reads⟩

theorem readPass_delivers (ready : d.Ready before s) (buffer : List UInt8)
    (possible : d.config.bufferSize < Word.requestLimit) :
    d.Delivers before s buffer.length (d.Fills buffer.length) (d.readPass false buffer) := by
  rcases readPass_reads ready buffer possible with
    ⟨raw, e, t, read, portion, fills, -, reads⟩ | ⟨failure, e, read, reads, unsteady⟩
  · rw [read]
    exact ⟨raw, t, portion, fills, reads⟩
  · rw [read]
    exact ⟨reads, unsteady⟩

private theorem readSteps_delivers (ready : d.Ready before s) (n : Nat)
    (possible : d.config.bufferSize < Word.requestLimit) :
    d.Delivers before s n (d.Fills n) (d.readSteps n) := by
  induction n using Nat.strongRecOn generalizing d before s with
  | ind n ih =>
    rw [readSteps]
    split
    · next positive =>
      have fills := d.fills
      have step : 0 < min n (max d.config.bufferSize d.readQueue.length) := by omega
      have small : min n (max d.config.bufferSize d.readQueue.length) ≤ n := Nat.min_le_left ..
      dsimp only
      generalize min n (max d.config.bufferSize d.readQueue.length) = k at step small
      have delivered := readPass_delivers ready (List.replicate k 0) possible
      rw [List.length_replicate] at delivered
      generalize d.readPass false (List.replicate k 0) = result at delivered
      obtain ⟨failure | bytes, e⟩ := result
      · exact delivered
      · obtain ⟨raw, t, portion, fills, reads⟩ := delivered
        dsimp only
        split
        · next short =>
          refine ⟨raw, t, portion.widen step n small, fun pr => .inr ((fills pr).resolve_left ?_), reads⟩
          omega
        · next whole =>
          have full : bytes.length = k := by
            have := portion.fits
            omega
          have config : e.config = d.config := reads.kin.config
          have further := ih (n - k) (by omega) reads.ready (by rwa [config])
          generalize e.readSteps (n - k) = result at further
          obtain ⟨failure | rest, f⟩ := result
          · obtain ⟨nothing, unsteady⟩ := further
            have reads' := reads.trans nothing
            rw [List.append_nil] at reads'
            refine ⟨raw, t, portion.widen step n small, fun pr => ?_, reads'⟩
            exact absurd (Source.steady_of_prompt (reads.prompt_iff.mpr pr)) unsteady
          · obtain ⟨raw', u, portion', fills', reads'⟩ := further
            have joined := portion.append reads portion'
            rw [Nat.add_sub_cancel' small] at joined
            refine ⟨raw ++ raw', u, joined, fun pr => (fills' (reads.prompt_iff.mpr pr)).imp_left ?_, reads.trans reads'⟩
            intro full'
            rw [List.length_append]
            omega
    · next zero =>
      obtain rfl : n = 0 := by omega
      exact .none ready fun _ => .inl rfl

/-- A read gives a handle to the bytes, which may be the first queued chunk itself. -/
theorem read_delivers (ready : d.Ready before s) (able : d.readObstacle? = none) (n : Nat)
    (possible : d.config.bufferSize < Word.requestLimit) :
    d.Delivers before s n (d.Fills n) ((d.read n).1.map Handle.content, (d.read n).2) := by
  rw [read, able]
  dsimp only
  split
  · next zero =>
    subst zero
    exact .none ready fun _ => .inl rfl
  · next some =>
    split
    · next chunk =>
      obtain ⟨⟨outside, plain⟩, first⟩ : (d.inTransaction = false ∧ d.isText = false) ∧ n = d.readQueue.front.length := by
        simpa using chunk
      obtain ⟨t, rfl, front, reads⟩ := ready.takes_front (by simp [Device.keeps, outside])
      dsimp only [Except.map]
      rw [front, first]
      exact ⟨d.readQueue.front, t, .plain plain _ t, fun _ => .inl rfl, reads⟩
    · have delivered := readSteps_delivers ready n possible
      generalize d.readSteps n = result at delivered
      obtain ⟨failure | bytes, e⟩ := result
      · exact delivered
      · obtain ⟨raw, t, portion, fills, reads⟩ := delivered
        refine ⟨raw, t, ?_, ?_, reads⟩
        · rwa [Handle.content_ofList]
        · rwa [Handle.content_ofList]

theorem readInto_delivers (ready : d.Ready before s) (able : d.readObstacle? = none) (buffer : List UInt8)
    (possible : d.config.bufferSize < Word.requestLimit) :
    d.Delivers before s buffer.length (d.Fills buffer.length) (d.readInto buffer) := by
  rw [readInto, able]
  exact readPass_delivers ready buffer possible

theorem getByte_delivers (ready : d.Ready before s) (able : d.readObstacle? = none)
    (possible : d.config.bufferSize < Word.requestLimit) :
    d.Delivers before s 1 (d.Fills 1) (d.getByte.1.map Option.toList, d.getByte.2) := by
  rw [getByte, able]
  have delivered := readPass_delivers ready [0] possible
  dsimp only
  generalize d.readPass false [0] = result at delivered
  obtain ⟨failure | bytes, e⟩ := result
  · exact delivered
  · obtain ⟨raw, t, portion, fills, reads⟩ := delivered
    have fits := portion.fits
    have same : bytes.head?.toList = bytes := by
      cases bytes with
      | nil => rfl
      | cons b rest =>
        obtain rfl : rest = [] := by simpa using fits
        rfl
    refine ⟨raw, t, ?_, ?_, reads⟩
    · rwa [same]
    · rwa [same]

/-- Reading until nothing comes gives all that a steady medium has. -/
private theorem readPieces_delivers (ready : d.Ready before s) (able : d.readObstacle? = none) (room : Nat)
    (fits : s.length ≤ room)
    (possible : d.config.bufferSize < Word.requestLimit) :
    d.Delivers before s s.length (fun _ t => Source.Steady d.medium → t = [])
      ((d.readPieces room).1.map (List.flatMap Handle.content), (d.readPieces room).2) := by
  induction room using Nat.strongRecOn generalizing d before s with
  | ind room ih =>
    have delivered := read_delivers ready able Word.maxValue possible
    rw [readPieces]
    generalize d.read Word.maxValue = result at delivered
    obtain ⟨failure | piece, e⟩ := result
    · exact delivered
    · obtain ⟨raw, t, portion, -, reads⟩ := delivered
      have shorter := portion.shorter
      have split := congrArg List.length portion.split
      rw [List.length_append] at split
      dsimp only
      rw [← Handle.length_content]
      split
      · next more =>
        have config : e.config = d.config := reads.kin.config
        have further := ih (room - piece.content.length) (by omega) reads.ready (reads.readObstacle?.trans able) (by omega)
          (by rwa [config])
        generalize e.readPieces (room - piece.content.length) = result at further
        obtain ⟨failure | pieces, f⟩ := result
        · obtain ⟨nothing, unsteady⟩ := further
          have reads' := reads.trans nothing
          rw [List.append_nil] at reads'
          refine ⟨raw, t, ?_, fun st => absurd (reads.steady_iff.mpr st) unsteady, reads'⟩
          rw [List.flatMap_singleton]
          exact portion.bounded (by decide)
        · obtain ⟨raw', u, portion', all, reads'⟩ := further
          refine ⟨raw ++ raw', u, ?_, fun st => all (reads.steady_iff.mpr st), reads.trans reads'⟩
          rw [List.flatMap_cons]
          exact (portion.append reads portion').bounded (Nat.lt_of_lt_of_le (by decide) (Nat.le_add_right ..))
      · next last =>
        have nothing : piece.content = [] := List.length_eq_zero_iff.mp (by omega)
        have bounded := portion.bounded (by decide)
        rw [nothing] at bounded
        refine ⟨raw, t, bounded, fun st => ?_, reads⟩
        have none : raw = [] := bounded.empty_iff.mp rfl
        by_contra left
        have all := portion.split
        rw [none, List.nil_append] at all
        exact portion.steady st (by decide) (all ▸ left) none

theorem readAll_delivers (ready : d.Ready before s) (able : d.readObstacle? = none) (short : s.length ≤ Word.maxValue)
    (possible : d.config.bufferSize < Word.requestLimit) :
    d.Delivers before s s.length (fun _ t => Source.Steady d.medium → t = [])
      (d.readAll.1.map Handle.content, d.readAll.2) := by
  have delivered := readPieces_delivers ready able Word.maxValue short possible
  rw [readAll, able]
  dsimp only
  generalize d.readPieces Word.maxValue = result at delivered
  obtain ⟨failure | pieces, e⟩ := result
  · exact delivered
  · dsimp only [Except.map] at delivered ⊢
    rwa [Handle.content_ofList]

/-! Peeking -/

/-- The result of a look at up to `room` bytes. -/
def Previews (d : Device σ) (before s : List UInt8) (room : Nat) :
    Except Failure (List UInt8) × Device σ → Prop
  | (.ok bytes, e) => ∃ raw t u, d.Portion room s raw t bytes ∧ d.Fills room bytes t ∧ d.Looks e before raw s u
  | (.error _, e) => d.Reads e before [] s ∧ ¬ Source.Steady d.medium

private theorem readPass_previews (ready : d.Ready before s) (buffer : List UInt8)
    (possible : d.config.bufferSize < Word.requestLimit) :
    d.Previews before s buffer.length (d.readPass true buffer) := by
  rcases readPass_peeks ready buffer possible with
    ⟨raw, e, t, u, read, portion, fills, looks⟩ | ⟨failure, e, read, reads, unsteady⟩
  · rw [read]
    exact ⟨raw, t, u, portion, fills, looks⟩
  · rw [read]
    exact ⟨reads, unsteady⟩

theorem peekInto_previews (ready : d.Ready before s) (able : d.readObstacle? = none) (buffer : List UInt8)
    (possible : d.config.bufferSize < Word.requestLimit) :
    d.Previews before s buffer.length (d.peekInto buffer) := by
  rw [peekInto, able]
  exact readPass_previews ready buffer possible

theorem peek_previews (ready : d.Ready before s) (able : d.readObstacle? = none) (n : Nat)
    (possible : d.config.bufferSize < Word.requestLimit) :
    d.Previews before s (min n (max d.bytesAvailable d.config.bufferSize))
      ((d.peek n).1.map Handle.content, (d.peek n).2) := by
  rw [peek, able]
  have previewed := readPass_previews ready
    (List.replicate (min n (max d.bytesAvailable d.config.bufferSize)) 0) possible
  rw [List.length_replicate] at previewed
  dsimp only
  generalize d.readPass true _ = result at previewed
  obtain ⟨failure | bytes, e⟩ := result
  · exact previewed
  · obtain ⟨raw, t, u, portion, fills, looks⟩ := previewed
    refine ⟨raw, t, u, ?_, ?_, looks⟩
    · rwa [Handle.content_ofList]
    · rwa [Handle.content_ofList]

end ByteFlow.Device
