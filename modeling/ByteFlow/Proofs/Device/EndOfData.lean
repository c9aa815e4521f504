import ByteFlow.Proofs.Device.Presence
import ByteFlow.Proofs.Device.States

/-! When reading says that there is no more.
A call that wants a byte and gets none is how a device tells the end of the data. Over memory and over a pipe it
does so just when it has nothing available, unless fills ask for more than any queue takes: then it gives only
what is queued, and says that there is no more while the medium still has bytes. -/
namespace ByteFlow.Device
open Medium

variable {σ : Type} [Medium σ]

section
variable {d : Device σ}

/-! Calls -/

private theorem obtained_readSteps_eq_nil_iff (d : Device σ) {n : Nat} (positive : 0 < n) :
    obtained id (d.readSteps n) = [] ↔
      obtained id (d.readPass false (List.replicate (min n (max d.config.bufferSize d.readQueue.length)) 0)) = [] := by
  have fills := d.fills
  rw [readSteps, dif_pos positive]
  dsimp only
  generalize d.readPass false (List.replicate (min n (max d.config.bufferSize d.readQueue.length)) 0) = result
  obtain ⟨failure | bytes, e⟩ := result
  · exact Iff.rfl
  · dsimp only
    split
    · exact Iff.rfl
    · next full =>
      have some : bytes ≠ [] := List.ne_nil_of_length_pos (by omega)
      split
      · exact iff_of_false (List.append_ne_nil_of_left_ne_nil some _) some
      · exact iff_of_false some some

private theorem obtained_lineSteps_eq_nil_iff (d : Device σ) {n : Nat} (positive : 0 < n) :
    obtained id (d.lineSteps n) = [] ↔ obtained id (d.linePass (min n d.config.bufferSize)) = [] := by
  have fills := d.fills
  rw [lineSteps, dif_pos positive]
  dsimp only
  generalize d.linePass (min n d.config.bufferSize) = result
  obtain ⟨failure | bytes, e⟩ := result
  · exact Iff.rfl
  · dsimp only
    split
    · exact Iff.rfl
    · next more =>
      have some : bytes ≠ [] := List.ne_nil_of_length_pos (by omega)
      split
      · exact iff_of_false (List.append_ne_nil_of_left_ne_nil some _) some
      · exact iff_of_false some some

private theorem obtained_readLine (able : d.readObstacle? = none) {n : Nat} (positive : 0 < n) :
    obtained Handle.content (d.readLine n) = obtained id (d.lineSteps n) := by
  rw [readLine, able, if_neg (Nat.ne_of_gt positive)]
  dsimp only
  generalize d.lineSteps n = result
  obtain ⟨failure | line, e⟩ := result
  · rfl
  · exact Handle.content_ofList _ _

private theorem obtained_getByte_eq_nil_iff (able : d.readObstacle? = none) :
    obtained Option.toList d.getByte = [] ↔ obtained id (d.readPass false [0]) = [] := by
  rw [getByte, able]
  dsimp only
  generalize d.readPass false [0] = result
  obtain ⟨failure | bytes, e⟩ := result
  · exact Iff.rfl
  · cases bytes <;> simp [obtained]

/-- A chunk that is handed out whole has bytes; otherwise reading goes step by step. -/
private theorem obtained_read (steady : Steady d) (able : d.readObstacle? = none) {n : Nat} (positive : 0 < n) :
    (obtained Handle.content (d.read n) ≠ [] ∧ d.cursor < d.readQueue.length) ∨
      obtained Handle.content (d.read n) = obtained id (d.readSteps n) := by
  rw [Device.read, able, if_neg (Nat.ne_of_gt positive)]
  dsimp only
  split
  · next whole =>
    left
    rw [Bool.and_eq_true, Bool.and_eq_true, beq_iff_eq] at whole
    obtain ⟨⟨idle, -⟩, exact_⟩ := whole
    have wf := steady.wellFormed
    obtain ⟨content, -⟩ := ChunkQueue.readChunk_spec wf
    have front : d.readQueue.front ≠ [] := List.ne_nil_of_length_pos (exact_ ▸ positive)
    have start : d.cursor = 0 := by
      have idle : d.transaction = .idle := by simpa [inTransaction] using idle
      rw [cursor, idle]
    refine ⟨?_, ?_⟩
    · show d.readQueue.readChunk.1.content ≠ []
      rwa [content]
    · rw [start, wf.counted]
      exact List.length_pos_of_ne_nil (mt (ChunkQueue.front_eq_nil_iff wf).mpr front)
  · right
    generalize d.readSteps n = result
    obtain ⟨failure | bytes, e⟩ := result
    · rfl
    · exact Handle.content_ofList _ _

/-- Calls that want at least one byte give none just if `none` holds. -/
structure GivesUnless (d : Device σ) (none : Prop) : Prop where
  read (n : Nat) : 1 ≤ n → n < Word.requestLimit → (obtained Handle.content (d.read n) = [] ↔ none)
  line (n : Nat) : 1 ≤ n → n < Word.requestLimit → (obtained Handle.content (d.readLine n) = [] ↔ none)
  byte : obtained Option.toList d.getByte = [] ↔ none

private theorem GivesUnless.congr {a b : Prop} (gives : GivesUnless d a) (same : a ↔ b) : GivesUnless d b where
  read n positive small := (gives.read n positive small).trans same
  line n positive small := (gives.line n positive small).trans same
  byte := gives.byte.trans same

variable [Faultless σ]

private theorem givesUnless (steady : Steady d) (still : d.advance 0 = d) (able : d.readObstacle? = none)
    (buffered : d.isBuffered = true) {has : Prop} (yields : has → d.Yields) (dry : ¬ has → d.Dry) :
    GivesUnless d (d.readQueue.length ≤ d.cursor ∧ (has → Word.requestLimit ≤ d.config.bufferSize)) := by
  have exhausted (none : d.readQueue.length ≤ d.cursor ∧ (has → Word.requestLimit ≤ d.config.bufferSize)) : d.Exhausted := by
    refine ⟨none.1, ?_⟩
    by_cases more : has
    · exact .inr (none.2 more)
    · exact .inl (dry more)
  have supplied (some : ¬ (d.readQueue.length ≤ d.cursor ∧ (has → Word.requestLimit ≤ d.config.bufferSize))) : d.Supplied := by
    rw [not_and_or, Nat.not_le] at some
    refine some.imp_right fun some => ?_
    obtain ⟨more, possible⟩ := Classical.not_imp.mp some
    exact ⟨yields more, Nat.not_le.mp possible⟩
  have pass (buffer : List UInt8) (room : buffer ≠ []) (small : buffer.length < Word.requestLimit) :
      obtained id (d.readPass false buffer) = [] ↔
        d.readQueue.length ≤ d.cursor ∧ (has → Word.requestLimit ≤ d.config.bufferSize) := by
    by_cases none : d.readQueue.length ≤ d.cursor ∧ (has → Word.requestLimit ≤ d.config.bufferSize)
    · exact iff_of_true (readPass_none steady still buffered (exhausted none) small) none
    · exact iff_of_false (readPass_some steady still buffered (supplied none) room) none
  have fills := d.fills
  refine ⟨fun n positive small => ?_, fun n positive small => ?_, ?_⟩
  · rcases obtained_read steady able positive with ⟨some, queued⟩ | steps
    · exact iff_of_false some fun none => absurd none.1 (Nat.not_le.mpr queued)
    · rw [steps, obtained_readSteps_eq_nil_iff d positive]
      refine pass _ (List.ne_nil_of_length_pos ?_) ?_
      · rw [List.length_replicate]
        omega
      · rw [List.length_replicate]
        omega
  · rw [obtained_readLine able positive, obtained_lineSteps_eq_nil_iff d positive]
    by_cases none : d.readQueue.length ≤ d.cursor ∧ (has → Word.requestLimit ≤ d.config.bufferSize)
    · exact iff_of_true (linePass_none buffered (exhausted none) _) none
    · exact iff_of_false (linePass_some steady buffered (supplied none) (by omega)) none
  · rw [obtained_getByte_eq_nil_iff able]
    exact pass [0] (List.cons_ne_nil _ _) (by decide)

end

/-! Media -/

/-- Memory gives the bytes from the position on. -/
private theorem Anchored.yields_or_dry {d : Device Medium.Memory} (anchored : Anchored d) (opened : d.isOpen = true)
    (small : d.medium.data.length < Word.modulus) :
    (d.pos < d.medium.data.length → d.Yields) ∧ (¬ d.pos < d.medium.data.length → d.Dry) := by
  have stands := anchored.overMemory.stands opened small
  have reads (m : Medium.Memory) (held : List StorageId) (n : Nat) : ∃ m', Medium.read held m n =
      (.ok ⟨(m.data.content.drop m.cursor).take n, ((m.data.content.drop m.cursor).take n).length⟩, m') := ⟨_, rfl⟩
  have gives (m : Medium.Memory) (inside : m.cursor < m.data.length) (held : List StorageId) (n : Nat) (positive : 0 < n) :
      ∃ bytes m', Medium.read held m n = (.ok ⟨bytes, bytes.length⟩, m') ∧ bytes.length ≤ n ∧ bytes ≠ [] := by
    obtain ⟨m', read⟩ := reads m held n
    refine ⟨_, m', read, List.length_take_le .., List.ne_nil_of_length_pos ?_⟩
    rw [List.length_take, List.length_drop, Handle.length_content]
    omega
  have ends (m : Medium.Memory) (past : m.data.length ≤ m.cursor) (held : List StorageId) (n : Nat) :
      ∃ m', Medium.read held m n = (.ok ⟨[], 0⟩, m') := by
    obtain ⟨m', read⟩ := reads m held n
    rw [List.drop_eq_nil_of_le (by rw [Handle.length_content]; exact past), List.take_nil] at read
    exact ⟨m', read⟩
  by_cases there : d.mediumPos = d.pos
  · have synced : d.sync = (.ok (), d) := by rw [Device.sync, if_pos (.inr there)]
    have same : d.medium.cursor = d.pos := by rw [← stands, there]
    refine ⟨fun inside => ⟨d, synced, gives d.medium (same ▸ inside)⟩, fun outside e found => ?_⟩
    obtain ⟨-, rfl⟩ := Prod.mk.inj (synced.symm.trans found)
    exact ends d.medium (same ▸ Nat.le_of_not_lt outside)
  · have away : ¬ (d.sequential = true ∨ d.mediumPos = d.pos) := by simp [anchored.random, there]
    refine ⟨fun inside => ?_, fun outside e found => ?_⟩
    · have sought : Medium.seek d.heldBesideMedium d.medium d.pos = (.ok (), { d.medium with cursor := d.pos }) :=
        if_pos (Nat.le_of_lt inside)
      refine ⟨_, by rw [Device.sync, if_neg away, sought], gives _ inside⟩
    · rw [Device.sync, if_neg away] at found
      split at found
      · cases found
      · next m there =>
        obtain ⟨cursor, -⟩ := seek_stands there
        obtain ⟨-, rfl⟩ := Prod.mk.inj found
        refine ends m ?_
        -- Past the end the memory is filled up just as far as it is moved.
        have there : d.medium.seek d.heldBesideMedium d.pos = (.ok (), m) := there
        rw [Medium.Memory.seek] at there
        split at there
        · obtain ⟨-, rfl⟩ := Prod.mk.inj there
          exact Nat.le_of_not_lt outside
        · split at there
          · obtain ⟨-, rfl⟩ := Prod.mk.inj there
            exact Nat.le_of_eq (Handle.length_resize ..)
          · cases there

/-- A pipe gives what waits on its current channel. -/
private theorem Pipe.yields_or_dry {d : Device Pipe} (stream : d.sequential = true) (sound : Source.Sound d.medium)
    (unlimited : d.medium.readLimit = none) :
    (0 < Medium.available d.medium → d.Yields) ∧ (¬ 0 < Medium.available d.medium → d.Dry) := by
  have synced : d.sync = (.ok (), d) := by rw [sync, if_pos (.inl stream)]
  have reads (held : List StorageId) (n : Nat) : ∃ m, Medium.read held d.medium n =
      (.ok ⟨d.medium.waiting.take n, (d.medium.waiting.take n).length⟩, m) := by
    obtain ⟨m, read, -⟩ := Pipe.read_spec sound n
    rw [unlimited] at read
    exact ⟨m, read⟩
  rw [Pipe.available_eq sound]
  refine ⟨fun some => ⟨d, synced, fun held n positive => ?_⟩, fun none e found held n => ?_⟩
  · obtain ⟨m, read⟩ := reads held n
    refine ⟨_, m, read, List.length_take_le .., List.ne_nil_of_length_pos ?_⟩
    rw [List.length_take]
    omega
  · obtain ⟨-, rfl⟩ := Prod.mk.inj (synced.symm.trans found)
    obtain ⟨m, read⟩ := reads held n
    rw [List.length_eq_zero_iff.mp (Nat.eq_zero_of_not_pos none), List.take_nil] at read
    exact ⟨m, read⟩

/-! Scripts -/

private theorem Turn.config {d e : Device σ} (turn : Turn d e) : e.config = d.config := by
  cases turn with
  | closed errorString => exact (flushAll_puts d).apart.config
  | moved random place =>
    obtain ⟨q, moved, -⟩ := d.moveTo_eq place
    rw [moved]
  | returned startPos running =>
    obtain ⟨q, moved, -⟩ := d.moveTo_eq startPos
    rw [moved]
  | _ => rfl

/-- The parameters that a device was made with are its own for good. -/
private theorem doesAll_config (d : Device σ) (script : List (Deed σ)) : (d.doesAll script).2.config = d.config := by
  induction script generalizing d with
  | nil => rfl
  | cons deed rest ih =>
    refine (ih (d.does deed).2).trans ?_
    rcases does_effect d deed with effect | ⟨act, -, worked⟩ | ⟨ids, held⟩
    · cases effect with
      | bouts peeking bouts => exact bouts.touches.left.config
      | puts puts => exact puts.apart.config
      | turn turn => exact turn.config
    · rw [worked]
    · rw [held]

/-- A pipe's queues are in order, whatever is done on a stream over it. -/
private theorem Effect.sound {d e : Device Pipe} (effect : Effect d e) (stream : d.sequential = true)
    (sound : Source.Sound d.medium) : Source.Sound e.medium := by
  cases effect with
  | bouts peeking bouts =>
    refine bouts.touches.medium (fun _ _ _ sound => sound) (fun held m n sound => ?_) sound
    obtain ⟨m', read, -, sound', -⟩ := Pipe.read_spec sound n
    have read : (Medium.read held m n).2 = m' := congrArg Prod.snd read
    rw [read]
    exact sound'
  | puts puts =>
    have beside := puts.beside stream
    intro q member
    rw [beside.incoming] at member
    exact sound q member
  | turn turn =>
    cases turn with
    | unopened mode e m refused errorString => cases refused
    | opened closed mode able m granted pos start =>
      obtain ⟨-, rfl⟩ := Prod.mk.inj granted
      exact sound
    | closed errorString =>
      have beside := (flushAll_puts d).beside stream
      intro q member
      have member : q ∈ d.flushAll.2.medium.incoming := member
      rw [beside.incoming] at member
      exact sound q member
    | moved random place => exact absurd (stream.symm.trans random) (by decide)
    | sought random place m there => exact absurd (stream.symm.trans random) (by decide)
    | astray random place e m refused errorString => exact absurd (stream.symm.trans random) (by decide)
    | returned startPos running =>
      obtain ⟨q, moved, -⟩ := d.moveTo_eq startPos
      rw [moved]
      exact sound
    | _ => exact sound

private theorem doesAll_sound {d : Device Pipe} {last : OpenMode} (steady : Steady d) (abreast : Abreast d last)
    (sound : Source.Sound d.medium) {script : List (Deed Pipe)} (fair : d.Fair Reaches script) :
    Source.Sound (d.doesAll script).2.medium := by
  induction script generalizing d last with
  | nil => exact sound
  | cons deed rest ih =>
    obtain ⟨may, later⟩ := fair
    have next : Abreast (d.doesAll [deed]).2 (d.lastModeAfter last [deed]) := doesAll_abreast steady abreast ⟨may, trivial⟩
    refine ih (does_steady steady deed) next ?_ later
    rcases does_effect d deed with effect | ⟨act, same, worked⟩ | ⟨ids, held⟩
    · exact effect.sound abreast.stream sound
    · obtain ⟨far, rfl⟩ := may act same
      rw [worked]
      exact (Pipe.act_spec sound far).1
    · rw [held]
      exact sound

/-- What fills ask for decides whether what is not queued counts. -/
private theorem spent_iff {d : Device σ} {has : Prop}
    (none : d.bytesAvailable = 0 ↔ d.readQueue.length ≤ d.cursor ∧ ¬ has) :
    d.readQueue.length ≤ d.cursor ∧ (has → Word.requestLimit ≤ d.config.bufferSize) ↔
      if d.config.bufferSize < Word.requestLimit then d.bytesAvailable = 0 else d.readQueue.length ≤ d.cursor := by
  split
  · next possible =>
    rw [none]
    exact and_congr_right fun _ =>
      ⟨fun large more => Nat.not_le.mpr possible (large more), fun outside more => absurd more outside⟩
  · next large => exact and_iff_left fun _ => Nat.not_lt.mp large

private theorem Anchored.gives {d : Device Medium.Memory} (anchored : Anchored d) (steady : Steady d)
    (able : d.readObstacle? = none)
    (buffered : d.isBuffered = true) (word : d.pos < Word.modulus) (small : d.medium.data.length < Word.modulus) :
    GivesUnless d
      (if d.config.bufferSize < Word.requestLimit then d.bytesAvailable = 0 else d.readQueue.length ≤ d.cursor) := by
  have opened := isOpen_of_able able
  have still : d.advance 0 = d := by rw [advance_eq, Word.addWrapped_zero word, ite_self]
  obtain ⟨yields, dry⟩ := anchored.yields_or_dry opened small
  refine (givesUnless steady still able buffered yields dry).congr (spent_iff ?_)
  have size : Medium.size d.medium = d.medium.data.length := rfl
  rw [bytesAvailable, if_neg (by simp [opened])]
  dsimp only
  rw [if_neg (by simp [anchored.random]), size]
  omega

private theorem Pipe.gives {d : Device Pipe} (stream : d.sequential = true) (sound : Source.Sound d.medium)
    (unlimited : d.medium.readLimit = none) (steady : Steady d) (able : d.readObstacle? = none)
    (buffered : d.isBuffered = true) :
    GivesUnless d
      (if d.config.bufferSize < Word.requestLimit then d.bytesAvailable = 0 else d.readQueue.length ≤ d.cursor) := by
  have opened := isOpen_of_able able
  have still : d.advance 0 = d := by rw [advance, if_pos stream]
  obtain ⟨yields, dry⟩ := Pipe.yields_or_dry stream sound unlimited
  refine (givesUnless steady still able buffered yields dry).congr (spent_iff ?_)
  rw [bytesAvailable, if_neg (by simp [opened])]
  dsimp only
  rw [if_pos stream]
  omega

private theorem ofMedium_possible {m : σ} {config : Config} :
    (ofMedium m config).config.bufferSize < Word.requestLimit ↔ config.bufferSize < Word.requestLimit := by
  show max 1 config.bufferSize < Word.requestLimit ↔ _
  have : 1 < Word.requestLimit := by decide
  omega

/-- Reading gives no byte just when none is available, if fills ask for what a queue may take; if they ask for
more, just when none is queued. -/
theorem gives_nothing_iff (config : Config) :
    (∀ (data : Handle) (script : List (Deed Medium.Memory)) (d : Device Medium.Memory),
      d = ((ofMedium (Medium.Memory.ofHandle data) config).doesAll script).2 →
      (ofMedium (Medium.Memory.ofHandle data) config).Fair Replaces script →
      d.readObstacle? = none → d.isBuffered = true → d.pos < Word.modulus → d.medium.data.length < Word.modulus →
      GivesUnless d
        (if config.bufferSize < Word.requestLimit then d.bytesAvailable = 0 else d.readQueue.length ≤ d.cursor)) ∧
    ∀ (script : List (Deed Pipe)) (d : Device Pipe), d = ((ofMedium Pipe.empty config).doesAll script).2 →
      (ofMedium Pipe.empty config).Fair Reaches script →
      d.readObstacle? = none → d.isBuffered = true → d.medium.readLimit = none →
      GivesUnless d
        (if config.bufferSize < Word.requestLimit then d.bytesAvailable = 0 else d.readQueue.length ≤ d.cursor) := by
  refine ⟨?_, ?_⟩
  · rintro data script d rfl fair able buffered word small
    have start : Anchored (ofMedium (Medium.Memory.ofHandle data) config) :=
      ⟨rfl, Nat.zero_le _, fun opened => (by cases opened), Channels.forall_single rfl⟩
    have gives := (doesAll_anchored start fair).gives (doesAll_steady (steady_ofMedium _ config) script) able buffered
      word small
    rw [doesAll_config] at gives
    simpa only [ofMedium_possible] using gives
  · rintro script d rfl fair able buffered unlimited
    have steady : Steady (ofMedium Pipe.empty config) := steady_ofMedium _ config
    have start : Abreast (ofMedium Pipe.empty config) .closed :=
      ⟨rfl, fun opened => (by cases opened), fun opened => (by cases opened),
        Channels.forall_single fun some => absurd some (Nat.lt_irrefl 0)⟩
    have sound := doesAll_sound steady start (fun _ member => absurd member List.not_mem_nil) fair
    have gives := Pipe.gives (doesAll_abreast steady start fair).stream sound unlimited (doesAll_steady steady script) able
      buffered
    rw [doesAll_config] at gives
    simpa only [ofMedium_possible] using gives

/-- A memory of three bytes that is open for reading, its fills asking for as much as a word can tell. -/
def withheld : Device Medium.Memory :=
  ((ofMedium (Medium.Memory.ofHandle (Handle.ofFixed [] [97, 98, 99])) ⟨Word.maxValue, 4096, 0, false⟩).doesAll
    [.call (.openWith .readOnly)]).2

/-- Three bytes are available, and every call says that there is none. -/
theorem gives_nothing_withheld : withheld.bytesAvailable = 3 ∧ obtained Handle.content (withheld.read 2) = [] ∧
    obtained Handle.content (withheld.readLine 2) = [] ∧ obtained Option.toList withheld.getByte = [] := by
  decide +kernel

/-- What is done with a pipe that has one byte queued ahead, in text mode and in a transaction. -/
def awaiting : List (Deed Pipe) :=
  [.work (fun p => p.act (.feed [] 0 (Handle.ofFixed [] [97, 13, 10]))), .call (.openWith { OpenMode.readOnly with text := true }),
    .call .startTransaction, .call .getByte]

theorem gives_nothing_iff_scripts :
    (withheld.readQueue.length = 0 ∧ GivesUnless withheld (withheld.readQueue.length ≤ withheld.cursor)) ∧
      ∃ d, d = ((ofMedium Pipe.empty ⟨4, 0, 0, false⟩).doesAll awaiting).2 ∧ d.bytesAvailable = 2 ∧
        GivesUnless d (d.bytesAvailable = 0) := by
  refine ⟨⟨by decide +kernel, ?_⟩, _, rfl, by decide +kernel, ?_⟩
  · refine (gives_nothing_iff ⟨Word.maxValue, 4096, 0, false⟩).1 _ _ withheld rfl (fair_of_quiet (by simp)) ?_ ?_ ?_ ?_
    · decide +kernel
    · decide +kernel
    · decide +kernel
    · decide +kernel
  · have fair : (ofMedium Pipe.empty ⟨4, 0, 0, false⟩).Fair Reaches awaiting := by
      refine ⟨fun act same => ⟨_, (Deed.work.inj same).symm⟩, fair_of_quiet ?_⟩
      simp
    exact (gives_nothing_iff ⟨4, 0, 0, false⟩).2 awaiting _ rfl fair (by decide +kernel) (by decide +kernel) (by decide +kernel)

end ByteFlow.Device
