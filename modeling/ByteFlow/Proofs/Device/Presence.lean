import ByteFlow.Proofs.Device.Ranges
import ByteFlow.Proofs.Device.Steady

/-! Whether a reading call gives anything.
A call that wants at least one byte gives some if one is queued, or if the medium gives some to a fill that the
queue takes; it gives none if none is queued and no fill brings any. What was read once is never lost again: a
carriage return goes only where a line feed stays. -/
namespace ByteFlow.Device
open Medium

variable {σ : Type} [Medium σ]

/-- The medium, brought to where the device is, gives some bytes, however many are asked for. -/
def Yields (d : Device σ) : Prop :=
  ∃ e, d.sync = (.ok (), e) ∧ ∀ held n, 0 < n →
    ∃ bytes m, Medium.read held e.medium n = (.ok ⟨bytes, bytes.length⟩, m) ∧ bytes.length ≤ n ∧ bytes ≠ []

/-- The medium is not brought to where the device is, or gives nothing there. -/
def Dry (d : Device σ) : Prop :=
  ∀ e, d.sync = (.ok (), e) → ∀ held n, ∃ m, Medium.read held e.medium n = (.ok ⟨[], 0⟩, m)

/-- The next byte is queued, or the medium gives it and the queue takes what is asked for. -/
def Supplied (d : Device σ) : Prop :=
  d.cursor < d.readQueue.length ∨ d.Yields ∧ d.config.bufferSize < Word.requestLimit

/-- No byte is queued, and the medium gives none or the queue refuses to take as many as are asked for. -/
def Exhausted (d : Device σ) : Prop :=
  d.readQueue.length ≤ d.cursor ∧ (d.Dry ∨ Word.requestLimit ≤ d.config.bufferSize)

/-- The bytes that a pass came to; a pass that failed came to none. -/
def took : Except IoError Pass × Device σ → List UInt8
  | (.ok p, _) => p.filled
  | (.error _, _) => []

/-- The bytes that a call gives, `bytes` being those of its answer; a call that fails gives none. -/
def obtained {α : Type} (bytes : α → List UInt8) : Except Failure α × Device σ → List UInt8
  | (.ok answer, _) => bytes answer
  | (.error _, _) => []

variable {d e : Device σ} {keep : Bool} {p q : Pass}

/-! Fills -/

/-- What the medium gives to a fill that the queue takes is queued. -/
private theorem fill_some (wf : d.readQueue.WellFormed) {chunk : Nat} (positive : 0 < chunk)
    (possible : chunk < Word.requestLimit)
    (gives : ∀ held n, 0 < n →
      ∃ bytes m, Medium.read held d.medium n = (.ok ⟨bytes, bytes.length⟩, m) ∧ bytes.length ≤ n ∧ bytes ≠ []) :
    ∃ got e, d.fill chunk = (.ok got, e) ∧ got ≠ 0 ∧ e.readQueue.WellFormed ∧ d.readQueue.length < e.readQueue.length := by
  obtain ⟨bytes, m, read, few, some⟩ := gives d.heldBesideMedium chunk positive
  have some := List.length_pos_of_ne_nil some
  rw [fill]
  dsimp only
  cases granted : d.readQueue.reserve? (d.heldBesideReading d.reading.current) chunk with
  | none =>
    have refused := (ChunkQueue.reserve?_eq_none_iff _ _ _).mp granted
    omega
  | some q =>
    obtain ⟨wf', queued⟩ := fill_chop_spec wf granted few
    rw [read]
    dsimp only
    rw [Nat.min_eq_left few, follow_eq]
    refine ⟨_, _, rfl, Nat.ne_of_gt some, ?_⟩
    rw [readQueue, Channels.queue_put]
    refine ⟨wf', ?_⟩
    rw [wf'.counted, queued, List.length_append, wf.counted]
    omega

/-- Where the medium gives nothing or the queue refuses, nothing comes. -/
private theorem fill_none {chunk : Nat}
    (none : (∀ held n, ∃ m, Medium.read held d.medium n = (.ok ⟨[], 0⟩, m)) ∨ Word.requestLimit ≤ chunk) :
    ∃ e, d.fill chunk = (.ok 0, e) := by
  rw [fill]
  dsimp only
  cases granted : d.readQueue.reserve? (d.heldBesideReading d.reading.current) chunk with
  | none => exact ⟨_, rfl⟩
  | some q =>
    rcases none with nothing | large
    · obtain ⟨m, read⟩ := nothing d.heldBesideMedium chunk
      rw [read]
      dsimp only
      rw [Nat.zero_min]
      exact ⟨_, rfl⟩
    · rw [(ChunkQueue.reserve?_eq_none_iff _ _ _).mpr (.inr large)] at granted
      cases granted

private theorem sync_same (synced : d.sync = (.ok (), e)) :
    e.readQueue = d.readQueue ∧ e.config = d.config ∧ e.isBuffered = d.isBuffered := by
  obtain ⟨m, mediumPos, parts, -⟩ := d.sync_parts
  rw [synced] at parts
  obtain rfl : e = _ := parts
  exact ⟨rfl, rfl, rfl⟩

/-! Passes -/

omit [Medium σ] in
/-- Queued bytes go into a buffer that has room. -/
private theorem takeQueued_some (wf : d.readQueue.WellFormed) (room : p.spare ≠ [])
    (queued : (if keep then p.offset else 0) < d.readQueue.length) : (d.takeQueued keep p).1.filled ≠ [] := by
  have room := List.length_pos_of_ne_nil room
  have counted := wf.counted
  rw [takeQueued]
  cases keep with
  | true =>
    have there : p.offset < d.readQueue.length := queued
    apply List.append_ne_nil_of_right_ne_nil
    rw [ChunkQueue.peek_eq]
    apply List.ne_nil_of_length_pos
    rw [List.length_take, List.length_drop]
    omega
  | false =>
    have there : 0 < d.readQueue.length := queued
    apply List.append_ne_nil_of_right_ne_nil
    rw [(ChunkQueue.read_spec wf _).1]
    apply List.ne_nil_of_length_pos
    rw [List.length_take]
    omega

omit [Medium σ] in
/-- Where no byte is queued, none is taken. -/
private theorem takeQueued_none (wf : d.readQueue.WellFormed) (still : d.advance 0 = d)
    (queued : d.readQueue.length ≤ (if keep then p.offset else 0)) : d.takeQueued keep p = (p, d) := by
  have counted := wf.counted
  have nothing : p.accept [] = p := by
    rw [Pass.accept, List.append_nil, List.length_nil, List.drop_zero, Nat.add_zero]
  rw [takeQueued]
  cases keep with
  | true =>
    have behind : d.readQueue.length ≤ p.offset := queued
    have none : d.readQueue.peek p.spare.length p.offset = [] := by
      rw [ChunkQueue.peek_eq, List.drop_eq_nil_of_le (by omega), List.take_nil]
    rw [if_pos rfl, none]
    dsimp only [List.length_nil, Nat.add_zero]
    rw [nothing, still]
  | false =>
    have empty : d.readQueue.length = 0 := Nat.le_zero.mp queued
    have none : d.readQueue.read p.spare.length = ([], d.readQueue) := by
      have front : d.readQueue.front = [] := by rw [ChunkQueue.front, if_pos empty]
      rw [ChunkQueue.read, front, List.take_nil]
      rfl
    rw [if_neg Bool.false_ne_true, none]
    dsimp only
    rw [nothing, readQueue, Channels.put_queue, List.length_nil, still]

/-- What the medium gives is in the buffer, or queued to be taken. -/
private theorem refill_some (wf : d.readQueue.WellFormed) (buffered : d.isBuffered = true)
    (possible : d.config.bufferSize < Word.requestLimit) (yields : d.Yields) (room : p.spare ≠ [])
    (reached : (if keep then p.offset else 0) ≤ d.readQueue.length) :
    ∃ got more e, d.refill keep p = (.ok (got, more), e) ∧ got ≠ 0 ∧ (e.takeQueued keep more).1.filled ≠ [] := by
  obtain ⟨e, synced, gives⟩ := yields
  obtain ⟨queue, config, same⟩ := sync_same synced
  have want := List.length_pos_of_ne_nil room
  rw [refill, synced]
  dsimp only
  split
  · obtain ⟨bytes, m, read, few, some⟩ := gives e.heldBesideMedium p.spare.length want
    rw [read]
    dsimp only
    rw [Nat.min_eq_left few]
    refine ⟨_, _, _, rfl, Nat.ne_of_gt (List.length_pos_of_ne_nil some), ?_⟩
    obtain ⟨taken, filled, -⟩ := takeQueued_cases (Device.advance (Device.follow { e with medium := m } bytes.length)
      bytes.length) keep { p.overlay bytes bytes.length with atEnd := decide (bytes.length < p.spare.length) }
    have came : (p.overlay bytes bytes.length).filled = p.filled ++ bytes := by
      rw [Pass.overlay, Pass.accept]
      exact congrArg (p.filled ++ ·) List.take_left
    rw [filled]
    apply List.append_ne_nil_of_left_ne_nil
    show (p.overlay bytes bytes.length).filled ≠ []
    rw [came]
    exact List.append_ne_nil_of_right_ne_nil _ some
  · rw [same, buffered, if_pos rfl, config]
    obtain ⟨got, f, filled, positive, wf', longer⟩ := fill_some (queue ▸ wf) d.fills possible gives
    rw [filled]
    refine ⟨got, _, f, rfl, positive, takeQueued_some wf' room ?_⟩
    rw [queue] at longer
    exact Nat.lt_of_le_of_lt reached longer

/-- Where the medium gives nothing, or nothing that the queue takes, the buffer stays empty. -/
private theorem refill_none (buffered : d.isBuffered = true) (empty : p.filled = [])
    (small : p.spare.length < Word.requestLimit)
    (none : d.Dry ∨ Word.requestLimit ≤ d.config.bufferSize) :
    (∃ err e, d.refill keep p = (.error err, e)) ∨ ∃ more e, d.refill keep p = (.ok (0, more), e) ∧ more.filled = [] := by
  rw [refill]
  rcases synced : d.sync with ⟨err | done, e⟩
  · exact .inl ⟨err, e, rfl⟩
  · obtain ⟨queue, config, same⟩ := sync_same synced
    have none : (∀ held n, ∃ m, Medium.read held e.medium n = (.ok ⟨[], 0⟩, m)) ∨ Word.requestLimit ≤ d.config.bufferSize :=
      none.imp_left fun dry => dry e synced
    right
    dsimp only
    split
    · next direct =>
      -- A request as large as a fill is past what the queue refuses, so that it is the medium that has nothing.
      have dry := none.resolve_right fun large => by
        rw [same, buffered, config, Bool.and_eq_true, Bool.not_true, Bool.false_or, decide_eq_true_eq] at direct
        omega
      obtain ⟨m, read⟩ := dry e.heldBesideMedium p.spare.length
      rw [read]
      dsimp only
      rw [Nat.zero_min]
      exact ⟨_, _, rfl, by rw [Pass.overlay, Pass.accept, empty]; rfl⟩
    · rw [same, buffered, if_pos rfl, config]
      obtain ⟨f, filled⟩ := fill_none none
      rw [filled]
      exact ⟨_, f, rfl, empty⟩

variable [Faultless σ]

/-- Asking the medium for more takes nothing out of the buffer. -/
private theorem refill_keeps {got : Nat} (came : d.refill keep p = (.ok (got, q), e)) (some : p.filled ≠ []) :
    q.filled ≠ [] := by
  rw [refill] at came
  generalize d.sync = result at came
  obtain ⟨failure | done, f⟩ := result
  · cases came
  · dsimp only at came
    by_cases direct : ((!f.isBuffered || decide (f.config.bufferSize ≤ p.spare.length)) && !keep) = true
    · obtain ⟨bytes, m, read, -⟩ := Faultless.read_ok f.heldBesideMedium f.medium p.spare.length
      rw [if_pos direct, read] at came
      obtain ⟨answer, -⟩ := Prod.mk.inj came
      obtain ⟨-, rfl⟩ := Prod.mk.inj (Except.ok.inj answer)
      exact List.append_ne_nil_of_left_ne_nil some _
    · rw [if_neg direct] at came
      generalize f.fill (if f.isBuffered then f.config.bufferSize else min p.spare.length f.config.bufferSize) = result at came
      obtain ⟨failure | got, g⟩ := result
      · cases came
      · obtain ⟨answer, -⟩ := Prod.mk.inj came
        obtain ⟨-, rfl⟩ := Prod.mk.inj (Except.ok.inj answer)
        exact some

/-- Bytes once read stay in the buffer, whatever comes later. -/
private theorem gather_keeps (some : p.filled ≠ []) : took (d.gather keep p) ≠ [] := by
  induction left : p.spare.length using Nat.strongRecOn generalizing d p with
  | ind _ ih =>
    subst left
    rw [gather]
    split
    · exact some
    · rcases refilled : d.refill keep p with ⟨failure | ⟨got, more⟩, e⟩
      · dsimp only
        rw [if_neg (by simpa using some)]
        exact some
      · have kept := refill_keeps refilled some
        obtain ⟨taken, filled, -⟩ := takeQueued_cases e keep more
        have still : (e.takeQueued keep more).1.filled ≠ [] := by
          rw [filled]
          exact List.append_ne_nil_of_left_ne_nil kept taken
        dsimp only
        split
        · exact kept
        · generalize e.takeQueued keep more = result at still
          obtain ⟨next, f⟩ := result
          dsimp only at still ⊢
          split
          · next shorter => exact ih _ shorter still rfl
          · exact still

private theorem gather_some (wf : d.readQueue.WellFormed) (buffered : d.isBuffered = true)
    (possible : d.config.bufferSize < Word.requestLimit) (yields : d.Yields) (room : p.spare ≠ []) (going : p.atEnd = false)
    (reached : (if keep then p.offset else 0) ≤ d.readQueue.length) : took (d.gather keep p) ≠ [] := by
  obtain ⟨got, more, e, refilled, positive, some⟩ := refill_some wf buffered possible yields room reached
  rw [gather, if_neg (by simp [room, going]), refilled]
  dsimp only
  rw [if_neg positive]
  generalize e.takeQueued keep more = result at some
  obtain ⟨next, f⟩ := result
  dsimp only at some ⊢
  split
  · exact gather_keeps some
  · exact some

omit [Faultless σ] in
private theorem gather_none (buffered : d.isBuffered = true) (empty : p.filled = [])
    (small : p.spare.length < Word.requestLimit)
    (none : d.Dry ∨ Word.requestLimit ≤ d.config.bufferSize) : took (d.gather keep p) = [] := by
  rw [gather]
  split
  · exact empty
  · rcases refill_none buffered empty small none with ⟨err, e, failed⟩ | ⟨more, e, came, nothing⟩
    · rw [failed]
      dsimp only
      rw [if_pos (by rw [empty]; rfl)]
      rfl
    · rw [came]
      exact nothing

/-- Of the bytes read some stay when carriage returns go. -/
private theorem Pass.strip_ne_nil (undecided : p.decided < p.filled.length) : p.strip.filled ≠ [] := by
  obtain ⟨filled, -⟩ := p.strip_spec (Nat.le_of_lt undecided)
  rw [filled]
  apply List.append_ne_nil_of_right_ne_nil
  rw [Ne, Newline.normalize_eq_nil_iff]
  apply List.ne_nil_of_length_pos
  rw [List.length_drop]
  omega

/-- Whether anything is collected is decided by the first look at the medium. -/
private theorem collect_eq_nil_iff (room : Nat) :
    took (d.collect keep room p) = [] ↔ took ((d.takeQueued keep p).2.gather keep (d.takeQueued keep p).1) = [] := by
  induction left : room - p.decided using Nat.strongRecOn generalizing d p with
  | ind _ ih =>
    subst left
    rw [collect]
    generalize d.takeQueued keep p = result
    obtain ⟨first, e⟩ := result
    dsimp only
    generalize e.gather keep first = result
    obtain ⟨failure | q, f⟩ := result
    · exact Iff.rfl
    · dsimp only
      split
      · next drops =>
        rw [Bool.and_eq_true, decide_eq_true_eq] at drops
        have some : q.filled ≠ [] := List.ne_nil_of_length_pos (Nat.zero_lt_of_lt drops.2)
        have stripped := Pass.strip_ne_nil drops.2
        split
        · obtain ⟨taken, filled, -⟩ := takeQueued_cases f keep q.strip
          refine iff_of_false ?_ some
          rw [ih _ (by omega) rfl]
          refine gather_keeps ?_
          rw [filled]
          exact List.append_ne_nil_of_left_ne_nil stripped taken
        · exact iff_of_false stripped some
      · exact Iff.rfl

omit [Faultless σ] in
private theorem obtained_readPass_eq_nil_iff (d : Device σ) (buffer : List UInt8) :
    obtained id (d.readPass false buffer) = [] ↔
      took (d.collect (d.keeps false) buffer.length (.start buffer d.cursor)) = [] := by
  rw [readPass]
  dsimp only
  generalize d.collect (d.keeps false) buffer.length (.start buffer d.cursor) = result
  obtain ⟨failure | p, e⟩ := result
  · exact Iff.rfl
  · have same := length_closeLine e (d.keeps false) p
    dsimp only
    rw [if_neg Bool.false_ne_true, obtained, took, id, ← List.length_eq_zero_iff, same, List.length_eq_zero_iff]

omit [Medium σ] [Faultless σ] in
/-- The next byte is at the cursor, whether what is read stays queued or not. -/
private theorem place_eq_cursor (steady : Steady d) : (if d.keeps false then d.cursor else 0) = d.cursor := by
  cases keeps : d.keeps false with
  | true => rfl
  | false =>
    cases kind : d.sequential with
    | true => rw [cursor_of_gone kind keeps]; rfl
    | false => rw [cursor_of_random kind steady.kind]; rfl

theorem readPass_some (steady : Steady d) (still : d.advance 0 = d) (buffered : d.isBuffered = true)
    (supplied : d.Supplied) {buffer : List UInt8} (room : buffer ≠ []) : obtained id (d.readPass false buffer) ≠ [] := by
  have wf := steady.wellFormed
  have place := place_eq_cursor steady
  rw [Ne, obtained_readPass_eq_nil_iff, collect_eq_nil_iff]
  by_cases queued : d.cursor < d.readQueue.length
  · exact gather_keeps (takeQueued_some wf room (place.symm ▸ queued))
  · obtain ⟨yields, possible⟩ := supplied.resolve_left queued
    rw [takeQueued_none wf still (place.symm ▸ Nat.le_of_not_lt queued)]
    exact gather_some wf buffered possible yields room rfl (place.symm ▸ steady.cursor)

theorem readPass_none (steady : Steady d) (still : d.advance 0 = d) (buffered : d.isBuffered = true)
    (exhausted : d.Exhausted) {buffer : List UInt8} (small : buffer.length < Word.requestLimit) :
    obtained id (d.readPass false buffer) = [] := by
  obtain ⟨queued, none⟩ := exhausted
  rw [obtained_readPass_eq_nil_iff, collect_eq_nil_iff,
    takeQueued_none steady.wellFormed still ((place_eq_cursor steady).symm ▸ queued)]
  exact gather_none buffered rfl small none

/-! Lines -/

omit [Faultless σ] in
/-- A byte that is queued or comes is provided. -/
private theorem provideByte_some (wf : d.readQueue.WellFormed) (buffered : d.isBuffered = true)
    (reached : d.cursor ≤ d.readQueue.length)
    (supplied : d.Supplied) :
    ∃ e, d.provideByte d.cursor = (.ok true, e) ∧ e.readQueue.WellFormed ∧ d.cursor < e.readQueue.length := by
  rw [provideByte]
  split
  · next queued => exact ⟨d, rfl, wf, queued⟩
  · next none =>
    obtain ⟨⟨e, synced, gives⟩, possible⟩ := supplied.resolve_left none
    obtain ⟨queue, config, same⟩ := sync_same synced
    rw [synced]
    dsimp only
    rw [fillSize, same, buffered, if_pos rfl, config]
    obtain ⟨got, f, filled, positive, wf', longer⟩ := fill_some (queue ▸ wf) d.fills possible gives
    rw [filled]
    rw [queue] at longer
    dsimp only
    rw [decide_eq_true (Nat.pos_of_ne_zero positive)]
    exact ⟨f, rfl, wf', Nat.lt_of_le_of_lt reached longer⟩

omit [Faultless σ] in
private theorem provideByte_none (buffered : d.isBuffered = true) (exhausted : d.Exhausted) :
    (∃ err e, d.provideByte d.cursor = (.error err, e)) ∨ ∃ e, d.provideByte d.cursor = (.ok false, e) := by
  obtain ⟨queued, none⟩ := exhausted
  rw [provideByte, if_neg (Nat.not_lt_of_le queued)]
  rcases synced : d.sync with ⟨err | done, e⟩
  · exact .inl ⟨err, e, rfl⟩
  · obtain ⟨queue, config, same⟩ := sync_same synced
    dsimp only
    rw [fillSize, same, buffered, if_pos rfl, config]
    obtain ⟨f, filled⟩ := fill_none (none.imp_left fun dry => dry e synced)
    rw [filled]
    exact .inr ⟨f, rfl⟩

omit [Medium σ] [Faultless σ] in
private theorem takeLine_some (wf : d.readQueue.WellFormed) {room place : Nat} (positive : 0 < room)
    (queued : place < d.readQueue.length) : (d.takeLine keep room place).1 ≠ [] := by
  have counted := wf.counted
  have some (take : Nat) (wanted : 0 < take) : d.readQueue.peek take place ≠ [] := by
    apply List.ne_nil_of_length_pos
    rw [ChunkQueue.peek_eq, List.length_take, List.length_drop]
    omega
  rw [takeLine]
  dsimp only
  cases d.readQueue.indexOf Byte.lineFeed room place with
  | none =>
    split
    · exact some room positive
    · exact some room positive
  | some i =>
    split
    · exact some _ (Nat.succ_pos _)
    · exact some _ (Nat.succ_pos _)

omit [Faultless σ] in
private theorem normalizeEnd_ne_nil (d : Device σ) {line : List UInt8} (some : line ≠ []) (place : Nat) :
    (d.normalizeEnd keep line place).1 ≠ [] := by
  rw [normalizeEnd]
  dsimp only
  split
  · exact some
  · split
    · exact List.append_ne_nil_of_right_ne_nil _ (List.cons_ne_nil _ _)
    · split
      · split
        · split
          · exact List.append_ne_nil_of_right_ne_nil _ (List.cons_ne_nil _ _)
          · exact List.append_ne_nil_of_right_ne_nil _ (List.cons_ne_nil _ _)
        · exact some
      · exact some

omit [Faultless σ] in
theorem linePass_some (steady : Steady d) (buffered : d.isBuffered = true) (supplied : d.Supplied) {room : Nat}
    (positive : 0 < room) : obtained id (d.linePass room) ≠ [] := by
  obtain ⟨e, provided, wf, queued⟩ := provideByte_some steady.wellFormed buffered steady.cursor supplied
  have first : (e.takeLine d.keepsLine room d.cursor).1 ≠ [] := takeLine_some wf positive queued
  have raw : ∃ line place f, d.rawLine d.keepsLine room d.cursor = (.ok (line, place), f) ∧ line ≠ [] := by
    rw [rawLine, if_neg (Nat.ne_of_gt positive), provided]
    dsimp only
    generalize e.takeLine d.keepsLine room d.cursor = result at first
    obtain ⟨bytes, next, f⟩ := result
    dsimp only at first ⊢
    split
    · generalize f.rawLine d.keepsLine (room - bytes.length) next = result
      obtain ⟨failure | ⟨more, place⟩, g⟩ := result
      · exact ⟨_, _, _, rfl, first⟩
      · exact ⟨_, _, _, rfl, List.append_ne_nil_of_left_ne_nil first more⟩
    · exact ⟨_, _, _, rfl, first⟩
  obtain ⟨line, place, f, raw, some⟩ := raw
  rw [linePass]
  dsimp only
  rw [raw]
  exact normalizeEnd_ne_nil f some place

omit [Faultless σ] in
theorem linePass_none (buffered : d.isBuffered = true) (exhausted : d.Exhausted) (room : Nat) :
    obtained id (d.linePass room) = [] := by
  have nothing (keep : Bool) (place : Nat) (e : Device σ) : (e.normalizeEnd keep [] place).1 = [] := by
    rw [normalizeEnd]
    dsimp only
    split
    · rfl
    · split
      · next pair => exact absurd pair.1 (by decide)
      · rfl
  rw [linePass]
  dsimp only
  by_cases full : room = 0
  · rw [rawLine, if_pos full]
    exact nothing _ _ d
  · rw [rawLine, if_neg full]
    rcases provideByte_none buffered exhausted with ⟨err, e, failed⟩ | ⟨e, ended⟩
    · rw [failed]
      rfl
    · rw [ended]
      exact nothing _ _ e

end ByteFlow.Device
