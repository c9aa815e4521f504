import ByteFlow.Proofs.Device.Steady
import ByteFlow.Proofs.Device.Turn

/-! Whatever is done with a device over a medium that does not fail keeps it steady, and takes no channel away
while it stays open. -/
namespace ByteFlow.Device
open Medium

variable {σ : Type} {peeking : Bool} {d e : Device σ}

/-- A mode that allows something is one of an open device. -/
theorem isOpen_of_usable (usable : (d.mode.readable || d.mode.writable) = true) : d.isOpen = true := by
  cases opened : d.isOpen with
  | true => rfl
  | false =>
    have closed : d.mode = .closed := by simpa [isOpen, OpenMode.isEmpty] using opened
    rw [closed] at usable
    cases usable

/-- Moving keeps what is queued of what comes next, or nothing. -/
theorem moveTo_eq (d : Device σ) (place : Nat) :
    ∃ q, d.moveTo place = { d with reading := d.reading.put q, pos := place } ∧
      d.readQueue.Remains q ∧ (d.readQueue.WellFormed → q.WellFormed) := by
  rw [moveTo]
  split
  · exact ⟨_, rfl, ChunkQueue.remains_free _ _, fun wf => (ChunkQueue.free_spec wf _).1⟩
  · exact ⟨_, rfl, ChunkQueue.remains_clear _, fun _ => (ChunkQueue.clear_spec _).1⟩

variable [Medium σ]

/-! Read queues -/

/-- Even what a faulty medium says that it gave leaves the read queue well formed. -/
private theorem fill_queues (queues : ∀ q ∈ d.reading.queues, q.WellFormed) (chunk : Nat) :
    ∀ q ∈ (d.fill chunk).2.reading.queues, q.WellFormed := by
  rw [fill]
  dsimp only
  cases granted : d.readQueue.reserve? (d.heldBesideReading d.reading.current) chunk with
  | none => exact queues
  | some q =>
    have wf := (ChunkQueue.reserve?_spec (queues _ (Channels.queue_mem _)) granted).1
    dsimp only
    generalize Medium.read d.heldBesideMedium d.medium chunk = result
    obtain ⟨e | delivery, m⟩ := result
    · exact Channels.forall_put queues (ChunkQueue.chop_spec wf chunk).1
    · dsimp only
      rw [follow_eq]
      exact Channels.forall_put queues (ChunkQueue.chop_spec (wf.fill _ _) _).1

private theorem Touch.queues {keep : Bool} (step : Touch keep d e) (queues : ∀ q ∈ d.reading.queues, q.WellFormed) :
    ∀ q ∈ e.reading.queues, q.WellFormed := by
  cases step with
  | note pos place errorString => exact queues
  | sync =>
    obtain ⟨m, mediumPos, synced, -⟩ := d.sync_parts
    rw [synced]
    exact queues
  | read gone n =>
    obtain ⟨mediumPos, read⟩ := d.readThrough_parts n
    rw [read]
    exact queues
  | fill chunk => exact fill_queues queues chunk
  | drop gone q kept remains => exact Channels.forall_put queues (kept (queues _ (Channels.queue_mem _)))

private theorem Touches.queues {keep : Bool} (touches : Touches keep d e)
    (queues : ∀ q ∈ d.reading.queues, q.WellFormed) :
    ∀ q ∈ e.reading.queues, q.WellFormed := by
  induction touches with
  | refl => exact queues
  | tail _ step ih => exact step.queues ih

private theorem Put.queues (step : Put d e) (queues : ∀ q ∈ d.reading.queues, q.WellFormed) :
    ∀ q ∈ e.reading.queues, q.WellFormed := by
  cases step with
  | sync =>
    obtain ⟨m, mediumPos, synced, -⟩ := d.sync_parts
    rw [synced]
    exact queues
  | offered direct bytes =>
    obtain ⟨m, offered, -⟩ := d.offer_parts bytes
    rw [offered, follow_eq, advance_eq]
    exact queues
  | forget random n => exact Channels.forall_put queues (ChunkQueue.free_spec (queues _ (Channels.queue_mem _)) n).1
  | _ => exact queues

private theorem Puts.queues (puts : Puts d e) (queues : ∀ q ∈ d.reading.queues, q.WellFormed) :
    ∀ q ∈ e.reading.queues, q.WellFormed := by
  induction puts with
  | refl => exact queues
  | tail _ step ih => exact step.queues ih

private theorem Turn.queues (turn : Turn d e) (queues : ∀ q ∈ d.reading.queues, q.WellFormed) :
    ∀ q ∈ e.reading.queues, q.WellFormed := by
  have wf : d.readQueue.WellFormed := queues _ (Channels.queue_mem _)
  cases turn with
  | opened closed mode able m granted pos start => exact Channels.forall_single (ChunkQueue.wellFormed_withChunkSize _)
  | closed errorString => exact Channels.forall_single (ChunkQueue.wellFormed_withChunkSize _)
  | putBack idle b => exact Channels.forall_put queues (ChunkQueue.unget_spec wf _ b).1
  | moved random place =>
    obtain ⟨q, moved, -, kept⟩ := d.moveTo_eq place
    rw [moved]
    exact Channels.forall_put queues (kept wf)
  | sought random place m there => exact Channels.forall_put queues (ChunkQueue.clear_spec _).1
  | kept startPos cursor running => exact Channels.forall_put queues (ChunkQueue.free_spec wf cursor).1
  | returned startPos running =>
    obtain ⟨q, moved, -, kept⟩ := d.moveTo_eq startPos
    rw [moved]
    exact Channels.forall_put queues (kept wf)
  | moreReading n => exact Channels.forall_grow queues (ChunkQueue.wellFormed_withChunkSize _)
  | chosen idle channel inside =>
    rw [Channels.queues_select]
    exact queues
  | pushed stream channel inside data =>
    exact Channels.forall_change queues fun q wf => (ChunkQueue.append_spec wf _ data).1
  | _ => exact queues

private theorem Effect.queues (effect : Effect d e) (queues : ∀ q ∈ d.reading.queues, q.WellFormed) :
    ∀ q ∈ e.reading.queues, q.WellFormed := by
  cases effect with
  | bouts peeking bouts => exact bouts.touches.queues queues
  | puts puts => exact puts.queues queues
  | turn turn => exact turn.queues queues

section
variable [Faultless σ]

/-! Reading and writing -/

private theorem Bout.steady (bout : Bout peeking d e) (steady : Steady d) : Steady e := by
  refine bout.touches.steady steady fun stream => ?_
  cases bout with
  | said errorString =>
    exact ⟨0, (Word.addWrapped_zero (steady.word stream)).symm, fun _ => rfl, steady.cursor⟩
  | pass buffer => exact readPass_strides steady stream peeking buffer
  | line reads room => exact linePass_strides steady stream room
  | chunk reads idle =>
    have start := cursor_of_gone stream (d.keeps_of_idle idle)
    exact ⟨_, rfl, fun inside => absurd (inside.symm.trans idle) (by decide), start.trans_le (Nat.zero_le _)⟩
  | skip reads direct n =>
    have idle : d.inTransaction = false := by simpa [stream] using direct
    have start := cursor_of_gone stream (d.keeps_of_idle idle)
    exact ⟨_, rfl, fun inside => absurd (inside.symm.trans idle) (by decide), start.trans_le (Nat.zero_le _)⟩
  | jump random place => exact absurd (stream.symm.trans random) (by decide)

private theorem Bouts.steady (bouts : Bouts peeking d e) (steady : Steady d) : Steady e := by
  induction bouts with
  | refl => exact steady
  | tail _ bout ih => exact bout.steady ih

end

private theorem Puts.steady (puts : Puts d e) (steady : Steady d) : Steady e := by
  have apart := puts.apart
  refine steady.still apart.sequential apart.mode apart.transaction (puts.queues steady.queues) fun stream => ?_
  rw [readQueue, apart.reading stream]
  exact ⟨steady.cursor, apart.pos stream⟩

/-! Other calls -/

private theorem Steady.push (steady : Steady d) (channel : Nat) (data : Handle) :
    Steady { d with reading := d.reading.change channel (ChunkQueue.append (d.heldBesideReading channel) data) } := by
  have grown (q : ChunkQueue) (wf : q.WellFormed) := ChunkQueue.append_spec wf (d.heldBesideReading channel) data
  have longer : d.readQueue.length ≤
      (d.reading.change channel (ChunkQueue.append (d.heldBesideReading channel) data)).queue.length := by
    rw [readQueue, Channels.queue_change]
    split
    · obtain ⟨wf, bytes⟩ := grown d.reading.queue steady.wellFormed
      have old : d.reading.queue.length = d.reading.queue.toList.length := steady.wellFormed.counted
      rw [wf.counted, bytes, List.length_append, old]
      exact Nat.le_add_right ..
    · exact Nat.le_refl _
  exact { steady with
    queues := Channels.forall_change steady.queues fun q wf => (grown q wf).1
    cursor := steady.cursor.trans longer }

private theorem Turn.steady (turn : Turn d e) (steady : Steady d) : Steady e := by
  have queues := turn.queues steady.queues
  cases turn with
  | said errorString => exact steady.said errorString
  | unopened mode e m refused errorString => exact steady.still rfl rfl rfl steady.queues fun _ => ⟨steady.cursor, rfl⟩
  | opened closed mode able m granted pos start =>
    refine steady_idle queues (fun _ => able) rfl fun stream => ?_
    dsimp only
    rw [start stream]
    exact Nat.two_pow_pos 64
  | closed errorString =>
    refine steady_idle queues (fun opened => ?_) rfl
      fun _ => Nat.two_pow_pos 64
    cases opened
  | text opened on =>
    have usable := steady.usable opened
    have still : isOpen { d with mode := { d.mode with text := on } } = true := isOpen_of_usable usable
    exact { steady with usable := fun _ => usable, active := fun _ => still }
  | putBack idle b =>
    refine steady_idle queues steady.usable idle fun stream => ?_
    exact (Nat.sub_le d.pos 1).trans_lt (steady.word stream)
  | moved random place =>
    obtain ⟨q, moved, -⟩ := d.moveTo_eq place
    rw [moved] at queues ⊢
    exact steady.still rfl rfl rfl queues
      fun stream => absurd (stream.symm.trans random) (by decide)
  | sought random place m there =>
    exact steady.still rfl rfl rfl queues
      fun stream => absurd (stream.symm.trans random) (by decide)
  | astray random place e m refused errorString =>
    exact steady.still rfl rfl rfl steady.queues fun _ => ⟨steady.cursor, rfl⟩
  | begun opened =>
    by_cases stream : d.sequential = true
    · rw [if_pos stream]
      refine ⟨steady.queues, steady.usable, fun _ => opened, stream, Nat.zero_le _, steady.word, ?_⟩
      rintro _ _ ⟨⟩
      exact ⟨steady.word stream, (Word.addWrapped_zero (steady.word stream)).symm⟩
    · rw [if_neg stream]
      refine ⟨steady.queues, steady.usable, fun _ => opened, Bool.of_not_eq_true stream, Nat.zero_le _,
        steady.word, ?_⟩
      rintro _ _ ⟨⟩
  | kept startPos cursor running =>
    exact steady_idle queues steady.usable rfl steady.word
  | left startPos running => exact steady_idle steady.queues steady.usable rfl steady.word
  | rewound startPos cursor running =>
    exact steady_idle steady.queues steady.usable rfl fun _ => (steady.begun startPos cursor running).1
  | returned startPos running =>
    have random : d.sequential = false := by
      have kind := steady.kind
      rwa [running] at kind
    obtain ⟨q, moved, -⟩ := d.moveTo_eq startPos
    rw [moved] at queues ⊢
    exact steady_idle queues steady.usable rfl
      fun stream => absurd (stream.symm.trans random) (by decide)
  | moreReading n =>
    have same : (d.growReading n).readQueue = d.readQueue := Channels.queue_grow ..
    exact { steady with
      queues := queues
      cursor := same ▸ steady.cursor }
  | moreWriting n => exact { steady with }
  | chosen idle channel inside => exact steady_idle queues steady.usable idle steady.word
  | pushed stream channel inside data => exact steady.push channel data

private theorem Effect.steady [Faultless σ] (effect : Effect d e) (steady : Steady d) : Steady e := by
  cases effect with
  | bouts peeking bouts => exact bouts.steady steady
  | puts puts => exact puts.steady steady
  | turn turn => exact turn.steady steady

/-! Channels -/

/-- No channel went. -/
structure Widens (d e : Device σ) : Prop where
  reading : d.reading.count ≤ e.reading.count
  writing : d.writing.count ≤ e.writing.count

omit [Medium σ] in
private theorem Widens.trans {f : Device σ} (first : Widens d e) (second : Widens e f) : Widens d f :=
  ⟨Nat.le_trans first.reading second.reading, Nat.le_trans first.writing second.writing⟩

omit [Medium σ] in
private theorem widens_of_counts (reading : e.reading.count = d.reading.count)
    (writing : e.writing.count = d.writing.count) :
    Widens d e := ⟨Nat.le_of_eq reading.symm, Nat.le_of_eq writing.symm⟩

private theorem Channels.count_le_grow (c : Channels) (n chunkSize : Nat) : c.count ≤ (c.grow n chunkSize).count := by
  have longer : c.queues.length ≤ (c.grow n chunkSize).queues.length := by
    rw [grow, List.length_append]
    exact Nat.le_add_right ..
  exact longer

private theorem Turn.widens (turn : Turn d e) (opened : d.isOpen = true) (still : e.isOpen = true) : Widens d e := by
  cases turn with
  | opened closed => exact absurd (opened.symm.trans closed) (by decide)
  | closed errorString => cases still
  | putBack idle b => exact widens_of_counts (Channels.count_put _ _) rfl
  | moved random place =>
    obtain ⟨q, moved, -⟩ := d.moveTo_eq place
    rw [moved]
    exact widens_of_counts (Channels.count_put _ _) rfl
  | sought random place m there => exact widens_of_counts (Channels.count_put _ _) rfl
  | kept startPos cursor running => exact widens_of_counts (Channels.count_put _ _) rfl
  | returned startPos running =>
    obtain ⟨q, moved, -⟩ := d.moveTo_eq startPos
    rw [moved]
    exact widens_of_counts (Channels.count_put _ _) rfl
  | moreReading n => exact ⟨Channels.count_le_grow _ n _, Nat.le_refl _⟩
  | moreWriting n => exact ⟨Nat.le_refl _, Channels.count_le_grow _ n _⟩
  | chosen idle channel inside => exact widens_of_counts (Channels.count_select _ channel) rfl
  | pushed stream channel inside data => exact widens_of_counts (List.length_modify ..) rfl
  | _ => exact widens_of_counts rfl rfl

/-- As long as the device stays open, no channel goes. -/
private theorem Effect.widens (effect : Effect d e) (opened : d.isOpen = true) (still : e.isOpen = true) :
    Widens d e := by
  cases effect with
  | bouts peeking bouts =>
    have left := bouts.touches.left
    refine widens_of_counts ?_ ?_
    · rw [left.reading, Channels.count_put]
    · rw [left.writing]
  | puts puts => exact widens_of_counts puts.apart.readCount puts.apart.count
  | turn turn => exact turn.widens opened still

/-! Scripts -/

/-- A deed comes to what some call comes to, unless it works on the medium or is nothing to the device. -/
theorem does_effect (d : Device σ) (deed : Deed σ) :
    Effect d (d.does deed).2 ∨ (∃ act, deed = .work act ∧ (d.does deed).2 = { d with medium := act d.medium }) ∨
      ∃ ids, (d.does deed).2 = { d with outside := ids } := by
  cases deed with
  | call action => exact .inl (perform_effect d action)
  | move target =>
    rw [does, moveToTarget]
    split
    · exact .inl (.none d)
    · next place found =>
      have sought := seek_effect d place
      dsimp only
      generalize d.seek place = result at sought
      obtain ⟨failure | done, e⟩ := result
      · exact .inl sought
      · exact .inl sought
  | line =>
    have read : Effect d (d.readLine 0).2 := .bouts false (readLine_bouts d 0)
    rw [does, nextLine]
    dsimp only
    generalize d.readLine 0 = result at read
    obtain ⟨failure | line, e⟩ := result
    · exact .inl read
    · dsimp only
      split
      · exact .inl read
      · split
        · exact .inl read
        · exact .inl read
  | work act => exact .inr (.inl ⟨act, rfl, rfl⟩)
  | hold ids => exact .inr (.inr ⟨ids, rfl⟩)

private theorem does_queues (deed : Deed σ) (queues : ∀ q ∈ d.reading.queues, q.WellFormed) :
    ∀ q ∈ (d.does deed).2.reading.queues, q.WellFormed := by
  rcases does_effect d deed with effect | ⟨act, -, worked⟩ | ⟨ids, held⟩
  · exact effect.queues queues
  · rw [worked]
    exact queues
  · rw [held]
    exact queues

/-- Whatever the medium does, the read queues stay well formed. -/
theorem doesAll_queues (script : List (Deed σ)) (queues : ∀ q ∈ d.reading.queues, q.WellFormed) :
    ∀ q ∈ (d.doesAll script).2.reading.queues, q.WellFormed := by
  induction script generalizing d with
  | nil => exact queues
  | cons deed rest ih => exact ih (does_queues deed queues)

theorem does_steady [Faultless σ] (steady : Steady d) (deed : Deed σ) : Steady (d.does deed).2 := by
  rcases does_effect d deed with effect | ⟨act, -, worked⟩ | ⟨ids, held⟩
  · exact effect.steady steady
  · rw [worked]
    exact { steady with }
  · rw [held]
    exact { steady with }

theorem doesAll_steady [Faultless σ] (steady : Steady d) (script : List (Deed σ)) : Steady (d.doesAll script).2 := by
  induction script generalizing d with
  | nil => exact steady
  | cons deed rest ih => exact ih (does_steady steady deed)

private theorem does_widens (deed : Deed σ) (opened : d.isOpen = true) (still : (d.does deed).2.isOpen = true) :
    Widens d (d.does deed).2 := by
  rcases does_effect d deed with effect | ⟨act, -, worked⟩ | ⟨ids, held⟩
  · exact effect.widens opened still
  · rw [worked]
    exact widens_of_counts rfl rfl
  · rw [held]
    exact widens_of_counts rfl rfl

/-- The device is open before, during and after a script. -/
def StaysOpen (d : Device σ) : List (Deed σ) → Prop
  | [] => d.isOpen = true
  | deed :: rest => d.isOpen = true ∧ (d.does deed).2.StaysOpen rest

private theorem StaysOpen.isOpen {script : List (Deed σ)} (stays : d.StaysOpen script) : d.isOpen = true := by
  cases script with
  | nil => exact stays
  | cons deed rest => exact stays.1

theorem doesAll_widens {script : List (Deed σ)} (stays : d.StaysOpen script) : Widens d (d.doesAll script).2 := by
  induction script generalizing d with
  | nil => exact ⟨Nat.le_refl _, Nat.le_refl _⟩
  | cons deed rest ih =>
    obtain ⟨opened, later⟩ := stays
    exact (does_widens deed opened later.isOpen).trans (ih later)

end ByteFlow.Device
