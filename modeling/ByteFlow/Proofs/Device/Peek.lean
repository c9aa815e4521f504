import ByteFlow.Proofs.Device.Pushback
import ByteFlow.Proofs.Device.Reached

/-! A look shows what the next read gives.
What a look showed of a stream is queued, so that a read of as much makes do with one pass; where the
medium gives all it is asked for, it does so again. -/
namespace ByteFlow.Device
open Medium

/-! Reading what was looked at -/

/-- Two first parts show the same if neither ends within a line end and the second shows no more than the
first, and if less then it holds the first. -/
private theorem shown_eq_shown {text : Bool} {raw t raw' t' : List UInt8} (split : raw ++ t = raw' ++ t')
    (whole : text = true → ¬ Newline.Parts raw t) (whole' : text = true → ¬ Newline.Parts raw' t')
    (fits : (shown text raw').length ≤ (shown text raw).length)
    (enough : (shown text raw').length = (shown text raw).length ∨ raw <+: raw') : shown text raw' = shown text raw := by
  have all : shown text raw ++ shown text t = shown text raw' ++ shown text t' := by
    rw [← shown_append whole, ← shown_append whole', split]
  rcases enough with full | ⟨more, rfl⟩
  · exact (List.append_inj_left all full.symm).symm
  · rw [List.append_assoc] at split
    obtain rfl := List.append_cancel_left split
    have longer : shown text (raw ++ more) = shown text raw ++ shown text more := by
      apply shown_append
      rintro on ⟨last, first⟩
      exact whole on ⟨last, by rw [List.head?_append, first]; rfl⟩
    rw [longer, List.length_append] at fits
    rw [longer, List.length_eq_zero_iff.mp (by omega : (shown text more).length = 0), List.append_nil]

section
variable {σ : Type} [Medium σ] [Source σ] {d e : Device σ} {before s : List UInt8} {bytes : List UInt8} {room : Nat}

/-- A read of no more than is queued is one pass. -/
private theorem readSteps_queued (ready : d.Ready before s) (steady : Source.Steady d.medium) {n : Nat}
    (queued : n ≤ d.readQueue.length) (possible : d.config.bufferSize < Word.requestLimit) :
    ∃ raw t e, d.readSteps n = (.ok (shown d.isText raw), e) ∧ d.Portion n s raw t (shown d.isText raw) ∧
      d.Exhausts n raw (shown d.isText raw) := by
  rw [readSteps]
  split
  · next positive =>
    rw [Nat.min_eq_left (Nat.le_trans queued (Nat.le_max_right ..))]
    rcases readPass_reads ready (List.replicate n 0) possible with
      ⟨raw, e, t, read, portion, -, exhausts, reads⟩ | ⟨failure, e, read, reads, unsteady⟩
    · rw [List.length_replicate] at portion exhausts
      dsimp only
      rw [read]
      dsimp only
      split
      · exact ⟨raw, t, e, rfl, portion, exhausts⟩
      · rw [Nat.sub_self, readSteps, dif_neg (Nat.lt_irrefl 0)]
        dsimp only
        rw [List.append_nil]
        exact ⟨raw, t, e, rfl, portion, exhausts⟩
    · exact absurd steady unsteady
  · next zero =>
    obtain rfl : n = 0 := by omega
    exact ⟨[], s, d, by rw [shown_nil], by rw [shown_nil]; exact .none d s, .inl (by rw [shown_nil]; rfl)⟩

private theorem read_queued (ready : d.Ready before s) (able : d.readObstacle? = none) (steady : Source.Steady d.medium)
    {n : Nat}
    (queued : n ≤ d.readQueue.length) (possible : d.config.bufferSize < Word.requestLimit) :
    ∃ raw t h e, d.read n = (.ok h, e) ∧ h.content = shown d.isText raw ∧ d.Portion n s raw t (shown d.isText raw) ∧
      d.Exhausts n raw (shown d.isText raw) := by
  rw [read, able]
  dsimp only
  split
  · next zero =>
    subst zero
    refine ⟨[], s, Handle.empty, d, rfl, ?_⟩
    rw [shown_nil]
    exact ⟨rfl, .none d s, .inl rfl⟩
  · next some =>
    split
    · next chunk =>
      obtain ⟨⟨outside, plain⟩, first⟩ :
          (d.inTransaction = false ∧ d.isText = false) ∧ n = d.readQueue.front.length := by
        simpa using chunk
      obtain ⟨t, rfl, front, reads⟩ := ready.takes_front (by simp [Device.keeps, outside])
      have same : shown d.isText d.readQueue.front = d.readQueue.front := by
        rw [plain]
        rfl
      refine ⟨d.readQueue.front, t, _, _, rfl, ?_⟩
      rw [same, first]
      exact ⟨front, .plain plain _ t, .inl rfl⟩
    · obtain ⟨raw, t, e, read, portion, exhausts⟩ := readSteps_queued ready steady queued possible
      rw [read]
      exact ⟨raw, t, _, e, rfl, Handle.content_ofList .., portion, exhausts⟩

/-- What a look showed of a stream is what a read of as much gives. -/
private theorem Previews.read_again (ready : d.Ready before s) (able : d.readObstacle? = none)
    (stream : d.sequential = true)
    (steady : Source.Steady d.medium) (possible : d.config.bufferSize < Word.requestLimit)
    (previews : d.Previews before s room (.ok bytes, e)) :
    ∃ h f, e.read bytes.length = (.ok h, f) ∧ h.content = bytes := by
  obtain ⟨raw, t, u, portion, -, looks⟩ := previews
  obtain rfl := looks.same fun random => absurd (stream.symm.trans random) (by decide)
  have queued := looks.queued stream
  have steady' : Source.Steady e.medium := looks.reads.steady_iff.mpr steady
  have config : e.config = d.config := looks.reads.kin.config
  have text : e.isText = d.isText := looks.reads.isText
  have few : bytes.length ≤ e.readQueue.length := by
    obtain ⟨_, has⟩ := looks.reads.ready.supplies
    have := portion.shorter
    have := queued.length_le
    rw [unreadQueue, List.length_drop, ← has.wellFormed.counted] at this
    omega
  obtain ⟨raw', t', h, f, read, content, portion', exhausts⟩ := read_queued looks.reads.ready
    (looks.reads.readObstacle?.trans able) steady' few (by rwa [config])
  have shows := portion.shows fun _ => steady
  have fits := portion'.fits
  rw [text] at content fits exhausts
  rw [shows] at fits exhausts ⊢
  refine ⟨h, f, shows ▸ read, content.trans ?_⟩
  apply shown_eq_shown (portion.split.symm.trans portion'.split) (portion.whole steady) _ fits
  · exact exhausts.imp_right queued.trans
  · intro on
    exact portion'.whole steady' (text.trans on)

/-- Where a medium gives all it is asked for, a look shows what a read of as much gives. -/
private theorem Previews.read_prompt (ready : d.Ready before s) (able : d.readObstacle? = none)
    (standing : d.Stands 0 s)
    (prompt : Source.Prompt d.medium) (possible : d.config.bufferSize < Word.requestLimit)
    (previews : d.Previews before s room (.ok bytes, e)) :
    ∃ h f, e.read bytes.length = (.ok h, f) ∧ h.content = bytes := by
  obtain ⟨raw, t, u, portion, fills, looks⟩ := previews
  obtain rfl := looks.same standing
  have prompt' : Source.Prompt e.medium := looks.reads.prompt_iff.mpr prompt
  have config : e.config = d.config := looks.reads.kin.config
  have shows := portion.eq_take fills prompt
  have delivers := read_delivers looks.reads.ready (looks.reads.readObstacle?.trans able) bytes.length (by rwa [config])
  generalize e.read bytes.length = result at delivers
  obtain ⟨failure | h, f⟩ := result
  · exact absurd (Source.steady_of_prompt prompt') delivers.2
  · obtain ⟨raw', t', portion', fills', -⟩ := delivers
    have again := portion'.eq_take fills' prompt'
    refine ⟨h, f, rfl, again.trans ?_⟩
    rw [looks.reads.isText, shows, List.length_take, List.take_eq_take_iff]
    omega

/-! Calls that look -/

/-- The calls that look at what is to come. -/
def Action.looks : Action → Prop
  | .peek _ | .peekInto _ => True
  | _ => False

/-- A look at up to as many bytes as it asks for. -/
private theorem perform_previews (ready : d.Ready before s) (able : d.readObstacle? = none)
    (possible : d.config.bufferSize < Word.requestLimit) {action : Action} (looks : action.looks) :
    ∃ room, d.Previews before s room ((d.perform action).1.map Reply.content, (d.perform action).2) := by
  cases action with
  | peek n =>
    rw [perform, answer_map]
    exact ⟨_, peek_previews ready able n possible⟩
  | peekInto buffer =>
    rw [perform, answer_bytes]
    exact ⟨_, peekInto_previews ready able buffer possible⟩
  | _ => exact absurd looks not_false

omit [Source σ] in
/-- Only a device that may be read answers. -/
private theorem able_of_looks {action : Action} (looks : action.looks) {reply : Reply}
    (answered : d.perform action = (.ok reply, e)) : d.readObstacle? = none := by
  cases obstacle : d.readObstacle? with
  | none => rfl
  | some kind =>
    cases action with
    | peek n =>
      rw [perform, peek, obstacle] at answered
      cases (Prod.mk.inj answered).1
    | peekInto buffer =>
      rw [perform, peekInto, obstacle] at answered
      cases (Prod.mk.inj answered).1
    | _ => exact absurd looks not_false

/-- A look shows in nothing that is told or to come, and a read of as many bytes as it gave gives them. -/
structure Foresees (d e : Device σ) (ahead : Device σ → List UInt8) (bytes : List UInt8) : Prop where
  pos : e.pos = d.pos
  available : e.bytesAvailable = d.bytesAvailable
  ahead : ahead e = ahead d
  again : ∃ h f, e.read bytes.length = (.ok h, f) ∧ h.content = bytes

end

/-! Over a pipe -/

private theorem Orderly.foresees {d e : Device Pipe} (orderly : Orderly d) {action : Action} (looks : action.looks)
    {reply : Reply}
    (answered : d.perform action = (.ok reply, e)) : Foresees d e stream reply.content := by
  have able := able_of_looks looks answered
  have possible := orderly.possible
  have ready := orderly.ready
  obtain ⟨room, previews⟩ := perform_previews ready able possible looks
  rw [answered] at previews
  have previews : d.Previews d.retained d.stream room (.ok reply.content, e) := previews
  obtain ⟨raw, t, u, -, -, saw⟩ := previews
  have same := saw.same fun random => absurd (orderly.sequential.symm.trans random) (by decide)
  subst same
  have takes := orderly.takes_nothing saw.reads
  have opened := isOpen_of_able able
  refine ⟨?_, ?_, takes.split.symm, ?_⟩
  · rw [takes.reads.pos]
    exact Word.addWrapped_zero orderly.pos
  · rw [(takes.orderly orderly).bytesAvailable (takes.isOpen.trans opened), orderly.bytesAvailable opened, takes.split]
    rfl
  -- A pipe capped at nothing breaks reads off before its end, but then what is queued is all that comes.
  · by_cases blocked : d.medium.readLimit = some 0
    · have ready := orderly.ready_blocked blocked
      let := Pipe.blocked
      obtain ⟨room, previews⟩ := perform_previews ready able possible looks
      rw [answered] at previews
      exact Previews.read_again ready able orderly.sequential trivial possible previews
    · exact Previews.read_again ready able orderly.sequential blocked possible previews

/-! Over memory -/

/-- Bytes that were put back may be lost to a look without a queue to keep them in; if none is unread, all is as
over a stream. -/
private theorem Grounded.foresees {d e : Device Medium.Memory} (grounded : Grounded d 0) {action : Action}
    (looks : action.looks)
    {reply : Reply} (answered : d.perform action = (.ok reply, e)) : Foresees d e remaining reply.content := by
  have able := able_of_looks looks answered
  obtain ⟨room, previews⟩ := perform_previews grounded.ready able grounded.possible looks
  rw [answered] at previews
  have previews : d.Previews [] d.remaining room (.ok reply.content, e) := previews
  have again := previews.read_prompt grounded.ready able grounded.stands trivial grounded.possible
  obtain ⟨raw, t, u, -, -, saw⟩ := previews
  have same := saw.same grounded.stands
  subst same
  have next := grounded.reads saw.reads (saw.stands 0 grounded.stands)
  have same := grounded.reads_remaining saw.reads
  refine ⟨?_, ?_, same, again⟩
  · rw [saw.reads.pos]
    exact Word.addWrapped_zero grounded.ready.pos
  · rw [next.bytesAvailable, grounded.bytesAvailable, same]

/-- A look at a device that gives bytes, over a pipe in whatever state it can come to or over memory with no byte
that was put back unread, shows in no position, in no number of bytes available and in nothing that is to come;
and the next read of as many bytes as it gave gives the same bytes. -/
theorem looks_foresee_reads {action : Action} (looks : action.looks) (reply : Reply) :
    (∀ (config : Config) (d e : Device Pipe), config.bufferSize < Word.requestLimit → Reached config d →
      d.perform action = (.ok reply, e) → Foresees d e stream reply.content) ∧
    ∀ d e : Device Medium.Memory, InUse d 0 → d.perform action = (.ok reply, e) → Foresees d e remaining reply.content :=
  ⟨fun _ _ _ possible reached answered => (reached.orderly possible).foresees looks answered,
    fun _ _ inUse answered => inUse.grounded.foresees looks answered⟩

private theorem answered_of_content {σ : Type} (result : Except Failure Reply × Device σ) (bytes : List UInt8)
    (gave : result.1.toOption.map Reply.content = some bytes) :
    ∃ reply, result = (.ok reply, result.2) ∧ reply.content = bytes := by
  obtain ⟨failure | reply, e⟩ := result
  · cases gave
  · exact ⟨reply, rfl, Option.some.inj gave⟩

/-- A text is fed, whose line end is cut by what the pipe gives at once, and a transaction begins in it. -/
def textPiped : List Event :=
  [.remote (.feed [] 0 (Handle.ofFixed [] [97, 13, 10, 98])), .remote (.limitReads (some 1)),
    .call (.openWith (.forReading false true true)), .call .getByte, .call .startTransaction]

/-- A text in memory, opened to read and to write. -/
def textHeld : Device Medium.Memory :=
  ((ofMedium (Medium.Memory.ofHandle (Handle.ofFixed [] [97, 98, 13, 10, 99])) ⟨2, 1, 0, false⟩).openWith
    (.forReading true true false)).2

/-- A byte is put back and read again, and the text written in. -/
def textChanged : List Action := [.getByte, .ungetByte 7, .getByte, .write [10], .seek 1, .startTransaction]

theorem looks_foresee_reads_text :
    (∀ d, d = (ofMedium Pipe.empty ⟨2, 1, 0, false⟩).afterAll textPiped →
      ∃ reply e, d.perform (.peekInto [0, 0, 0]) = (.ok reply, e) ∧ reply.content = [10] ∧ e.pos = 1 ∧
        e.bytesAvailable = 3 ∧ e.stream = [13, 10, 98] ∧ ∃ h f, e.read 1 = (.ok h, f) ∧ h.content = [10]) ∧
    ∀ d, d = (textHeld.performAll textChanged).2 →
      ∃ reply e, d.perform (.peekInto [0, 0, 0]) = (.ok reply, e) ∧ reply.content = [10, 10, 99] ∧ e.pos = 1 ∧
        e.bytesAvailable = 4 ∧ e.remaining = [10, 13, 10, 99] ∧ ∃ h f, e.read 3 = (.ok h, f) ∧ h.content = [10, 10, 99] := by
  have looks : (Action.peekInto [0, 0, 0]).looks := trivial
  refine ⟨fun d piped => ?_, fun d held => ?_⟩
  · have started : Reached ⟨2, 1, 0, false⟩ (ofMedium Pipe.empty ⟨2, 1, 0, false⟩) := .fresh
    have reached := started.afterAll textPiped (by decide +kernel)
    rw [← piped] at reached
    obtain ⟨reply, answered, content⟩ := answered_of_content (d.perform (.peekInto [0, 0, 0])) [10]
      (by rw [piped]; decide +kernel)
    obtain ⟨pos, available, ahead, again⟩ :=
      (looks_foresee_reads looks reply).1 _ _ _ (by decide) reached answered
    rw [content] at again
    refine ⟨reply, _, answered, content, pos.trans ?_, available.trans ?_, ahead.trans ?_, again⟩ <;>
      rw [piped] <;> decide +kernel
  · have opened : InUse textHeld 0 :=
      .opened (d := ofMedium (Medium.Memory.ofHandle (Handle.ofFixed [] [97, 98, 13, 10, 99])) ⟨2, 1, 0, false⟩)
        (.forReading true true false) rfl (by decide) rfl (by decide)
    have inUse := opened.performAll textChanged (by decide +kernel)
    have none : textHeld.pushedBackAll 0 textChanged = 0 := by decide +kernel
    rw [none, ← held] at inUse
    obtain ⟨reply, answered, content⟩ := answered_of_content (d.perform (.peekInto [0, 0, 0])) [10, 10, 99]
      (by rw [held]; decide +kernel)
    obtain ⟨pos, available, ahead, again⟩ :=
      (looks_foresee_reads looks reply).2 _ _ inUse answered
    rw [content] at again
    refine ⟨reply, _, answered, content, pos.trans ?_, available.trans ?_, ahead.trans ?_, again⟩ <;>
      rw [held] <;> decide +kernel

end ByteFlow.Device
