import ByteFlow.Proofs.Device.PutBack
import ByteFlow.Proofs.Device.Sending
import ByteFlow.Proofs.Device.Text

/-! Text that is written and read again.
Written in text mode, line ends go out widened, wherever one write ends and the next begins. Reading the bytes in
text mode takes back just what was put in, so that it gives the text as it was, with all the carriage returns that
it had of its own. -/
namespace ByteFlow.Device
open Byte Medium Newline

section
variable {σ : Type} [Medium σ] {sent : List UInt8} {d : Device σ}

/-- If each write sends its bytes with line ends widened, then a run of them sends all bytes so. -/
private theorem performAll_writes (Sent : List UInt8 → Device σ → Prop) {most : Nat} (pieces : List (List UInt8))
    (writes : ∀ sent d, ∀ piece ∈ pieces, (sent ++ expand piece).length ≤ most → Sent sent d →
      ∃ e, d.write piece = (.ok piece.length, e) ∧ Sent (sent ++ expand piece) e)
    (small : (sent ++ expand pieces.flatten).length ≤ most) (before : Sent sent d) :
    ∃ e, d.performAll (pieces.map .write) = (pieces.map fun piece => .ok (.size piece.length), e) ∧
      Sent (sent ++ expand pieces.flatten) e := by
  induction pieces generalizing sent d with
  | nil => exact ⟨d, rfl, by rwa [show expand [].flatten = [] from rfl, List.append_nil]⟩
  | cons piece rest ih =>
    rw [List.flatten_cons, expand_append, ← List.append_assoc] at small ⊢
    have fits : (sent ++ expand piece).length ≤ most := by
      rw [List.length_append] at small
      omega
    obtain ⟨e, wrote, after⟩ := writes sent d piece List.mem_cons_self fits before
    obtain ⟨f, others, final⟩ := ih
      (fun sent d other member => writes sent d other (List.mem_cons_of_mem _ member)) small after
    refine ⟨f, ?_, final⟩
    rw [List.map_cons, performAll, perform, wrote]
    dsimp only [answer]
    rw [others]
    rfl

end

/-! Calls that give text -/

/-- With `s` to come, a call gives up to so many bytes. -/
inductive Asks (s : List UInt8) : Action → Nat → Prop where
  | read (n : Nat) : Asks s (.read n) n
  | readAll : Asks s .readAll s.length
  | readInto (buffer : List UInt8) : Asks s (.readInto buffer) buffer.length
  | readLine (n : Nat) : Asks s (.readLine n) (if n = 0 then Word.maxValue else n)
  | readLineInto {room : Nat} (enough : 2 ≤ room) : Asks s (.readLineInto room) (room - 1)
  | getByte : Asks s .getByte 1

/-- The calls that give what they take. -/
def Action.gives (action : Action) : Prop := ∀ s, ∃ n, Asks s action n

section
variable {σ : Type} [Medium σ] [Source σ] {d : Device σ} {before s : List UInt8} {action : Action} {n : Nat}

private theorem Asks.delivers (asks : Asks s action n) (ready : d.Ready before s) (able : d.readObstacle? = none)
    (short : before.length + s.length ≤ Word.maxValue) (possible : d.config.bufferSize < Word.requestLimit) :
    d.Delivers before s n (fun _ _ => True) ((d.perform action).1.map Reply.content, (d.perform action).2) := by
  cases asks with
  | read =>
    rw [perform, answer_map]
    exact (read_delivers ready able n possible).imp fun _ _ _ => trivial
  | readAll =>
    rw [perform, answer_map]
    exact (readAll_delivers ready able (by omega) possible).imp fun _ _ _ => trivial
  | readInto buffer =>
    rw [perform, answer_bytes]
    exact (readInto_delivers ready able buffer possible).imp fun _ _ _ => trivial
  | readLine k =>
    rw [perform, answer_map]
    exact (readLine_delivers ready able short possible k).imp fun _ _ _ => trivial
  | readLineInto enough =>
    rw [perform, answer_bytes]
    exact (readLineInto_delivers ready able short possible enough).imp fun _ _ _ => trivial
  | getByte =>
    rw [perform, answer_map]
    exact (getByte_delivers ready able possible).imp fun _ _ _ => trivial

private theorem Asks.ne_zero (asks : Asks s action n) (wants : action.wants = true) (more : s ≠ []) : n ≠ 0 := by
  cases asks with
  | read => simpa [Action.wants, Nat.pos_iff_ne_zero] using wants
  | readAll => exact Nat.ne_of_gt (List.length_pos_of_ne_nil more)
  | readInto buffer => simpa [Action.wants] using wants
  | readLine k =>
    split
    · decide
    · assumption
  | readLineInto enough => omega
  | getByte => decide

end

/-! Memory -/

/-- A device over memory, open in a mode in which text is written, that stands behind all it holds. -/
structure Typed (mode : OpenMode) (sent : List UInt8) (d : Device Medium.Memory) : Prop where
  grounded : Grounded d 0
  mode : d.mode = mode
  widens : d.config.crlfOnWrite = true
  content : d.medium.data.content = sent
  pos : d.pos = sent.length

section
variable {mode : OpenMode} {sent bytes : List UInt8} {d e : Device Medium.Memory} {k : Nat}

private theorem written_end (content bytes : List UInt8) :
    Memory.written content content.length bytes = content ++ bytes := by
  rw [Memory.written, List.take_length, List.drop_eq_nil_of_le (Nat.le_add_right ..), List.append_nil]

/-- A write goes behind all that was written before it. -/
private theorem Typed.write (typed : Typed mode sent d) (text : mode.text = true) (writable : mode.writable = true)
    (bytes : List UInt8) (small : (sent ++ expand bytes).length ≤ Word.maxValue) :
    ∃ e, d.write bytes = (.ok bytes.length, e) ∧ Typed mode (sent ++ expand bytes) e := by
  obtain ⟨grounded, same, widens, content, pos⟩ := typed
  obtain ⟨queued, has⟩ := grounded.supplies
  have able : d.writeObstacle? = none := by
    rw [writeObstacle?, grounded.opened, same, writable]
    rfl
  by_cases none : bytes.isEmpty = true
  · obtain rfl := List.isEmpty_iff.mp none
    rw [Device.write, able, show expand [] = [] from rfl, List.append_nil]
    exact ⟨d, rfl, grounded, same, widens, content, pos⟩
  · obtain ⟨d', m, -, kin, -, content', -, -, medium, wrote⟩ := write_overlays has grounded.random able none
    have out : d.outgoing bytes = expand bytes := outgoing_text (by rw [isText, same, text]) widens bytes
    rw [out, pos, content, written_end] at content'
    rw [out, pos] at wrote
    have fits : sent.length + (expand bytes).length < Word.modulus := by
      have := Word.maxValue_lt_modulus
      rw [List.length_append] at small
      omega
    obtain ⟨grounded', alike, -⟩ := grounded.write bytes (by rwa [medium, content'])
    rw [Nat.zero_sub] at grounded'
    have wrote := wrote (by omega)
    rw [Word.addWrapped_of_lt fits] at wrote
    rw [wrote] at grounded' alike
    refine ⟨_, wrote, grounded', alike.mode.trans same, ?_, content', ?_⟩
    · rw [← widens, ← kin.config]
    · rw [List.length_append]

/-- Going back to the start changes nothing of what is held. -/
private theorem seek_start (grounded : Grounded d k) :
    ∃ e, d.seek 0 = (.ok (), e) ∧ e.pos = 0 ∧ e.medium.data.content = d.medium.data.content := by
  rw [Device.seek, if_neg (by simp [grounded.opened]), if_neg (by simp [grounded.random])]
  split
  · exact ⟨_, rfl, rfl, rfl⟩
  · obtain ⟨m, moved, content, -⟩ := Memory.seek_eq d.heldBesideMedium d.medium 0 (.inl (Nat.zero_le _))
    rw [moved]
    refine ⟨_, rfl, rfl, ?_⟩
    rw [content, Memory.padded, Nat.zero_sub, List.replicate_zero, List.append_nil]

/-- What calls give of a text that stands in memory widened is the text, as far as they take it. -/
private theorem Grounded.gives (grounded : Grounded d 0) (able : d.readObstacle? = none) (text : d.isText = true)
    (start : d.pos = 0)
    {all : List UInt8} (content : d.medium.data.content = expand all) (calls : List Action)
    (gives : ∀ call ∈ calls, call.gives) :
    ∃ results : List (List UInt8), (d.performAll calls).1.map (Except.map Reply.content) = results.map .ok ∧
      results.flatten <+: all ∧ ((d.performAll calls).2.atEnd = true ↔ results.flatten = all) ∧
      ((∀ call ∈ calls, call.wants = true) → all.length < calls.length → results.flatten = all) := by
  have stands : d.remaining = expand all := by
    rw [← content, ← List.drop_zero (l := d.medium.data.content), ← start]
    exact grounded.stands grounded.random
  obtain ⟨results, raw, t, room, ok, portion, fits, last, reads⟩ := performAll_gives (p := Asks)
    (fun ready able short possible asks => asks.delivers ready able short possible) grounded.ready able grounded.short
    grounded.possible trivial calls gives
  have shows : results.flatten = normalize raw := by
    rw [portion.shows fun _ => trivial, text]
    rfl
  have split : all = results.flatten ++ normalize t := by
    rw [shows, ← normalize_append raw t (portion.whole trivial text), ← portion.split, stands, normalize_expand]
  have whole : results.flatten = all ↔ t = [] := by
    rw [← normalize_eq_nil_iff t]
    constructor
    · intro same
      rw [same] at split
      exact List.self_eq_append_right.mp split
    · intro none
      rw [split, none, List.append_nil]
  refine ⟨results, ok, ⟨_, split.symm⟩, ?_, fun wants long => ?_⟩
  · have final := grounded.takes portion.split reads
    rw [whole, atEnd, final.opened, final.bytesAvailable, grounded.reads_remaining reads]
    simp
  · rw [whole]
    apply last (fun call member s n asks more => asks.ne_zero (wants call member) more)
    by_contra some
    have := length_le_flatten some
    have := fits.length_eq
    have := congrArg List.length split
    rw [List.length_append] at this
    omega

end

/-! Pipes -/

section
variable {sent bytes : List UInt8} {d : Device Pipe}

/-- A pipe that takes anything takes all that it is offered, in the end. -/
private theorem offer_records (flows : d.medium.writeLimit ≠ some 0) (bytes : List UInt8) :
    ∃ m, d.offer bytes = (bytes.length, none, { d with medium := m }) ∧ Pipe.Records d.medium m bytes := by
  induction long : bytes.length using Nat.strongRecOn generalizing d bytes with
  | ind _ ih =>
    subst long
    rw [offer]
    split
    · next none =>
      obtain rfl := List.isEmpty_iff.mp none
      exact ⟨d.medium, rfl, .nothing d.medium⟩
    · next some =>
      have content : 0 < bytes.length := List.length_pos_of_ne_nil (by simpa using some)
      obtain ⟨m, wrote, records⟩ := Pipe.write_spec d.heldBesideMedium d.medium bytes
      have few := Pipe.capped_le d.medium.writeLimit bytes.length
      have positive := Pipe.capped_pos flows content
      have wrote : Medium.write d.heldBesideMedium d.medium bytes = _ := wrote
      rw [wrote]
      dsimp only
      generalize Pipe.capped d.medium.writeLimit bytes.length = n at few positive records
      have shorter : (bytes.drop n).length < bytes.length := by
        rw [List.length_drop]
        omega
      have flows' : m.writeLimit ≠ Option.some 0 := by rwa [records.limit]
      obtain ⟨m', others, more⟩ := ih _ shorter (d := { d with medium := m }) flows' (bytes.drop n) rfl
      rw [Nat.min_eq_left few, dif_pos ⟨positive, few⟩, others]
      dsimp only
      refine ⟨m', ?_, ?_⟩
      · rw [List.length_drop, Nat.add_sub_cancel' few]
      · have both := records.trans more
        rwa [List.take_append_drop] at both

/-- Without buffering every piece is recorded whole. -/
private theorem takesAll_records (stream : d.sequential = true) (direct : d.isBuffered = false)
    (flows : d.medium.writeLimit ≠ some 0) (most : Nat) :
    TakesAll most fun sent e => ∃ m, e = { d with medium := m } ∧ Pipe.Records d.medium m sent := by
  rintro sent _ piece - ⟨m, rfl, records⟩
  rw [writePiece]
  split
  · next none =>
    obtain rfl := List.isEmpty_iff.mp none
    exact ⟨_, rfl, m, rfl, by rwa [List.append_nil]⟩
  · have unqueued : ¬ (d.sequential && isBuffered { d with medium := m }) = true := by
      rw [show isBuffered { d with medium := m } = d.isBuffered from rfl, direct, Bool.and_false]
      exact Bool.false_ne_true
    have flows' : m.writeLimit ≠ some 0 := by rwa [records.limit]
    obtain ⟨m', offered, more⟩ := offer_records (d := { d with medium := m }) flows' piece
    rw [if_neg unqueued, offered]
    dsimp only
    rw [advance_eq, follow_eq]
    simp only [stream, if_true]
    exact ⟨_, rfl, m', rfl, records.trans more⟩

/-- A device over a pipe that takes anything, open in a mode in which text is written, after `sent` went out on the
first channel. -/
structure Piped (mode : OpenMode) (sent : List UInt8) (d : Device Pipe) : Prop where
  matched : Matched d
  sequential : d.sequential = true
  mode : d.mode = mode
  widens : d.config.crlfOnWrite = true
  first : d.writing.current = 0
  flows : d.medium.writeLimit ≠ some 0
  sent : d.sentOn 0 = sent
  direct : d.isBuffered = false → d.unsentOn 0 = []

variable {mode : OpenMode}

/-- A write goes out on the first channel, behind all that was written before it. -/
private theorem Piped.write (piped : Piped mode sent d) (text : mode.text = true) (writable : mode.writable = true)
    (bytes : List UInt8) (short : bytes.length < Word.requestLimit) :
    ∃ e, d.write bytes = (.ok bytes.length, e) ∧ Piped mode (sent ++ expand bytes) e := by
  obtain ⟨matched, stream, same, widens, first, flows, sent_eq, direct⟩ := piped
  have out : d.outgoing bytes = expand bytes := outgoing_text (by rw [isText, same, text]) widens bytes
  have writable : d.mode.writable = true := by rwa [same]
  cases buffered : d.isBuffered with
  | true =>
    have sending : Sending d := ⟨matched, stream, writable, buffered⟩
    have beside := (write_puts d bytes).beside stream
    obtain ⟨e, wrote, sends, current, limit⟩ := sending.write bytes short
    rw [wrote] at beside
    refine ⟨e, wrote, sends.sending.matched, sends.sending.sequential, beside.mode.trans same, ?_, current.trans first,
      ?_, ?_, fun unbuffered => ?_⟩
    · rw [beside.config, widens]
    · rwa [limit]
    · rw [sends.sent, sent_eq, first, out, Traffic.onChannel_singleton, if_pos rfl]
    · rw [sends.sending.buffered] at unbuffered
      cases unbuffered
  | false =>
    by_cases none : bytes.isEmpty = true
    · obtain rfl := List.isEmpty_iff.mp none
      rw [Device.write, writeObstacle?_of_writable writable, show expand [] = [] from rfl, List.append_nil]
      exact ⟨d, rfl, matched, stream, same, widens, first, flows, sent_eq, direct⟩
    · obtain ⟨e, wrote, m, rfl, records⟩ := outgoing_sent (takesAll_records stream buffered flows (max 2 bytes.length))
        (Nat.le_max_left ..) bytes (Nat.le_max_right ..) ⟨d.medium, rfl, .nothing d.medium⟩
      have synced : d.sync = (.ok (), d) := by rw [sync, if_pos (.inl stream)]
      have done : afterWrite { d with medium := m } d.pos = { d with medium := m } := by
        have direct : isBuffered { d with medium := m } = false := buffered
        rw [afterWrite, if_neg (by simp [stream]), direct, if_neg Bool.false_ne_true]
      refine ⟨{ d with medium := m }, ?_, ⟨matched.queues, records.channel.trans matched.channel⟩, stream, same, widens,
        first, ?_, ?_, direct⟩
      · rw [Device.write, writeObstacle?_of_writable writable]
        dsimp only
        rw [if_neg none, synced]
        dsimp only
        rw [wrote]
        dsimp only
        rw [done]
      · rwa [records.limit]
      · have unsent : unsentOn { d with medium := m } 0 = [] := direct buffered
        rw [sentOn, direct buffered, List.append_nil] at sent_eq
        rw [sentOn, unsent, List.append_nil, records.written, sent_eq, matched.channel, first, if_pos rfl,
          List.nil_append, out]

private theorem Piped.flush (piped : Piped mode sent d) (writable : mode.writable = true) :
    ∃ e, d.flush = (.ok (), e) ∧ (e.medium.writtenOn 0).content = sent := by
  obtain ⟨e, flushed, hands, -, emptied⟩ := piped.matched.flushAll
  have opened : d.isOpen = true := isOpen_of_writable (by rwa [piped.mode])
  have recorded := (hands.sent 0).trans piped.sent
  rw [sentOn, emptied piped.flows, List.append_nil] at recorded
  rw [Device.flush, if_neg (by simp [opened]), flushed]
  exact ⟨e, rfl, recorded⟩

end

/-! There and back -/

/-- Whatever calls read, they give the first bytes of `all`, and just all of them at the end; calls that want bytes
come to it. -/
def Returns (all : List UInt8) (d : Device Medium.Memory) : Prop :=
  ∀ calls : List Action, (∀ call ∈ calls, call.gives) →
    ∃ results : List (List UInt8), (d.performAll calls).1.map (Except.map Reply.content) = results.map .ok ∧
      results.flatten <+: all ∧ ((d.performAll calls).2.atEnd = true ↔ results.flatten = all) ∧
      ((∀ call ∈ calls, call.wants = true) → all.length < calls.length → results.flatten = all)

private theorem Typed.returns {mode : OpenMode} {all : List UInt8} {d : Device Medium.Memory}
    (typed : Typed mode (expand all) d)
    (text : mode.text = true) (readable : mode.readable = true) :
    ∃ e, d.seek 0 = (.ok (), e) ∧ Returns all e := by
  obtain ⟨e, sought, start, same⟩ := seek_start typed.grounded
  have small := typed.grounded.inside.2
  obtain ⟨grounded, alike, -⟩ := typed.grounded.seek 0 (by rwa [sought, same])
  rw [sought, Nat.zero_sub] at grounded
  rw [sought] at alike
  have mode_eq : e.mode = mode := alike.mode.trans typed.mode
  have able : e.readObstacle? = none := by
    rw [readObstacle?, grounded.opened, mode_eq, readable]
    rfl
  refine ⟨e, sought, fun calls gives => ?_⟩
  exact grounded.gives able (by rw [isText, mode_eq, text]) start (same.trans typed.content) calls gives

/-- Text that is written in any pieces, with or without buffering and however it is cut, is held with each line
feed widened, and each write tells how many bytes it was given. From memory, read from the start, it comes back as it
was, carriage returns of its own and all. A pipe that takes anything has all of it recorded after a flush. -/
theorem text_round_trip (pieces : List (List UInt8)) :
    (∀ (d e : Device Medium.Memory) (mode : OpenMode), d.sequential = false → d.config.bufferSize < Word.requestLimit →
      d.config.crlfOnWrite = true → d.openWith mode = (.ok (), e) → mode.text = true → mode.normalized.writable = true →
      e.medium.data.content = [] → (expand pieces.flatten).length ≤ Word.maxValue →
      ∃ f, e.performAll (pieces.map .write) = (pieces.map fun piece => .ok (.size piece.length), f) ∧
        f.medium.data.content = expand pieces.flatten ∧
        (mode.readable = true → ∃ g, f.seek 0 = (.ok (), g) ∧ Returns pieces.flatten g)) ∧
    ∀ (d e : Device Pipe) (mode : OpenMode), d.sequential = true → d.config.crlfOnWrite = true →
      d.openWith mode = (.ok (), e) → mode.text = true → mode.normalized.writable = true →
      e.medium.writeLimit ≠ some 0 → (e.medium.writtenOn 0).content = [] →
      (∀ piece ∈ pieces, piece.length < Word.requestLimit) →
      ∃ f g, e.performAll (pieces.map .write) = (pieces.map fun piece => .ok (.size piece.length), f) ∧
        f.flush = (.ok (), g) ∧ (g.medium.writtenOn 0).content = expand pieces.flatten := by
  refine ⟨?_, ?_⟩
  · intro d e mode random possible widens opened text writable empty small
    have none : e.medium.data.content.length ≤ Word.maxValue := by
      rw [empty]
      exact Nat.zero_le _
    have grounded := grounded_of_openWith random possible opened none
    have start : Typed mode.normalized [] e := by
      obtain ⟨-, rfl⟩ := openWith_inv opened
      have size : (d.medium.openWith mode.normalized).2.data.length = 0 :=
        (Handle.length_content _).symm.trans (congrArg List.length empty)
      refine ⟨grounded, rfl, widens, empty, ?_⟩
      dsimp only
      rw [size, ite_self]
      rfl
    obtain ⟨f, wrote, typed⟩ := performAll_writes (Typed mode.normalized) pieces
      (fun sent d piece _ fits typed => typed.write text writable piece fits) (by rwa [List.nil_append]) start
    rw [List.nil_append] at typed
    exact ⟨f, wrote, typed.content, fun readable => typed.returns text readable⟩
  · intro d e mode stream widens opened text writable flows empty short
    obtain ⟨matched, none⟩ := matched_of_openWith opened
    have start : Piped mode.normalized [] e := by
      have sent : e.sentOn 0 = [] := by rw [sentOn, none, empty, List.nil_append]
      obtain rfl := openWith_pipe opened
      exact ⟨matched, stream, rfl, widens, rfl, flows, sent, fun _ => none 0⟩
    obtain ⟨f, wrote, piped⟩ := performAll_writes (Piped mode.normalized) pieces
      (fun sent d piece member _ piped => piped.write text writable piece (short piece member)) (Nat.le_refl _) start
    obtain ⟨g, flushed, recorded⟩ := piped.flush writable
    rw [List.nil_append] at recorded
    exact ⟨f, g, wrote, flushed, recorded⟩

/-- A text with carriage returns of its own, cut next to them and within a line end. -/
def returnsCut : List (List UInt8) := [[97, 13], [10, 13, 13], [], [10, 98, 13]]

/-- Memory opened for text, without buffering. -/
def textMemory : Device Medium.Memory :=
  ((ofMedium (Medium.Memory.ofHandle Handle.empty) ⟨2, 1, 0, true⟩).openWith (.forReading true true true)).2

theorem text_round_trip_cut :
    (textMemory.performAll (returnsCut.map .write)).2.medium.data.content = [97, 13, 13, 10, 13, 13, 13, 10, 98, 13] ∧
    (∃ g, (textMemory.performAll (returnsCut.map .write)).2.seek 0 = (.ok (), g) ∧
      ∃ results : List (List UInt8),
        (g.performAll [.readLine 0, .getByte, .read 2, .readAll]).1.map (Except.map Reply.content) = results.map .ok ∧
        results.flatten <+: [97, 13, 10, 13, 13, 10, 98, 13]) ∧
    ∃ g, (textWriter.performAll (returnsCut.map .write)).2.flush = (.ok (), g) ∧
      (g.medium.writtenOn 0).content = [97, 13, 13, 10, 13, 13, 13, 10, 98, 13] := by
  obtain ⟨memory, pipe⟩ := text_round_trip returnsCut
  obtain ⟨f, wrote, content, back⟩ := memory (ofMedium (Medium.Memory.ofHandle Handle.empty) ⟨2, 1, 0, true⟩) textMemory
    (.forReading true true true) rfl (by decide) rfl rfl rfl rfl (by decide +kernel) (by decide +kernel)
  obtain ⟨g, sought, returns⟩ := back rfl
  obtain ⟨f', g', wrote', flushed, recorded⟩ := pipe (ofMedium Pipe.empty ⟨4, 1, 2, true⟩) textWriter
    { OpenMode.writeOnly with text := true } rfl rfl rfl rfl rfl (by decide +kernel) (by decide +kernel)
    (by simp [returnsCut, Word.requestLimit])
  have gives : ∀ call ∈ [Action.readLine 0, .getByte, .read 2, .readAll], call.gives := by
    simp only [List.forall_mem_cons]
    exact ⟨fun _ => ⟨_, .readLine 0⟩, fun _ => ⟨_, .getByte⟩, fun _ => ⟨_, .read 2⟩, fun _ => ⟨_, .readAll⟩,
      fun _ member => absurd member List.not_mem_nil⟩
  obtain ⟨results, ok, first, -⟩ := returns _ gives
  rw [wrote, wrote']
  exact ⟨content, ⟨g, sought, results, ok, first⟩, g', flushed, recorded⟩

end ByteFlow.Device
