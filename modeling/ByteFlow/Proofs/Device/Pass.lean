import ByteFlow.Device.Pass
import ByteFlow.Proofs.ChunkQueue.Query
import ByteFlow.Proofs.Device.Supplies
import ByteFlow.Proofs.Newline

/-! One reading pass takes the next bytes of what the device has in store, and shows them.
How far it gets depends on the medium; that nothing is lost, repeated or shown out of order does not. -/
namespace ByteFlow.Device
open Medium

/-! Passes -/

/-- Bytes that stay queued count as read before the next ones. -/
def stay (keep : Bool) (before raw : List UInt8) : List UInt8 := if keep then before ++ raw else before

theorem stay_append (keep : Bool) (before a b : List UInt8) :
    stay keep (stay keep before a) b = stay keep before (a ++ b) := by
  cases keep with
  | false => rfl
  | true => exact List.append_assoc ..

@[simp] theorem stay_nil (keep : Bool) (before : List UInt8) : stay keep before [] = before := by
  cases keep with
  | false => rfl
  | true => exact List.append_nil _

theorem length_stay_le (keep : Bool) (before raw : List UInt8) :
    (stay keep before raw).length ≤ before.length + raw.length := by
  cases keep with
  | false => exact Nat.le_add_right ..
  | true => exact Nat.le_of_eq List.length_append

namespace Pass

/-- The pass goes on behind `before`, which is nothing if what is read goes. -/
def Aligned (keep : Bool) (p : Pass) (before : List UInt8) : Prop :=
  if keep then p.offset = before.length else before = []

/-- The pass `q` is `p` with the bytes `b` read behind. -/
structure Accepts (keep : Bool) (p q : Pass) (b : List UInt8) : Prop where
  filled : q.filled = p.filled ++ b
  spare : q.spare.length + b.length = p.spare.length
  consumed : q.consumed = p.consumed + b.length
  decided : q.decided = p.decided
  offset : q.offset = if keep then p.offset + b.length else p.offset

variable {keep : Bool} {p q r : Pass} {a b before : List UInt8}

theorem Accepts.trans (first : Accepts keep p q a) (second : Accepts keep q r b) :
    Accepts keep p r (a ++ b) := by
  refine ⟨?_, ?_, ?_, second.decided.trans first.decided, ?_⟩
  · rw [second.filled, first.filled, List.append_assoc]
  · have := first.spare
    have := second.spare
    rw [List.length_append]
    omega
  · rw [second.consumed, first.consumed, List.length_append, Nat.add_assoc]
  · rw [second.offset, first.offset, List.length_append]
    cases keep with
    | false => rfl
    | true => exact Nat.add_assoc ..

theorem Aligned.accept (aligned : Aligned keep p before) (accepts : Accepts keep p q b) :
    Aligned keep q (stay keep before b) := by
  have offset := accepts.offset
  cases keep with
  | false => exact aligned
  | true =>
    have start : p.offset = before.length := aligned
    have next : q.offset = p.offset + b.length := offset
    show q.offset = (before ++ b).length
    rw [next, start, List.length_append]

end Pass

/-! Moves along the bytes in store -/

/-- Where the position is after `n` bytes; that of a stream waits until the pass is over. -/
def advanced {σ : Type} (d : Device σ) (n : Nat) : Nat := if d.sequential then d.pos else d.pos + n

variable {σ : Type} [Medium σ] [Source σ]

/-- The device `e` is `d` after `b` was read; `queued` and what follows it in `s` are still to come. -/
structure Moved (keep : Bool) (d e : Device σ) (before b queued s : List UInt8) : Prop where
  supplies : e.Supplies (stay keep before b) queued s
  kin : d.Kin e
  pos : e.pos = d.advanced b.length

variable {keep : Bool} {d e f : Device σ} {before b c queued more s t : List UInt8}

theorem Moved.still (has : e.Supplies before queued s) (kin : d.Kin e) (pos : e.pos = d.pos) :
    Moved keep d e before [] queued s := by
  refine ⟨by rwa [stay_nil], kin, ?_⟩
  rw [pos, advanced]
  split <;> rfl

theorem Moved.trans (first : Moved keep d e before b queued s)
    (second : Moved keep e f (stay keep before b) c more t) : Moved keep d f before (b ++ c) more t := by
  refine ⟨?_, first.kin.trans second.kin, ?_⟩
  · rw [← stay_append]
    exact second.supplies
  · rw [second.pos, advanced, first.pos, first.kin.sequential, advanced, advanced, List.length_append]
    split
    · rfl
    · exact Nat.add_assoc ..

/-- What the device says of its failures, its transaction and the position on a stream decide nothing
about what is in store. -/
theorem Supplies.apart (has : d.Supplies before queued s) (transaction : Transaction) (errorString : String)
    {pos : Nat} (same : d.sequential = false → pos = d.pos) :
    Supplies { d with transaction := transaction, errorString := errorString, pos := pos } before queued s := by
  refine ⟨has.sound, has.kind, has.wellFormed, has.bytes, has.streamed, fun random => ?_⟩
  obtain rfl := same random
  obtain ⟨rest, inside, small, stands⟩ := has.placed random
  exact ⟨rest, inside, small, stands⟩

private theorem Moved.told (moved : Moved keep d e before b queued s) (errorString : String) :
    Moved keep d { e with errorString := errorString } before b queued s := by
  obtain ⟨has, kin, pos⟩ := moved
  exact ⟨has.apart e.transaction errorString fun _ => rfl, ⟨kin.sequential, kin.mode, kin.config, kin.reading,
    kin.writing, kin.transaction, kin.outside, kin.medium⟩, pos⟩

theorem Moved.behind (kin : d.Kin e) (pos : e.pos = d.pos) (moved : Moved keep e f before b queued s) :
    Moved keep d f before b queued s := by
  refine ⟨moved.supplies, kin.trans moved.kin, ?_⟩
  rw [moved.pos, advanced, advanced, kin.sequential, pos]

/-- Bytes at the front of the queue are read by dropping them or by going past them. -/
theorem Supplies.move (has : d.Supplies before (b ++ queued) (b ++ s)) {q : ChunkQueue}
    (wf : q.WellFormed) (bytes : q.toList = stay keep before b ++ queued) :
    Moved keep d { d with reading := d.reading.put q, pos := d.advanced b.length } before b queued s := by
  refine ⟨⟨has.sound, has.kind, ?_, ?_, ?_, ?_⟩, ?_, rfl⟩
  · rw [readQueue, Channels.queue_put]
    exact wf
  · rw [readQueue, Channels.queue_put]
    exact bytes
  · intro stream
    have := has.streamed stream
    rw [List.append_assoc] at this
    exact List.append_cancel_left this
  · intro random
    have random : d.sequential = false := random
    obtain ⟨rest, inside, small, stands⟩ := has.placed random
    have there : d.advanced b.length = d.pos + b.length := by rw [advanced, if_neg (by simp [random])]
    rw [List.length_append] at inside rest
    rw [← Nat.add_assoc] at inside rest
    refine ⟨?_, ?_, small, stands⟩
    · show s = queued ++ (Source.content d.medium).drop (d.advanced b.length + queued.length)
      rw [List.append_assoc] at rest
      rw [there]
      exact List.append_cancel_left rest
    · show d.advanced b.length + queued.length ≤ (Source.content d.medium).length
      rwa [there]
  · exact Kin.of_parts d (Source.kept_refl d.medium) q (d.advanced b.length) d.mediumPos d.errorString

omit [Medium σ] [Source σ] in
theorem advance_eq (d : Device σ) (n : Nat) :
    d.advance n = { d with pos := if d.sequential then d.pos else Word.addWrapped d.pos n } := by
  rw [advance]
  split <;> rfl

/-- Positions inside do not wrap. -/
theorem Supplies.unwrapped (has : d.Supplies before queued (b ++ s)) :
    (if d.sequential then d.pos else Word.addWrapped d.pos b.length) = d.advanced b.length := by
  rw [advanced]
  split
  · rfl
  · next random =>
    have random : d.sequential = false := by simpa using random
    have small := (has.placed random).small
    have long := (has.placed random).pos_add_length
    rw [List.length_append] at long
    have := Word.maxValue_lt_modulus
    exact Nat.mod_eq_of_lt (by omega)

/-- The pass takes what is queued, as far as the buffer has room. -/
theorem takeQueued_moves (has : d.Supplies before queued s) {p : Pass} (aligned : p.Aligned keep before) :
    ∃ q e t, d.takeQueued keep p = (q, e) ∧ s = queued.take p.spare.length ++ t ∧
      p.Accepts keep q (queued.take p.spare.length) ∧ q.atEnd = p.atEnd ∧
      Moved keep d e before (queued.take p.spare.length) (queued.drop p.spare.length) t := by
  obtain ⟨tail, rfl⟩ := has.queued_prefix
  have cut : queued ++ tail = queued.take p.spare.length ++ (queued.drop p.spare.length ++ tail) := by
    rw [← List.append_assoc, List.take_append_drop]
  have parts := has
  rw [cut] at parts
  conv at parts => enter [3]; rw [← List.take_append_drop p.spare.length queued]
  have room : (queued.take p.spare.length).length ≤ p.spare.length := List.length_take_le ..
  rw [takeQueued]
  split
  · next keeps =>
    subst keeps
    have offset : p.offset = before.length := aligned
    have shown : d.readQueue.peek p.spare.length p.offset = queued.take p.spare.length := by
      rw [ChunkQueue.peek_eq, has.bytes, offset, List.drop_left]
    dsimp only
    rw [shown, advance_eq, parts.unwrapped]
    refine ⟨_, _, _, rfl, cut, ⟨rfl, ?_, rfl, rfl, rfl⟩, rfl, ?_⟩
    · simp only [Pass.accept, List.length_drop]
      omega
    · have same : d.readQueue.toList = stay true before (queued.take p.spare.length) ++
          queued.drop p.spare.length := by
        rw [has.bytes, stay, if_pos rfl, List.append_assoc, List.take_append_drop]
      have moved := parts.move has.wellFormed same
      rwa [readQueue, Channels.put_queue] at moved
  · next goes =>
    have goes : keep = false := by simpa using goes
    subst goes
    have empty : before = [] := aligned
    subst empty
    obtain ⟨taken, wf, left, -⟩ := ChunkQueue.read_spec has.wellFormed p.spare.length
    rw [has.bytes, List.nil_append] at taken left
    dsimp only
    rw [taken, advance_eq]
    dsimp only
    rw [parts.unwrapped]
    refine ⟨_, _, _, rfl, cut, ⟨rfl, ?_, rfl, rfl, rfl⟩, rfl, parts.move wf left⟩
    simp only [Pass.accept, List.length_drop]
    omega

/-- Bytes read past an empty queue are not in store any more. -/
private theorem Supplies.read_past (has : d.Supplies [] [] (b ++ s)) (synced : d.Synced) {m : σ}
    (sound : Source.Sound m) (kept : Source.Kept d.medium m) (ahead : Source.ahead m = s)
    (stands : Medium.isSequential d.medium = false → Source.place m = Source.place d.medium + b.length) :
    Moved false d ((follow { d with medium := m } b.length).advance b.length) [] b [] s := by
  rw [advance_eq, follow_eq]
  dsimp only
  rw [has.unwrapped]
  refine ⟨⟨sound, ?_, has.wellFormed, has.bytes, ?_, ?_⟩, ?_, rfl⟩
  · exact (Source.isSequential_of_kept kept).trans has.kind
  · intro _
    exact ahead.symm
  · intro random
    have random : d.sequential = false := random
    have placed := has.placed random
    have small := placed.small
    have same := Source.content_of_kept kept (has.kind.trans random)
    have pos : d.advanced b.length = d.pos + b.length := by rw [advanced, if_neg (by simp [random])]
    have long := placed.pos_add_length
    have rest := placed.rest
    rw [List.length_append] at long
    rw [List.nil_append, List.length_nil, Nat.add_zero] at rest
    have := Word.maxValue_lt_modulus
    refine ⟨?_, ?_, by rwa [same], ?_⟩
    · rw [same]
      show s = [] ++ (Source.content d.medium).drop (d.advanced b.length + 0)
      rw [pos, Nat.add_zero, ← List.drop_drop, ← rest, List.drop_left, List.nil_append]
    · rw [same]
      show d.advanced b.length + 0 ≤ _
      omega
    · rw [stands (has.kind.trans random), placed.stands, synced random, if_neg (by simp [random]),
        Word.addWrapped_of_lt (by omega)]
  · have := Kin.of_parts d kept d.readQueue (d.advanced b.length)
      (if d.sequential then d.mediumPos else Word.addWrapped d.mediumPos b.length) d.errorString
    rwa [readQueue, Channels.put_queue] at this

/-- What asking the medium comes to: the bytes `b` of `s` go to the buffer, and those in `queued` behind them
to the queue. A medium that fails is not steady, and leaves all there. -/
def Refills (keep : Bool) (d : Device σ) (p : Pass) (before s : List UInt8) : Except IoError (Nat × Pass) × Device σ → Prop
  | (.ok (got, q), e) => ∃ b queued t, got = b.length + queued.length ∧ s = b ++ t ∧
      p.Accepts keep q b ∧ Moved keep d e before b queued t ∧
      (Source.Steady d.medium → s ≠ [] → got ≠ 0) ∧
      (Source.Prompt d.medium → (q.atEnd = true → queued = t) ∧ (got = 0 → s = []))
  | (.error _, e) => Moved keep d e before [] [] s ∧ ¬ Source.Steady d.medium

/-- Only the end cuts short what a prompt medium gives. -/
private theorem eq_nil_of_take_short {n : Nat} (all : b = (b ++ t).take n) (short : b.length < n) : t = [] := by
  have length := congrArg List.length all
  rw [List.length_take, List.length_append] at length
  exact List.length_eq_zero_iff.mp (by omega)

/-- Without a queue in between the bytes go to the buffer. -/
private theorem refill_direct {p : Pass} (synced_eq : d.sync = (.ok (), e)) (start : Moved false d e [] [] [] s)
    (synced : e.Synced) (room : p.spare ≠ []) (direct : (!e.isBuffered || e.config.bufferSize ≤ p.spare.length) = true) :
    Refills false d p [] s (d.refill false p) := by
  have want := List.length_pos_of_ne_nil room
  have has := start.supplies
  have rest := has.ahead_eq synced
  rw [refill, synced_eq]
  dsimp only
  rw [if_pos (by rw [direct]; rfl)]
  rcases Source.read_spec e.heldBesideMedium p.spare.length has.sound with
    ⟨b, m, read, few, ahead, stands, sound, kept, steady, prompt⟩ |
    ⟨err, m, read, ahead, stands, sound, kept, unsteady⟩
  · rw [rest] at ahead steady prompt
    subst ahead
    rw [read]
    dsimp only
    rw [Nat.min_eq_left few]
    have moved := has.read_past synced sound kept rfl stands
    refine ⟨b, [], Source.ahead m, rfl, rfl, ⟨?_, ?_, ?_, rfl, rfl⟩, start.trans moved, ?_, ?_⟩
    · simp [Pass.overlay, Pass.accept]
    · simp [Pass.overlay, Pass.accept]
      omega
    · simp [Pass.overlay, Pass.accept]
    · intro st more none
      exact steady (start.kin.steady_iff.mpr st) want more (List.length_eq_zero_iff.mp none)
    · intro pr
      have all := prompt (start.kin.prompt_iff.mpr pr)
      refine ⟨fun short => ?_, fun none => ?_⟩
      · exact (eq_nil_of_take_short all (by simpa using short)).symm
      · rw [eq_nil_of_take_short all (by omega), List.length_eq_zero_iff.mp none]
        rfl
  · rw [read]
    have unread := has.queue_more synced sound kept has.wellFormed has.bytes ahead.symm fun random => by
      rw [stands (has.kind.trans random), (has.placed random).stands]
    have kin := Kin.of_parts e kept e.readQueue e.pos e.mediumPos e.errorString
    rw [readQueue, Channels.put_queue] at unread kin
    exact ⟨start.trans (.still unread kin rfl), fun st => unsteady (start.kin.steady_iff.mpr st)⟩

/-- With a queue in between the bytes go there. -/
private theorem refill_queued {p : Pass} (synced_eq : d.sync = (.ok (), e)) (start : Moved keep d e before [] [] s)
    (synced : e.Synced) (room : p.spare ≠ []) (possible : e.config.bufferSize < Word.requestLimit)
    (queue : ¬ ((!e.isBuffered || e.config.bufferSize ≤ p.spare.length) && !keep) = true) :
    Refills keep d p before s (d.refill keep p) := by
  have want := List.length_pos_of_ne_nil room
  have has := start.supplies
  rw [stay_nil] at has
  rw [refill, synced_eq]
  dsimp only
  rw [if_neg queue]
  have more : 0 < (if e.isBuffered then e.config.bufferSize else min p.spare.length e.config.bufferSize) := by
    have := e.fills
    split <;> omega
  have few : (if e.isBuffered then e.config.bufferSize else min p.spare.length e.config.bufferSize) <
      Word.requestLimit := by
    split <;> omega
  generalize (if e.isBuffered then e.config.bufferSize else min p.spare.length e.config.bufferSize) = chunk at *
  rcases fill_supplies has synced more few with
    ⟨queued, f, filled, supplied, kin, pos, -, steady, prompt⟩ | ⟨err, f, broken, supplied, kin, pos, unsteady⟩
  · rw [filled]
    have moved : Moved keep d f before [] queued s := start.trans (.still (by rwa [stay_nil]) kin pos)
    refine ⟨[], queued, s, (Nat.zero_add _).symm, rfl, ⟨(List.append_nil _).symm, rfl, rfl, rfl, ?_⟩, moved, ?_, ?_⟩
    · split <;> rfl
    · intro st more none
      exact steady (start.kin.steady_iff.mpr st) more (List.length_eq_zero_iff.mp none)
    · intro pr
      have all := prompt (start.kin.prompt_iff.mpr pr)
      have length := congrArg List.length all
      rw [List.length_take] at length
      refine ⟨fun short => ?_, fun none => ?_⟩
      · have short : queued.length < chunk := by simpa using short
        rw [all]
        exact List.take_of_length_le (by omega)
      · exact List.length_eq_zero_iff.mp (by omega)
  · rw [broken]
    exact ⟨start.trans (.still (by rwa [stay_nil]) kin pos), fun st => unsteady (start.kin.steady_iff.mpr st)⟩

/-- The medium is asked for more bytes: those that come go to the buffer or to the queue. -/
private theorem refill_moves (has : d.Supplies before [] s) {p : Pass} (aligned : p.Aligned keep before)
    (room : p.spare ≠ []) (possible : d.config.bufferSize < Word.requestLimit) :
    Refills keep d p before s (d.refill keep p) := by
  obtain ⟨e, synced_eq, has', kin, pos_eq, synced⟩ := sync_supplies has
  have start : Moved keep d e before [] [] s := .still has' kin pos_eq
  by_cases direct : ((!e.isBuffered || e.config.bufferSize ≤ p.spare.length) && !keep) = true
  · obtain ⟨past, goes⟩ := Bool.and_eq_true_iff.mp direct
    have goes : keep = false := by simpa using goes
    subst goes
    have empty : before = [] := aligned
    subst empty
    exact refill_direct synced_eq start synced room past
  · exact refill_queued synced_eq start synced room (by rwa [kin.config]) direct

/-- What gathering comes to: the bytes `b` of `s` are in the buffer. A steady medium fails to give any
only at the end, and a prompt one leaves room only there. -/
structure Gathered (keep : Bool) (d e : Device σ) (p q : Pass) (before b queued s t : List UInt8) : Prop where
  split : s = b ++ t
  accepts : p.Accepts keep q b
  moved : Moved keep d e before b queued t
  done : q.spare = [] ∨ queued = []
  steady : Source.Steady d.medium → p.spare ≠ [] → p.atEnd = false → s ≠ [] → b ≠ []
  prompt : Source.Prompt d.medium → (q.atEnd = true → queued = t) ∧ (q.spare = [] ∨ t = [])

private theorem Pass.Accepts.refl (keep : Bool) (p : Pass) : p.Accepts keep p [] := by
  refine ⟨(List.append_nil _).symm, rfl, rfl, rfl, ?_⟩
  split <;> rfl

/-- The bytes that came are in the buffer once those queued are taken, as far as it has room. -/
private theorem takeRefilled_moves {p more : Pass} (aligned : p.Aligned keep before) (room : p.spare ≠ [])
    (accepts : p.Accepts keep more b) (moved : Moved keep d e before b queued t) (some : b.length + queued.length ≠ 0)
    (short : Source.Prompt d.medium → more.atEnd = true → queued = t) :
    ∃ next f c rest u, e.takeQueued keep more = (next, f) ∧ b ++ t = c ++ u ∧ c ≠ [] ∧ p.Accepts keep next c ∧
      Moved keep d f before c rest u ∧ (next.spare = [] ∨ rest = []) ∧
      (Source.Prompt f.medium → next.atEnd = true → rest = u) := by
  obtain ⟨next, f, u, took, cut, accepts', at_end, moved'⟩ := takeQueued_moves moved.supplies (aligned.accept accepts)
  have reached := moved.trans moved'
  refine ⟨next, f, b ++ queued.take more.spare.length, queued.drop more.spare.length, u, took, ?_, ?_,
    accepts.trans accepts', reached, ?_, ?_⟩
  · rw [cut, List.append_assoc]
  · apply List.ne_nil_of_length_pos
    have := accepts.spare
    have := List.length_pos_of_ne_nil room
    rw [List.length_append, List.length_take]
    omega
  · have := accepts'.spare
    rw [List.length_take] at this
    rcases Nat.le_total more.spare.length queued.length with small | large
    · exact .inl (List.length_eq_zero_iff.mp (by omega))
    · exact .inr (List.drop_eq_nil_of_le large)
  · intro pr stop
    have all := short (reached.kin.prompt_iff.mp pr) (at_end ▸ stop)
    rw [← all] at cut
    conv at cut => lhs; rw [← List.take_append_drop more.spare.length queued]
    exact List.append_cancel_left cut

/-- What was gathered later comes behind what was taken before. -/
private theorem Gathered.after {p next q : Pass} {rest : List UInt8} (accepts : p.Accepts keep next c) (some : c ≠ [])
    (moved : Moved keep d e before c rest s) (gathered : Gathered keep e f next q (stay keep before c) b more s t) :
    Gathered keep d f p q before (c ++ b) more (c ++ s) t := by
  refine ⟨?_, accepts.trans gathered.accepts, moved.trans gathered.moved, gathered.done, fun _ _ _ _ => ?_,
    fun pr => gathered.prompt (moved.kin.prompt_iff.mpr pr)⟩
  · rw [gathered.split, List.append_assoc]
  · exact List.append_ne_nil_of_left_ne_nil some b

/-- Either all that was queued was taken, or what is queued now is the rest of it. -/
def Drains (queued b more : List UInt8) : Prop := queued <+: b ∨ queued = b ++ more

theorem Drains.behind (drains : Drains queued b more) (first : List UInt8) :
    Drains (first ++ queued) (first ++ b) more := by
  rcases drains with all | rest
  · exact .inl ((List.prefix_append_right_inj first).mpr all)
  · right
    rw [List.append_assoc, rest]

theorem Drains.append (drains : Drains queued b more) (further : more <+: c) : queued <+: b ++ c := by
  rcases drains with all | rest
  · exact all.trans (List.prefix_append b c)
  · rw [rest]
    exact (List.prefix_append_right_inj b).mpr further

theorem Drains.all (drains : Drains queued b more) (none : more = []) : queued <+: b := by
  have all := drains.append (c := []) (none ▸ List.nil_prefix)
  rwa [List.append_nil] at all

/-- Gathering goes on until the buffer is full, or the medium comes short or fails. -/
theorem gather_moves {p : Pass} (has : d.Supplies before queued s) (aligned : p.Aligned keep before)
    (taken : p.spare = [] ∨ queued = []) (possible : d.config.bufferSize < Word.requestLimit)
    (ended : Source.Prompt d.medium → p.atEnd = true → queued = s) :
    (∃ q e b more t, d.gather keep p = (.ok q, e) ∧ Gathered keep d e p q before b more s t ∧ Drains queued b more) ∨
    ∃ err e, d.gather keep p = (.error err, e) ∧ p.filled = [] ∧ queued = [] ∧
      Moved keep d e before [] [] s ∧ ¬ Source.Steady d.medium := by
  induction left : p.spare.length using Nat.strongRecOn generalizing p d before queued s with
  | ind _ ih =>
    subst left
    rw [gather]
    split
    · next stops =>
      left
      have stops : p.spare = [] ∨ p.atEnd = true := by simpa using stops
      refine ⟨p, d, [], queued, s, rfl, ⟨rfl, .refl keep p, .still has (.refl d) rfl, taken, ?_, ?_⟩, .inr rfl⟩
      · intro _ room open_ _
        rcases stops with full | stop
        · exact absurd full room
        · rw [open_] at stop
          cases stop
      · intro pr
        refine ⟨ended pr, ?_⟩
        rcases stops with full | stop
        · exact .inl full
        · rcases taken with full | none
          · exact .inl full
          · exact .inr ((ended pr stop).symm.trans none)
    · next open_ =>
      have open_ : p.spare ≠ [] ∧ p.atEnd = false := by simpa using open_
      obtain ⟨room, going⟩ := open_
      have none : queued = [] := taken.resolve_left room
      subst none
      have refills := refill_moves has aligned room possible
      generalize d.refill keep p = result at refills
      obtain ⟨err | ⟨got, more⟩, e⟩ := result
      · obtain ⟨moved, unsteady⟩ := refills
        dsimp only
        split
        · next nothing =>
          right
          exact ⟨err, e, rfl, List.isEmpty_iff.mp nothing, rfl, moved, unsteady⟩
        · left
          have noted : Moved keep d (e.note err "read") before [] [] s := moved.told _
          refine ⟨_, _, [], [], s, rfl, ⟨rfl, ⟨(List.append_nil _).symm, rfl, rfl, rfl, ?_⟩, noted, .inr rfl, ?_, ?_⟩,
            .inr rfl⟩
          · split <;> rfl
          · intro st
            exact absurd st unsteady
          · intro pr
            exact absurd (Source.steady_of_prompt pr) unsteady
      · obtain ⟨b, queued, t, rfl, rfl, accepts, moved, steady, prompt⟩ := refills
        dsimp only
        split
        · next none =>
          left
          obtain ⟨none_read, none_queued⟩ := Nat.add_eq_zero_iff.mp none
          obtain rfl := List.length_eq_zero_iff.mp none_read
          obtain rfl := List.length_eq_zero_iff.mp none_queued
          refine ⟨more, e, [], [], t, rfl, ⟨rfl, accepts, moved, .inr rfl, ?_, ?_⟩, .inr rfl⟩
          · intro st _ _ some
            exact absurd none (steady st some)
          · intro pr
            obtain ⟨short, last⟩ := prompt pr
            exact ⟨short, .inr (last none)⟩
        · next some =>
          obtain ⟨next, f, c, rest, u, took, cut, came, accepted, reached, emptied, ended'⟩ :=
            takeRefilled_moves aligned room accepts moved some fun pr => (prompt pr).1
          rw [took, cut]
          dsimp only
          have shorter : next.spare.length < p.spare.length := by
            have := accepted.spare
            have := List.length_pos_of_ne_nil came
            omega
          rw [dif_pos shorter]
          have small : f.config.bufferSize < Word.requestLimit := by
            rw [reached.kin.config]
            exact possible
          rcases ih _ shorter reached.supplies (aligned.accept accepted) emptied small ended' rfl with
            ⟨q, g, b', more', v, gathered, result, -⟩ | ⟨err, g, gathered, nothing, -⟩
          · left
            exact ⟨q, g, c ++ b', more', v, gathered, result.after accepted came reached, .inl List.nil_prefix⟩
          · rw [accepted.filled] at nothing
            exact absurd (List.append_eq_nil_iff.mp nothing).2 came

end ByteFlow.Device
