import ByteFlow.Device.Line
import ByteFlow.Proofs.Device.Collect
import Mathlib.Data.List.Infix

/-! What a reading call gives out and what it leaves to come.
The bytes given out are the next ones in store, as text mode shows them. Peeking leaves everything in
store as it was. -/
namespace ByteFlow
open Medium

/-- A transaction of the kind that the medium needs. -/
def Transaction.Fits (sequential : Bool) : Transaction → Prop
  | .idle => True
  | .onStream _ _ => sequential = true
  | .onRandomAccess _ => sequential = false

theorem Transaction.Fits.of_random {transaction : Transaction} (fits : transaction.Fits false) :
    transaction = .idle ∨ ∃ place, transaction = .onRandomAccess place := by
  cases transaction with
  | idle => exact .inl rfl
  | onRandomAccess place => exact .inr ⟨place, rfl⟩
  | onStream start place => cases fits

/-- The transaction with its cursor, if it has one, at a place. -/
def Transaction.upTo (place : Nat) : Transaction → Transaction
  | .onStream startPos _ => .onStream startPos place
  | begun => begun

theorem Transaction.Fits.upTo_eq {transaction : Transaction} (fits : transaction.Fits false) (place : Nat) :
    transaction.upTo place = transaction := by
  obtain rfl | ⟨start, rfl⟩ := fits.of_random <;> rfl

theorem Transaction.upTo_upTo (transaction : Transaction) (a b : Nat) :
    (transaction.upTo a).upTo b = transaction.upTo b := by
  cases transaction <;> rfl

namespace Device

variable {σ : Type} [Medium σ] [Source σ]

/-- Between calls: `s` is still to come, and `before` was read but stays queued. -/
structure Ready (d : Device σ) (before s : List UInt8) : Prop where
  supplies : ∃ queued, d.Supplies before queued s
  cursor : d.cursor = before.length
  fits : d.transaction.Fits d.sequential
  pos : d.pos < Word.modulus

/-- The device `e` is `d` after a call that took `raw` and left `t`. -/
structure Reads (d e : Device σ) (before raw t : List UInt8) : Prop where
  ready : e.Ready (stay (d.keeps false) before raw) t
  pos : e.pos = Word.addWrapped d.pos raw.length
  kin : d.Kin { e with transaction := d.transaction }
  transaction : e.transaction = d.transaction.upTo e.cursor

/-- A call for up to `room` bytes that gave `bytes` took `raw` off `s` and left `t`. Where reads of the
medium may come short before its end, a line end may be given in two parts. -/
structure Portion (d : Device σ) (room : Nat) (s raw t bytes : List UInt8) : Prop where
  split : s = raw ++ t
  shows : (d.isText = true → Source.Steady d.medium) → bytes = shown d.isText raw
  fits : bytes.length ≤ room
  shorter : bytes.length ≤ raw.length
  empty_iff : bytes = [] ↔ raw = []
  whole : Source.Steady d.medium → d.isText = true → ¬ Newline.Parts raw t
  steady : Source.Steady d.medium → room ≠ 0 → s ≠ [] → raw ≠ []

/-- A prompt medium gives all that is asked for, as far as there is any. -/
def Fills (d : Device σ) (room : Nat) (bytes t : List UInt8) : Prop :=
  Source.Prompt d.medium → bytes.length = room ∨ t = []

omit [Medium σ] [Source σ] in
/-- What is queued and was not read. -/
def unreadQueue (d : Device σ) : List UInt8 := d.readQueue.toList.drop d.cursor

omit [Medium σ] [Source σ] in
/-- One pass leaves nothing of what was queued if it leaves room. -/
def Exhausts (d : Device σ) (room : Nat) (raw bytes : List UInt8) : Prop :=
  bytes.length = room ∨ d.unreadQueue <+: raw

variable {keep peeking : Bool} {d e : Device σ} {before queued more raw s t bytes : List UInt8}

/-! Looking ahead -/

/-- There is a byte to be had, or the medium has none to give, or it failed. -/
theorem provideByte_supplies (has : d.Supplies before queued s) (possible : d.config.bufferSize < Word.requestLimit) :
    ∃ result e more, d.provideByte before.length = (result, e) ∧ e.Supplies before more s ∧ d.Kin e ∧ e.pos = d.pos ∧
      (result = .ok true ∧ more ≠ [] ∨
        more = [] ∧ (Source.Steady d.medium → s = []) ∧
          (result = .ok false ∨ ∃ err, result = .error err ∧ ¬ Source.Steady d.medium)) := by
  rw [provideByte]
  split
  · next inside =>
    refine ⟨_, d, queued, rfl, has, .refl d, rfl, .inl ⟨rfl, fun none => ?_⟩⟩
    rw [has.length_readQueue, none, List.length_nil] at inside
    omega
  · next outside =>
    have none : queued = [] := by
      rw [has.length_readQueue] at outside
      exact List.length_eq_zero_iff.mp (by omega)
    subst none
    obtain ⟨d', synced_eq, has', kin, pos_eq, synced⟩ := sync_supplies has
    rw [synced_eq]
    dsimp only
    have some : 0 < d'.fillSize := by
      have := d'.fills
      rw [fillSize]
      split
      · exact this
      · exact Nat.one_pos
    have small : d'.fillSize < Word.requestLimit := by
      have : d'.config.bufferSize < Word.requestLimit := by rwa [kin.config]
      rw [fillSize]
      split
      · exact this
      · decide
    rcases fill_supplies has' synced some small with
      ⟨more, e, filled, supplied, kin', pos', -, steady, -⟩ | ⟨err, e, filled, supplied, kin', pos', unsteady⟩
    · rw [filled]
      refine ⟨_, e, more, rfl, supplied, kin.trans kin', pos'.trans pos_eq, ?_⟩
      by_cases none : more = []
      · right
        refine ⟨none, fun st => ?_, ?_⟩
        · by_contra left
          exact steady (kin.steady_iff.mpr st) left none
        · rw [none]
          exact .inl rfl
      · left
        exact ⟨by simpa using List.length_pos_of_ne_nil none, none⟩
    · rw [filled]
      have unsteady : ¬ Source.Steady d.medium := fun st => unsteady (kin.steady_iff.mpr st)
      exact ⟨_, e, [], rfl, supplied, kin.trans kin', pos'.trans pos_eq,
        .inr ⟨rfl, fun st => absurd st unsteady, .inr ⟨err, rfl, unsteady⟩⟩⟩

omit [Source σ] in
theorem lookAhead_eq (d : Device σ) (place : Nat) : d.lookAhead place = (d.provideByte place).2 := by
  rw [lookAhead, provideByte]
  split
  · rfl
  · rcases d.sync with ⟨_ | _, e⟩
    · rfl
    · dsimp only
      rcases e.fill e.fillSize with ⟨_ | _, f⟩ <;> rfl

/-- A steady medium shows the next byte if there is one. -/
theorem lookAhead_supplies (has : d.Supplies before queued s) (possible : d.config.bufferSize < Word.requestLimit) :
    ∃ more, (d.lookAhead before.length).Supplies before more s ∧ d.Kin (d.lookAhead before.length) ∧
      (d.lookAhead before.length).pos = d.pos ∧ (Source.Steady d.medium → s ≠ [] → more ≠ []) := by
  obtain ⟨result, e, more, provided, supplied, kin, pos, outcome⟩ := provideByte_supplies has possible
  rw [lookAhead_eq, provided]
  refine ⟨more, supplied, kin, pos, fun st left => ?_⟩
  rcases outcome with ⟨-, some⟩ | ⟨-, last, -⟩
  · exact some
  · exact absurd (last st) left

/-- The byte looked for is the next one. -/
theorem Supplies.peek_one (has : d.Supplies before queued s) :
    d.readQueue.peek 1 before.length = queued.take 1 := by
  rw [ChunkQueue.peek_eq, has.bytes, List.drop_left]

theorem Supplies.next_eq (has : d.Supplies before queued s) {b : UInt8} (first : queued.take 1 = [b]) :
    ∃ rest t, queued = [b] ++ rest ∧ s = [b] ++ t := by
  obtain ⟨tail, rfl⟩ := has.queued_prefix
  cases queued with
  | nil => cases first
  | cons c rest =>
    obtain rfl : c = b := by simpa using first
    exact ⟨rest, rest ++ tail, rfl, rfl⟩

theorem Supplies.head?_ne (has : d.Supplies before queued s) (known : s ≠ [] → queued ≠ []) {b : UInt8}
    (other : queued.take 1 ≠ [b]) : s.head? ≠ some b := by
  intro first
  obtain ⟨tail, rfl⟩ := has.queued_prefix
  cases queued with
  | nil => exact known (List.ne_nil_of_mem (List.mem_of_mem_head? first)) rfl
  | cons c rest =>
    obtain rfl : c = b := by simpa using first
    exact other rfl

/-- The line feed takes the place of the carriage return before it. -/
private theorem closeLine_filled {p : Pass} {front : List UInt8}
    (filled : p.filled = shown true (front ++ [Byte.carriageReturn])) :
    p.closeLine.filled = shown true (front ++ [Byte.carriageReturn] ++ [Byte.lineFeed]) ∧
      p.closeLine.filled.length = p.filled.length := by
  have ends : p.filled = Newline.normalize front ++ [Byte.carriageReturn] := by
    rw [filled, shown, if_pos rfl, Newline.normalize_concat_return]
  rw [Pass.closeLine, ends, List.dropLast_concat, shown, if_pos rfl]
  refine ⟨?_, ?_⟩
  · rw [List.append_assoc]
    exact (Newline.normalize_concat_pair front).symm
  · rw [List.length_append, List.length_append, List.length_singleton, List.length_singleton]

/-- A line feed that follows a carriage return at the end of the pass goes with it. -/
private theorem closeLine_moves {p : Pass} (has : d.Supplies before queued s) (aligned : p.Aligned keep before)
    (filled : p.filled = shown d.isText raw) (possible : d.config.bufferSize < Word.requestLimit) :
    ∃ q e b more t, d.closeLine keep p = (q, e) ∧ s = b ++ t ∧ q.filled = shown d.isText (raw ++ b) ∧
      q.filled.length = p.filled.length ∧ q.consumed = p.consumed + b.length ∧
      q.Aligned keep (stay keep before b) ∧ Moved keep d e before b more t ∧
      (Source.Steady d.medium → d.isText = true → ¬ Newline.Parts (raw ++ b) t) := by
  rw [closeLine]
  split
  · next open_ =>
    obtain ⟨text, open_⟩ := Bool.and_eq_true_iff.mp open_
    have last : raw.getLast? = some Byte.carriageReturn := by
      rw [Pass.endsOpen, beq_iff_eq, filled, text] at open_
      rwa [← Newline.getLast?_normalize]
    obtain ⟨front, rfl⟩ := List.getLast?_eq_some_iff.mp last
    have place : (if keep then p.offset else 0) = before.length := by
      cases keep with
      | false =>
        have empty : before = [] := aligned
        rw [empty]
        rfl
      | true => exact aligned
    obtain ⟨more, has', kin, pos, steady⟩ := lookAhead_supplies has possible
    rw [place]
    dsimp only
    rw [has'.peek_one]
    split
    · next feed =>
      obtain ⟨rest, t, rfl, rfl⟩ := has'.next_eq feed
      obtain ⟨wider, length⟩ := closeLine_filled (text ▸ filled)
      rw [← text] at wider
      have ended : ¬ Newline.Parts (front ++ [Byte.carriageReturn] ++ [Byte.lineFeed]) t := by
        rintro ⟨last, -⟩
        rw [List.getLast?_concat] at last
        cases last
      have read : (if (d.lookAhead before.length).sequential then (d.lookAhead before.length).pos
          else Word.addWrapped (d.lookAhead before.length).pos 1) = (d.lookAhead before.length).advanced 1 :=
        has'.unwrapped (b := [Byte.lineFeed])
      split
      · next keeps =>
        subst keeps
        have same : (d.lookAhead before.length).readQueue.toList = stay true before [Byte.lineFeed] ++ rest := by
          rw [has'.bytes, stay, if_pos rfl, List.append_assoc]
        have moved := has'.move has'.wellFormed same
        rw [readQueue, Channels.put_queue] at moved
        rw [advance_eq, read]
        refine ⟨_, _, [Byte.lineFeed], rest, t, rfl, rfl, wider, length, rfl, ?_, moved.behind kin pos,
          fun _ _ => ended⟩
        have offset : p.offset = before.length := aligned
        show p.offset + 1 = (before ++ [Byte.lineFeed]).length
        rw [offset, List.length_append, List.length_singleton]
      · next goes =>
        have goes : keep = false := by simpa using goes
        subst goes
        have empty : before = [] := aligned
        subst empty
        obtain ⟨wf, left, -⟩ := ChunkQueue.free_spec has'.wellFormed 1
        rw [has'.bytes] at left
        have moved : Moved false _ _ [] [Byte.lineFeed] rest t := has'.move wf left
        rw [advance_eq]
        dsimp only
        rw [read]
        exact ⟨_, _, [Byte.lineFeed], rest, t, rfl, rfl, wider, length, rfl, aligned, moved.behind kin pos,
          fun _ _ => ended⟩
    · next other =>
      refine ⟨p, _, [], more, s, rfl, rfl, ?_, rfl, rfl, by rwa [stay_nil], .still has' kin pos, ?_⟩
      · rwa [List.append_nil]
      · rintro st - ⟨-, first⟩
        exact has'.head?_ne (steady st) other first
  · next closed =>
    refine ⟨p, d, [], queued, s, rfl, rfl, ?_, rfl, rfl, by rwa [stay_nil], .still has (.refl d) rfl, ?_⟩
    · rwa [List.append_nil]
    · rintro - text ⟨last, -⟩
      rw [text, Bool.true_and, Pass.endsOpen, beq_iff_eq, filled, text] at closed
      rw [List.append_nil] at last
      exact closed ((Newline.getLast?_normalize raw).trans last)

/-! Going elsewhere -/

/-- All but the first `k` bytes in store are what stands in a random-access medium from the position on. -/
def Stands (d : Device σ) (k : Nat) (s : List UInt8) : Prop :=
  d.sequential = false → s.drop k = (Source.content d.medium).drop (d.pos + k)

theorem Stands.mono {j k : Nat} (stands : d.Stands j s) (less : j ≤ k) : d.Stands k s := by
  intro random
  have same := congrArg (List.drop (k - j)) (stands random)
  rwa [List.drop_drop, List.drop_drop, Nat.add_sub_cancel' less, Nat.add_assoc, Nat.add_sub_cancel' less] at same

/-- What comes behind the queue was never anything but what stands there. -/
theorem Supplies.stands (has : d.Supplies before queued s) : d.Stands queued.length s := by
  intro random
  have rest := (has.placed random).rest
  conv_lhs => rw [rest]
  exact List.drop_left

/-- At a place inside, what is queued comes first, and then what stands behind it. -/
theorem Supplies.relocate (has : d.Supplies [] queued s) (random : d.sequential = false) {q : ChunkQueue}
    (wf : q.WellFormed) (place : Nat) (inside : place + q.toList.length ≤ (Source.content d.medium).length) :
    Supplies { d with reading := d.reading.put q, pos := place } [] q.toList
      (q.toList ++ (Source.content d.medium).drop (place + q.toList.length)) := by
  refine ⟨has.sound, has.kind, ?_, ?_, ?_, fun _ => ?_⟩
  · rwa [readQueue, Channels.queue_put]
  · rw [readQueue, Channels.queue_put]
    rfl
  · intro stream
    rw [random] at stream
    cases stream
  · obtain ⟨-, -, small, stands⟩ := has.placed random
    exact ⟨rfl, inside, small, stands⟩

/-- A move keeps what is queued from there on. -/
theorem moveTo_supplies (has : d.Supplies [] queued s) (random : d.sequential = false) (place : Nat)
    (inside : place ≤ (Source.content d.medium).length) :
    ∃ more t, (d.moveTo place).Supplies [] more t ∧ d.Kin (d.moveTo place) ∧ (d.moveTo place).pos = place ∧
      ∀ k, d.Stands k s → (d.moveTo place).Stands (k - (place - d.pos)) t := by
  rw [moveTo]
  split
  · next within =>
    obtain ⟨wf, left, -⟩ := ChunkQueue.free_spec has.wellFormed (place - d.pos)
    have placed := has.placed random
    have fits := placed.inside
    rw [has.bytes, List.nil_append] at left
    rw [has.length_readQueue, List.length_nil, Nat.zero_add] at within
    have there : place + (queued.drop (place - d.pos)).length = d.pos + queued.length := by
      rw [List.length_drop]
      omega
    have has' := has.relocate random wf place (by rw [left, there]; exact fits)
    have rest : s.drop (place - d.pos) = queued.drop (place - d.pos) ++
        (Source.content d.medium).drop (place + (queued.drop (place - d.pos)).length) := by
      rw [there, placed.rest, List.drop_append_of_le_length (Nat.le_of_lt within.2)]
    rw [left, ← rest] at has'
    refine ⟨_, _, has', Kin.of_parts d (Source.kept_refl d.medium) _ place d.mediumPos d.errorString, rfl, ?_⟩
    intro k stands _
    have same := stands.mono (Nat.le_add_right k (place - d.pos - k)) random
    show (s.drop (place - d.pos)).drop (k - (place - d.pos)) =
      (Source.content d.medium).drop (place + (k - (place - d.pos)))
    rw [List.drop_drop, show place - d.pos + (k - (place - d.pos)) = k + (place - d.pos - k) by omega, same]
    congr 1
    omega
  · obtain ⟨wf, none⟩ := ChunkQueue.clear_spec d.readQueue
    have has' := has.relocate random wf place (by rwa [none, List.length_nil, Nat.add_zero])
    rw [none, List.nil_append, List.length_nil, Nat.add_zero] at has'
    refine ⟨_, _, has', Kin.of_parts d (Source.kept_refl d.medium) _ place d.mediumPos d.errorString, rfl, ?_⟩
    intro k _ _
    exact List.drop_drop

/-! Passes over the device -/

omit [Medium σ] [Source σ] in
theorem keeps_of_random (random : d.sequential = false) : d.keeps false = false := by
  rw [keeps, if_neg (by simp [random])]
  rfl

private theorem Ready.cursor_eq_zero (ready : d.Ready before s) (gone : d.keeps peeking = false) : d.cursor = 0 := by
  have fits := ready.fits
  rw [Device.cursor]
  cases at_ : d.transaction with
  | idle => rfl
  | onRandomAccess startPos => rfl
  | onStream startPos cursor =>
    rw [at_] at fits
    have stream : d.sequential = true := fits
    rw [keeps, if_pos stream, inTransaction, at_, Bool.or_eq_false_iff] at gone
    cases gone.2

theorem Ready.before_eq_nil (ready : d.Ready before s) (gone : d.keeps peeking = false) : before = [] :=
  List.length_eq_zero_iff.mp (ready.cursor.symm.trans (ready.cursor_eq_zero gone))

private theorem Ready.aligned (ready : d.Ready before s) (peeking : Bool) (buffer : List UInt8) :
    (Pass.start buffer d.cursor).Aligned (d.keeps peeking) before := by
  rw [Pass.Aligned]
  split
  · exact ready.cursor
  · next gone => exact ready.before_eq_nil (by simpa using gone)

theorem Ready.unreadQueue_eq (ready : d.Ready before s) (has : d.Supplies before queued s) :
    d.unreadQueue = queued := by
  rw [unreadQueue, has.bytes, ready.cursor, List.drop_left]

/-- What a pass comes to, before the position is settled. -/
theorem collect_closeLine_moves (ready : d.Ready before s) (peeking : Bool) (buffer : List UInt8)
    (possible : d.config.bufferSize < Word.requestLimit) :
    (∃ p e q f raw more t, d.collect (d.keeps peeking) buffer.length (Pass.start buffer d.cursor) = (.ok p, e) ∧
      e.closeLine (d.keeps peeking) p = (q, f) ∧ d.Portion buffer.length s raw t q.filled ∧
      d.Fills buffer.length q.filled t ∧ d.Exhausts buffer.length raw q.filled ∧ q.filled = shown d.isText raw ∧
      q.consumed = raw.length ∧
      q.Aligned (d.keeps peeking) (stay (d.keeps peeking) before raw) ∧
      Moved (d.keeps peeking) d f before raw more t) ∨
    ∃ err e, d.collect (d.keeps peeking) buffer.length (Pass.start buffer d.cursor) = (.error err, e) ∧
      Moved (d.keeps peeking) d e before [] [] s ∧ ¬ Source.Steady d.medium := by
  obtain ⟨queued, has⟩ := ready.supplies
  have aligned := ready.aligned peeking buffer
  rcases collect_moves has aligned (.start d.isText buffer d.cursor) possible
    (fun _ stopped => absurd stopped Bool.false_ne_true) with
    ⟨p, e, b, more, t, collected, result, drains⟩ | ⟨err, e, collected, -, -, moved, unsteady⟩
  · left
    have moved := result.moved
    have small : e.config.bufferSize < Word.requestLimit := by
      rw [moved.kin.config]
      exact possible
    have filled := result.holds.filled
    rw [List.nil_append, ← moved.kin.isText] at filled
    obtain ⟨q, f, c, further, u, closed, cut, shows, same, consumed, aligned', moved', whole⟩ :=
      closeLine_moves moved.supplies result.aligned filled small
    have room := result.holds.room
    rw [moved.kin.isText] at shows whole
    rw [stay_append] at aligned'
    refine ⟨p, e, q, f, b ++ c, further, u, collected, closed, ⟨?_, fun _ => shows, ?_, ?_, ?_, ?_, ?_⟩, ?_, ?_, shows,
      ?_, aligned', moved.trans moved'⟩
    · rw [result.split, cut, List.append_assoc]
    · omega
    · rw [shows]
      exact length_shown_le ..
    · rw [shows]
      exact shown_eq_nil_iff ..
    · intro st
      exact whole (moved.kin.steady_iff.mpr st)
    · intro st some more none
      exact result.steady st (List.ne_nil_of_length_pos (Nat.pos_of_ne_zero some)) rfl more
        (List.append_eq_nil_iff.mp none).1
    · intro pr
      rcases result.prompt pr with full | last
      · left
        rw [full, List.length_nil] at room
        omega
      · right
        rw [last] at cut
        exact (List.append_eq_nil_iff.mp cut.symm).2
    · rw [Exhausts, ready.unreadQueue_eq has]
      rcases drains with full | all
      · left
        rw [full, List.length_nil] at room
        omega
      · exact .inr (all.trans (List.prefix_append b c))
    · have := result.holds.consumed
      rw [consumed, this, List.nil_append, List.length_append]
  · right
    exact ⟨err, e, collected, moved, unsteady⟩

omit [Medium σ] [Source σ] in
theorem moveCursor_eq (d : Device σ) (place : Nat) :
    d.moveCursor place = { d with transaction := d.transaction.upTo place } := by
  rw [moveCursor]
  cases at_ : d.transaction <;> simp only [Transaction.upTo] <;> rw [← at_]

omit [Medium σ] [Source σ] in
theorem upTo_cursor (d : Device σ) : d.transaction.upTo d.cursor = d.transaction := by
  rw [cursor]
  cases d.transaction <;> rfl

/-- A call leaves the device ready if its cursor is where what was read ends. -/
theorem Ready.reads (ready : d.Ready before s) (kin : d.Kin e)
    (has : e.Supplies (stay (d.keeps false) before raw) queued t) (place : Nat) {pos : Nat}
    (there : d.keeps false = true → place = (before ++ raw).length) (moved : pos = Word.addWrapped d.pos raw.length)
    (same : d.sequential = false → pos = e.pos) (errorString : String) :
    d.Reads { e with transaction := e.transaction.upTo place, pos := pos, errorString := errorString } before raw t := by
  have cursor_eq : (Device.cursor { e with
      transaction := e.transaction.upTo place, pos := pos, errorString := errorString }) =
      (stay (d.keeps false) before raw).length := by
    have fits := ready.fits
    have start := ready.cursor
    rw [Device.cursor] at start ⊢
    dsimp only
    rw [kin.transaction]
    cases at_ : d.transaction with
    | onStream startPos cursor =>
      rw [at_] at fits
      have stream : d.sequential = true := fits
      have stays : d.keeps false = true := by simp [keeps, stream, inTransaction, at_]
      rw [stay, if_pos stays, ← there stays]
      rfl
    | idle =>
      have goes : d.keeps false = false := by simp [keeps, inTransaction, at_]
      rw [at_] at start
      rw [goes]
      exact start
    | onRandomAccess startPos =>
      rw [at_] at fits
      have random : d.sequential = false := fits
      have goes := keeps_of_random random
      rw [at_] at start
      rw [goes]
      exact start
  refine ⟨⟨⟨queued, ?_⟩, cursor_eq, ?_, ?_⟩, moved, ?_, ?_⟩
  · exact has.apart _ errorString (kin.sequential ▸ same)
  · show (e.transaction.upTo place).Fits e.sequential
    have fits := ready.fits
    rw [kin.transaction, kin.sequential]
    cases at_ : d.transaction <;> rw [at_] at fits <;> exact fits
  · show pos < _
    rw [moved]
    exact Nat.mod_lt _ (by decide)
  · exact ⟨kin.sequential, kin.mode, kin.config, kin.reading, kin.writing, rfl, kin.outside, kin.medium⟩
  · rw [Device.cursor]
    dsimp only
    rw [kin.transaction]
    cases d.transaction <;> rfl

/-- A call that took nothing leaves the device as ready as before. -/
theorem Ready.stays (ready : d.Ready before s) (kin : d.Kin e) (has : e.Supplies before queued t)
    (pos : e.pos = d.pos) (errorString : String) :
    d.Reads { e with errorString := errorString } before [] t := by
  rw [← stay_nil (d.keeps false) before] at has
  have same : e.transaction.upTo before.length = e.transaction := by
    rw [kin.transaction, ← ready.cursor, upTo_cursor]
  have there : d.keeps false = true → before.length = (before ++ ([] : List UInt8)).length := by
    intro _
    rw [List.append_nil]
  have still : e.pos = Word.addWrapped d.pos ([] : List UInt8).length := by
    rw [pos, List.length_nil, Word.addWrapped_zero ready.pos]
  have reads := ready.reads kin has before.length there still (fun _ => rfl) errorString
  rwa [same] at reads

private theorem Ready.fails (ready : d.Ready before s) (moved : Moved keep d e before [] queued s)
    (errorString : String) :
    d.Reads { e with errorString := errorString } before [] s := by
  have has := moved.supplies
  rw [stay_nil] at has
  refine ready.stays moved.kin has ?_ errorString
  rw [moved.pos, advanced, List.length_nil]
  split <;> rfl

omit [Medium σ] [Source σ] in
theorem settle_eq (d : Device σ) (p : Pass) :
    d.settle p = { d with
      transaction := d.transaction.upTo p.offset
      pos := if d.sequential then Word.addWrapped d.pos p.consumed else d.pos } := by
  rw [settle, moveCursor_eq]
  dsimp only
  split <;> rfl

/-- A read takes the next bytes, or fails and takes none. -/
theorem readPass_reads (ready : d.Ready before s) (buffer : List UInt8)
    (possible : d.config.bufferSize < Word.requestLimit) :
    (∃ raw e t, d.readPass false buffer = (.ok (shown d.isText raw), e) ∧
      d.Portion buffer.length s raw t (shown d.isText raw) ∧ d.Fills buffer.length (shown d.isText raw) t ∧
      d.Exhausts buffer.length raw (shown d.isText raw) ∧ d.Reads e before raw t) ∨
    ∃ failure e, d.readPass false buffer = (.error failure, e) ∧ d.Reads e before [] s ∧
      ¬ Source.Steady d.medium := by
  rw [readPass]
  dsimp only
  rcases collect_closeLine_moves ready false buffer possible with
    ⟨p, e, q, f, raw, more, t, collected, closed, portion, fills, exhausts, shows, consumed, aligned, moved⟩ |
    ⟨err, e, collected, moved, unsteady⟩
  · left
    rw [collected]
    dsimp only
    rw [closed]
    dsimp only
    rw [shows] at portion fills exhausts ⊢
    refine ⟨raw, _, t, rfl, portion, fills, exhausts, ?_⟩
    rw [if_neg Bool.false_ne_true, settle_eq]
    apply ready.reads moved.kin moved.supplies q.offset
    · intro stays
      rw [stays] at aligned
      exact aligned
    · have pos := moved.pos
      rw [advanced, ← moved.kin.sequential] at pos
      split
      · next stream =>
        rw [pos, if_pos stream, consumed]
      · next random =>
        have random : f.sequential = false := by simpa using random
        obtain ⟨-, inside, small, -⟩ := moved.supplies.placed random
        have := Word.maxValue_lt_modulus
        rw [random, if_neg Bool.false_ne_true] at pos
        rw [Word.addWrapped, ← pos, Nat.mod_eq_of_lt (by omega)]
    · intro random
      rw [moved.kin.sequential, random]
      rfl
  · right
    rw [collected]
    exact ⟨_, _, rfl, ready.fails moved _, unsteady⟩

/-- What was passed by comes again after going back. -/
private theorem Moved.unread (moved : Moved true d e before raw queued t) :
    Supplies { e with pos := d.pos } before (raw ++ queued) (raw ++ t) := by
  obtain ⟨⟨sound, kind, wf, bytes, streamed, placed⟩, kin, pos⟩ := moved
  refine ⟨sound, kind, wf, ?_, ?_, fun random => ?_⟩
  · rw [← List.append_assoc]
    exact bytes
  · intro stream
    rw [streamed stream, List.append_assoc]
  · have random : e.sequential = false := random
    obtain ⟨rest, inside, small, stands⟩ := placed random
    rw [kin.sequential] at random
    rw [advanced, if_neg (by simp [random])] at pos
    have there : d.pos + (raw ++ queued).length = e.pos + queued.length := by
      rw [pos, List.length_append, Nat.add_assoc]
    refine ⟨?_, ?_, small, stands⟩
    · show raw ++ t = raw ++ queued ++ (Source.content e.medium).drop (d.pos + (raw ++ queued).length)
      rw [there, List.append_assoc, ← rest]
    · show d.pos + (raw ++ queued).length ≤ (Source.content e.medium).length
      rwa [there]

/-- What stands at the position after `raw` is what stood behind it. -/
private theorem Stands.after {k : Nat} (stands : d.Stands k (raw ++ t)) (kind : e.sequential = d.sequential)
    (content : d.sequential = false → Source.content e.medium = Source.content d.medium)
    (pos : d.sequential = false → e.pos = d.pos + raw.length) : e.Stands (k - raw.length) t := by
  intro random
  rw [kind] at random
  have behind := stands.mono (Nat.le_max_left k raw.length) random
  rw [content random, pos random, show d.pos + raw.length + (k - raw.length) = d.pos + max k raw.length by omega,
    ← behind, List.drop_append, List.drop_eq_nil_of_le (Nat.le_max_right k raw.length), List.nil_append]
  congr 1
  omega

theorem Reads.stands (reads : d.Reads e before raw t) (has : d.Supplies before queued (raw ++ t)) {k : Nat}
    (stands : d.Stands k (raw ++ t)) : e.Stands (k - raw.length) t := by
  refine stands.after reads.kin.sequential (fun random => ?_) fun random => ?_
  · exact Source.content_of_kept reads.kin.medium (has.kind.trans random)
  · have small := (has.placed random).small
    have long := (has.placed random).pos_add_length
    rw [List.length_append] at long
    have := Word.maxValue_lt_modulus
    rw [reads.pos, Word.addWrapped_of_lt (by omega)]

/-- What a look that showed `raw` leaves: `t` is in store after it. What was put back goes if the device is
unbuffered and random-access, but nothing else does; what was shown of a stream is queued. -/
structure Looks (d e : Device σ) (before raw s t : List UInt8) : Prop where
  reads : d.Reads e before [] t
  same : d.Stands 0 s → t = s
  stands : ∀ k, d.Stands k s → e.Stands k t
  queued : d.sequential = true → raw <+: e.unreadQueue

private theorem Ready.looks (ready : d.Ready before s) (reads : d.Reads e before [] s)
    (queued : d.sequential = true → raw <+: e.unreadQueue) : d.Looks e before raw s s := by
  obtain ⟨_, has⟩ := ready.supplies
  exact ⟨reads, fun _ => rfl, fun k stands => reads.stands has stands, queued⟩

omit [Medium σ] [Source σ] in
theorem keeps_of_sequential (stream : d.sequential = true) : d.keeps true = true := by
  rw [keeps, if_pos stream]
  rfl

/-- What is looked at and kept is still to come. -/
private theorem Moved.looks (ready : d.Ready before (raw ++ t)) (moved : Moved true d e before raw queued t) :
    d.Looks { e with pos := d.pos } before raw (raw ++ t) (raw ++ t) := by
  have kin : d.Kin { e with pos := d.pos } :=
    ⟨moved.kin.sequential, moved.kin.mode, moved.kin.config, moved.kin.reading, moved.kin.writing,
      moved.kin.transaction, moved.kin.outside, moved.kin.medium⟩
  have reads := ready.stays kin moved.unread rfl e.errorString
  have ready' := reads.ready
  rw [stay_nil] at ready'
  refine ready.looks reads fun _ => ?_
  have queue : Device.unreadQueue { e with pos := d.pos } = raw ++ queued := ready'.unreadQueue_eq moved.unread
  rw [queue]
  exact List.prefix_append raw queued

/-- Without a queue to keep it in, what was looked at is found again where it stands. -/
private theorem Moved.revisits (ready : d.Ready [] (raw ++ t)) (random : d.sequential = false)
    (moved : Moved false d e [] raw queued t) : ∃ u, d.Looks (e.moveTo d.pos) [] raw (raw ++ t) u := by
  obtain ⟨_, has⟩ := ready.supplies
  have same := Source.content_of_kept moved.kin.medium (has.kind.trans random)
  have inside := (has.placed random).inside
  have pos := moved.pos
  rw [advanced, if_neg (by simp [random])] at pos
  obtain ⟨more, u, has', kin, back, stands⟩ := moveTo_supplies moved.supplies
    (moved.kin.sequential.trans random) d.pos (by rw [same]; omega)
  have reads : d.Reads (e.moveTo d.pos) [] [] u := ready.stays (moved.kin.trans kin) has' back _
  have returned : ∀ k, d.Stands k (raw ++ t) → (e.moveTo d.pos).Stands k u := by
    intro k standing
    exact (stands _ (standing.after moved.kin.sequential (fun _ => same) fun _ => pos)).mono (by omega)
  refine ⟨u, reads, fun standing => ?_, returned, fun stream => ?_⟩
  · have content := Source.content_of_kept (moved.kin.trans kin).medium (has.kind.trans random)
    have now := returned 0 standing ((kin.sequential.trans moved.kin.sequential).trans random)
    have then_ := standing random
    rw [List.drop_zero, content, back] at now
    rw [List.drop_zero] at then_
    exact now.trans then_.symm
  · rw [random] at stream
    cases stream

/-- A look at what is to come leaves it to come. -/
theorem readPass_peeks (ready : d.Ready before s) (buffer : List UInt8)
    (possible : d.config.bufferSize < Word.requestLimit) :
    (∃ raw e t u, d.readPass true buffer = (.ok (shown d.isText raw), e) ∧
      d.Portion buffer.length s raw t (shown d.isText raw) ∧ d.Fills buffer.length (shown d.isText raw) t ∧
      d.Looks e before raw s u) ∨
    ∃ failure e, d.readPass true buffer = (.error failure, e) ∧ d.Reads e before [] s ∧
      ¬ Source.Steady d.medium := by
  rw [readPass]
  dsimp only
  rcases collect_closeLine_moves ready true buffer possible with
    ⟨p, e, q, f, raw, more, t, collected, closed, portion, fills, -, shows, consumed, -, moved⟩ |
    ⟨err, e, collected, moved, unsteady⟩
  · left
    rw [collected]
    dsimp only
    rw [closed]
    dsimp only
    rw [shows] at portion fills ⊢
    obtain rfl := portion.split
    rw [if_pos rfl, unread]
    split
    · next stays =>
      rw [stays] at moved
      exact ⟨raw, _, t, _, rfl, portion, fills, moved.looks ready⟩
    · next goes =>
      have goes : d.keeps true = false := by simpa using goes
      have random : d.sequential = false := by
        by_contra stream
        rw [keeps_of_sequential (by simpa using stream)] at goes
        cases goes
      obtain rfl := ready.before_eq_nil goes
      rw [goes] at moved
      obtain ⟨u, looks⟩ := moved.revisits ready random
      exact ⟨raw, _, t, u, rfl, portion, fills, looks⟩
  · right
    rw [collected]
    exact ⟨_, _, rfl, ready.fails moved _, unsteady⟩

end Device

end ByteFlow
