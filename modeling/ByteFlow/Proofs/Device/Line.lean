import ByteFlow.Proofs.Device.Read

/-! Reading a line takes it up to its line feed, wherever the pieces in store begin and end. -/
namespace ByteFlow.Device
open Medium

variable {σ : Type} [Medium σ] [Source σ] {keep : Bool} {d e f : Device σ} {room : Nat}
  {before b c queued more raw s t bytes : List UInt8}

/-- The device `e` is `d` after a part `b` of a line; the position moves with each part. -/
structure Along (keep : Bool) (d e : Device σ) (before b queued s : List UInt8) : Prop where
  supplies : e.Supplies (stay keep before b) queued s
  kin : d.Kin e
  pos : e.pos = Word.addWrapped d.pos b.length

private theorem Along.still (has : e.Supplies before queued s) (kin : d.Kin e) (pos : e.pos = d.pos)
    (inside : d.pos < Word.modulus) : Along keep d e before [] queued s := by
  refine ⟨by rwa [stay_nil], kin, ?_⟩
  rw [pos, List.length_nil, Word.addWrapped_zero inside]

private theorem Along.trans (first : Along keep d e before b queued s)
    (second : Along keep e f (stay keep before b) c more t) : Along keep d f before (b ++ c) more t := by
  refine ⟨?_, first.kin.trans second.kin, ?_⟩
  · rw [← stay_append]
    exact second.supplies
  · rw [second.pos, first.pos, Word.addWrapped_addWrapped, List.length_append]

private theorem Along.behind (kin : d.Kin e) (pos : e.pos = d.pos) (along : Along keep e f before b queued s) :
    Along keep d f before b queued s := by
  refine ⟨along.supplies, kin.trans along.kin, ?_⟩
  rw [along.pos, pos]

omit [Medium σ] [Source σ] in
private theorem stay_eq_nil (empty : keep = false → before = []) (gone : keep = false) : stay keep before b = [] := by
  rw [stay, gone, if_neg Bool.false_ne_true]
  exact empty gone

/-- Bytes of the queue are read at once, also on a stream. -/
private theorem Supplies.along (has : d.Supplies before (b ++ queued) (b ++ s)) {q : ChunkQueue} (wf : q.WellFormed)
    (bytes : q.toList = stay keep before b ++ queued) :
    Along keep d { d with reading := d.reading.put q, pos := Word.addWrapped d.pos b.length } before b queued s := by
  have moved := has.move wf bytes
  have same : d.sequential = false → Word.addWrapped d.pos b.length = d.advanced b.length := by
    intro random
    rw [← has.unwrapped, if_neg (by simp [random])]
  exact ⟨moved.supplies.apart d.transaction d.errorString same,
    Kin.of_parts d (Source.kept_refl d.medium) q _ d.mediumPos d.errorString, rfl⟩

private theorem Along.told (along : Along keep d e before b queued s) (errorString : String) :
    Along keep d { e with errorString := errorString } before b queued s := by
  obtain ⟨has, kin, pos⟩ := along
  exact ⟨has.apart e.transaction errorString fun _ => rfl, ⟨kin.sequential, kin.mode, kin.config, kin.reading,
    kin.writing, kin.transaction, kin.outside, kin.medium⟩, pos⟩

/-- What is queued gives the first line of it, as far as there is room. -/
private theorem takeLine_along (has : d.Supplies before queued s) (short : d.readQueue.length ≤ Word.maxValue)
    (empty : keep = false → before = []) (room : Nat) :
    ∃ b e more t, d.takeLine keep room before.length = (b, (stay keep before b).length, e) ∧
      b = (Newline.firstLine queued).take room ∧ s = b ++ t ∧ Along keep d e before b more t := by
  rw [takeLine]
  dsimp only
  generalize taken : d.readQueue.peek _ before.length = b
  have line : b = (Newline.firstLine queued).take room := by
    rw [← taken, ChunkQueue.peek_eq, has.bytes, List.drop_left, ChunkQueue.indexOf_eq has.wellFormed _ _ _ short,
      has.bytes, List.drop_left, ← Newline.firstLine_take, Newline.firstLine_eq_take]
    cases found : (queued.take room).findIdx? (· == Byte.lineFeed) with
    | none => rfl
    | some i =>
      have inside : i < (queued.take room).length := (List.findIdx?_eq_some_iff_findIdx_eq.mp found).1
      rw [List.length_take] at inside
      dsimp only [Option.map_some]
      rw [List.take_take, Nat.add_sub_cancel_left, Nat.min_eq_left (by omega)]
  have start : b <+: queued := line ▸ (List.take_prefix _ _).trans (Newline.firstLine_prefix queued)
  obtain ⟨more, rfl⟩ := start
  obtain ⟨t, rfl⟩ : ∃ t, s = b ++ t := by
    obtain ⟨tail, rfl⟩ := has.queued_prefix
    exact ⟨more ++ tail, List.append_assoc ..⟩
  split
  · next keeps =>
    subst keeps
    have same : d.readQueue.toList = stay true before b ++ more := by
      rw [has.bytes, stay, if_pos rfl, List.append_assoc]
    have along := has.along has.wellFormed same
    rw [readQueue, Channels.put_queue] at along
    refine ⟨b, _, more, t, ?_, line, rfl, along⟩
    rw [stay, if_pos rfl, List.length_append]
  · next goes =>
    have goes : keep = false := by simpa using goes
    subst goes
    obtain rfl := empty rfl
    obtain ⟨wf, left, -⟩ := ChunkQueue.free_spec has.wellFormed b.length
    rw [has.bytes, List.nil_append, List.drop_left] at left
    exact ⟨b, _, more, t, rfl, line, rfl, has.along wf left⟩

/-- What reading on for a line comes to: `b` is a line or part of one, which a steady medium ends where there
is room and anything more to come. -/
structure Lined (keep : Bool) (d e : Device σ) (room : Nat) (before b queued s t : List UInt8) : Prop where
  split : s = b ++ t
  along : Along keep d e before b queued t
  fits : b.length ≤ room
  one : Newline.OneLine b
  done : Source.Steady d.medium → b.getLast? = some Byte.lineFeed ∨ b.length = room ∨ t = []

private theorem Lined.none (along : Along keep d e before [] queued s)
    (done : Source.Steady d.medium → room = 0 ∨ s = []) : Lined keep d e room before [] queued s s :=
  ⟨rfl, along, Nat.zero_le _, List.not_mem_nil, fun st => .inr ((done st).imp_left Eq.symm)⟩

/-- A part without a line feed goes on with what comes next. -/
private theorem Lined.append (along : Along keep d e before b queued s) (fits : b.length ≤ room)
    (open_ : Byte.lineFeed ∉ b)
    (further : Lined keep e f (room - b.length) (stay keep before b) c more s t) :
    Lined keep d f room before (b ++ c) more (b ++ s) t := by
  obtain ⟨rfl, along', fits', one, done⟩ := further
  refine ⟨(List.append_assoc ..).symm, along.trans along', ?_, .append open_ one, fun st => ?_⟩
  · rw [List.length_append]
    omega
  · rcases done (along.kin.steady_iff.mpr st) with ended | full | last
    · left
      rw [List.getLast?_append, ended]
      rfl
    · right
      left
      rw [List.length_append]
      omega
    · exact .inr (.inr last)

/-- The bytes of a line come as they are, from the queue and from the medium. -/
private theorem rawLine_along (has : d.Supplies before queued s) (short : before.length + s.length ≤ Word.maxValue)
    (empty : keep = false → before = []) (inside : d.pos < Word.modulus)
    (possible : d.config.bufferSize < Word.requestLimit) (room : Nat) :
    (∃ b e more t, d.rawLine keep room before.length = (.ok (b, (stay keep before b).length), e) ∧
      Lined keep d e room before b more s t) ∨
    ∃ err e, d.rawLine keep room before.length = (.error err, e) ∧ Along keep d e before [] [] s ∧
      ¬ Source.Steady d.medium := by
  induction room using Nat.strongRecOn generalizing d before queued s with
  | ind room ih =>
    rw [rawLine]
    split
    · next zero =>
      left
      exact ⟨[], d, queued, s, by rw [stay_nil], .none (.still has (.refl d) rfl inside) fun _ => .inl zero⟩
    · next positive =>
      obtain ⟨result, d', more, provided, has', kin, pos, outcome⟩ := provideByte_supplies has possible
      rw [provided]
      rcases outcome with ⟨rfl, some⟩ | ⟨rfl, last, rfl | ⟨err, rfl, unsteady⟩⟩
      · left
        dsimp only
        have queue_short : d'.readQueue.length ≤ Word.maxValue := by
          have := has'.queued_prefix.length_le
          rw [has'.length_readQueue]
          omega
        obtain ⟨b, e, rest, t, took, line, rfl, along⟩ := takeLine_along has' queue_short empty room
        have one : Newline.OneLine b := line ▸ (Newline.oneLine_firstLine more).take room
        have fits : b.length ≤ room := by
          rw [line]
          exact List.length_take_le ..
        have read : 0 < b.length := by
          rw [line, List.length_take]
          have := List.length_pos_of_ne_nil (mt (Newline.firstLine_eq_nil_iff more).mp some)
          omega
        have along := along.behind kin pos
        rw [took]
        dsimp only
        split
        · next goes =>
          have short' : (stay keep before b).length + t.length ≤ Word.maxValue := by
            have := length_stay_le keep before b
            rw [List.length_append] at short
            omega
          have inside' : e.pos < Word.modulus := by
            rw [along.pos]
            exact Nat.mod_lt _ (by decide)
          have small : e.config.bufferSize < Word.requestLimit := by rwa [along.kin.config]
          rcases ih (room - b.length) (by omega) along.supplies short' (stay_eq_nil empty) inside' small with
            ⟨c, f, rest', u, further, lined⟩ | ⟨err, f, further, along', unsteady⟩
          · rw [further, stay_append]
            exact ⟨b ++ c, f, rest', u, rfl, lined.append along fits (one.notMem goes.2.2)⟩
          · rw [further]
            have stopped := along.trans along'
            rw [List.append_nil] at stopped
            exact ⟨b, _, [], t, rfl, rfl, stopped.told _, fits, one,
              fun st => absurd (along.kin.steady_iff.mpr st) unsteady⟩
        · next stops =>
          refine ⟨b, e, rest, t, rfl, rfl, along, fits, one, fun _ => .inl ?_⟩
          by_contra open_
          exact stops ⟨read, fits, open_⟩
      · left
        exact ⟨[], d', [], s, by rw [stay_nil], .none (.still has' kin pos inside) fun st => .inr (last st)⟩
      · right
        exact ⟨err, d', rfl, .still has' kin pos inside, unsteady⟩

/-- What text mode makes of a line: `bytes` shows it and `c`, which was read on for. -/
structure Closed (keep : Bool) (d e : Device σ) (line bytes before c queued s t : List UInt8) : Prop where
  split : s = c ++ t
  along : Along keep d e before c queued t
  shows : bytes = shown d.isText (line ++ c)
  one : Newline.OneLine bytes
  fits : bytes.length ≤ line.length
  done : bytes.getLast? = some Byte.lineFeed ∨ bytes.length = line.length ∧ c = []
  whole : Source.Steady d.medium → d.isText = true → ¬ Newline.Parts (line ++ c) t

/-- Without reading on, what the line ends with decides. -/
private theorem Closed.still (along : Along keep d e before [] queued s) {line : List UInt8}
    (shows : bytes = shown d.isText line)
    (one : Newline.OneLine bytes) (fits : bytes.length ≤ line.length)
    (done : bytes.getLast? = some Byte.lineFeed ∨ bytes.length = line.length)
    (whole : Source.Steady d.medium → d.isText = true → ¬ Newline.Parts line s) :
    Closed keep d e line bytes before [] queued s s := by
  refine ⟨rfl, along, ?_, one, fits, done.imp_right fun same => ⟨same, rfl⟩, ?_⟩
  · rwa [List.append_nil]
  · rwa [List.append_nil]

/-- A line end that is whole becomes a line feed. -/
private theorem Closed.pair (text : d.isText = true) (along : Along keep d e before [] queued s) {front : List UInt8}
    (open_ : Byte.lineFeed ∉ front) :
    Closed keep d e (front ++ [Byte.carriageReturn, Byte.lineFeed]) (front ++ [Byte.lineFeed]) before [] queued s s := by
  apply Closed.still along
  · rw [text, shown, if_pos rfl, Newline.normalize_concat_pair, Newline.normalize_of_notMem open_]
  · rw [Newline.OneLine, List.dropLast_concat]
    exact open_
  · simp
  · exact .inl List.getLast?_concat
  · rintro - - ⟨last, -⟩
    simp [Byte.lineFeed, Byte.carriageReturn] at last

/-- The line feed that was still to come takes the place of the carriage return. -/
private theorem Closed.feed (text : d.isText = true) {front : List UInt8} (open_ : Byte.lineFeed ∉ front)
    (along : Along keep d e before [Byte.lineFeed] queued s) :
    Closed keep d e (front ++ [Byte.carriageReturn]) (front ++ [Byte.lineFeed]) before [Byte.lineFeed] queued
      ([Byte.lineFeed] ++ s) s := by
  refine ⟨rfl, along, ?_, ?_, ?_, .inl List.getLast?_concat, ?_⟩
  · rw [text, shown, if_pos rfl, List.append_assoc, List.singleton_append, Newline.normalize_concat_pair,
      Newline.normalize_of_notMem open_]
  · rw [Newline.OneLine, List.dropLast_concat]
    exact open_
  · simp
  · rintro - - ⟨last, -⟩
    rw [List.getLast?_concat] at last
    cases last

/-- Text mode makes a line feed of the line end, and reads on for it if the line stops within it. -/
private theorem normalizeEnd_closed (has : d.Supplies before queued s) (empty : keep = false → before = [])
    (inside : d.pos < Word.modulus) (possible : d.config.bufferSize < Word.requestLimit) {line : List UInt8}
    (one : Newline.OneLine line) :
    ∃ bytes c e more t, d.normalizeEnd keep line before.length = (bytes, (stay keep before c).length, e) ∧
      Closed keep d e line bytes before c more s t := by
  have still : Along keep d d before [] queued s := .still has (.refl d) rfl inside
  rw [normalizeEnd]
  split
  · next plain =>
    have plain : d.isText = false := by simpa using plain
    refine ⟨line, [], d, queued, s, by rw [stay_nil], .still still ?_ one (Nat.le_refl _) (.inr rfl) ?_⟩
    · rw [plain]
      rfl
    · intro _ text
      rw [plain] at text
      cases text
  · next text =>
    have text : d.isText = true := by simpa using text
    dsimp only
    split
    · next pair =>
      obtain ⟨front, rfl⟩ : ∃ front, line = front ++ [Byte.carriageReturn, Byte.lineFeed] := by
        refine ⟨line.take (line.length - 2), ?_⟩
        rw [← pair.2, List.take_append_drop]
      have front_eq : (front ++ [Byte.carriageReturn, Byte.lineFeed]).take
          ((front ++ [Byte.carriageReturn, Byte.lineFeed]).length - 2) = front := by
        rw [List.length_append]
        exact List.take_left' rfl
      have open_ : Byte.lineFeed ∉ front := by
        intro feed
        apply one
        rw [List.dropLast_append_of_ne_nil (by simp)]
        exact List.mem_append_left _ feed
      rw [front_eq]
      exact ⟨_, [], d, queued, s, by rw [stay_nil], .pair text still open_⟩
    · next single =>
      have single : ∀ front, line ≠ front ++ [Byte.carriageReturn, Byte.lineFeed] := by
        rintro front rfl
        apply single
        simp
      have shows : line = shown d.isText line := by
        rw [text]
        exact (one.normalize_eq single).symm
      split
      · next last =>
        obtain ⟨front, rfl⟩ := List.getLast?_eq_some_iff.mp last
        have open_ : Byte.lineFeed ∉ front := by
          rwa [Newline.OneLine, List.dropLast_concat] at one
        obtain ⟨more, has', kin, pos, steady⟩ := lookAhead_supplies has possible
        have inside' : (d.lookAhead before.length).pos < Word.modulus := by rwa [pos]
        rw [has'.peek_one]
        split
        · next feed =>
          obtain ⟨rest, t, rfl, rfl⟩ := has'.next_eq feed
          rw [List.dropLast_concat]
          split
          · next keeps =>
            subst keeps
            have same : (d.lookAhead before.length).readQueue.toList = stay true before [Byte.lineFeed] ++ rest := by
              rw [has'.bytes, stay, if_pos rfl, List.append_assoc]
            have along := has'.along has'.wellFormed same
            rw [readQueue, Channels.put_queue] at along
            refine ⟨_, [Byte.lineFeed], _, rest, t, ?_, .feed text open_ (along.behind kin pos)⟩
            rw [stay, if_pos rfl, List.length_append]
            rfl
          · next goes =>
            have goes : keep = false := by simpa using goes
            subst goes
            obtain rfl := empty rfl
            obtain ⟨wf, left, -⟩ := ChunkQueue.free_spec has'.wellFormed 1
            rw [has'.bytes] at left
            have along : Along false _ _ [] [Byte.lineFeed] rest t := has'.along wf left
            exact ⟨_, [Byte.lineFeed], _, rest, t, rfl, .feed text open_ (along.behind kin pos)⟩
        · next other =>
          refine ⟨_, [], _, more, s, by rw [stay_nil],
            .still (.still has' kin pos inside) shows one (Nat.le_refl _) (.inr rfl) ?_⟩
          rintro st - ⟨-, first⟩
          exact has'.head?_ne (steady st) other first
      · next closed =>
        exact ⟨line, [], d, queued, s, by rw [stay_nil], .still still shows one (Nat.le_refl _) (.inr rfl)
          fun _ _ parts => closed parts.1⟩

/-- What a call for a line gives: one line, which ends unless there is no room or nothing more to come. -/
def EndsLine (d : Device σ) (room : Nat) (bytes t : List UInt8) : Prop :=
  Newline.OneLine bytes ∧
    (Source.Steady d.medium → bytes.getLast? = some Byte.lineFeed ∨ bytes.length = room ∨ t = [])

omit [Medium σ] [Source σ] in
theorem keeps_false (d : Device σ) : d.keeps false = d.keepsLine := by
  rw [keeps, keepsLine]
  cases d.sequential <;> rfl

private theorem linePass_delivers (ready : d.Ready before s) (short : before.length + s.length ≤ Word.maxValue)
    (possible : d.config.bufferSize < Word.requestLimit) (room : Nat) :
    d.Delivers before s room (d.EndsLine room) (d.linePass room) := by
  obtain ⟨queued, has⟩ := ready.supplies
  have empty : d.keepsLine = false → before = [] := fun goes => ready.before_eq_nil ((keeps_false d).trans goes)
  rw [linePass, ready.cursor]
  dsimp only
  rcases rawLine_along has short empty ready.pos possible room with
    ⟨b, e, more, t, raw, rfl, along, fits, one, done⟩ | ⟨err, e, raw, along, unsteady⟩
  · rw [raw]
    dsimp only
    have inside : e.pos < Word.modulus := by
      rw [along.pos]
      exact Nat.mod_lt _ (by decide)
    have small : e.config.bufferSize < Word.requestLimit := by rwa [along.kin.config]
    obtain ⟨bytes, c, f, rest, u, ended, closed⟩ := normalizeEnd_closed along.supplies (stay_eq_nil empty) inside small one
    obtain rfl := closed.split
    have whole := along.trans closed.along
    have shows := closed.shows
    rw [along.kin.isText] at shows
    rw [ended, stay_append]
    refine ⟨b ++ c, u, ⟨?_, fun _ => shows, ?_, ?_, ?_, ?_, ?_⟩, ⟨closed.one, fun st => ?_⟩, ?_⟩
    · rw [List.append_assoc]
    · exact Nat.le_trans closed.fits fits
    · rw [shows]
      exact length_shown_le ..
    · rw [shows]
      exact shown_eq_nil_iff ..
    · intro st text
      exact closed.whole (along.kin.steady_iff.mpr st) (along.kin.isText.trans text)
    · intro st positive left none
      obtain ⟨rfl, rfl⟩ := List.append_eq_nil_iff.mp none
      rcases done st with ended | full | last
      · cases ended
      · exact positive full.symm
      · exact left last
    · rcases closed.done with feed | ⟨same, rfl⟩
      · exact .inl feed
      · rcases done st with feed | full | last
        · left
          rw [shows, getLast?_shown, List.append_nil, feed]
        · exact .inr (.inl (same.trans full))
        · exact .inr (.inr last)
    · have supplies := whole.supplies
      rw [← keeps_false] at supplies ⊢
      have reads := ready.reads whole.kin supplies (stay (d.keeps false) before (b ++ c)).length ?_ whole.pos
        (fun _ => rfl) f.errorString
      · rwa [moveCursor_eq]
      · intro stays
        rw [stays]
        rfl
  · rw [raw]
    refine ⟨?_, unsteady⟩
    have has' := along.supplies
    rw [stay_nil] at has'
    refine ready.stays along.kin has' ?_ _
    rw [along.pos, List.length_nil, Word.addWrapped_zero ready.pos]

private theorem lineSteps_delivers (ready : d.Ready before s) (short : before.length + s.length ≤ Word.maxValue)
    (possible : d.config.bufferSize < Word.requestLimit) (n : Nat) :
    d.Delivers before s n (d.EndsLine n) (d.lineSteps n) := by
  induction n using Nat.strongRecOn generalizing d before s with
  | ind n ih =>
    rw [lineSteps]
    split
    · next positive =>
      have fills := d.fills
      have step : 0 < min n d.config.bufferSize := by omega
      have small : min n d.config.bufferSize ≤ n := Nat.min_le_left ..
      dsimp only
      generalize min n d.config.bufferSize = k at step small
      have delivered := linePass_delivers ready short possible k
      generalize d.linePass k = result at delivered
      obtain ⟨failure | bytes, e⟩ := result
      · exact delivered
      · obtain ⟨raw, t, portion, ⟨one, done⟩, reads⟩ := delivered
        dsimp only
        split
        · next stops =>
          refine ⟨raw, t, portion.widen step n small, ⟨one, fun st => ?_⟩, reads⟩
          rcases done st with feed | full | last
          · exact .inl feed
          · exact .inl (stops.resolve_left (by omega))
          · exact .inr (.inr last)
        · next goes =>
          rw [not_or] at goes
          have fits := portion.fits
          have full : bytes.length = k := by omega
          have config : e.config = d.config := reads.kin.config
          have short' : (stay (d.keeps false) before raw).length + t.length ≤ Word.maxValue := by
            have := length_stay_le (d.keeps false) before raw
            rw [portion.split, List.length_append] at short
            omega
          have further := ih (n - k) (by omega) reads.ready short' (by rwa [config])
          generalize e.lineSteps (n - k) = result at further
          obtain ⟨failure | rest, f⟩ := result
          · obtain ⟨nothing, unsteady⟩ := further
            have reads' := reads.trans nothing
            rw [List.append_nil] at reads'
            exact ⟨raw, t, portion.widen step n small,
              ⟨one, fun st => absurd (reads.steady_iff.mpr st) unsteady⟩, reads'⟩
          · obtain ⟨raw', u, portion', ⟨one', done'⟩, reads'⟩ := further
            have joined := portion.append reads portion'
            rw [Nat.add_sub_cancel' small] at joined
            refine ⟨raw ++ raw', u, joined, ⟨.append (one.notMem goes.2) one', fun st => ?_⟩, reads.trans reads'⟩
            rcases done' (reads.steady_iff.mpr st) with feed | full' | last
            · left
              rw [List.getLast?_append, feed]
              rfl
            · right
              left
              rw [List.length_append]
              omega
            · exact .inr (.inr last)
    · next zero =>
      obtain rfl : n = 0 := by omega
      exact .none ready ⟨List.not_mem_nil, fun _ => .inr (.inl rfl)⟩

theorem readLine_delivers (ready : d.Ready before s) (able : d.readObstacle? = none)
    (short : before.length + s.length ≤ Word.maxValue) (possible : d.config.bufferSize < Word.requestLimit) (n : Nat) :
    d.Delivers before s (if n = 0 then Word.maxValue else n) (d.EndsLine (if n = 0 then Word.maxValue else n))
      ((d.readLine n).1.map Handle.content, (d.readLine n).2) := by
  rw [readLine, able]
  have delivered := lineSteps_delivers ready short possible (if n = 0 then Word.maxValue else n)
  dsimp only
  generalize d.lineSteps _ = result at delivered
  obtain ⟨failure | bytes, e⟩ := result
  · exact delivered
  · obtain ⟨raw, t, portion, ends, reads⟩ := delivered
    refine ⟨raw, t, ?_, ?_, reads⟩
    · rwa [Handle.content_ofList]
    · rwa [Handle.content_ofList]

theorem readLineInto_delivers (ready : d.Ready before s) (able : d.readObstacle? = none)
    (short : before.length + s.length ≤ Word.maxValue) (possible : d.config.bufferSize < Word.requestLimit) {room : Nat}
    (enough : 2 ≤ room) : d.Delivers before s (room - 1) (d.EndsLine (room - 1)) (d.readLineInto room) := by
  rw [readLineInto, able]
  dsimp only
  rw [if_neg (Nat.not_lt.mpr enough)]
  exact linePass_delivers ready short possible (room - 1)

end ByteFlow.Device
