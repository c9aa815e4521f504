import ByteFlow.Proofs.Device.PutBack

/-! When a byte that was put back is lost.
A device over memory that gives its read queue up reads again what stands in memory. It does so for a look
without buffering, and when it goes back from a later position, so that an aside that wants bytes in such a
way puts what stands there in the place of what was put back. -/
namespace ByteFlow.Device
open Medium

/-! Calls that want bytes -/

section
variable {σ : Type} [Medium σ] [Source σ] {d : Device σ} {s : List UInt8} {room : Nat} {done : List UInt8 → List UInt8 → Prop}

/-- Asked for a byte, a steady medium gives one if there is any. -/
private theorem Delivers.moves {result : Except Failure (List UInt8) × Device σ}
    (delivers : d.Delivers [] s room done result)
    (steady : Source.Steady d.medium) (some : room ≠ 0) (more : s ≠ []) :
    ∃ raw t, raw ≠ [] ∧ s = raw ++ t ∧ d.Reads result.2 [] raw t := by
  obtain ⟨failure | bytes, e⟩ := result
  · exact absurd steady delivers.2
  · obtain ⟨raw, t, portion, -, reads⟩ := delivers
    exact ⟨raw, t, portion.steady steady some more, portion.split, reads⟩

omit [Medium σ] [Source σ] in
/-- Going back gives the queue up. -/
private theorem moveTo_back {place : Nat} (behind : place < d.pos) : (d.moveTo place).readQueue.length = 0 := by
  rw [moveTo, if_neg (by omega), readQueue, Channels.queue_put]
  rfl

/-- Without a queue to keep it in, what a look saw is given up. -/
private theorem readPass_forgets (ready : d.Ready [] s) (gone : d.keeps true = false) (steady : Source.Steady d.medium)
    (possible : d.config.bufferSize < Word.requestLimit) {buffer : List UInt8} (some : buffer ≠ []) (more : s ≠ []) :
    (d.readPass true buffer).2.readQueue.length = 0 := by
  have random : d.sequential = false := by
    by_contra stream
    rw [keeps_of_sequential (by simpa using stream)] at gone
    cases gone
  rw [readPass]
  dsimp only
  rcases collect_closeLine_moves ready true buffer possible with
    ⟨p, e, q, f, raw, rest, t, collected, closed, portion, -, -, -, -, -, moved⟩ | ⟨err, e, -, -, unsteady⟩
  · have took := List.length_pos_of_ne_nil
      (portion.steady steady (Nat.ne_of_gt (List.length_pos_of_ne_nil some)) more)
    have pos := moved.pos
    rw [advanced, if_neg (by simp [random])] at pos
    rw [collected]
    dsimp only
    rw [closed]
    dsimp only
    rw [if_pos rfl, unread, if_neg (by simp [gone])]
    exact moveTo_back (by omega)
  · exact absurd steady unsteady

end

variable {d e : Device Medium.Memory} {k : Nat} {action : Action}

namespace Grounded

/-- What was taken lies before the position. -/
private theorem moved (grounded : Grounded d k) {raw t : List UInt8} (split : d.remaining = raw ++ t)
    (reads : d.Reads e [] raw t) :
    e.pos = d.pos + raw.length := by
  obtain ⟨reach, small⟩ := grounded.inside
  have := Word.maxValue_lt_modulus
  have length := congrArg List.length split
  rw [List.length_append] at length
  rw [reads.pos, Word.addWrapped_of_lt (by omega)]

private theorem wants (grounded : Grounded d k) (able : d.readObstacle? = none) (plain : d.isText = false)
    (reading : action.reads) (wants : action.wants = true) (takes : action.isLook = false) (more : d.remaining ≠ []) :
    d.pos < (d.perform action).2.pos := by
  have ready := grounded.ready
  have possible := grounded.possible
  have short := grounded.short
  have onward {raw t : List UInt8} {e : Device Medium.Memory}
      (took : raw ≠ [] ∧ d.remaining = raw ++ t ∧ d.Reads e [] raw t) : d.pos < e.pos := by
    have := List.length_pos_of_ne_nil took.1
    rw [grounded.moved took.2.1 took.2.2]
    omega
  cases action with
  | read n =>
    have some : 0 < n := by simpa [Action.wants] using wants
    obtain ⟨raw, t, took⟩ := (read_delivers ready able n possible).moves trivial (Nat.ne_of_gt some) more
    exact onward took
  | readAll =>
    have some := Nat.ne_of_gt (List.length_pos_of_ne_nil more)
    obtain ⟨raw, t, took⟩ := (readAll_delivers ready able (by simpa using short) possible).moves trivial some more
    exact onward took
  | readInto buffer =>
    have some : buffer ≠ [] := by simpa [Action.wants] using wants
    obtain ⟨raw, t, took⟩ := (readInto_delivers ready able buffer possible).moves trivial
      (Nat.ne_of_gt (List.length_pos_of_ne_nil some)) more
    exact onward took
  | readLine n =>
    have some : (if n = 0 then Word.maxValue else n) ≠ 0 := by
      split
      · decide
      · assumption
    obtain ⟨raw, t, took⟩ := (readLine_delivers ready able short possible n).moves trivial some more
    exact onward took
  | readLineInto room =>
    have enough : 2 ≤ room := by simpa [Action.wants] using wants
    obtain ⟨raw, t, took⟩ := (readLineInto_delivers ready able short possible enough).moves trivial (by omega) more
    exact onward took
  | skip n =>
    have some : 0 < n := by simpa [Action.wants] using wants
    obtain ⟨e, skipped, reads⟩ := skip_eq ready able grounded.random plain n
    have took : d.remaining.take n ≠ [] := by
      rw [ne_eq, List.take_eq_nil_iff, not_or]
      exact ⟨Nat.ne_of_gt some, more⟩
    have goes := onward ⟨took, (List.take_append_drop n _).symm, reads⟩
    rwa [perform, answer, skipped]
  | getByte =>
    obtain ⟨raw, t, took⟩ := (getByte_delivers ready able possible).moves trivial Nat.one_ne_zero more
    exact onward took
  | peek n => cases takes
  | peekInto buffer => cases takes
  | _ => exact absurd reading not_false

private theorem forgets (grounded : Grounded d k) (able : d.readObstacle? = none) (direct : d.isBuffered = false)
    (wants : action.wants = true) (look : action.isLook = true) (more : d.remaining ≠ []) :
    (d.perform action).2.readQueue.length = 0 := by
  have gone : d.keeps true = false := by
    rw [keeps, if_neg (by simp [grounded.random]), direct]
    rfl
  have forgets {buffer : List UInt8} (some : buffer ≠ []) : (d.readPass true buffer).2.readQueue.length = 0 :=
    readPass_forgets grounded.ready gone trivial grounded.possible some more
  cases action with
  | peek n =>
    have some : 0 < n := by simpa [Action.wants] using wants
    have room : List.replicate (min n (max d.bytesAvailable d.config.bufferSize)) (0 : UInt8) ≠ [] := by
      have := d.fills
      rw [ne_eq, List.replicate_eq_nil_iff]
      omega
    have none := forgets room
    rw [perform, answer, peek, able]
    dsimp only
    generalize d.readPass true (List.replicate (min n (max d.bytesAvailable d.config.bufferSize)) 0) = result at none
    obtain ⟨failure | bytes, e⟩ := result
    · exact none
    · exact none
  | peekInto buffer =>
    have some : buffer ≠ [] := by simpa [Action.wants] using wants
    rw [perform, answer, peekInto, able]
    exact forgets some
  | _ => cases look

private theorem pos_le (grounded : Grounded d k) (reading : action.reads) : d.pos ≤ (d.perform action).2.pos := by
  rcases perform_draws grounded.ready grounded.short grounded.possible reading with
    ⟨raw, t, split, reads, -⟩ | ⟨raw, t, looks, -⟩
  · rw [grounded.moved split reads]
    exact Nat.le_add_right ..
  · have stays := looks.reads.pos
    rw [List.length_nil, Word.addWrapped_zero grounded.ready.pos] at stays
    exact Nat.le_of_eq stays.symm

/-- A call by which the device gives its queue up moves on, or leaves nothing that was put back. -/
private theorem loses (grounded : Grounded d k) (able : d.readObstacle? = none) (plain : d.isText = false)
    (reading : action.reads)
    (gives : (action.wants && (!d.isBuffered || !action.isLook)) = true) (more : d.remaining ≠ []) :
    d.pos < (d.perform action).2.pos ∨ (d.perform action).2.readQueue.length = 0 := by
  rw [Bool.and_eq_true] at gives
  obtain ⟨wants, gives⟩ := gives
  cases look : action.isLook with
  | false => exact .inl (grounded.wants able plain reading wants look more)
  | true =>
    have direct : d.isBuffered = false := by simpa [look] using gives
    exact .inr (grounded.forgets able direct wants look more)

/-- As long as the device is not past the end there is more to come. -/
private theorem remaining_ne_nil (grounded : Grounded d k) (inside : d.pos < d.medium.data.content.length) :
    d.remaining ≠ [] := by
  obtain ⟨reach, -⟩ := grounded.inside
  rintro none
  rw [none, List.length_nil] at reach
  omega

end Grounded

/-! Asides -/

/-- Of what was put back at `start` nothing is left before what stands there: it is gone, or passed. -/
def Lost (d : Device Medium.Memory) (start k : Nat) : Prop := k = 0 ∨ start < d.pos

namespace Grounded

variable {start : Nat}

/-- A reading call puts nothing back, and what it gives up is lost. -/
private theorem step (grounded : Grounded d k) (able : d.readObstacle? = none) (plain : d.isText = false)
    (reading : action.reads)
    (onward : start ≤ d.pos) (inside : start < d.medium.data.content.length) :
    ∃ j ≤ k, Grounded (d.perform action).2 j ∧
      ((action.wants && (!d.isBuffered || !action.isLook)) = true ∨ d.Lost start k → (d.perform action).2.Lost start j) := by
  obtain ⟨-, next⟩ := grounded.draws reading
  have later := grounded.pos_le reading
  refine ⟨_, Nat.le_trans (Nat.min_le_left ..) (Nat.sub_le ..), next.capped, ?_⟩
  rintro (gives | none | passed)
  · by_cases past : start < d.pos
    · exact .inr (Nat.lt_of_lt_of_le past later)
    · rcases grounded.loses able plain reading gives (grounded.remaining_ne_nil (by omega)) with moved | empty
      · exact .inr (by omega)
      · exact .inl (by rw [empty, Nat.min_zero])
  · exact .inl (by rw [none, Nat.zero_sub, Nat.zero_min])
  · exact .inr (Nat.lt_of_lt_of_le passed later)

private theorem steps (grounded : Grounded d k) (able : d.readObstacle? = none) (plain : d.isText = false)
    {actions : List Action}
    (reading : ∀ action ∈ actions, action.reads) (onward : start ≤ d.pos) (inside : start < d.medium.data.content.length) :
    ∃ j ≤ k, Grounded (d.performAll actions).2 j ∧ d.Kin (d.performAll actions).2 ∧ start ≤ (d.performAll actions).2.pos ∧
      ((Aside.attempt actions).givesUp d.isBuffered = true ∨ d.Lost start k → (d.performAll actions).2.Lost start j) := by
  induction actions generalizing d k with
  | nil => exact ⟨k, Nat.le_refl k, grounded, .refl d, onward, fun lost => lost.resolve_left Bool.false_ne_true⟩
  | cons action rest ih =>
    have reads := reading action List.mem_cons_self
    obtain ⟨i, fewer, next, lost⟩ := grounded.step able plain reads onward inside
    obtain ⟨kin, -⟩ := grounded.draws reads
    have data : (d.perform action).2.medium.data = d.medium.data := kin.medium.1
    obtain ⟨j, fewer', final, kin', onward', lost'⟩ := ih next (kin.readObstacle?.trans able) (kin.isText.trans plain)
      (fun other member => reading other (List.mem_cons_of_mem _ member)) (Nat.le_trans onward (grounded.pos_le reads))
      (by rwa [data])
    refine ⟨j, Nat.le_trans fewer' fewer, final, kin.trans kin', onward', fun gives => lost' ?_⟩
    rw [kin.isBuffered]
    rw [Aside.givesUp, List.any_cons, Bool.or_eq_true, or_assoc] at gives
    rcases gives with here | later | before
    · exact .inr (lost (.inl here))
    · exact .inl later
    · exact .inr (lost (.inr before))

/-- An aside leaves the device where it was, with nothing put back left if it gave the queue up. -/
private theorem passes (grounded : Grounded d k) (able : d.readObstacle? = none) (plain : d.isText = false)
    (idle : d.transaction = .idle) (inside : d.pos < d.medium.data.content.length) {aside : Aside} (proper : aside.proper) :
    ∃ j ≤ k, Grounded (d.passBy aside) j ∧ d.Kin (d.passBy aside) ∧ (d.passBy aside).pos = d.pos ∧
      (aside.givesUp d.isBuffered = true → j = 0) := by
  cases aside with
  | look action =>
    obtain ⟨word, -⟩ := grounded.inside
    obtain ⟨kin, -⟩ := grounded.draws (reads_of_looks proper)
    have stays : (d.perform action).2.pos = d.pos := look_pos grounded.ready.pos proper
    obtain ⟨j, fewer, next, lost⟩ := grounded.step able plain (reads_of_looks proper) (Nat.le_refl d.pos) inside
    refine ⟨j, fewer, next, kin, stays, fun gives => ?_⟩
    rw [action.isLook_iff.mpr proper, Bool.not_true, Bool.or_false, Bool.and_comm] at lost
    exact (lost (.inl gives)).resolve_right (by rw [stays]; exact Nat.lt_irrefl d.pos)
  | attempt actions =>
    rw [passBy, startTransaction_eq able idle, if_neg (by simp [grounded.random])]
    have begun : Grounded { d with transaction := .onRandomAccess d.pos } k := by
      refine grounded.transacts rfl ?_
      rintro place ⟨⟩
      exact Nat.le_of_lt inside
    obtain ⟨j, fewer, next, kin, onward, lost⟩ := begun.steps able plain proper (Nat.le_refl d.pos) inside
    dsimp only
    generalize (performAll { d with transaction := .onRandomAccess d.pos } actions).2 = e at *
    have data : e.medium.data = d.medium.data := kin.medium.1
    have started : e.transaction = .onRandomAccess d.pos := kin.transaction
    obtain ⟨kin', back⟩ := next.moveTo d.pos (by rw [data]; exact Nat.le_of_lt inside)
    have whole := kin.trans kin'
    rw [Device.rollback, started]
    refine ⟨_, Nat.le_trans (Nat.min_le_left ..) (Nat.le_trans (Nat.sub_le ..) fewer), back.finish.capped,
      ⟨whole.sequential, whole.mode, whole.config, whole.reading, whole.writing, idle.symm, whole.outside, whole.medium⟩,
      rfl, fun gives => ?_⟩
    rcases lost (.inl gives) with none | passed
    · rw [none, Nat.zero_sub, Nat.zero_min]
    · rw [show ({ e.moveTo d.pos with transaction := .idle } : Device Medium.Memory).readQueue.length = 0 from
        moveTo_back passed, Nat.min_zero]

private theorem passesAll (grounded : Grounded d k) (able : d.readObstacle? = none) (plain : d.isText = false)
    (idle : d.transaction = .idle) (inside : d.pos < d.medium.data.content.length) {asides : List Aside}
    (proper : ∀ aside ∈ asides, aside.proper) :
    ∃ j, Grounded (d.passAll asides) j ∧ d.Kin (d.passAll asides) ∧ (d.passAll asides).pos = d.pos ∧
      (asides.any (·.givesUp d.isBuffered) = true ∨ k = 0 → j = 0) := by
  induction asides generalizing d k with
  | nil => exact ⟨k, grounded, .refl d, rfl, fun gives => gives.resolve_left Bool.false_ne_true⟩
  | cons aside rest ih =>
    obtain ⟨i, fewer, next, kin, stays, lost⟩ := grounded.passes able plain idle inside (proper aside List.mem_cons_self)
    have data : (d.passBy aside).medium.data = d.medium.data := kin.medium.1
    obtain ⟨j, final, kin', stays', lost'⟩ := ih next (kin.readObstacle?.trans able) (kin.isText.trans plain)
      (kin.transaction.trans idle) (by rwa [stays, data]) fun other member => proper other (List.mem_cons_of_mem _ member)
    refine ⟨j, final, kin.trans kin', stays'.trans stays, fun gives => lost' ?_⟩
    rw [kin.isBuffered]
    rw [List.any_cons, Bool.or_eq_true, or_assoc] at gives
    rcases gives with here | later | none
    · exact .inr (lost here)
    · exact .inl later
    · exact .inr (Nat.le_zero.mp (none ▸ fewer))

/-- With nothing put back the byte that stands at the position is read. -/
private theorem getByte (grounded : Grounded d 0) (able : d.readObstacle? = none) (plain : d.isText = false) :
    d.getByte.1 = .ok d.medium.data.content[d.pos]? := by
  have delivers := getByte_delivers grounded.ready able grounded.possible
  have stands : d.remaining = d.medium.data.content.drop d.pos := grounded.stands grounded.random
  generalize d.getByte = result at delivers
  obtain ⟨failure | byte, e⟩ := result
  · exact absurd trivial delivers.2
  · obtain ⟨raw, t, portion, fills, -⟩ := delivers
    have bytes := portion.eq_take fills trivial
    rw [plain, stands] at bytes
    have same : byte.toList = d.medium.data.content[d.pos]?.toList := by
      rw [bytes, shown, if_neg Bool.false_ne_true, List.take_one, List.head?_drop]
    exact congrArg Except.ok (by simpa using congrArg List.head? same)

end Grounded

/-! The byte that was put back -/

private theorem Grounded.put_back_given_up (grounded : Grounded d k) (able : d.readObstacle? = none)
    (plain : d.isText = false)
    {b : UInt8} (put : d.ungetByte b = (.ok (), e)) {asides : List Aside} (proper : ∀ aside ∈ asides, aside.proper)
    (gives : asides.any (·.givesUp e.isBuffered) = true) :
    (e.passAll asides).getByte.1 = .ok e.medium.data.content[e.pos]? := by
  obtain ⟨queued, has⟩ := grounded.supplies
  obtain ⟨offers, idle, same⟩ := ungetByte_offers able plain has.wellFormed put
  have next : Grounded e (k + 1) := by
    rcases grounded.ungetByte b with ⟨failure, s, refused⟩ | ⟨e', done, next⟩
    · rw [put] at refused
      cases (Prod.mk.inj refused).1
    · rw [put] at done
      rwa [(Prod.mk.inj done).2]
  have inside : e.pos < e.medium.data.content.length := by
    obtain ⟨reach, -⟩ := next.inside
    have some : 0 < e.remaining.length := by
      rw [remaining, List.length_append]
      exact Nat.lt_of_lt_of_le offers.first.length_le (Nat.le_add_right ..)
    omega
  have idle' : e.transaction = .idle := by rw [same]; exact idle
  obtain ⟨j, final, kin, stays, lost⟩ := next.passesAll offers.able offers.plain idle' inside proper
  rw [lost (.inl gives)] at final
  have data : (e.passAll asides).medium.data = e.medium.data := kin.medium.1
  rw [final.getByte (kin.readObstacle?.trans offers.able) (kin.isText.trans offers.plain), stays, data]

/-- A byte that was put back is the next one read from a pipe, whatever looks and rolled-back transactions come
between. Over memory it is so as long as no aside gives the queue up, that is as no look wants bytes without
buffering and no call in a transaction does but by a buffered look. When one does, what is read next is the byte
that stands at the position. -/
theorem put_back_comes_next (b : UInt8) (asides : List Aside) (proper : ∀ aside ∈ asides, aside.proper) :
    (∀ d e : Device Pipe, d.sequential = true → d.readQueue.WellFormed → d.readObstacle? = none → d.isText = false →
      d.ungetByte b = (.ok (), e) → (e.passAll asides).getByte.1 = .ok (some b)) ∧
    (∀ d e : Device Medium.Memory, d.sequential = false → d.pos < Word.modulus → d.readQueue.WellFormed →
      d.readObstacle? = none → d.isText = false → d.ungetByte b = (.ok (), e) →
      asides.any (·.givesUp e.isBuffered) = false → (e.passAll asides).getByte.1 = .ok (some b)) ∧
    ∀ (d e : Device Medium.Memory) (k : Nat), InUse d k → d.readObstacle? = none → d.isText = false →
      d.ungetByte b = (.ok (), e) → asides.any (·.givesUp e.isBuffered) = true →
      (e.passAll asides).getByte.1 = .ok e.medium.data.content[e.pos]? := by
  refine ⟨?_, ?_, ?_⟩
  · intro d e stream wf able plain put
    obtain ⟨offers, idle, rfl⟩ := ungetByte_offers able plain wf put
    obtain ⟨offers', idle'⟩ := offers.passAllStream stream idle proper
    exact offers'.getByte idle'
  · intro d e random word wf able plain put keeps
    obtain ⟨offers, idle, rfl⟩ := ungetByte_offers able plain wf put
    have inside : d.pos - 1 < Word.modulus := (Nat.sub_le d.pos 1).trans_lt word
    rw [List.any_eq_false] at keeps
    obtain ⟨offers', idle'⟩ := offers.passAllRandom random inside idle proper
      fun aside member => Bool.eq_false_iff.mpr (keeps aside member)
    exact offers'.getByte idle'
  · intro d e k inUse able plain put gives
    exact inUse.grounded.put_back_given_up able plain put proper gives

/-- Letters in memory, with or without buffering. -/
def lettersHeld (unbuffered : Bool) : Device Medium.Memory :=
  ((ofMedium (Medium.Memory.ofHandle (Handle.ofFixed [] [97, 98, 99])) ⟨4, 1, 0, false⟩).openWith
    (.forReading false false unbuffered)).2

/-- The first of the letters is read. -/
def letterRead (unbuffered : Bool) : Device Medium.Memory := ((lettersHeld unbuffered).performAll [.getByte]).2

private theorem letterRead_inUse (unbuffered : Bool) : InUse (letterRead unbuffered) 0 := by
  have opened : InUse (lettersHeld unbuffered) 0 :=
    .opened (d := ofMedium (Medium.Memory.ofHandle (Handle.ofFixed [] [97, 98, 99])) ⟨4, 1, 0, false⟩)
      (.forReading false false unbuffered) rfl (show 4 < Word.requestLimit by decide) rfl
      (show 3 ≤ Word.maxValue by decide)
  have stays : (lettersHeld unbuffered).StaysInUse [.getByte] := by cases unbuffered <;> decide +kernel
  have none : (lettersHeld unbuffered).pushedBackAll 0 [.getByte] = 0 := by cases unbuffered <;> decide +kernel
  have inUse := opened.performAll [.getByte] stays
  rwa [none] at inUse

/-- Letters are piped, and the first of them read. -/
def letterPiped : List Event :=
  [.remote (.feed [] 0 (Handle.ofFixed [] [97, 98, 99])), .call (.openWith .readOnly), .call .getByte]

theorem put_back_comes_next_letter :
    ((((ofMedium Pipe.empty ⟨4, 1, 0, false⟩).afterAll letterPiped).ungetByte 122).2.passAll
      [.look (.peek 2), .attempt [.read 2, .readLine 0]]).getByte.1 = .ok (some 122) ∧
    (((letterRead false).ungetByte 122).2.passAll [.look (.peek 2), .attempt [.peek 1]]).getByte.1 = .ok (some 122) ∧
    (((letterRead true).ungetByte 122).2.passAll [.attempt [], .look (.peek 1)]).getByte.1 = .ok (some 97) := by
  refine ⟨?_, ?_, ?_⟩
  · obtain ⟨pipe, -⟩ := put_back_comes_next 122 [.look (.peek 2), .attempt [.read 2, .readLine 0]]
      (by simp [Aside.proper, Action.looks, Action.reads])
    have started : Reached ⟨4, 1, 0, false⟩ (ofMedium Pipe.empty ⟨4, 1, 0, false⟩) := .fresh
    have orderly := (started.afterAll letterPiped (by decide +kernel)).orderly (by decide)
    apply pipe _ _ orderly.sequential orderly.wellFormed (by decide +kernel) (by decide +kernel)
    exact ungetByte_ok (by decide +kernel) (by decide +kernel) (by decide +kernel) 122
  · obtain ⟨-, memory, -⟩ := put_back_comes_next 122 [.look (.peek 2), .attempt [.peek 1]]
      (by simp [Aside.proper, Action.looks, Action.reads])
    obtain ⟨queued, has⟩ := (letterRead_inUse false).grounded.supplies
    apply memory _ _ (letterRead_inUse false).grounded.random (by decide +kernel) has.wellFormed (by decide +kernel)
      (by decide +kernel) ?_ (by decide +kernel)
    exact ungetByte_ok (by decide +kernel) (by decide +kernel) (by decide +kernel) 122
  · obtain ⟨-, -, gone⟩ := put_back_comes_next 122 [.attempt [], .look (.peek 1)]
      (by simp [Aside.proper, Action.looks])
    have stood : ((letterRead true).ungetByte 122).2.medium.data.content[((letterRead true).ungetByte 122).2.pos]? =
        some 97 := by decide +kernel
    rw [← stood]
    apply gone _ _ 0 (letterRead_inUse true) (by decide +kernel) (by decide +kernel) ?_ (by decide +kernel)
    exact ungetByte_ok (by decide +kernel) (by decide +kernel) (by decide +kernel) 122

/-- Put back before the first letter, a byte is not read next: without buffering a look for one byte loses it,
and with buffering a letter read in a transaction that is rolled back. -/
theorem put_back_lost :
    (∀ unbuffered, (letterRead unbuffered).readObstacle? = none ∧ (letterRead unbuffered).isText = false ∧
      (letterRead unbuffered).inTransaction = false ∧ (letterRead unbuffered).pos = 1 ∧
      ((letterRead unbuffered).ungetByte 122).1.isOk = true) ∧
    (((letterRead true).ungetByte 122).2.passAll [.look (.peek 1)]).getByte.1.toOption = some (some 97) ∧
    (((letterRead false).ungetByte 122).2.passAll [.attempt [.getByte]]).getByte.1.toOption = some (some 97) ∧
    ¬ ∀ (d e : Device Medium.Memory) (b : UInt8) (asides : List Aside), InUse d 0 → d.readObstacle? = none →
      d.isText = false → 1 ≤ d.pos → d.ungetByte b = (.ok (), e) → (∀ aside ∈ asides, aside.proper) →
      (e.passAll asides).getByte.1.toOption = some (some b) := by
  have lost : (((letterRead true).ungetByte 122).2.passAll [.look (.peek 1)]).getByte.1.toOption = some (some 97) := by
    decide +kernel
  refine ⟨by decide +kernel, lost, by decide +kernel, fun always => ?_⟩
  have next := always (letterRead true) _ 122 [.look (.peek 1)] (letterRead_inUse true) (by decide +kernel)
    (by decide +kernel) (by decide +kernel) (ungetByte_ok (by decide +kernel) (by decide +kernel) (by decide +kernel) 122)
    (by simp [Aside.proper, Action.looks])
  rw [lost] at next
  cases next

end ByteFlow.Device
