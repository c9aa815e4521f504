import ByteFlow.Proofs.ChunkQueue.Bounds
import ByteFlow.Proofs.Device.Harmless

/-! The parts of a call that index, slice or take differences, with each of these granted or refused.
Over a medium that delivers no more than it is asked for nothing is ever refused, whatever state a call has
come to: what bounds a step is decided where the step is taken. -/
namespace ByteFlow.Device
open Medium ChunkQueue

variable {σ : Type}

/-! Passes -/

namespace Pass

/-- Puts bytes behind what was read, unless they do not fit in. -/
def accept? (p : Pass) (bytes : List UInt8) : Option Pass :=
  (slice? p.spare bytes.length p.spare.length).map fun rest =>
    { p with filled := p.filled ++ bytes, spare := rest, consumed := p.consumed + bytes.length }

def overlay? (p : Pass) (bytes : List UInt8) (n : Nat) : Option Pass := do
  let spare := bytes ++ (← slice? p.spare bytes.length p.spare.length)
  accept? { p with spare := spare } (← slice? spare 0 n)

/-- The last byte of those read, if there is any. -/
def last? (p : Pass) : Option (Option UInt8) :=
  if p.filled.isEmpty then some none else do return some (← p.filled[← minus? p.filled.length 1]?)

/-- Drops carriage returns among the bytes that are not decided, of which there is one. -/
def strip? (p : Pass) : Option Pass := do
  let (buffer, stop) := Newline.stripInPlace (p.filled ++ p.spare).toArray p.decided p.filled.length
  let p := { p with filled := ← slice? buffer.toList 0 stop, spare := ← slice? buffer.toList stop buffer.size }
  let place ← minus? stop 1
  let last ← p.filled[place]?
  return { p with decided := if last = Byte.carriageReturn then place else stop }

variable {p : Pass}

theorem accept?_eq {bytes : List UInt8} (fits : bytes.length ≤ p.spare.length) : p.accept? bytes = some (p.accept bytes) := by
  rw [accept?, slice?_of_le fits (Nat.le_refl _), List.take_length]
  rfl

private theorem overlay?_eq {bytes : List UInt8} {n : Nat} (fits : bytes.length ≤ p.spare.length)
    (few : n ≤ p.spare.length) :
    p.overlay? bytes n = some (p.overlay bytes n) := by
  have length : (bytes ++ p.spare.drop bytes.length).length = p.spare.length := by
    rw [List.length_append, List.length_drop]
    omega
  have cut : slice? p.spare bytes.length p.spare.length = some (p.spare.drop bytes.length) := by
    rw [slice?_of_le fits (Nat.le_refl _), List.take_length]
  have taken : slice? (bytes ++ p.spare.drop bytes.length) 0 n = some ((bytes ++ p.spare.drop bytes.length).take n) := by
    rw [slice?_of_le (Nat.zero_le n) (length ▸ few), List.drop_zero]
  rw [overlay?, cut]
  dsimp only [Option.bind_eq_bind, Option.bind_some]
  rw [taken]
  dsimp only [Option.bind_some]
  rw [accept?_eq (by rw [List.length_take]; exact Nat.min_le_right _ _)]
  rfl

theorem last?_eq (p : Pass) : p.last? = some p.filled.getLast? := by
  rw [last?]
  split
  · next none => rw [List.isEmpty_iff.mp none]; rfl
  · next some =>
    have some : p.filled ≠ [] := by simpa using some
    have positive := List.length_pos_of_ne_nil some
    rw [minus?_of_le positive]
    dsimp only [Option.bind_eq_bind, Option.bind_some]
    rw [List.getElem?_eq_getElem (by omega), List.getLast?_eq_getElem?, List.getElem?_eq_getElem (by omega)]
    rfl

theorem strip?_eq (undecided : p.decided < p.filled.length) : p.strip? = some p.strip := by
  obtain ⟨size, stop_eq, -⟩ := Newline.stripInPlace_spec (p.filled ++ p.spare).toArray p.decided p.filled.length
    (Nat.le_of_lt undecided) (by simp)
  rw [List.toList_toArray, List.take_left] at stop_eq
  rw [strip?, strip]
  generalize Newline.stripInPlace (p.filled ++ p.spare).toArray p.decided p.filled.length = result at *
  obtain ⟨buffer, stop⟩ := result
  dsimp only at size stop_eq ⊢
  -- Of the bytes that are not decided at least the last one stays.
  have left : Newline.normalize (p.filled.drop p.decided) ≠ [] := fun none => by
    have gone := congrArg List.length ((Newline.normalize_eq_nil_iff _).mp none)
    rw [List.length_drop, List.length_nil] at gone
    omega
  have positive := List.length_pos_of_ne_nil left
  have shorter := Newline.length_normalize_le (p.filled.drop p.decided)
  have size : buffer.size = (p.filled ++ p.spare).length := size
  rw [List.length_append] at size
  rw [List.length_drop] at shorter
  have inside : stop ≤ buffer.toList.length := by
    rw [Array.length_toList]
    omega
  have length : (buffer.toList.take stop).length = stop := by rw [List.length_take, Nat.min_eq_left inside]
  have final : (buffer.toList.take stop)[stop - 1]? = (buffer.toList.take stop).getLast? := by
    rw [List.getLast?_eq_getElem?, length]
  rw [slice?_of_le (Nat.zero_le stop) inside, ← Array.length_toList, slice?_of_le inside (Nat.le_refl _),
    minus?_of_le (by omega), List.take_length, List.drop_zero]
  dsimp only [Option.bind_eq_bind, Option.bind_some, Option.pure_def]
  rw [final, endsOpen]
  cases last : (buffer.toList.take stop).getLast? with
  | none =>
    have none := List.getLast?_eq_none_iff.mp last
    rw [none, List.length_nil] at length
    omega
  | some b => simp only [Option.bind_some, Option.some_beq_some, beq_iff_eq]

end Pass

variable [Medium σ]

/-- A fill that drops what did not come of what was reserved. -/
def fill? (d : Device σ) (chunk : Nat) : Option (Except IoError Nat × Device σ) :=
  let held := d.heldBesideReading d.reading.current
  match d.readQueue.reserve? held chunk with
  | none => some (.ok 0, d)
  | some q =>
    match Medium.read d.heldBesideMedium d.medium chunk with
    | (.error e, m) => some (.error e, { d with medium := m, reading := d.reading.put (q.chop chunk) })
    | (.ok delivery, m) => do
      let got := min delivery.count chunk
      let slot := delivery.bytes ++ (q.slot chunk).drop delivery.bytes.length
      let q := (q.fill held slot).chop (← minus? chunk got)
      return (.ok got, follow { d with medium := m, reading := d.reading.put q } got)

theorem fill?_eq (d : Device σ) (chunk : Nat) : d.fill? chunk = some (d.fill chunk) := by
  rw [fill?, fill]
  dsimp only
  cases d.readQueue.reserve? (d.heldBesideReading d.reading.current) chunk with
  | none => rfl
  | some q =>
    dsimp only
    generalize Medium.read d.heldBesideMedium d.medium chunk = result
    obtain ⟨failure | delivery, m⟩ := result
    · rfl
    · dsimp only
      rw [minus?_of_le (Nat.min_le_right _ chunk)]
      rfl

/-- A move that drops the queued bytes before the place. -/
def moveTo? (d : Device σ) (place : Nat) : Option (Device σ) :=
  if d.pos ≤ place ∧ place - d.pos < d.readQueue.length then
    (minus? place d.pos).map fun n => { d with reading := d.reading.put (d.readQueue.free n), pos := place }
  else some { d with reading := d.reading.put d.readQueue.clear, pos := place }

omit [Medium σ] in
theorem moveTo?_eq (d : Device σ) (place : Nat) : d.moveTo? place = some (d.moveTo place) := by
  rw [moveTo?, moveTo]
  split
  · next inside =>
    rw [minus?_of_le inside.1]
    rfl
  · rfl

/-- Takes queued bytes into what is left of the buffer. -/
def takeQueued? (d : Device σ) (keep : Bool) (p : Pass) : Option (Pass × Device σ) :=
  if keep then do
    let bytes := d.readQueue.peek p.spare.length p.offset
    return ({ ← p.accept? bytes with offset := p.offset + bytes.length }, d.advance bytes.length)
  else do
    let (bytes, q) := d.readQueue.read p.spare.length
    return (← p.accept? bytes, advance { d with reading := d.reading.put q } bytes.length)

omit [Medium σ] in
theorem takeQueued?_eq (d : Device σ) (keep : Bool) (p : Pass) : d.takeQueued? keep p = some (d.takeQueued keep p) := by
  rw [takeQueued?, takeQueued]
  split
  · have fits : (d.readQueue.peek p.spare.length p.offset).length ≤ p.spare.length := by
      rw [peek_eq]
      exact List.length_take_le ..
    dsimp only
    rw [Pass.accept?_eq fits]
    rfl
  · have fits := d.readQueue.length_read_le p.spare.length
    dsimp only
    rw [Pass.accept?_eq fits]
    rfl

/-- Asks the medium for what is left of the buffer, or for a fill. -/
def refill? (d : Device σ) (keep : Bool) (p : Pass) : Option (Except IoError (Nat × Pass) × Device σ) :=
  match d.sync with
  | (.error e, d) => some (.error e, d)
  | (.ok (), d) =>
    let want := p.spare.length
    if (!d.isBuffered || d.config.bufferSize ≤ want) && !keep then
      match Medium.read d.heldBesideMedium d.medium want with
      | (.error e, m) => some (.error e, { d with medium := m })
      | (.ok delivery, m) => do
        let got := min delivery.count want
        return (.ok (got, { ← p.overlay? delivery.bytes got with atEnd := got < want }),
          (follow { d with medium := m } got).advance got)
    else do
      let chunk := if d.isBuffered then d.config.bufferSize else min want d.config.bufferSize
      match ← d.fill? chunk with
      | (.error e, d) => return (.error e, d)
      | (.ok got, d) => return (.ok (got, { p with atEnd := got < chunk }), d)

theorem refill?_eq [Faultless σ] (d : Device σ) (keep : Bool) (p : Pass) : d.refill? keep p = some (d.refill keep p) := by
  rw [refill?, refill]
  generalize d.sync = result
  obtain ⟨failure | done, e⟩ := result
  · rfl
  · dsimp only
    by_cases direct : ((!e.isBuffered || decide (e.config.bufferSize ≤ p.spare.length)) && !keep) = true
    · obtain ⟨bytes, m, read, few⟩ := Faultless.read_ok e.heldBesideMedium e.medium p.spare.length
      rw [if_pos direct, if_pos direct, read]
      dsimp only
      rw [Pass.overlay?_eq few (Nat.min_le_right _ _)]
      rfl
    · rw [if_neg direct, if_neg direct, fill?_eq]
      dsimp only [Option.bind_eq_bind, Option.bind_some]
      generalize e.fill (if e.isBuffered then e.config.bufferSize else min p.spare.length e.config.bufferSize) = result
      obtain ⟨failure | got, f⟩ := result
      · rfl
      · rfl

/-! Lines -/

/-- Takes queued bytes up to a line feed into a buffer with `room` for more. -/
def takeLine? (d : Device σ) (keep : Bool) (room place : Nat) : Option (List UInt8 × Nat × Device σ) := do
  let take ← match d.readQueue.indexOf Byte.lineFeed room place with
    | some i => (minus? i place).map (· + 1)
    | none => some room
  let _spare ← minus? room take
  let bytes := d.readQueue.peek take place
  let d := { d with pos := Word.addWrapped d.pos bytes.length }
  if keep then return (bytes, place + bytes.length, d)
  else return (bytes, place, { d with reading := d.reading.put (d.readQueue.free bytes.length) })

/-- A search ends inside the window it is given. -/
private theorem indexOf_window {q : ChunkQueue} {b : UInt8} {room place i : Nat}
    (found : q.indexOf b room place = some i) :
    place ≤ i ∧ i - place < room := by
  rw [indexOf, findFrom_eq, Option.map_eq_some_iff] at found
  obtain ⟨j, hit, rfl⟩ := found
  have inside := (List.findIdx?_eq_some_iff_getElem.mp hit).1
  rw [List.length_drop, List.length_take, Word.addClamped] at inside
  omega

omit [Medium σ] in
theorem takeLine?_eq (d : Device σ) (keep : Bool) (room place : Nat) :
    d.takeLine? keep room place = some (d.takeLine keep room place) := by
  rw [takeLine?, takeLine]
  cases found : d.readQueue.indexOf Byte.lineFeed room place with
  | none =>
    dsimp only [Option.bind_eq_bind, Option.bind_some]
    rw [minus?_of_le (Nat.le_refl room)]
    cases keep <;> rfl
  | some i =>
    obtain ⟨behind, within⟩ := indexOf_window found
    dsimp only
    rw [minus?_of_le behind]
    dsimp only [Option.bind_eq_bind, Option.bind_some, Option.map_some]
    rw [minus?_of_le within]
    cases keep <;> rfl

/-! Other calls -/

/-- Puts a byte back; only a stream may already be at its beginning. -/
def ungetByte? (d : Device σ) (b : UInt8) : Option (Except Failure Unit × Device σ) :=
  match d.readObstacle? with
  | some kind => some (d.refuse kind "unget_char")
  | none =>
    if d.inTransaction then some (d.refuse .transactionActive "unget_char")
    else if !d.sequential && d.pos == 0 then some (d.refuse .invalidPosition "unget_char")
    else do
      let pos ← if d.sequential then some (d.pos - 1) else minus? d.pos 1
      let q := d.readQueue.unget (d.heldBesideReading d.reading.current) b
      return (.ok (), { d with reading := d.reading.put q, pos := pos })

theorem ungetByte?_eq (d : Device σ) (b : UInt8) : d.ungetByte? b = some (d.ungetByte b) := by
  rw [ungetByte?, ungetByte]
  cases d.readObstacle? with
  | some kind => rfl
  | none =>
    dsimp only
    split
    · rfl
    · split
      · rfl
      · next inside =>
        cases stream : d.sequential with
        | true => rfl
        | false =>
          have positive : 1 ≤ d.pos := by
            rw [stream] at inside
            simp only [Bool.not_false, Bool.true_and, beq_iff_eq] at inside
            omega
          rw [minus?_of_le positive]
          rfl

/-- Discards queued bytes, and then reads or moves past the others. -/
def skip? (d : Device σ) (n : Nat) : Option (Except Failure Nat × Device σ) :=
  match d.readObstacle? with
  | some kind => some (d.refuse kind "skip")
  | none =>
    if n = 0 then some (.ok 0, d)
    else if d.isText || (d.sequential && d.inTransaction) then some (d.skipByReading n)
    else
      let (queued, q) := d.readQueue.skip n
      let after := { d with reading := d.reading.put q, pos := Word.addWrapped d.pos queued }
      if queued = n then some (.ok n, after)
      else do
        let rest ← minus? n queued
        if !d.sequential then
          let stop := max (Medium.size d.medium) after.pos
          let target := min (Word.addClamped after.pos rest) stop
          return (.ok (queued + (← minus? target after.pos)), { after with pos := target })
        else
          match after.skipByReading rest with
          | (.ok more, d) => return (.ok (queued + more), d)
          | (.error failure, d) => return (if queued = 0 then .error failure else .ok queued, d)

theorem skip?_eq (d : Device σ) (n : Nat) : d.skip? n = some (d.skip n) := by
  rw [skip?, skip]
  cases d.readObstacle? with
  | some kind => rfl
  | none =>
    dsimp only
    split
    · rfl
    · split
      · rfl
      · split
        · rfl
        · have few : (d.readQueue.skip n).1 ≤ n := Nat.min_le_left ..
          rw [minus?_of_le few]
          dsimp only [Option.bind_eq_bind, Option.bind_some]
          cases stream : d.sequential with
          | true =>
            simp only [Bool.not_true, Bool.false_eq_true, if_false]
            generalize (skipByReading _ _ : Except Failure Nat × Device σ) = result
            obtain ⟨failure | more, e⟩ := result
            · rfl
            · rfl
          | false =>
            have word : Word.addWrapped d.pos (d.readQueue.skip n).1 ≤ Word.maxValue :=
              Nat.le_of_lt_succ (Nat.mod_lt _ (Nat.two_pow_pos 64))
            simp only [Bool.not_false, if_true]
            rw [minus?_of_le (by rw [Word.addClamped]; omega)]
            rfl

/-! What answers fit into -/

namespace Pass

/-- How long the caller's buffer is. -/
def size (p : Pass) : Nat := p.filled.length + p.spare.length

variable {p : Pass}

theorem size_accept {bytes : List UInt8} (fits : bytes.length ≤ p.spare.length) : (p.accept bytes).size = p.size := by
  simp only [size, accept, List.length_append, List.length_drop]
  omega

private theorem size_overlay {bytes : List UInt8} {n : Nat} (fits : bytes.length ≤ p.spare.length) :
    (p.overlay bytes n).size = p.size := by
  simp only [size, overlay, accept, List.length_append, List.length_drop, List.length_take]
  omega

theorem size_strip (undecided : p.decided ≤ p.filled.length) : p.strip.size = p.size := (p.strip_spec undecided).2.1

end Pass

omit [Medium σ] in
private theorem size_takeQueued (d : Device σ) (keep : Bool) (p : Pass) : (d.takeQueued keep p).1.size = p.size := by
  rw [takeQueued]
  split
  · have fits : (d.readQueue.peek p.spare.length p.offset).length ≤ p.spare.length := by
      rw [peek_eq]
      exact List.length_take_le ..
    exact Pass.size_accept fits
  · exact Pass.size_accept (d.readQueue.length_read_le p.spare.length)

section
variable [Faultless σ]

private theorem size_refill {d e : Device σ} {keep : Bool} {p q : Pass} {got : Nat}
    (came : d.refill keep p = (.ok (got, q), e)) :
    q.size = p.size := by
  rw [refill] at came
  generalize d.sync = result at came
  obtain ⟨failure | done, f⟩ := result
  · cases came
  · dsimp only at came
    by_cases direct : ((!f.isBuffered || decide (f.config.bufferSize ≤ p.spare.length)) && !keep) = true
    · obtain ⟨bytes, m, read, few⟩ := Faultless.read_ok f.heldBesideMedium f.medium p.spare.length
      rw [if_pos direct, read] at came
      obtain ⟨answer, -⟩ := Prod.mk.inj came
      obtain ⟨-, rfl⟩ := Prod.mk.inj (Except.ok.inj answer)
      exact Pass.size_overlay few
    · rw [if_neg direct] at came
      generalize f.fill (if f.isBuffered then f.config.bufferSize else min p.spare.length f.config.bufferSize) = result at came
      obtain ⟨failure | got, g⟩ := result
      · cases came
      · obtain ⟨answer, -⟩ := Prod.mk.inj came
        obtain ⟨-, rfl⟩ := Prod.mk.inj (Except.ok.inj answer)
        rfl

private theorem size_gather {d e : Device σ} {keep : Bool} {p q : Pass} (came : d.gather keep p = (.ok q, e)) :
    q.size = p.size := by
  induction left : p.spare.length using Nat.strongRecOn generalizing d p with
  | ind _ ih =>
    subst left
    rw [gather] at came
    split at came
    · obtain ⟨answer, -⟩ := Prod.mk.inj came
      rw [← Except.ok.inj answer]
    · rcases refilled : d.refill keep p with ⟨failure | ⟨got, more⟩, f⟩
      · rw [refilled] at came
        dsimp only at came
        split at came
        · cases came
        · obtain ⟨answer, -⟩ := Prod.mk.inj came
          rw [← Except.ok.inj answer]
          rfl
      · rw [refilled] at came
        dsimp only at came
        have same := size_refill refilled
        split at came
        · obtain ⟨answer, -⟩ := Prod.mk.inj came
          rw [← Except.ok.inj answer, same]
        · have taken := size_takeQueued f keep more
          split at came
          · next shorter => rw [ih _ shorter came rfl, taken, same]
          · obtain ⟨answer, -⟩ := Prod.mk.inj came
            rw [← Except.ok.inj answer, taken, same]

private theorem size_collect {d e : Device σ} {keep : Bool} {room : Nat} {p q : Pass}
    (came : d.collect keep room p = (.ok q, e)) : q.size = p.size := by
  induction left : room - p.decided using Nat.strongRecOn generalizing d p with
  | ind _ ih =>
    subst left
    have taken := size_takeQueued d keep p
    rw [collect] at came
    generalize d.takeQueued keep p = result at came taken
    obtain ⟨first, f⟩ := result
    dsimp only at came taken
    rcases gathered : f.gather keep first with ⟨failure | more, g⟩
    · rw [gathered] at came
      cases came
    · rw [gathered] at came
      dsimp only at came
      have same := (size_gather gathered).trans taken
      split at came
      · next drops =>
        rw [Bool.and_eq_true, decide_eq_true_eq] at drops
        have stripped := (Pass.size_strip (Nat.le_of_lt drops.2)).trans same
        split at came
        · next goes => rw [ih _ (by omega) came rfl, stripped]
        · obtain ⟨answer, -⟩ := Prod.mk.inj came
          rw [← Except.ok.inj answer, stripped]
      · obtain ⟨answer, -⟩ := Prod.mk.inj came
        rw [← Except.ok.inj answer, same]

omit [Faultless σ] in
theorem length_closeLine (d : Device σ) (keep : Bool) (p : Pass) :
    (d.closeLine keep p).1.filled.length = p.filled.length := by
  rw [closeLine]
  split
  · next ends =>
    rw [Bool.and_eq_true] at ends
    have some : p.filled ≠ [] := fun none => by
      have final := ends.2
      rw [Pass.endsOpen, none] at final
      cases final
    have positive := List.length_pos_of_ne_nil some
    have kept : p.closeLine.filled.length = p.filled.length := by
      simp only [Pass.closeLine, List.length_append, List.length_dropLast, List.length_singleton]
      omega
    dsimp only
    generalize d.lookAhead (if keep then p.offset else 0) = e
    by_cases paired : e.readQueue.peek 1 (if keep then p.offset else 0) = [Byte.lineFeed]
    · rw [if_pos paired]
      cases keep with
      | true => exact kept
      | false => exact kept
    · rw [if_neg paired]
  · rfl

/-- A pass fills no more than the caller's buffer. -/
theorem readPass_fits {d : Device σ} {peeking : Bool} {buffer bytes : List UInt8}
    (came : (d.readPass peeking buffer).1 = .ok bytes) : bytes.length ≤ buffer.length := by
  rw [readPass] at came
  dsimp only at came
  rcases collected : d.collect (d.keeps peeking) buffer.length (.start buffer d.cursor) with ⟨failure | p, e⟩
  · rw [collected] at came
    cases came
  · rw [collected] at came
    have size : p.size = buffer.length := (size_collect collected).trans (Nat.zero_add _)
    have same : (e.closeLine (d.keeps peeking) p).1.filled = bytes := Except.ok.inj came
    rw [← same, length_closeLine, ← size]
    exact Nat.le_add_right ..

end

omit [Medium σ] in
private theorem takeLine_fits (d : Device σ) (keep : Bool) (room place : Nat) :
    (d.takeLine keep room place).1.length ≤ room := by
  have few (take : Nat) : (d.readQueue.peek take place).length ≤ take := by
    rw [peek_eq]
    exact List.length_take_le ..
  rw [takeLine]
  cases found : d.readQueue.indexOf Byte.lineFeed room place with
  | none =>
    have fits := few room
    cases keep <;> exact fits
  | some i =>
    have fits := (few (i - place + 1)).trans (indexOf_window found).2
    cases keep <;> exact fits

private theorem rawLine_fits {d e : Device σ} {keep : Bool} {room place next : Nat} {line : List UInt8}
    (came : d.rawLine keep room place = (.ok (line, next), e)) : line.length ≤ room := by
  induction room using Nat.strongRecOn generalizing d place line next e with
  | ind room ih =>
    rw [rawLine] at came
    split at came
    · obtain ⟨answer, -⟩ := Prod.mk.inj came
      obtain ⟨rfl, -⟩ := Prod.mk.inj (Except.ok.inj answer)
      exact Nat.zero_le _
    · generalize d.provideByte place = result at came
      obtain ⟨failure | there, f⟩ := result
      · cases came
      · cases there with
        | false =>
          obtain ⟨answer, -⟩ := Prod.mk.inj came
          obtain ⟨rfl, -⟩ := Prod.mk.inj (Except.ok.inj answer)
          exact Nat.zero_le _
        | true =>
          have fits := takeLine_fits f keep room place
          dsimp only at came
          generalize f.takeLine keep room place = result at came fits
          obtain ⟨bytes, after, g⟩ := result
          dsimp only at came fits
          split at came
          · rcases rest : g.rawLine keep (room - bytes.length) after with ⟨failure | ⟨more, last⟩, h⟩
            · rw [rest] at came
              obtain ⟨answer, -⟩ := Prod.mk.inj came
              obtain ⟨rfl, -⟩ := Prod.mk.inj (Except.ok.inj answer)
              exact fits
            · rw [rest] at came
              obtain ⟨answer, -⟩ := Prod.mk.inj came
              obtain ⟨rfl, -⟩ := Prod.mk.inj (Except.ok.inj answer)
              have others := ih (room - bytes.length) (by omega) rest
              rw [List.length_append]
              omega
          · obtain ⟨answer, -⟩ := Prod.mk.inj came
            obtain ⟨rfl, -⟩ := Prod.mk.inj (Except.ok.inj answer)
            exact fits

private theorem normalizeEnd_fits (d : Device σ) (keep : Bool) (line : List UInt8) (place : Nat) :
    (d.normalizeEnd keep line place).1.length ≤ line.length := by
  rw [normalizeEnd]
  dsimp only
  split
  · exact Nat.le_refl _
  · split
    · simp only [List.length_append, List.length_take, List.length_singleton]
      omega
    · split
      · next ends =>
        have some : line ≠ [] := fun none => by
          rw [none] at ends
          cases ends
        have positive := List.length_pos_of_ne_nil some
        have kept : (line.dropLast ++ [Byte.lineFeed]).length ≤ line.length := by
          rw [List.length_append, List.length_dropLast, List.length_singleton]
          omega
        split
        · split
          · exact kept
          · exact kept
        · exact Nat.le_refl _
      · exact Nat.le_refl _

/-- A line pass fills no more than it has room for. -/
theorem linePass_fits {d : Device σ} {room : Nat} {line : List UInt8} (came : (d.linePass room).1 = .ok line) :
    line.length ≤ room := by
  rw [linePass] at came
  dsimp only at came
  rcases raw : d.rawLine d.keepsLine room d.cursor with ⟨failure | ⟨whole, place⟩, e⟩
  · rw [raw] at came
    cases came
  · rw [raw] at came
    have same : (e.normalizeEnd d.keepsLine whole place).1 = line := Except.ok.inj came
    rw [← same]
    exact (normalizeEnd_fits e _ whole place).trans (rawLine_fits raw)

/-- No more is written than there is. -/
theorem offer_fits (d : Device σ) (bytes : List UInt8) : (d.offer bytes).1 ≤ bytes.length := by
  fun_induction offer d bytes with
  | case1 d bytes none => exact Nat.zero_le _
  | case2 d bytes some e m wrote => exact Nat.zero_le _
  | case3 d bytes some count m wrote n d' shorter more stop e rest ih =>
    rw [rest, List.length_drop] at ih
    dsimp only at ih ⊢
    omega
  | case4 d bytes some count m wrote n d' full => exact Nat.zero_le _

end ByteFlow.Device
