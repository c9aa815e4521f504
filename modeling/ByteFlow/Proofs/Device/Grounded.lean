import ByteFlow.Proofs.Device.Calls
import ByteFlow.Proofs.Device.Overlay
import ByteFlow.Proofs.Device.Put

/-! A device over memory between calls.
What comes next is what is queued and then what stands behind it. Unless bytes were put back that is just
what stands at the position, whatever was read, skipped, written, sought or rolled back before. -/
namespace ByteFlow.Device
open Medium Medium.Memory

/-- What is still to come: what is queued, and what stands behind it. -/
def remaining (d : Device Medium.Memory) : List UInt8 :=
  d.readQueue.toList ++ d.medium.data.content.drop (d.pos + d.readQueue.length)

/-- An open device over memory. All but the first `k` bytes to come are what stands at the position. -/
structure Grounded (d : Device Medium.Memory) (k : Nat) : Prop where
  random : d.sequential = false
  opened : d.isOpen = true
  unsent : ∀ q ∈ d.writing.queues, q.isEmpty = true
  ready : d.Ready [] d.remaining
  stands : d.Stands k d.remaining
  begun : ∀ place, d.transaction = .onRandomAccess place → place ≤ d.medium.data.content.length
  possible : d.config.bufferSize < Word.requestLimit

variable {d e : Device Medium.Memory} {j k place : Nat} {queued raw s t : List UInt8}

/-- A ready device tells by its queue and its position what is to come. -/
private theorem Supplies.eq_remaining (has : d.Supplies [] queued s) (random : d.sequential = false) :
    s = d.remaining := by
  have length := has.length_readQueue
  rw [List.length_nil, Nat.zero_add] at length
  rw [remaining, has.bytes, length, List.nil_append]
  exact (has.placed random).rest

/-- A call that concerns the current read channel alone leaves the others, the mode and the transaction. -/
structure Alike (d e : Device Medium.Memory) : Prop where
  reading : e.reading = d.reading.put e.readQueue
  mode : e.mode = d.mode
  transaction : e.transaction = d.transaction

theorem Kin.alike (kin : d.Kin e) : Alike d e := ⟨kin.reading, kin.mode, kin.transaction⟩

private theorem Alike.of_queue (d : Device Medium.Memory) (m : Medium.Memory) (q : ChunkQueue) (pos mediumPos : Nat)
    (errorString : String) :
    Alike d { d with
      medium := m, reading := d.reading.put q, pos := pos, mediumPos := mediumPos, errorString := errorString } :=
  ⟨by rw [readQueue, Channels.queue_put], rfl, rfl⟩

theorem Alike.told (d : Device Medium.Memory) (errorString : String) : Alike d { d with errorString := errorString } :=
  ⟨(Channels.put_queue d.reading).symm, rfl, rfl⟩

/-- What is in store, what stands there and where a transaction began decide whether a device is grounded. -/
theorem grounded_of_supplies (queued : List UInt8) (random : d.sequential = false) (opened : d.isOpen = true)
    (unsent : ∀ q ∈ d.writing.queues, q.isEmpty = true) (possible : d.config.bufferSize < Word.requestLimit)
    (has : d.Supplies [] queued s) (stands : d.Stands k s) (fits : d.transaction.Fits false)
    (begun : ∀ place, d.transaction = .onRandomAccess place → place ≤ d.medium.data.content.length) : Grounded d k := by
  have placed := has.placed random
  have inside := placed.inside
  have small := placed.small
  obtain rfl := has.eq_remaining random
  refine ⟨random, opened, unsent, ⟨⟨queued, has⟩, ?_, random.symm ▸ fits, ?_⟩, stands, begun, possible⟩
  · rw [cursor]
    obtain idle | ⟨place, begun⟩ := fits.of_random
    · rw [idle]
      rfl
    · rw [begun]
      rfl
  · have := Word.maxValue_lt_modulus
    omega

namespace Grounded

theorem supplies (grounded : Grounded d k) : ∃ queued, d.Supplies [] queued d.remaining := grounded.ready.supplies

theorem inside (grounded : Grounded d k) :
    d.pos + d.remaining.length = d.medium.data.content.length ∧ d.medium.data.content.length ≤ Word.maxValue := by
  obtain ⟨queued, has⟩ := grounded.supplies
  have placed := has.placed grounded.random
  exact ⟨placed.pos_add_length, placed.small⟩

theorem short (grounded : Grounded d k) : ([] : List UInt8).length + d.remaining.length ≤ Word.maxValue := by
  obtain ⟨reach, small⟩ := grounded.inside
  rw [List.length_nil]
  omega

/-- An open device tells how much is to come. -/
theorem bytesAvailable (grounded : Grounded d k) : d.bytesAvailable = d.remaining.length := by
  obtain ⟨reach, -⟩ := grounded.inside
  obtain ⟨queued, has⟩ := grounded.supplies
  have few := has.queued_prefix.length_le
  have length := has.length_readQueue
  have size : Medium.size d.medium = d.medium.data.content.length := (Handle.length_content d.medium.data).symm
  rw [Device.bytesAvailable, if_neg (by simp [grounded.opened])]
  dsimp only
  rw [if_neg (by simp [grounded.random]), size, length, grounded.ready.cursor, List.length_nil]
  omega

private theorem mono (grounded : Grounded d j) (less : j ≤ k) : Grounded d k :=
  { grounded with stands := grounded.stands.mono less }

/-- Only what is queued can differ from what stands there. -/
theorem capped (grounded : Grounded d k) : Grounded d (min k d.readQueue.length) := by
  refine { grounded with stands := ?_ }
  obtain ⟨queued, has⟩ := grounded.supplies
  rcases Nat.le_total k d.readQueue.length with less | more
  · rw [Nat.min_eq_left less]
    exact grounded.stands
  · have length := has.length_readQueue
    rw [List.length_nil, Nat.zero_add] at length
    rw [Nat.min_eq_right more, length]
    exact has.stands

theorem fits (grounded : Grounded d k) : d.transaction.Fits false := by
  have fits := grounded.ready.fits
  rwa [grounded.random] at fits

/-- A call that reads or moves along what stands there leaves the device grounded elsewhere. -/
private theorem of_kin (grounded : Grounded d k) (kin : d.Kin e) (has : e.Supplies [] queued s)
    (stands : e.Stands j s) :
    Grounded e j := by
  have data : e.medium.data = d.medium.data := kin.medium.1
  refine grounded_of_supplies queued (kin.sequential.trans grounded.random) ?_ ?_ ?_ has stands ?_ ?_
  · rw [isOpen, kin.mode]
    exact grounded.opened
  · rw [kin.writing]
    exact grounded.unsent
  · rw [kin.config]
    exact grounded.possible
  · rw [kin.transaction]
    exact grounded.fits
  · rw [kin.transaction, data]
    exact grounded.begun

private theorem reads_kin (grounded : Grounded d k) (reads : d.Reads e [] raw t) : d.Kin e := by
  have same : e.transaction = d.transaction := reads.transaction.trans (grounded.fits.upTo_eq _)
  have kin := reads.kin
  rwa [← same] at kin

private theorem reads_supplies (grounded : Grounded d k) (reads : d.Reads e [] raw t) :
    ∃ queued, e.Supplies [] queued t := by
  have goes := keeps_of_random grounded.random
  have supplies := reads.ready.supplies
  rwa [goes] at supplies

theorem reads (grounded : Grounded d k) (reads : d.Reads e [] raw t) (stands : e.Stands j t) : Grounded e j := by
  obtain ⟨queued, has⟩ := grounded.reads_supplies reads
  exact grounded.of_kin (grounded.reads_kin reads) has stands

theorem reads_remaining (grounded : Grounded d k) (reads : d.Reads e [] raw t) : e.remaining = t := by
  obtain ⟨queued, has⟩ := grounded.reads_supplies reads
  exact (has.eq_remaining (reads.kin.sequential.trans grounded.random)).symm

/-- What is said of a failure changes nothing else. -/
theorem told (grounded : Grounded d k) (errorString : String) : Grounded { d with errorString := errorString } k := by
  obtain ⟨queued, has⟩ := grounded.supplies
  exact grounded.reads (grounded.ready.stays (.refl d) has rfl errorString) grounded.stands

/-! Reading -/

/-- What was taken is no longer to come. -/
theorem takes (grounded : Grounded d k) (split : d.remaining = raw ++ t) (reads : d.Reads e [] raw t) :
    Grounded e (k - raw.length) := by
  obtain ⟨queued, has⟩ := grounded.supplies
  have stands := grounded.stands
  rw [split] at has stands
  exact grounded.reads reads (reads.stands has stands)

/-- A reading call goes on over what stands there, or looks at it. -/
theorem draws (grounded : Grounded d k) {action : Action} (reading : action.reads) :
    d.Kin (d.perform action).2 ∧ Grounded (d.perform action).2 (k - ((d.perform action).2.pos - d.pos)) := by
  obtain ⟨reach, small⟩ := grounded.inside
  have large := Word.maxValue_lt_modulus
  rcases perform_draws grounded.ready grounded.short grounded.possible reading with
    ⟨raw, t, split, reads, -⟩ | ⟨raw, t, looks, -⟩
  · refine ⟨grounded.reads_kin reads, ?_⟩
    have length := congrArg List.length split
    rw [List.length_append] at length
    have moved := reads.pos
    rw [Word.addWrapped_of_lt (by omega)] at moved
    rw [moved, Nat.add_sub_cancel_left]
    exact grounded.takes split reads
  · refine ⟨grounded.reads_kin looks.reads, ?_⟩
    have moved := looks.reads.pos
    rw [List.length_nil, Word.addWrapped_zero grounded.ready.pos] at moved
    rw [moved, Nat.sub_self, Nat.sub_zero]
    exact grounded.reads looks.reads (looks.stands k grounded.stands)

/-- A byte that is put back comes before all else. -/
theorem ungetByte (grounded : Grounded d k) (b : UInt8) :
    (∃ failure errorString, d.ungetByte b = (.error failure, { d with errorString := errorString })) ∨
      ∃ e, d.ungetByte b = (.ok (), e) ∧ Grounded e (k + 1) := by
  rw [Device.ungetByte]
  cases d.readObstacle? with
  | some kind => exact .inl ⟨_, _, rfl⟩
  | none =>
    dsimp only
    split
    · exact .inl ⟨_, _, rfl⟩
    · split
      · exact .inl ⟨_, _, rfl⟩
      · next some =>
        have some : 0 < d.pos := Nat.pos_of_ne_zero (by simpa [grounded.random] using some)
        obtain ⟨queued, has⟩ := grounded.supplies
        obtain ⟨wf, bytes⟩ := ChunkQueue.unget_spec has.wellFormed (d.heldBesideReading d.reading.current) b
        have placed := has.placed grounded.random
        have inside := placed.inside
        have rest := placed.rest
        rw [has.bytes, List.nil_append] at bytes
        have there : d.pos - 1 + (b :: queued).length = d.pos + queued.length := by
          rw [List.length_cons]
          omega
        have has' := has.relocate grounded.random wf (d.pos - 1) (by rwa [bytes, there])
        rw [bytes, there, List.cons_append, ← rest] at has'
        refine .inr ⟨_, rfl, ?_⟩
        refine grounded.of_kin (Kin.of_parts d (Source.kept_refl d.medium) _ (d.pos - 1) d.mediumPos d.errorString) has' ?_
        intro random
        rw [List.drop_succ_cons, grounded.stands random]
        congr 1
        show d.pos + k = d.pos - 1 + (k + 1)
        omega

/-! Moving -/

theorem moveTo (grounded : Grounded d k) (place : Nat) (inside : place ≤ d.medium.data.content.length) :
    d.Kin (d.moveTo place) ∧ Grounded (d.moveTo place) (k - (place - d.pos)) := by
  obtain ⟨queued, has⟩ := grounded.supplies
  obtain ⟨more, t, has', kin, -, stands⟩ := moveTo_supplies has grounded.random place inside
  exact ⟨kin, grounded.of_kin kin has' (stands k grounded.stands)⟩

/-- At a place with contents that are not shorter, what stays queued comes first, and then what stands behind it. -/
private theorem relocated (grounded : Grounded d k) {m : Medium.Memory} {q : ChunkQueue} (cursor : m.cursor = place)
    (wf : q.WellFormed)
    (inside : place + q.toList.length ≤ m.data.content.length) (longer : d.medium.data.content.length ≤ m.data.content.length)
    (small : m.data.content.length ≤ Word.maxValue)
    (stands : (q.toList ++ m.data.content.drop (place + q.toList.length)).drop j = m.data.content.drop (place + j)) :
    Grounded { d with medium := m, pos := place, mediumPos := place, reading := d.reading.put q } j := by
  obtain ⟨queued, has⟩ := grounded.supplies
  refine grounded_of_supplies q.toList grounded.random grounded.opened grounded.unsent grounded.possible
    ⟨trivial, has.kind, ?_, ?_, fun stream => absurd (grounded.random.symm.trans stream) Bool.false_ne_true,
      fun _ => ⟨rfl, inside, small, cursor⟩⟩
    (fun _ => stands) grounded.fits fun start started => Nat.le_trans (grounded.begun start started) longer
  · rwa [readQueue, Channels.queue_put]
  · rw [readQueue, Channels.queue_put]
    rfl

/-- A move may extend the contents but leaves what stood there. -/
theorem seek (grounded : Grounded d k) (place : Nat) (small : (d.seek place).2.medium.data.content.length ≤ Word.maxValue) :
    Grounded (d.seek place).2 (k - ((d.seek place).2.pos - d.pos)) ∧ Alike d (d.seek place).2 ∧
      d.medium.data.content <+: (d.seek place).2.medium.data.content := by
  obtain ⟨queued, has⟩ := grounded.supplies
  rw [Device.seek, if_neg (by simp [grounded.opened]), if_neg (by simp [grounded.random])] at small ⊢
  -- Within what is queued the queue moves along; elsewhere it is given up, and the contents may have grown.
  split at small
  · next within =>
    rw [if_pos within]
    obtain ⟨kin, moved⟩ := grounded.moveTo place (by
      have fits := (has.placed grounded.random).inside
      rw [has.length_readQueue, List.length_nil] at within
      exact Nat.le_trans (by omega) fits)
    have data : (d.moveTo place).medium.data = d.medium.data := kin.medium.1
    exact ⟨moved, kin.alike, data ▸ List.prefix_refl _⟩
  · next outside =>
    rw [if_neg outside]
    by_cases allowed : place ≤ d.medium.data.content.length ∨ d.medium.writable = true
    · obtain ⟨m, moved, content, cursor, -⟩ := Medium.Memory.seek_eq d.heldBesideMedium d.medium place allowed
      obtain ⟨wf, none⟩ := ChunkQueue.clear_spec d.readQueue
      rw [moved] at small ⊢
      have small : m.data.content.length ≤ Word.maxValue := small
      have length : m.data.content.length = max d.medium.data.content.length place := by rw [content, length_padded]
      have behind : d.medium.data.content <+: m.data.content := content ▸ List.prefix_append ..
      refine ⟨?_, Alike.of_queue d m _ place place d.errorString, behind⟩
      refine Grounded.mono (j := 0) (grounded.relocated cursor wf ?_ ?_ small ?_) (Nat.zero_le _)
      · rw [none, List.length_nil, length]
        exact Nat.le_max_right ..
      · rw [length]
        exact Nat.le_max_left ..
      · rw [none]
        rfl
    · obtain ⟨past, fixed⟩ := not_or.mp allowed
      obtain ⟨message, failed⟩ := Medium.Memory.seek_refused d.heldBesideMedium d.medium place past (by simpa using fixed)
      rw [failed]
      exact ⟨(grounded.told _).mono (by simp [Device.refuse]), Alike.told d _, List.prefix_refl _⟩

/-! Writing -/

/-- What stays queued behind the bytes that were written is what stood there. -/
private theorem overwritten (grounded : Grounded d k) {m : Medium.Memory}
    (content : m.data.content = written d.medium.data.content d.pos raw) (cursor : m.cursor = d.pos + raw.length)
    (small : m.data.content.length ≤ Word.maxValue) :
    Grounded { d with
      medium := m
      reading := d.reading.put (d.readQueue.free raw.length)
      pos := d.pos + raw.length
      mediumPos := d.pos + raw.length } (k - raw.length) := by
  obtain ⟨queued, has⟩ := grounded.supplies
  have placed := has.placed grounded.random
  have fits : d.pos + queued.length ≤ d.medium.data.content.length := placed.inside
  have rest : d.remaining = queued ++ d.medium.data.content.drop (d.pos + queued.length) := placed.rest
  have inside : d.pos ≤ d.medium.data.content.length := by omega
  have length := length_written inside raw
  obtain ⟨wf, left, -⟩ := ChunkQueue.free_spec has.wellFormed raw.length
  rw [has.bytes, List.nil_append] at left
  refine grounded.relocated cursor wf ?_ ?_ small ?_
  · rw [left, List.length_drop, content, length]
    omega
  · rw [content, length]
    exact Nat.le_max_left ..
  -- All that was written lies before the new position, so that behind it the old contents show.
  · have same : (d.readQueue.free raw.length).toList ++
        m.data.content.drop (d.pos + raw.length + (d.readQueue.free raw.length).toList.length) = d.remaining.drop raw.length := by
      have reach : d.pos + raw.length + (queued.length - raw.length) = d.pos + queued.length + (raw.length - queued.length) := by
        omega
      rw [left, content, List.length_drop, drop_written_of_le inside (Nat.le_add_right ..), reach, rest, List.drop_append,
        List.drop_drop]
    have stands : d.remaining.drop (raw.length + (k - raw.length)) =
        d.medium.data.content.drop (d.pos + (raw.length + (k - raw.length))) :=
      grounded.stands.mono (by omega) grounded.random
    rw [same, content, drop_written_of_le inside (Nat.le_add_right ..), List.drop_drop, stands, Nat.add_assoc]

/-- A write leaves what stands behind the bytes it wrote. -/
theorem write (grounded : Grounded d k) (bytes : List UInt8)
    (small : (d.write bytes).2.medium.data.content.length ≤ Word.maxValue) :
    Grounded (d.write bytes).2 (k - ((d.write bytes).2.pos - d.pos)) ∧ Alike d (d.write bytes).2 ∧
      ∀ place, (d.write bytes).2.pos ≤ place →
        (d.write bytes).2.medium.data.content.drop place = d.medium.data.content.drop place := by
  cases able : d.writeObstacle? with
  | some kind =>
    rw [Device.write, able]
    exact ⟨(grounded.told _).mono (by simp [Device.refuse]), Alike.told d _, fun _ _ => rfl⟩
  | none =>
    by_cases none : bytes.isEmpty = true
    · rw [Device.write, able]
      dsimp only
      rw [if_pos none]
      exact ⟨grounded.mono (by simp), (Kin.refl d).alike, fun _ _ => rfl⟩
    · obtain ⟨queued, has⟩ := grounded.supplies
      obtain ⟨d', m, has', kin, pos, content, cursor, -, medium, wrote⟩ := write_overlays has grounded.random able none
      generalize d.outgoing bytes = raw at content cursor wrote
      obtain ⟨reach, -⟩ := grounded.inside
      have inside : d.pos ≤ d.medium.data.content.length := by omega
      have length := length_written inside raw
      rw [medium] at small
      have fits : d.pos + raw.length < Word.modulus := by
        have := Word.maxValue_lt_modulus
        rw [content] at small
        omega
      have data : d'.medium.data = d.medium.data := kin.medium.1
      have grounded' : Grounded d' k := grounded.of_kin kin has' fun _ => by
        rw [grounded.stands grounded.random, pos]
        exact congrArg (fun h => (Handle.content h).drop (d.pos + k)) data.symm
      have next := grounded'.overwritten (by rwa [data, pos]) (by rwa [pos]) small
      rw [wrote (by omega), Word.addWrapped_of_lt fits]
      dsimp only
      rw [Nat.add_sub_cancel_left]
      rw [pos] at next
      refine ⟨next, ⟨?_, kin.mode, kin.transaction⟩, fun place less => ?_⟩
      · show d'.reading.put _ = d.reading.put (d'.reading.put _).queue
        rw [Channels.queue_put, kin.reading, Channels.put_put]
      · rw [content, drop_written_of_le inside less]

/-! Calls that touch neither what is to come nor the position -/

/-- As long as the current queue stays, the other channels, the mode and who holds what do not matter. -/
theorem beside (grounded : Grounded d k) {reading writing : Channels} {mode : OpenMode} {outside : List StorageId}
    (queue : reading.queue = d.readQueue) (unsent : ∀ q ∈ writing.queues, q.isEmpty = true) (opened : mode.isEmpty = false) :
    Grounded { d with reading := reading, writing := writing, mode := mode, outside := outside } k := by
  obtain ⟨queued, has⟩ := grounded.supplies
  refine grounded_of_supplies queued grounded.random (by rw [isOpen, opened]; rfl) unsent grounded.possible
    ⟨has.sound, has.kind, ?_, ?_, has.streamed, fun random => ?_⟩ grounded.stands grounded.fits grounded.begun
  · rw [readQueue, queue]
    exact has.wellFormed
  · rw [readQueue, queue]
    exact has.bytes
  · have placed := has.placed random
    exact ⟨placed.rest, placed.inside, placed.small, placed.stands⟩

theorem isEmpty_mode (grounded : Grounded d k) : d.mode.isEmpty = false := by
  simpa [isOpen] using grounded.opened

theorem growReading (grounded : Grounded d k) (n : Nat) : Grounded (d.growReading n) k :=
  grounded.beside (Channels.queue_grow ..) grounded.unsent grounded.isEmpty_mode

private theorem growWriting (grounded : Grounded d k) (n : Nat) : Grounded (d.growWriting n) k := by
  exact grounded.beside rfl (Channels.forall_grow grounded.unsent rfl) grounded.isEmpty_mode

private theorem selectWriting (grounded : Grounded d k) (channel : Nat) : Grounded (d.selectWriting channel).2 k := by
  rw [Device.selectWriting]
  split
  · exact grounded.told _
  · rw [switchWriting]
    split
    · exact grounded
    · refine grounded.beside rfl (fun q member => ?_) grounded.isEmpty_mode
      exact grounded.unsent q (Channels.queues_select d.writing channel ▸ member)

private theorem setText (grounded : Grounded d k) (on : Bool) (opened : (d.setText on).2.isOpen = true) :
    Grounded (d.setText on).2 k := by
  rw [Device.setText, if_neg (by simp [grounded.opened])] at opened ⊢
  exact grounded.beside rfl grounded.unsent (by simpa [isOpen] using opened)

private theorem flushAll (grounded : Grounded d k) : d.flushAll = (.ok (), d) := flushAll_unsent grounded.unsent

private theorem flush (grounded : Grounded d k) : d.flush = (.ok (), d) := by
  rw [Device.flush, if_neg (by simp [grounded.opened]), grounded.flushAll]

private theorem push (grounded : Grounded d k) (channel : Nat) (data : Handle) :
    Grounded (d.push channel data).2 k := by
  rw [Device.push]
  split
  · exact grounded.told _
  · rw [if_pos (by simp [grounded.random])]
    exact grounded.told _

/-! Transactions -/

theorem transacts (grounded : Grounded d k) {transaction : Transaction} (fits : transaction.Fits false)
    (begun : ∀ place, transaction = .onRandomAccess place → place ≤ d.medium.data.content.length) :
    Grounded { d with transaction := transaction } k := by
  obtain ⟨queued, has⟩ := grounded.supplies
  exact grounded_of_supplies queued grounded.random grounded.opened grounded.unsent grounded.possible
    (has.apart transaction d.errorString fun _ => rfl) grounded.stands fits begun

theorem finish (grounded : Grounded d k) : Grounded { d with transaction := .idle } k :=
  grounded.transacts trivial fun _ started => by cases started

private theorem startTransaction (grounded : Grounded d k) : Grounded d.startTransaction.2 k := by
  rw [Device.startTransaction]
  split
  · exact grounded.told _
  · split
    · exact grounded.told _
    · rw [if_neg (by simp [grounded.random])]
      refine grounded.transacts rfl ?_
      rintro place ⟨⟩
      have := grounded.inside.1
      omega

private theorem commit (grounded : Grounded d k) : Grounded d.commit.2 k := by
  rw [Device.commit]
  obtain idle | ⟨start, begun⟩ := grounded.fits.of_random
  · rw [idle]
    exact grounded.told _
  · rw [begun]
    exact grounded.finish

private theorem rollback (grounded : Grounded d k) : Grounded d.rollback.2 (k - (d.rollback.2.pos - d.pos)) := by
  rw [Device.rollback]
  obtain idle | ⟨start, begun⟩ := grounded.fits.of_random
  · rw [idle]
    exact (grounded.told _).mono (by simp [Device.refuse])
  · rw [begun]
    exact (grounded.moveTo start (grounded.begun start begun)).2.finish

end Grounded

/-! Calls -/

theorem Grounded.still (grounded : Grounded e k) (pos : e.pos = d.pos) : Grounded e (k - (e.pos - d.pos)) := by
  rwa [pos, Nat.sub_self]

private theorem isOpen_close (d : Device Medium.Memory) (opened : d.isOpen = true) : d.close.2.isOpen = false := by
  rw [close, if_neg (by simp [opened])]
  generalize d.flushAll = result
  obtain ⟨flushed, e⟩ := result
  cases flushed <;> rfl

/-- The calls that neither put bytes back nor choose where to read. -/
def Action.onward : Action → Prop
  | .ungetByte _ | .selectReading _ => False
  | _ => True

/-- As long as the device is open, a call leaves what stands in memory to come, from wherever the position is. -/
theorem perform_grounded (grounded : Grounded d k) {action : Action} (onward : action.onward)
    (opened : (d.perform action).2.isOpen = true) (small : (d.perform action).2.medium.data.content.length ≤ Word.maxValue) :
    Grounded (d.perform action).2 (k - ((d.perform action).2.pos - d.pos)) := by
  by_cases reading : action.reads
  · exact (grounded.draws reading).2
  · cases action with
    | openWith mode =>
      have refused : d.openWith mode = d.refuse .alreadyOpen "open" := by
        rw [openWith]
        dsimp only
        rw [if_pos grounded.opened]
      refine Grounded.still ?_ ?_
      · rw [perform, refused]
        exact grounded.told _
      · rw [perform, refused]
        rfl
    | close =>
      have closed : d.close.2.isOpen = true := opened
      rw [isOpen_close d grounded.opened] at closed
      cases closed
    | flush =>
      rw [perform, grounded.flush]
      exact Grounded.still grounded rfl
    | write bytes => exact (grounded.write bytes small).1
    | putByte b =>
      rw [perform, answer, putByte_eq] at small ⊢
      exact (grounded.write [b] small).1
    | seek place => exact (grounded.seek place small).1
    | reset => exact (grounded.seek 0 small).1
    | startTransaction =>
      refine Grounded.still grounded.startTransaction ?_
      show d.startTransaction.2.pos = d.pos
      rw [startTransaction]
      split
      · rfl
      · split <;> rfl
    | commit =>
      refine Grounded.still grounded.commit ?_
      show d.commit.2.pos = d.pos
      rw [commit]
      cases d.transaction <;> rfl
    | rollback => exact grounded.rollback
    | growReading n => exact Grounded.still (grounded.growReading n) rfl
    | growWriting n => exact Grounded.still (grounded.growWriting n) rfl
    | selectWriting channel =>
      refine Grounded.still (grounded.selectWriting channel) ?_
      show (d.selectWriting channel).2.pos = d.pos
      rw [selectWriting]
      split
      · rfl
      · rw [switchWriting]
        split <;> rfl
    | push channel data =>
      refine Grounded.still (grounded.push channel data) ?_
      show (d.push channel data).2.pos = d.pos
      rw [push]
      split
      · rfl
      · split <;> rfl
    | setText on =>
      refine Grounded.still (grounded.setText on opened) ?_
      show (d.setText on).2.pos = d.pos
      rw [setText]
      split <;> rfl
    | ungetByte b => exact absurd onward not_false
    | selectReading channel => exact absurd onward not_false
    | _ => exact absurd trivial reading

/-! Opening -/

theorem openWith_inv {mode : OpenMode} (opened : d.openWith mode = (.ok (), e)) :
    mode.normalized.isEmpty = false ∧ e = { d with
      medium := (d.medium.openWith mode.normalized).2
      mode := mode.normalized
      reading := .single d.config.chunkSize
      writing := .single d.config.writeChunkSize
      pos := if mode.normalized.append && !d.sequential then (d.medium.openWith mode.normalized).2.data.length else 0
      mediumPos := 0
      transaction := .idle
      errorString := "" } := by
  rw [openWith] at opened
  dsimp only at opened
  split at opened
  · cases (Prod.mk.inj opened).1
  · split at opened
    · cases (Prod.mk.inj opened).1
    · next some =>
      refine ⟨?_, (Prod.mk.inj opened).2.symm⟩
      cases none : mode.normalized.isEmpty with
      | false => rfl
      | true =>
        have closed : mode.normalized = .closed := by simpa [OpenMode.isEmpty] using none
        rw [closed] at some
        exact absurd rfl some

theorem grounded_of_openWith {mode : OpenMode} (random : d.sequential = false)
    (possible : d.config.bufferSize < Word.requestLimit) (opened : d.openWith mode = (.ok (), e))
    (small : e.medium.data.content.length ≤ Word.maxValue) : Grounded e 0 := by
  obtain ⟨some, rfl⟩ := openWith_inv opened
  have start : (if mode.normalized.append && !d.sequential then (d.medium.openWith mode.normalized).2.data.length else 0) ≤
      (d.medium.openWith mode.normalized).2.data.content.length := by
    split
    · exact Nat.le_of_eq (Handle.length_content _).symm
    · exact Nat.zero_le _
  refine grounded_of_supplies [] random (by rw [isOpen, some]; rfl) (Channels.forall_single rfl) possible
    ⟨trivial, random.symm, ChunkQueue.wellFormed_withChunkSize _, ChunkQueue.toList_withChunkSize _,
      fun stream => absurd (random.symm.trans stream) Bool.false_ne_true, fun _ => ⟨rfl, start, small, rfl⟩⟩
    (fun _ => rfl) trivial ?_
  rintro _ ⟨⟩

end ByteFlow.Device
