import ByteFlow.Proofs.Device.Ranges
import ByteFlow.Proofs.Device.Standing

/-! The states that a device over memory or over a pipe can come to.
Calls may fail, and the device be closed and opened again, in any order; the memory's contents are replaced only
while it is closed, as is asked of who does so, and at the pipe's other end anything may happen. -/
namespace ByteFlow.Device
open Medium ChunkQueue

variable {σ : Type} [Medium σ]

/-! What is granted anywhere -/

/-- Every step that indexes, slices or takes a difference is granted, and no answer is longer than what it is
put into. -/
structure InRange (d : Device σ) : Prop where
  reading : d.reading.queues[d.reading.current]? = some d.readQueue
  writing : d.writing.queues[d.writing.current]? = some d.writeQueue
  flushed (channel : Nat) : channel ∈ List.range d.writing.count → (d.writing.queues[channel]?).isSome = true
  fill (chunk : Nat) : d.fill? chunk = some (d.fill chunk)
  takeQueued (keep : Bool) (p : Pass) : d.takeQueued? keep p = some (d.takeQueued keep p)
  refill (keep : Bool) (p : Pass) : d.refill? keep p = some (d.refill keep p)
  last (p : Pass) : p.last? = some p.filled.getLast?
  strip (p : Pass) : p.decided < p.filled.length → p.strip? = some p.strip
  takeLine (keep : Bool) (room place : Nat) : d.takeLine? keep room place = some (d.takeLine keep room place)
  moveTo (place : Nat) : d.moveTo? place = some (d.moveTo place)
  ungetByte (b : UInt8) : d.ungetByte? b = some (d.ungetByte b)
  skip (n : Nat) : d.skip? n = some (d.skip n)
  readPass (peeking : Bool) (buffer bytes : List UInt8) :
    (d.readPass peeking buffer).1 = .ok bytes → bytes.length ≤ buffer.length
  linePass (room : Nat) (line : List UInt8) : (d.linePass room).1 = .ok line → line.length ≤ room
  readLineInto (room : Nat) (line : List UInt8) : (d.readLineInto room).1 = .ok line → line.length < room
  offer (bytes : List UInt8) : (d.offer bytes).1 ≤ bytes.length

/-- Behind a line there is room for the byte that ends it. -/
private theorem readLineInto_fits {d : Device σ} {room : Nat} {line : List UInt8}
    (came : (d.readLineInto room).1 = .ok line) :
    line.length < room := by
  rw [Device.readLineInto] at came
  split at came
  · cases came
  · split at came
    · cases came
    · have fits := linePass_fits came
      omega

private theorem inRange [Faultless σ] (d : Device σ) : InRange d where
  reading := d.reading.getElem?_current
  writing := d.writing.getElem?_current
  flushed channel inside := by
    have inside : channel < d.writing.queues.length := List.mem_range.mp inside
    rw [List.getElem?_eq_getElem inside]
    rfl
  fill := d.fill?_eq
  takeQueued := d.takeQueued?_eq
  refill := d.refill?_eq
  last := Pass.last?_eq
  strip _ := Pass.strip?_eq
  takeLine := d.takeLine?_eq
  moveTo := d.moveTo?_eq
  ungetByte := d.ungetByte?_eq
  skip := d.skip?_eq
  readPass _ _ _ := readPass_fits
  linePass _ _ := linePass_fits
  readLineInto _ _ := readLineInto_fits
  offer := d.offer_fits

/-! What is granted where positions are true -/

/-- Gives up as many of the bytes read ahead as the position moved on. -/
def afterWrite? (d : Device σ) (startPos : Nat) : Option (Device σ) :=
  if !d.sequential then
    (minus? d.pos startPos).map fun n => { d with reading := d.reading.put (d.readQueue.free n) }
  else some (d.afterWrite startPos)

def write? (d : Device σ) (bytes : List UInt8) : Option (Except Failure Nat × Device σ) :=
  match d.writeObstacle? with
  | some kind => some (d.refuse kind "write")
  | none =>
    if bytes.isEmpty then some (.ok 0, d)
    else
      match d.sync with
      | (.error e, d) => some (d.broken e "write")
      | (.ok (), d) =>
        let result :=
          if d.isText && d.config.crlfOnWrite then d.writeLines (Newline.lines bytes)
          else d.writePiece bytes
        match result with
        | (.error failure, d) => some (.error failure, d)
        | (.ok n, after) => (after.afterWrite? d.pos).map fun e => (.ok n, e)

/-- What is queued and not yet read. -/
def unreadLength? (d : Device σ) : Option Nat := minus? d.readQueue.length d.cursor

/-- On a stream there is nothing to give up. -/
private theorem write?_of_stream {d : Device σ} (stream : d.sequential = true) (bytes : List UInt8) :
    d.write? bytes = some (d.write bytes) := by
  rw [write?, write]
  cases obstacle : d.writeObstacle? with
  | some kind => rfl
  | none =>
    dsimp only
    split
    · rfl
    · have wrote := outgoing_puts (writable_of_able obstacle).2 bytes
      rw [sync, if_pos (.inl stream)]
      dsimp only
      generalize (if d.isText && d.config.crlfOnWrite then d.writeLines (Newline.lines bytes)
        else d.writePiece bytes) = result at wrote
      obtain ⟨failure | n, e⟩ := result
      · rfl
      · have stream' : e.sequential = true := wrote.apart.sequential.trans stream
        dsimp only
        rw [afterWrite?, if_neg (by simp [stream'])]
        rfl

/-- The position is where the memory stands, at `start` or behind it. -/
structure Heads (start : Nat) (d : Device Medium.Memory) : Prop extends Anchored d where
  opened : d.isOpen = true
  met : d.pos = d.mediumPos
  behind : start ≤ d.medium.cursor

private theorem Heads.writePiece {start : Nat} {d : Device Medium.Memory} (heads : Heads start d) (bytes : List UInt8) :
    ∃ e, d.writePiece bytes = (.ok bytes.length, e) ∧ Heads start e := by
  have inside : d.medium.cursor ≤ d.medium.data.content.length := by
    rw [Handle.length_content]
    exact heads.inside
  rw [Device.writePiece]
  split
  · next none =>
    obtain rfl := List.isEmpty_iff.mp none
    exact ⟨d, rfl, heads⟩
  · obtain ⟨m, offered, content, cursor, -⟩ := offer_eq d bytes inside
    have inside' : m.cursor ≤ m.data.length := by
      rw [← Handle.length_content, content, Medium.Memory.length_written inside, cursor]
      exact Nat.le_max_right ..
    have random := heads.random
    rw [if_neg (by simp [random]), offered]
    dsimp only
    rw [advance_eq, follow_eq]
    dsimp only
    rw [if_neg (by simp [random]), if_neg (by simp [random])]
    refine ⟨_, rfl, heads.toAnchored.follow cursor inside' d.reading _, heads.opened, ?_, ?_⟩
    · dsimp only
      rw [heads.met]
    · dsimp only
      rw [cursor]
      exact Nat.le_trans heads.behind (Nat.le_add_right ..)

/-- Over memory the position moves on with the memory, which does not go back. -/
private theorem write?_of_memory {d : Device Medium.Memory} (anchored : Anchored d) (bytes : List UInt8)
    (small : (d.write bytes).2.medium.data.length < Word.modulus) : d.write? bytes = some (d.write bytes) := by
  rw [write] at small
  rw [write?, write]
  cases obstacle : d.writeObstacle? with
  | some kind => rfl
  | none =>
    have opened := (writable_of_able obstacle).1
    rw [obstacle] at small
    dsimp only at small ⊢
    split
    · rfl
    · next some =>
      rw [if_neg some] at small
      have synced := anchored.sync
      have met : ∀ e, d.sync = (.ok (), e) → e.pos = e.mediumPos ∧ e.isOpen = true := by
        intro e found
        rw [sync] at found
        split at found
        · next already =>
          obtain ⟨-, rfl⟩ := Prod.mk.inj found
          exact ⟨(already.resolve_left (by simp [anchored.random])).symm, opened⟩
        · split at found
          · cases found
          · obtain ⟨-, rfl⟩ := Prod.mk.inj found
            exact ⟨rfl, opened⟩
      generalize d.sync = result at synced met small
      obtain ⟨failure | done, e⟩ := result
      · rfl
      · dsimp only at small ⊢
        obtain ⟨met, opened⟩ := met e rfl
        have heads : Heads e.medium.cursor e := ⟨synced, opened, met, Nat.le_refl _⟩
        have takes : TakesAll (max 2 bytes.length) fun _ => Heads e.medium.cursor :=
          fun _ _ piece _ heads => heads.writePiece piece
        obtain ⟨f, wrote, heads'⟩ := @outgoing_sent Medium.Memory _ _ _ [] e takes (Nat.le_max_left 2 bytes.length) bytes
          (Nat.le_max_right ..) heads
        rw [wrote] at small ⊢
        dsimp only at small ⊢
        have random := heads'.random
        rw [afterWrite, if_pos (by simp [random])] at small ⊢
        have small : f.medium.data.length < Word.modulus := small
        have inside := heads'.inside
        have there : f.pos = f.medium.cursor := by
          rw [heads'.met]
          rcases heads'.stands heads'.opened with here | wrapped
          · exact here
          · rw [wrapped, Nat.mod_eq_of_lt (by omega)]
        have before : e.pos ≤ e.medium.cursor := by
          rw [met]
          rcases synced.stands opened with here | wrapped
          · exact Nat.le_of_eq here
          · rw [wrapped]
            exact Nat.mod_le _ _
        have behind := heads'.behind
        have moved : f.pos = Word.addWrapped e.pos (f.pos - e.pos) := by
          rw [Word.addWrapped_of_lt (by omega)]
          omega
        have far : Word.distance e.pos f.pos = f.pos - e.pos := by
          conv => lhs; rw [moved]
          exact Word.distance_addWrapped (by omega) (by omega)
        rw [afterWrite?, if_pos (by simp [random]), minus?_of_le (by omega), far]
        rfl

/-! Scripts -/

/-- A script that works on the medium only where it may. -/
def Fair (may : Device σ → (σ → σ) → Prop) (d : Device σ) : List (Deed σ) → Prop
  | [] => True
  | deed :: rest => (∀ act, deed = .work act → may d act) ∧ (d.does deed).2.Fair may rest

/-- The contents of a memory are replaced while no device is open over it. -/
def Replaces (d : Device Medium.Memory) (act : Medium.Memory → Medium.Memory) : Prop :=
  d.isOpen = false ∧ ∃ data, act = fun m => m.setData data

/-- At its other end anything may be done with a pipe. -/
def Reaches (_ : Device Pipe) (act : Pipe → Pipe) : Prop := ∃ far, act = fun p => p.act far

/-- The mode that a device was last opened in, after a script. -/
def lastModeAfter (d : Device Pipe) (last : OpenMode) : List (Deed Pipe) → OpenMode
  | [] => last
  | deed :: rest => (d.does deed).2.lastModeAfter (d.lastMode (d.does deed).2 last) rest

theorem doesAll_anchored {d : Device Medium.Memory} (anchored : Anchored d) {script : List (Deed Medium.Memory)}
    (fair : d.Fair Replaces script) : Anchored (d.doesAll script).2 := by
  induction script generalizing d with
  | nil => exact anchored
  | cons deed rest ih =>
    obtain ⟨may, later⟩ := fair
    refine ih ?_ later
    rcases does_effect d deed with effect | ⟨act, same, worked⟩ | ⟨ids, held⟩
    · exact effect.anchored anchored
    · obtain ⟨closed, data, rfl⟩ := may act same
      rw [worked]
      refine ⟨anchored.random, Nat.zero_le _, fun opened => ?_, anchored.unsent⟩
      exact absurd (closed.symm.trans opened) (by decide)
    · rw [held]
      exact { anchored with }

private theorem Abreast.remote {d : Device Pipe} {last : OpenMode} (abreast : Abreast d last) (far : Pipe.Act) :
    Abreast { d with medium := d.medium.act far } last := by
  have same : (d.medium.act far).readChannel = d.medium.readChannel ∧
      (d.medium.act far).writeChannel = d.medium.writeChannel := by
    cases far with
    | feed held channel data =>
      show (d.medium.feed held channel data).2.readChannel = _ ∧ (d.medium.feed held channel data).2.writeChannel = _
      rw [Pipe.feed]
      split
      · exact ⟨rfl, rfl⟩
      · exact ⟨rfl, rfl⟩
    | _ => exact ⟨rfl, rfl⟩
  refine { abreast with chosen := fun opened => ?_ }
  obtain ⟨reading, writing⟩ := abreast.chosen opened
  exact ⟨same.1.trans reading, same.2.trans writing⟩

theorem doesAll_abreast {d : Device Pipe} {last : OpenMode} (steady : Steady d) (abreast : Abreast d last)
    {script : List (Deed Pipe)} (fair : d.Fair Reaches script) :
    Abreast (d.doesAll script).2 (d.lastModeAfter last script) := by
  induction script generalizing d last with
  | nil => exact abreast
  | cons deed rest ih =>
    obtain ⟨may, later⟩ := fair
    refine ih (does_steady steady deed) ?_ later
    have during (same : (d.does deed).2.isOpen = d.isOpen) : d.lastMode (d.does deed).2 last = last := by
      rw [lastMode, same, Bool.not_and_self]
      rfl
    rcases does_effect d deed with effect | ⟨act, same, worked⟩ | ⟨ids, held⟩
    · exact effect.abreast steady abreast
    · obtain ⟨far, rfl⟩ := may act same
      rw [during (by rw [worked]; rfl), worked]
      exact abreast.remote far
    · rw [during (by rw [held]; rfl), held]
      exact { abreast with }

/-! States -/

theorem steady_ofMedium (m : σ) (config : Config) : Steady (ofMedium m config) :=
  steady_idle (Channels.forall_single (ChunkQueue.wellFormed_withChunkSize _)) (fun opened => by cases opened) rfl
    fun _ => Nat.two_pow_pos 64

/-- There are channels, of which one is the current one each way. A transaction runs only on an open device, and
is of its medium's kind; on a stream its cursor is inside the queue, and as far past its start as the position. -/
structure Sound (d : Device σ) : Prop where
  channels : 0 < d.reading.count ∧ 0 < d.writing.count
  current : d.reading.current < d.reading.count ∧ d.writing.current < d.writing.count
  sequential : d.sequential = Medium.isSequential d.medium
  active : d.transaction ≠ .idle → d.isOpen = true
  onStream : ∀ startPos cursor, d.transaction = .onStream startPos cursor →
    Medium.isSequential d.medium = true ∧ cursor ≤ d.readQueue.length ∧ d.pos = Word.addWrapped startPos cursor
  onRandomAccess : ∀ startPos, d.transaction = .onRandomAccess startPos → Medium.isSequential d.medium = false
  unread : d.unreadLength? = some (d.readQueue.length - d.cursor)

private theorem Steady.sound {d : Device σ} (steady : Steady d)
    (sequential : d.sequential = Medium.isSequential d.medium) :
    Sound d where
  channels := ⟨Nat.zero_lt_of_lt d.reading.inside, Nat.zero_lt_of_lt d.writing.inside⟩
  current := ⟨d.reading.inside, d.writing.inside⟩
  sequential := sequential
  active running := steady.active (by simpa [inTransaction] using running)
  onStream startPos cursor running := by
    have kind := steady.kind
    have inside := steady.cursor
    rw [running] at kind
    rw [Device.cursor, running] at inside
    exact ⟨sequential.symm.trans kind, inside, (steady.begun startPos cursor running).2⟩
  onRandomAccess startPos running := by
    have kind := steady.kind
    rw [running] at kind
    exact sequential.symm.trans kind
  unread := minus?_of_le steady.cursor

/-- How an open device stands over memory: where the memory stands, which is inside its contents, and with
nothing to be written. A write takes the position on, never back. -/
structure OverMemory (d : Device Medium.Memory) : Prop where
  stands : d.isOpen = true → d.medium.data.length < Word.modulus → d.mediumPos = d.medium.cursor
  inside : d.medium.cursor ≤ d.medium.data.length
  unsent : ∀ q ∈ d.writing.queues, q.length = 0
  write (bytes : List UInt8) : (d.write bytes).2.medium.data.length < Word.modulus → d.write? bytes = some (d.write bytes)

/-- How a device stands over a pipe, `last` being the mode that it was last opened in. -/
structure OverPipe (d : Device Pipe) (last : OpenMode) : Prop where
  chosen : d.isOpen = true → d.medium.readChannel = d.reading.current ∧ d.medium.writeChannel = d.writing.current
  queued : ∀ q ∈ d.writing.queues, 0 < q.length → last.writable = true ∧ last.unbuffered = false
  write (bytes : List UInt8) : d.write? bytes = some (d.write bytes)

theorem Anchored.overMemory {d : Device Medium.Memory} (anchored : Anchored d) : OverMemory d where
  stands opened small := by
    rcases anchored.stands opened with here | wrapped
    · exact here
    · rw [wrapped, Nat.mod_eq_of_lt (Nat.lt_of_le_of_lt anchored.inside small)]
  inside := anchored.inside
  unsent q member := eq_of_beq (anchored.unsent q member)
  write := write?_of_memory anchored

/-- Whatever is done with a device over memory whose contents are replaced only while it is closed, or over a
pipe whose other end does anything, the device is sound and stands over its medium as it should. No index, slice
or difference is ever out of range, and as long as the device stays open no channel goes. -/
theorem states_sound (config : Config) :
    (∀ (data : Handle) (script : List (Deed Medium.Memory)),
      (ofMedium (Medium.Memory.ofHandle data) config).Fair Replaces script →
        Sound ((ofMedium (Medium.Memory.ofHandle data) config).doesAll script).2 ∧
          OverMemory ((ofMedium (Medium.Memory.ofHandle data) config).doesAll script).2) ∧
      (∀ (p : Pipe) (script : List (Deed Pipe)), (ofMedium p config).Fair Reaches script →
        Sound ((ofMedium p config).doesAll script).2 ∧
          OverPipe ((ofMedium p config).doesAll script).2 ((ofMedium p config).lastModeAfter .closed script)) ∧
      ((∀ d : Device Medium.Memory, InRange d) ∧ ∀ d : Device Pipe, InRange d) ∧
      (∀ (d : Device Medium.Memory) (script : List (Deed Medium.Memory)), d.StaysOpen script → Widens d (d.doesAll script).2) ∧
      ∀ (d : Device Pipe) (script : List (Deed Pipe)), d.StaysOpen script → Widens d (d.doesAll script).2 := by
  refine ⟨fun data script fair => ?_, fun p script fair => ?_, ⟨inRange, inRange⟩, fun _ _ => doesAll_widens,
    fun _ _ => doesAll_widens⟩
  · have start : Anchored (ofMedium (Medium.Memory.ofHandle data) config) :=
      ⟨rfl, Nat.zero_le _, fun opened => (by cases opened), Channels.forall_single rfl⟩
    have anchored := doesAll_anchored start fair
    exact ⟨(doesAll_steady (steady_ofMedium _ config) script).sound anchored.random, anchored.overMemory⟩
  · have start : Abreast (ofMedium p config) .closed :=
      ⟨rfl, fun opened => (by cases opened), fun opened => (by cases opened),
        Channels.forall_single fun some => absurd some (Nat.lt_irrefl 0)⟩
    have abreast := doesAll_abreast (steady_ofMedium _ config) start fair
    exact ⟨(doesAll_steady (steady_ofMedium _ config) script).sound abreast.stream,
      abreast.chosen, abreast.queued, write?_of_stream abreast.stream⟩

theorem fair_of_quiet {may : Device σ → (σ → σ) → Prop} {d : Device σ} {script : List (Deed σ)}
    (quiet : ∀ deed ∈ script, ∀ act, deed ≠ .work act) : d.Fair may script := by
  induction script generalizing d with
  | nil => trivial
  | cons deed rest ih =>
    exact ⟨fun act same => absurd same (quiet deed List.mem_cons_self act),
      ih fun other member => quiet other (List.mem_cons_of_mem _ member)⟩

/-- What is done with a memory that is filled before a device is opened over it, and later opened again. -/
def ledger : List (Deed Medium.Memory) :=
  [.work (fun m => m.setData (Handle.ofFixed [] [97, 98, 99])), .call (.openWith .readWrite), .call .getByte,
    .call (.growWriting 2), .call (.write [120]), .call .startTransaction, .line]

/-- What is done with a pipe: a transaction reads, while the other end takes nothing that is written. -/
def relay : List (Deed Pipe) :=
  [.work (fun p => p.act (.feed [] 0 (Handle.ofFixed [] [97, 98, 99]))), .work (fun p => p.act (.limitWrites (some 0))),
    .call (.openWith .readWrite), .call (.growReading 2), .call (.write [120, 121]), .call .startTransaction,
    .call (.read 2), .call (.selectReading 1)]

theorem states_sound_scripts :
    (∃ d, d = ((ofMedium (Medium.Memory.ofHandle Handle.empty) ⟨4, 0, 0, false⟩).doesAll ledger).2 ∧ d.mediumPos = 3 ∧
        d.medium.cursor = 3 ∧ d.transaction = .onRandomAccess 2 ∧ d.writing.count = 2 ∧ Sound d ∧ OverMemory d) ∧
      (∃ d, d = ((ofMedium Pipe.empty ⟨4, 0, 0, false⟩).doesAll relay).2 ∧ d.transaction = .onStream 0 2 ∧
        d.readQueue.length = 3 ∧ d.writeQueue.length = 2 ∧ Sound d ∧ OverPipe d .readWrite) ∧
      Widens reader (reader.doesAll [.call (.growReading 3), .call (.ungetByte 120)]).2 := by
  obtain ⟨memory, pipe, -, -, widens⟩ := states_sound ⟨4, 0, 0, false⟩
  have filled : (ofMedium (Medium.Memory.ofHandle Handle.empty) ⟨4, 0, 0, false⟩).Fair Replaces ledger := by
    refine ⟨fun act same => ⟨rfl, _, (Deed.work.inj same).symm⟩, fair_of_quiet ?_⟩
    simp
  have fed : (ofMedium Pipe.empty ⟨4, 0, 0, false⟩).Fair Reaches relay := by
    refine ⟨fun act same => ⟨_, (Deed.work.inj same).symm⟩, fun act same => ⟨_, (Deed.work.inj same).symm⟩, fair_of_quiet ?_⟩
    simp
  obtain ⟨sound, stood⟩ := memory _ ledger filled
  obtain ⟨sound', stood'⟩ := pipe _ relay fed
  refine ⟨⟨_, rfl, ?_, ?_, ?_, ?_, sound, stood⟩, ⟨_, rfl, ?_, ?_, ?_, sound', ?_⟩, widens _ _ ?_⟩
  · decide +kernel
  · decide +kernel
  · decide +kernel
  · decide +kernel
  · decide +kernel
  · decide +kernel
  · decide +kernel
  · have mode : (ofMedium Pipe.empty ⟨4, 0, 0, false⟩).lastModeAfter .closed relay = .readWrite := by decide +kernel
    rwa [mode] at stood'
  · have stays : isOpen (reader.doesAll [.call (.growReading 3), .call (.ungetByte 120)]).2 = true := by decide +kernel
    exact ⟨by decide +kernel, by decide +kernel, stays⟩

end ByteFlow.Device
