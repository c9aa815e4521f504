import ByteFlow.Proofs.Device.Overlay
import ByteFlow.Proofs.Device.Skip
import ByteFlow.Proofs.Device.Text

/-! A device over memory is a list of bytes with a position.
Its queue, its buffer size and where the memory stands show in no reply. -/
namespace ByteFlow
open Medium.Memory

/-- A list of bytes with a position, and where a transaction began, if there is one. -/
structure Plain where
  content : List UInt8
  pos : Nat
  begun : Option Nat
  writable : Bool

namespace Plain
open Device

/-- The bytes from the position on. -/
def ahead (p : Plain) : List UInt8 := p.content.drop p.pos

def advance (p : Plain) (n : Nat) : Plain := { p with pos := p.pos + n }

/-- The next line, or as much of it as there is room for. -/
def line (p : Plain) (room : Nat) : List UInt8 := (Newline.firstLine p.ahead).take room

def refuse (p : Plain) (kind : FailureKind) (call : String) : Except Failure Reply × Plain :=
  (.error ((Failure.ofKind kind).withMessage call), p)

/-- Gives bytes and goes past them. -/
def give (p : Plain) (bytes : List UInt8) (reply : Reply) : Except Failure Reply × Plain :=
  (.ok reply, p.advance bytes.length)

def write (p : Plain) (bytes : List UInt8) (reply : Reply) : Except Failure Reply × Plain :=
  if p.writable then
    (.ok reply, { p with content := written p.content p.pos bytes, pos := p.pos + bytes.length })
  else p.refuse .notWritable "write"

def seek (p : Plain) (place : Nat) : Except Failure Reply × Plain :=
  if place ≤ p.content.length ∨ p.writable = true then
    (.ok .done, { p with content := padded p.content place, pos := place })
  else p.refuse .invalidPosition "seek"

/-- The calls that are not about opening, channels or bytes put back. -/
def Knows : Action → Prop
  | .read _ | .readInto _ | .readLine _ | .readLineInto _ | .getByte | .peek _ | .peekInto _ | .skip _ | .seek _
  | .reset | .write _ | .putByte _ | .startTransaction | .commit | .rollback => True
  | _ => False

def perform (p : Plain) : Action → Except Failure Reply × Plain
  | .read n => p.give (p.ahead.take n) (.bytes (p.ahead.take n))
  | .readInto buffer => p.give (p.ahead.take buffer.length) (.bytes (p.ahead.take buffer.length))
  | .readLine n =>
    let bytes := if n = 0 then Newline.firstLine p.ahead else p.line n
    p.give bytes (.bytes bytes)
  | .readLineInto room =>
    if room < 2 then p.refuse .invalidArgument "read_line"
    else p.give (p.line (room - 1)) (.bytes (p.line (room - 1)))
  | .getByte => p.give (p.ahead.take 1) (.byte p.ahead.head?)
  | .peek n => (.ok (.bytes (p.ahead.take n)), p)
  | .peekInto buffer => (.ok (.bytes (p.ahead.take buffer.length)), p)
  | .skip n => p.give (p.ahead.take n) (.size (min n p.ahead.length))
  | .seek place => p.seek place
  | .reset => p.seek 0
  | .write bytes => p.write bytes (.size bytes.length)
  | .putByte b => p.write [b] (.flag true)
  | .startTransaction =>
    match p.begun with
    | some _ => p.refuse .transactionActive "start_transaction"
    | none => (.ok .done, { p with begun := some p.pos })
  | .commit =>
    match p.begun with
    | some _ => (.ok .done, { p with begun := none })
    | none => p.refuse .noTransaction "commit_transaction"
  | .rollback =>
    match p.begun with
    | some place => (.ok .done, { p with pos := place, begun := none })
    | none => p.refuse .noTransaction "rollback_transaction"
  | _ => (.ok .done, p)

def performAll (p : Plain) : List Action → List (Except Failure Reply) × Plain
  | [] => ([], p)
  | action :: rest =>
    let next := (p.perform action).2.performAll rest
    ((p.perform action).1 :: next.1, next.2)

/-- The contents keep a size that machine words can tell, whatever is done. -/
def StaysSmall (p : Plain) : List Action → Prop
  | [] => p.content.length ≤ Word.maxValue
  | action :: rest => p.content.length ≤ Word.maxValue ∧ (p.perform action).2.StaysSmall rest

instance decidableStaysSmall (p : Plain) : (actions : List Action) → Decidable (p.StaysSmall actions)
  | [] => inferInstanceAs (Decidable (_ ≤ _))
  | action :: rest =>
    have := decidableStaysSmall (p.perform action).2 rest
    inferInstanceAs (Decidable (_ ∧ _))

private theorem StaysSmall.now {p : Plain} {actions : List Action} (small : p.StaysSmall actions) :
    p.content.length ≤ Word.maxValue := by
  cases actions with
  | nil => exact small
  | cons _ _ => exact small.1

end Plain

namespace Device

/-- A reply with a handle known by its bytes alone. -/
def Reply.shown : Reply → Reply
  | .handle h => .bytes h.content
  | reply => reply

/-- The device shows what the plain list is. -/
structure Mirrors (d : Device Medium.Memory) (p : Plain) : Prop where
  supplies : ∃ queued, d.Supplies [] queued p.ahead
  sequential : d.sequential = false
  content : d.medium.data.content = p.content
  writable : d.medium.writable = p.writable
  pos : d.pos = p.pos
  transaction : d.transaction = p.begun.elim .idle .onRandomAccess
  begun : ∀ place, p.begun = some place → place ≤ p.content.length
  mode : ∃ unbuffered, d.mode = .forReading p.writable false unbuffered
  possible : d.config.bufferSize < Word.requestLimit

private theorem take_eq_of_split {s b t : List UInt8} {n : Nat} (split : s = b ++ t) (fits : b.length ≤ n)
    (done : b.length = n ∨ t = []) : s.take n = b := by
  rcases done with full | rfl
  · rw [split, ← full, List.take_left]
  · rw [split, List.append_nil, List.take_of_length_le fits]

variable {d e : Device Medium.Memory} {p : Plain}

namespace Mirrors

private theorem ready (mirrors : Mirrors d p) : d.Ready [] p.ahead := by
  obtain ⟨queued, has⟩ := mirrors.supplies
  refine ⟨⟨queued, has⟩, ?_, ?_, ?_⟩
  · rw [cursor, mirrors.transaction]
    cases p.begun <;> rfl
  · rw [mirrors.transaction, mirrors.sequential]
    cases p.begun with
    | none => trivial
    | some place => rfl
  · obtain ⟨-, inside, small, -⟩ := has.placed mirrors.sequential
    have := Word.maxValue_lt_modulus
    omega

private theorem isOpen (mirrors : Mirrors d p) : d.isOpen = true := by
  obtain ⟨unbuffered, mode⟩ := mirrors.mode
  rw [Device.isOpen, mode]
  cases p.writable <;> cases unbuffered <;> rfl

private theorem able (mirrors : Mirrors d p) : d.readObstacle? = none := by
  obtain ⟨unbuffered, mode⟩ := mirrors.mode
  rw [readObstacle?, mirrors.isOpen, mode]
  rfl

private theorem plain (mirrors : Mirrors d p) : d.isText = false := by
  obtain ⟨unbuffered, mode⟩ := mirrors.mode
  rw [isText, mode]
  rfl

private theorem inside (mirrors : Mirrors d p) : p.pos ≤ p.content.length ∧ p.content.length ≤ Word.maxValue := by
  obtain ⟨queued, has⟩ := mirrors.supplies
  obtain ⟨-, inside, small, -⟩ := has.placed mirrors.sequential
  have content : Medium.Source.content d.medium = p.content := mirrors.content
  rw [content] at inside small
  rw [mirrors.pos] at inside
  exact ⟨by omega, small⟩

private theorem short (mirrors : Mirrors d p) : ([] : List UInt8).length + p.ahead.length ≤ Word.maxValue := by
  obtain ⟨-, small⟩ := mirrors.inside
  rw [Plain.ahead, List.length_drop, List.length_nil]
  omega

/-- Nothing was put back: all that is in store stands in the contents. -/
private theorem standing (mirrors : Mirrors d p) : d.Stands 0 p.ahead := by
  have content : Medium.Source.content d.medium = p.content := mirrors.content
  intro _
  rw [content, mirrors.pos]
  rfl

/-- A call that reads or moves along what stands there shows the list elsewhere. -/
private theorem of_kin (mirrors : Mirrors d p) (kin : d.Kin e) {place : Nat}
    (supplies : ∃ queued, e.Supplies [] queued (p.content.drop place)) (pos : e.pos = place) :
    Mirrors e { p with pos := place } := by
  have data : e.medium.data = d.medium.data := kin.medium.1
  have writable : e.medium.writable = d.medium.writable := kin.medium.2
  refine ⟨supplies, kin.sequential.trans mirrors.sequential, ?_, writable.trans mirrors.writable, pos,
    kin.transaction.trans mirrors.transaction, mirrors.begun, ?_, ?_⟩
  · rw [data]
    exact mirrors.content
  · obtain ⟨unbuffered, mode⟩ := mirrors.mode
    exact ⟨unbuffered, kin.mode.trans mode⟩
  · rw [kin.config]
    exact mirrors.possible

/-- After bytes were read the device shows the list further on. -/
private theorem reads (mirrors : Mirrors d p) {raw t : List UInt8} (reads : d.Reads e [] raw t)
    (split : p.ahead = raw ++ t) :
    Mirrors e (p.advance raw.length) := by
  obtain ⟨queued, has⟩ := reads.ready.supplies
  obtain ⟨inside, small⟩ := mirrors.inside
  have goes := keeps_of_random mirrors.sequential
  have same : e.transaction = d.transaction := by
    rw [reads.transaction, mirrors.transaction]
    cases p.begun <;> rfl
  have kin := reads.kin
  rw [← same] at kin
  rw [goes] at has
  have ahead : p.content.drop (p.pos + raw.length) = t := by
    rw [← List.drop_drop]
    show p.ahead.drop raw.length = t
    rw [split, List.drop_left]
  refine mirrors.of_kin kin ⟨queued, ahead ▸ has⟩ ?_
  have long := congrArg List.length split
  rw [Plain.ahead, List.length_drop, List.length_append] at long
  have := Word.maxValue_lt_modulus
  rw [reads.pos, mirrors.pos, Word.addWrapped_of_lt (by omega)]

private theorem moveTo (mirrors : Mirrors d p) {place : Nat} (inside : place ≤ p.content.length) :
    Mirrors (d.moveTo place) { p with pos := place } := by
  obtain ⟨queued, has⟩ := mirrors.supplies
  have content : Medium.Source.content d.medium = p.content := mirrors.content
  rw [← content] at inside
  obtain ⟨queued', t, has', kin, pos, stands⟩ := moveTo_supplies has mirrors.sequential place inside
  have kept : Medium.Source.content (d.moveTo place).medium = p.content :=
    (Medium.Source.content_of_kept kin.medium rfl).trans content
  have here : t = p.content.drop place := by
    have standing := stands 0 mirrors.standing (kin.sequential.trans mirrors.sequential)
    rwa [kept, pos, Nat.zero_sub, List.drop_zero, Nat.add_zero] at standing
  exact mirrors.of_kin kin ⟨queued', here ▸ has'⟩ pos

/-- What is asked for comes as it is, and nothing fails. -/
private theorem delivers (mirrors : Mirrors d p) {room : Nat} {done : List UInt8 → List UInt8 → Prop}
    {result : Except Failure (List UInt8) × Device Medium.Memory} (delivers : d.Delivers [] p.ahead room done result) :
    ∃ bytes t e, result = (.ok bytes, e) ∧ p.ahead = bytes ++ t ∧ bytes.length ≤ room ∧ done bytes t ∧
      Mirrors e (p.advance bytes.length) := by
  obtain ⟨failure | bytes, e⟩ := result
  · exact absurd trivial delivers.2
  · obtain ⟨raw, t, portion, done, reads⟩ := delivers
    have same := portion.shows fun _ => trivial
    rw [mirrors.plain] at same
    obtain rfl : bytes = raw := same
    exact ⟨bytes, t, e, rfl, portion.split, portion.fits, done, mirrors.reads reads portion.split⟩

private theorem fills (mirrors : Mirrors d p) {room : Nat} {result : Except Failure (List UInt8) × Device Medium.Memory}
    (delivers : d.Delivers [] p.ahead room (d.Fills room) result) :
    ∃ e, result = (.ok (p.ahead.take room), e) ∧ Mirrors e (p.advance (p.ahead.take room).length) := by
  obtain ⟨bytes, t, e, ok, split, fits, fills, next⟩ := mirrors.delivers delivers
  rw [take_eq_of_split split fits (fills trivial)]
  exact ⟨e, ok, next⟩

private theorem lines (mirrors : Mirrors d p) {room : Nat} {result : Except Failure (List UInt8) × Device Medium.Memory}
    (delivers : d.Delivers [] p.ahead room (d.EndsLine room) result) :
    ∃ e, result = (.ok (p.line room), e) ∧ Mirrors e (p.advance (p.line room).length) := by
  obtain ⟨bytes, t, e, ok, split, fits, ⟨one, ends⟩, next⟩ := mirrors.delivers delivers
  have line := one.eq_take_firstLine fits (ends trivial)
  rw [← split] at line
  rw [Plain.line, ← line]
  exact ⟨e, ok, next⟩

private theorem previews (mirrors : Mirrors d p) {room : Nat}
    {result : Except Failure (List UInt8) × Device Medium.Memory}
    (previews : d.Previews [] p.ahead room result) : ∃ e, result = (.ok (p.ahead.take room), e) ∧ Mirrors e p := by
  obtain ⟨failure | bytes, e⟩ := result
  · exact absurd trivial previews.2
  · obtain ⟨raw, t, u, portion, fills, looks⟩ := previews
    have same := portion.shows fun _ => trivial
    rw [mirrors.plain] at same
    obtain rfl : bytes = raw := same
    rw [take_eq_of_split portion.split portion.fits (fills trivial)]
    obtain rfl := looks.same mirrors.standing
    exact ⟨e, rfl, mirrors.reads looks.reads rfl⟩

/-- What is said of a failure changes nothing else. -/
private theorem told (mirrors : Mirrors d p) (errorString : String) :
    Mirrors { d with errorString := errorString } p := by
  obtain ⟨queued, has⟩ := mirrors.supplies
  exact mirrors.reads (mirrors.ready.stays (.refl d) has rfl errorString) rfl

end Mirrors

/-- Contents may change along with the position, if what stays queued is what stands there then. -/
private theorem Mirrors.changed (mirrors : Mirrors d p) {m : Medium.Memory} {q : ChunkQueue} {content : List UInt8}
    {place : Nat}
    (same : m.data.content = content) (cursor : m.cursor = place) (writable : m.writable = d.medium.writable)
    (wf : q.WellFormed) (copied : q.toList <+: content.drop place) (inside : place ≤ content.length)
    (longer : p.content.length ≤ content.length) (small : content.length ≤ Word.maxValue) :
    Mirrors { d with medium := m, pos := place, mediumPos := place, reading := d.reading.put q }
      { p with content := content, pos := place } := by
  obtain ⟨queued, has⟩ := mirrors.supplies
  have content_eq : Medium.Source.content m = content := same
  have few := copied.length_le
  rw [List.length_drop] at few
  refine ⟨⟨q.toList, trivial, has.kind, ?_, ?_, ?_, fun _ => ⟨?_, ?_, ?_, cursor⟩⟩,
    mirrors.sequential, same, writable.trans mirrors.writable, rfl, mirrors.transaction, ?_, mirrors.mode,
    mirrors.possible⟩
  · rwa [readQueue, Channels.queue_put]
  · rw [readQueue, Channels.queue_put]
    rfl
  · intro stream
    have stream : d.sequential = true := stream
    rw [mirrors.sequential] at stream
    cases stream
  · show content.drop place = q.toList ++ (Medium.Source.content m).drop (place + q.toList.length)
    obtain ⟨rest, behind⟩ := copied
    rw [content_eq, ← List.drop_drop, ← behind, List.drop_left]
  · show place + q.toList.length ≤ (Medium.Source.content m).length
    rw [content_eq]
    omega
  · show (Medium.Source.content m).length ≤ Word.maxValue
    rwa [content_eq]
  · intro start started
    exact Nat.le_trans (mirrors.begun start started) longer

/-! Writing -/

/-- The rest of what was read ahead is still what stands behind the bytes that were written. -/
private theorem Mirrors.overwritten (mirrors : Mirrors d p) {m : Medium.Memory} {bytes : List UInt8}
    (content : m.data.content = written p.content p.pos bytes) (cursor : m.cursor = p.pos + bytes.length)
    (writable : m.writable = d.medium.writable) (small : (written p.content p.pos bytes).length ≤ Word.maxValue) :
    Mirrors { d with
        medium := m
        pos := p.pos + bytes.length
        mediumPos := p.pos + bytes.length
        reading := d.reading.put (d.readQueue.free bytes.length) }
      { p with content := written p.content p.pos bytes, pos := p.pos + bytes.length } := by
  obtain ⟨queued, has⟩ := mirrors.supplies
  obtain ⟨inside, -⟩ := mirrors.inside
  obtain ⟨wf, left, -⟩ := ChunkQueue.free_spec has.wellFormed bytes.length
  rw [has.bytes, List.nil_append] at left
  have length := length_written inside bytes
  apply mirrors.changed content cursor writable wf
  · rw [left, drop_written inside, ← List.drop_drop]
    exact List.IsPrefix.drop has.queued_prefix bytes.length
  · rw [length]
    exact Nat.le_max_right ..
  · rw [length]
    exact Nat.le_max_left ..
  · exact small

private theorem Mirrors.writeObstacle? (mirrors : Mirrors d p) :
    d.writeObstacle? = if p.writable then none else some .notWritable := by
  obtain ⟨unbuffered, mode⟩ := mirrors.mode
  rw [Device.writeObstacle?, mirrors.isOpen, mode]
  cases p.writable <;> rfl

private theorem Mirrors.write (mirrors : Mirrors d p) (writable : p.writable = true) (bytes : List UInt8)
    (small : (written p.content p.pos bytes).length ≤ Word.maxValue) :
    ∃ e, d.write bytes = (.ok bytes.length, e) ∧
      Mirrors e { p with content := written p.content p.pos bytes, pos := p.pos + bytes.length } := by
  obtain ⟨queued, has⟩ := mirrors.supplies
  obtain ⟨inside, -⟩ := mirrors.inside
  have able : d.writeObstacle? = none := by rw [mirrors.writeObstacle?, if_pos writable]
  by_cases none : bytes.isEmpty = true
  · obtain rfl := List.isEmpty_iff.mp none
    rw [written_nil, Device.write, able]
    exact ⟨d, rfl, mirrors⟩
  · obtain ⟨d', m, has', kin, pos, content, cursor, writable', -, wrote⟩ :=
      write_overlays has mirrors.sequential able none
    rw [outgoing_plain mirrors.plain] at content cursor wrote
    have mirrors' : Mirrors d' p := mirrors.of_kin kin ⟨queued, has'⟩ (pos.trans mirrors.pos)
    have fits : p.pos + bytes.length < Word.modulus := by
      have := length_written inside bytes
      have := Word.maxValue_lt_modulus
      omega
    have moved : Word.addWrapped d.pos bytes.length = p.pos + bytes.length := by
      rw [mirrors.pos, Word.addWrapped_of_lt fits]
    rw [mirrors.content, mirrors.pos] at content
    rw [mirrors.pos] at cursor
    rw [wrote (by omega), moved]
    exact ⟨_, rfl, mirrors'.overwritten content cursor (writable'.trans kin.medium.2.symm) small⟩

private theorem Mirrors.write_refused (mirrors : Mirrors d p) (fixed : ¬ p.writable = true) (bytes : List UInt8) :
    d.write bytes = d.refuse .notWritable "write" := by
  rw [Device.write, mirrors.writeObstacle?, if_neg fixed]

/-! Moving -/

private theorem Mirrors.seek (mirrors : Mirrors d p) {place : Nat}
    (allowed : place ≤ p.content.length ∨ p.writable = true)
    (small : (padded p.content place).length ≤ Word.maxValue) :
    ∃ e, d.seek place = (.ok (), e) ∧ Mirrors e { p with content := padded p.content place, pos := place } := by
  obtain ⟨queued, has⟩ := mirrors.supplies
  rw [Device.seek, if_neg (by simp [mirrors.isOpen]), if_neg (by simp [mirrors.sequential])]
  split
  · next within =>
    have inside : place ≤ p.content.length := by
      have prefix_le := has.queued_prefix.length_le
      rw [has.length_readQueue, List.length_nil, mirrors.pos] at within
      rw [Plain.ahead, List.length_drop] at prefix_le
      omega
    have same : padded p.content place = p.content := by
      rw [padded, Nat.sub_eq_zero_of_le inside, List.replicate_zero, List.append_nil]
    rw [same]
    exact ⟨_, rfl, mirrors.moveTo inside⟩
  · next outside =>
    obtain ⟨m, moved, content, cursor, writable⟩ := Medium.Memory.seek_eq d.heldBesideMedium d.medium place
      (by rwa [mirrors.content, mirrors.writable])
    rw [moved]
    rw [mirrors.content] at content
    have length := length_padded p.content place
    obtain ⟨wf, none⟩ := ChunkQueue.clear_spec d.readQueue
    refine ⟨_, rfl, mirrors.changed content cursor writable wf ?_ ?_ ?_ small⟩
    · rw [none]
      exact List.nil_prefix
    · rw [length]
      exact Nat.le_max_right ..
    · rw [length]
      exact Nat.le_max_left ..

/-! Calls -/

/-- The device answers as the list does, and shows what becomes of it. -/
def Agree (result : Except Failure Reply × Device Medium.Memory) (expected : Except Failure Reply × Plain) : Prop :=
  result.1.map Reply.shown = expected.1 ∧ Mirrors result.2 expected.2

private theorem Mirrors.refuse (mirrors : Mirrors d p) {α : Type} (f : α → Reply) (kind : FailureKind) (call : String) :
    Agree (answer f (d.refuse kind call)) (p.refuse kind call) := ⟨rfl, mirrors.told _⟩

private theorem agree_seek (mirrors : Mirrors d p) (place : Nat)
    (small : (p.seek place).2.content.length ≤ Word.maxValue) :
    Agree (answer (fun _ => .done) (d.seek place)) (p.seek place) := by
  rw [Plain.seek] at small ⊢
  split at small
  · next allowed =>
    rw [if_pos allowed]
    obtain ⟨e, moved, next⟩ := mirrors.seek allowed small
    rw [moved]
    exact ⟨rfl, next⟩
  · next refused =>
    rw [if_neg refused]
    obtain ⟨outside, fixed⟩ := not_or.mp refused
    obtain ⟨queued, has⟩ := mirrors.supplies
    have beyond : ¬ (d.pos ≤ place ∧ place - d.pos < d.readQueue.length) := by
      have prefix_le := has.queued_prefix.length_le
      rw [has.length_readQueue, List.length_nil, mirrors.pos]
      rw [Plain.ahead, List.length_drop] at prefix_le
      omega
    obtain ⟨message, failed⟩ := Medium.Memory.seek_refused d.heldBesideMedium d.medium place
      (by rwa [mirrors.content]) (by rw [mirrors.writable]; simpa using fixed)
    rw [Device.seek, if_neg (by simp [mirrors.isOpen]), if_neg (by simp [mirrors.sequential]), if_neg beyond, failed]
    exact mirrors.refuse _ .invalidPosition "seek"

private theorem agree_answer {α β : Type} {f : α → Reply} {g : α → β} (k : β → Reply)
    (same : ∀ a, (f a).shown = k (g a))
    {result : Except Failure α × Device Medium.Memory} {b : β} {q : Plain} (ok : (result.1.map g, result.2) = (.ok b, e))
    (next : Mirrors e q) : Agree (answer f result) (.ok (k b), q) := by
  obtain ⟨failure | a, e'⟩ := result
  · cases ok
  · obtain ⟨rfl, rfl⟩ : g a = b ∧ e' = e := by simpa [Except.map] using ok
    exact ⟨congrArg Except.ok (same a), next⟩

private theorem agree_write (mirrors : Mirrors d p) {f : Nat → Reply} (bytes : List UInt8)
    (same : ∀ n, (f n).shown = f n)
    (small : (p.write bytes (f bytes.length)).2.content.length ≤ Word.maxValue) :
    Agree (answer f (d.write bytes)) (p.write bytes (f bytes.length)) := by
  rw [Plain.write] at small ⊢
  split at small
  · next writable =>
    obtain ⟨e, wrote, next⟩ := mirrors.write writable bytes small
    rw [if_pos writable, wrote]
    exact ⟨congrArg Except.ok (same _), next⟩
  · next fixed =>
    rw [if_neg fixed, mirrors.write_refused fixed]
    exact mirrors.refuse _ .notWritable "write"

private theorem answer_putByte (d : Device Medium.Memory) (b : UInt8) :
    answer .flag (d.putByte b) = answer (fun n => .flag (n == 1)) (d.write [b]) := by
  rw [putByte]
  generalize d.write [b] = result
  obtain ⟨_ | _, _⟩ := result <;> rfl

private theorem Mirrors.line_readLine (mirrors : Mirrors d p) (n : Nat) :
    p.line (if n = 0 then Word.maxValue else n) = if n = 0 then Newline.firstLine p.ahead else p.line n := by
  split
  · have := mirrors.short
    have := (Newline.firstLine_prefix p.ahead).length_le
    rw [List.length_nil] at *
    exact List.take_of_length_le (by omega)
  · rfl

/-- A look never asks for less than there is. -/
private theorem Mirrors.take_peek (mirrors : Mirrors d p) (n : Nat) :
    p.ahead.take (min n (max d.bytesAvailable d.config.bufferSize)) = p.ahead.take n := by
  have available : p.ahead.length ≤ d.bytesAvailable := by
    have size : Medium.size d.medium = p.content.length := by
      rw [← mirrors.content]
      exact (Handle.length_content d.medium.data).symm
    rw [bytesAvailable, if_neg (by simp [mirrors.isOpen]), if_neg (by simp [mirrors.sequential]), size, mirrors.pos,
      Plain.ahead, List.length_drop]
    exact Nat.le_max_left ..
  rw [List.take_eq_take_iff]
  omega

/-! Transactions -/

private theorem Mirrors.begin (mirrors : Mirrors d p) (begun : Option Nat)
    (inside : ∀ place, begun = some place → place ≤ p.content.length) :
    Mirrors { d with transaction := begun.elim .idle .onRandomAccess } { p with begun := begun } := by
  obtain ⟨queued, has⟩ := mirrors.supplies
  exact ⟨⟨queued, has.apart _ d.errorString fun _ => rfl⟩, mirrors.sequential, mirrors.content, mirrors.writable,
    mirrors.pos, rfl, inside, mirrors.mode, mirrors.possible⟩

private theorem Mirrors.finish (mirrors : Mirrors d p) :
    Mirrors { d with transaction := .idle } { p with begun := none } :=
  mirrors.begin none fun _ here => absurd here.symm (Option.some_ne_none _)

private theorem agree_startTransaction (mirrors : Mirrors d p) :
    Agree (d.perform .startTransaction) (p.perform .startTransaction) := by
  have transaction := mirrors.transaction
  rw [Plain.perform, Device.perform, startTransaction, if_neg (by simp [mirrors.isOpen]), inTransaction]
  cases begun : p.begun with
  | some place =>
    rw [begun] at transaction
    rw [if_pos (by rw [transaction]; rfl)]
    exact mirrors.refuse _ .transactionActive "start_transaction"
  | none =>
    rw [begun] at transaction
    rw [if_neg (by rw [transaction]; exact Bool.false_ne_true)]
    have start : (if d.sequential then .onStream d.pos 0 else .onRandomAccess d.pos : Transaction) =
        .onRandomAccess p.pos := by
      rw [mirrors.sequential, mirrors.pos]
      rfl
    have inside : ∀ place, some p.pos = some place → place ≤ p.content.length := by
      intro place here
      rw [← Option.some.inj here]
      exact mirrors.inside.1
    dsimp only
    rw [start]
    exact ⟨rfl, mirrors.begin (some p.pos) inside⟩

private theorem agree_commit (mirrors : Mirrors d p) : Agree (d.perform .commit) (p.perform .commit) := by
  have transaction := mirrors.transaction
  rw [Plain.perform, Device.perform, commit]
  cases begun : p.begun with
  | some place =>
    rw [begun] at transaction
    rw [transaction]
    exact ⟨rfl, mirrors.finish⟩
  | none =>
    rw [begun] at transaction
    rw [transaction]
    exact mirrors.refuse _ .noTransaction "commit_transaction"

private theorem agree_rollback (mirrors : Mirrors d p) : Agree (d.perform .rollback) (p.perform .rollback) := by
  have transaction := mirrors.transaction
  rw [Plain.perform, Device.perform, rollback]
  cases begun : p.begun with
  | some place =>
    rw [begun] at transaction
    rw [transaction]
    exact ⟨rfl, (mirrors.moveTo (mirrors.begun place begun)).finish⟩
  | none =>
    rw [begun] at transaction
    rw [transaction]
    exact mirrors.refuse _ .noTransaction "rollback_transaction"

/-! Calls, one after the other -/

private theorem perform_agrees (mirrors : Mirrors d p) {action : Action} (known : Plain.Knows action)
    (small : (p.perform action).2.content.length ≤ Word.maxValue) : Agree (d.perform action) (p.perform action) := by
  cases action with
  | read n =>
    obtain ⟨e, ok, next⟩ := mirrors.fills (read_delivers mirrors.ready mirrors.able n mirrors.possible)
    exact agree_answer Reply.bytes (fun _ => rfl) ok next
  | readInto buffer =>
    obtain ⟨e, ok, next⟩ := mirrors.fills (readInto_delivers mirrors.ready mirrors.able buffer mirrors.possible)
    rw [Device.perform, ok]
    exact ⟨rfl, next⟩
  | readLine n =>
    obtain ⟨e, ok, next⟩ := mirrors.lines
      (readLine_delivers mirrors.ready mirrors.able mirrors.short mirrors.possible n)
    rw [mirrors.line_readLine] at ok next
    exact agree_answer Reply.bytes (fun _ => rfl) ok next
  | readLineInto room =>
    rw [Plain.perform]
    split
    · next few =>
      rw [Device.perform, readLineInto, mirrors.able]
      dsimp only
      rw [if_pos few]
      exact mirrors.refuse _ .invalidArgument "read_line"
    · next enough =>
      obtain ⟨e, ok, next⟩ := mirrors.lines
        (readLineInto_delivers mirrors.ready mirrors.able mirrors.short mirrors.possible (Nat.not_lt.mp enough))
      rw [Device.perform, ok]
      exact ⟨rfl, next⟩
  | getByte =>
    obtain ⟨e, ok, next⟩ := mirrors.fills (getByte_delivers mirrors.ready mirrors.able mirrors.possible)
    have first : (p.ahead.take 1).head? = p.ahead.head? := by
      cases p.ahead <;> rfl
    have agree := agree_answer (f := Reply.byte) (fun bytes => .byte bytes.head?) (fun b => by cases b <;> rfl) ok next
    rwa [first] at agree
  | peek n =>
    obtain ⟨e, ok, next⟩ := mirrors.previews (peek_previews mirrors.ready mirrors.able n mirrors.possible)
    rw [mirrors.take_peek] at ok
    exact agree_answer Reply.bytes (fun _ => rfl) ok next
  | peekInto buffer =>
    obtain ⟨e, ok, next⟩ := mirrors.previews (peekInto_previews mirrors.ready mirrors.able buffer mirrors.possible)
    rw [Device.perform, ok]
    exact ⟨rfl, next⟩
  | skip n =>
    obtain ⟨e, ok, reads⟩ := skip_eq mirrors.ready mirrors.able mirrors.sequential mirrors.plain n
    rw [Device.perform, ok]
    exact ⟨rfl, mirrors.reads reads (List.take_append_drop n p.ahead).symm⟩
  | seek place => exact agree_seek mirrors place small
  | reset => exact agree_seek mirrors 0 small
  | write bytes => exact agree_write mirrors bytes (fun _ => rfl) small
  | putByte b =>
    rw [Device.perform, answer_putByte]
    exact agree_write mirrors [b] (fun _ => rfl) small
  | startTransaction => exact agree_startTransaction mirrors
  | commit => exact agree_commit mirrors
  | rollback => exact agree_rollback mirrors
  | _ => exact absurd known not_false

/-- Along a run the device answers as the list does. -/
private theorem performAll_agrees (mirrors : Mirrors d p) (actions : List Action)
    (known : ∀ action ∈ actions, Plain.Knows action)
    (small : p.StaysSmall actions) :
    (d.performAll actions).1.map (Except.map Reply.shown) = (p.performAll actions).1 ∧
      Mirrors (d.performAll actions).2 (p.performAll actions).2 := by
  induction actions generalizing d p with
  | nil => exact ⟨rfl, mirrors⟩
  | cons action rest ih =>
    obtain ⟨-, later⟩ := small
    obtain ⟨reply, next⟩ := perform_agrees mirrors (known action List.mem_cons_self) later.now
    obtain ⟨replies, last⟩ := ih next (fun action member => known action (List.mem_cons_of_mem _ member)) later
    refine ⟨?_, last⟩
    rw [Device.performAll, Plain.performAll, List.map_cons, reply, replies]

private theorem open_mirrors (h : Handle) (config : Config) (writable unbuffered : Bool)
    (small : h.content.length ≤ Word.maxValue) (possible : config.bufferSize < Word.requestLimit) :
    ∃ d, (ofMedium (Medium.Memory.ofHandle h) config).openWith (.forReading writable false unbuffered) = (.ok (), d) ∧
      Mirrors d ⟨h.content, 0, none, writable⟩ := by
  obtain ⟨d, opened, ready, -, mode, same, idle, start, random, medium⟩ :=
    open_memory h config writable false unbuffered small
  have normal : d.config.bufferSize < Word.requestLimit := by
    rw [same]
    exact bufferSize_normalize possible
  exact ⟨d, opened, ready.supplies, random, by rw [medium], by rw [medium], start, idle,
    fun _ here => absurd here.symm (Option.some_ne_none _), ⟨unbuffered, mode⟩, normal⟩

/-- A device opened on memory, for reading or for both, answers every call as the plain list with a
position does: what was read ahead, how much the buffer holds and whether it is used show in no reply. -/
theorem memory_refines_plain (h : Handle) (config : Config) (possible : config.bufferSize < Word.requestLimit)
    (writable unbuffered : Bool) (actions : List Action) (known : ∀ action ∈ actions, Plain.Knows action)
    (small : Plain.StaysSmall ⟨h.content, 0, none, writable⟩ actions) :
    ∃ d, (ofMedium (Medium.Memory.ofHandle h) config).openWith (.forReading writable false unbuffered) = (.ok (), d) ∧
      (d.performAll actions).1.map (Except.map Reply.shown) =
        (Plain.performAll ⟨h.content, 0, none, writable⟩ actions).1 ∧
      (d.performAll actions).2.pos = (Plain.performAll ⟨h.content, 0, none, writable⟩ actions).2.pos ∧
      (d.performAll actions).2.medium.data.content =
        (Plain.performAll ⟨h.content, 0, none, writable⟩ actions).2.content ∧
      (d.performAll actions).2.transaction =
        (Plain.performAll ⟨h.content, 0, none, writable⟩ actions).2.begun.elim .idle .onRandomAccess := by
  obtain ⟨d, opened, mirrors⟩ := open_mirrors h config writable unbuffered small.now possible
  obtain ⟨replies, last⟩ := performAll_agrees mirrors actions known small
  exact ⟨d, opened, replies, last.pos, last.content, last.transaction⟩

/-- Calls that go past the end, write in what was read ahead, fail, and take back what they read. -/
def allCalls : List Action :=
  [.peek 3, .read 2, .write [7, 8], .getByte, .seek 9, .putByte 5, .startTransaction, .seek 1, .readLine 0,
    .startTransaction, .rollback, .rollback, .readLineInto 1, .reset, .skip 4, .peekInto [0, 0], .commit,
    .readInto [0, 0, 0], .readLineInto 9]

theorem memory_refines_plain_allCalls :
    ∃ d, (ofMedium (Medium.Memory.ofHandle (Handle.ofFixed [] [1, 2, 3, 4, 10, 6])) ⟨2, 1, 0, false⟩).openWith
        (.forReading true false false) = (.ok (), d) ∧
      (d.performAll allCalls).1.map (Except.map Reply.shown) =
        [.ok (.bytes [1, 2, 3]), .ok (.bytes [1, 2]), .ok (.size 2), .ok (.byte (some 10)), .ok .done, .ok (.flag true),
          .ok .done, .ok .done, .ok (.bytes [2, 7, 8, 10]),
          .error ((Failure.ofKind .transactionActive).withMessage "start_transaction"), .ok .done,
          .error ((Failure.ofKind .noTransaction).withMessage "rollback_transaction"),
          .error ((Failure.ofKind .invalidArgument).withMessage "read_line"), .ok .done, .ok (.size 4),
          .ok (.bytes [10, 6]), .error ((Failure.ofKind .noTransaction).withMessage "commit_transaction"),
          .ok (.bytes [10, 6, 0]), .ok (.bytes [0, 0, 5])] ∧
      (d.performAll allCalls).2.pos = 10 ∧
      (d.performAll allCalls).2.medium.data.content = [1, 2, 7, 8, 10, 6, 0, 0, 0, 5] := by
  obtain ⟨d, opened, replies, pos, content, -⟩ := memory_refines_plain (Handle.ofFixed [] [1, 2, 3, 4, 10, 6])
    ⟨2, 1, 0, false⟩ (by decide) true false allCalls (by simp [allCalls, Plain.Knows]) (by decide)
  exact ⟨d, opened, replies, pos, content⟩

end Device

end ByteFlow
