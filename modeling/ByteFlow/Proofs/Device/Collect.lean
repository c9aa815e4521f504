import ByteFlow.Proofs.Device.Pass

/-! A whole reading pass shows the bytes that it takes, without what text mode drops of them.
What is dropped makes room, so that the pass goes on; what is decided then is more than before. -/
namespace ByteFlow.Device
open Medium

/-- What the caller sees of bytes of the medium. -/
def shown (text : Bool) (raw : List UInt8) : List UInt8 := if text then Newline.normalize raw else raw

@[simp] theorem shown_nil (text : Bool) : shown text [] = [] := by
  cases text <;> rfl

theorem shown_eq_nil_iff (text : Bool) (raw : List UInt8) : shown text raw = [] ↔ raw = [] := by
  cases text with
  | false => exact Iff.rfl
  | true => exact Newline.normalize_eq_nil_iff raw

theorem length_shown_le (text : Bool) (raw : List UInt8) : (shown text raw).length ≤ raw.length := by
  cases text with
  | false => exact Nat.le_refl _
  | true => exact Newline.length_normalize_le raw

theorem getLast?_shown (text : Bool) (raw : List UInt8) : (shown text raw).getLast? = raw.getLast? := by
  cases text with
  | false => rfl
  | true => exact Newline.getLast?_normalize raw

namespace Pass

/-- The buffer of a size shows the bytes `raw`, and nothing else is in it. -/
structure Holds (text : Bool) (room : Nat) (p : Pass) (raw : List UInt8) : Prop where
  filled : p.filled = shown text raw
  room : p.filled.length + p.spare.length = room
  consumed : p.consumed = raw.length
  decided : text = true → p.decided = Newline.decided p.filled

variable {keep text : Bool} {room : Nat} {p q : Pass} {raw b before : List UInt8}

theorem Holds.start (text : Bool) (buffer : List UInt8) (offset : Nat) :
    (Pass.start buffer offset).Holds text buffer.length [] :=
  ⟨(shown_nil text).symm, Nat.zero_add _, rfl, fun _ => rfl⟩

/-- Without text mode, or if nothing was read, there is nothing to drop. -/
private theorem Holds.accept (holds : p.Holds text room raw) (accepts : Accepts keep p q b)
    (plain : text = true → b = []) : q.Holds text room (raw ++ b) := by
  refine ⟨?_, ?_, ?_, fun drops => ?_⟩
  · rw [accepts.filled, holds.filled]
    cases text with
    | false => rfl
    | true => rw [plain rfl, List.append_nil, List.append_nil]
  · have := accepts.spare
    have := holds.room
    rw [accepts.filled, List.length_append]
    omega
  · rw [accepts.consumed, holds.consumed, List.length_append]
  · rw [accepts.decided, accepts.filled, plain drops, List.append_nil]
    exact holds.decided drops

/-- Dropping normalizes what is not decided, in place. -/
theorem strip_spec (p : Pass) (inner : p.decided ≤ p.filled.length) :
    p.strip.filled = p.filled.take p.decided ++ Newline.normalize (p.filled.drop p.decided) ∧
      p.strip.filled.length + p.strip.spare.length = p.filled.length + p.spare.length ∧
      p.strip.decided = Newline.decided p.strip.filled ∧ p.strip.consumed = p.consumed ∧
      p.strip.offset = p.offset ∧ p.strip.atEnd = p.atEnd := by
  obtain ⟨size, stop_eq, bytes⟩ := Newline.stripInPlace_spec (p.filled ++ p.spare).toArray p.decided
    p.filled.length inner (by simp)
  rw [List.toList_toArray, List.take_left] at stop_eq bytes
  rw [List.take_append_of_le_length inner] at bytes
  rw [strip]
  generalize Newline.stripInPlace (p.filled ++ p.spare).toArray p.decided p.filled.length = result at *
  obtain ⟨buffer, stop⟩ := result
  dsimp only at size stop_eq bytes ⊢
  have shorter := Newline.length_normalize_le (p.filled.drop p.decided)
  rw [List.length_drop] at shorter
  have size : buffer.toList.length = (p.filled ++ p.spare).length := size
  rw [List.length_append] at size
  have length : (buffer.toList.take stop).length = stop := by
    rw [List.length_take, size]
    omega
  refine ⟨bytes, ?_, ?_, rfl, rfl, rfl⟩
  · rw [length, List.length_drop, size]
    omega
  · rw [Newline.decided, length]
    simp only [endsOpen, beq_iff_eq]

/-- Dropping goes on behind what is decided and comes to what dropping from all the bytes at once does. -/
theorem strip_filled (shows : p.filled = Newline.normalize raw) (decides : p.decided = Newline.decided p.filled)
    (filled : q.filled = p.filled ++ b) (decided : q.decided = p.decided) :
    q.strip.filled = Newline.normalize (raw ++ b) := by
  have final := Newline.decided_le p.filled
  obtain ⟨stripped, -⟩ := q.strip_spec (by rw [decided, filled, List.length_append]; omega)
  rw [stripped, decided, filled, List.take_append_of_le_length (by omega), List.drop_append_of_le_length (by omega),
    decides, shows]
  exact (Newline.normalize_append_decided raw b).symm

/-- Dropping goes on from what was decided before. If it drops anything, more is decided. -/
private theorem Holds.strip (holds : p.Holds true room raw) (accepts : Accepts keep p q b) :
    q.strip.Holds true room (raw ++ b) ∧ q.strip.offset = q.offset ∧ q.strip.atEnd = q.atEnd ∧
      q.strip.filled.length ≤ q.filled.length ∧
      (q.strip.filled.length < q.filled.length → p.decided < q.strip.decided) := by
  have start : p.decided = Newline.decided p.filled := holds.decided rfl
  have final := Newline.decided_le p.filled
  have long := congrArg List.length accepts.filled
  rw [List.length_append] at long
  obtain ⟨filled, room_eq, decided, consumed, offset, atEnd⟩ := q.strip_spec (by rw [accepts.decided]; omega)
  rw [accepts.decided] at filled
  have shorter := Newline.length_normalize_le (q.filled.drop p.decided)
  have parts := congrArg List.length filled
  rw [List.length_append, List.length_take] at parts
  rw [List.length_drop] at shorter
  refine ⟨⟨?_, ?_, ?_, fun _ => decided⟩, offset, atEnd, by omega, fun lost => ?_⟩
  · exact strip_filled holds.filled start accepts.filled accepts.decided
  · have := accepts.spare
    have := holds.room
    omega
  · rw [consumed, accepts.consumed, holds.consumed, List.length_append]
  · have feed : Byte.lineFeed ∈ Newline.normalize (q.filled.drop p.decided) := by
      apply Newline.lineFeed_mem_normalize
      rw [List.length_drop]
      omega
    have more := Newline.lt_decided (q.filled.take p.decided) feed
    rw [← filled, ← decided, List.length_take] at more
    omega

end Pass

variable {σ : Type} [Medium σ] [Source σ] {keep : Bool} {d : Device σ} {before queued raw s : List UInt8}

/-! Collecting -/

/-- First comes what is queued, and then what the medium has. -/
private theorem takeQueued_gather_moves {p : Pass} (has : d.Supplies before queued s) (aligned : p.Aligned keep before)
    (possible : d.config.bufferSize < Word.requestLimit)
    (ended : Source.Prompt d.medium → p.atEnd = true → queued = s) :
    ∃ p' d', d.takeQueued keep p = (p', d') ∧
      ((∃ q e b more t, d'.gather keep p' = (.ok q, e) ∧ Gathered keep d e p q before b more s t ∧
        Drains queued b more) ∨
      ∃ err e, d'.gather keep p' = (.error err, e) ∧ p.filled = [] ∧ queued = [] ∧
        Moved keep d e before [] [] s ∧ ¬ Source.Steady d.medium) := by
  obtain ⟨p', d', t, took, cut, accepts, at_end, moved⟩ := takeQueued_moves has aligned
  refine ⟨p', d', took, ?_⟩
  have emptied : p'.spare = [] ∨ queued.drop p.spare.length = [] := by
    have := accepts.spare
    rw [List.length_take] at this
    rcases Nat.le_total p.spare.length queued.length with small | large
    · exact .inl (List.length_eq_zero_iff.mp (by omega))
    · exact .inr (List.drop_eq_nil_of_le large)
  have small : d'.config.bufferSize < Word.requestLimit := by
    rw [moved.kin.config]
    exact possible
  have ended' : Source.Prompt d'.medium → p'.atEnd = true → queued.drop p.spare.length = t := by
    intro pr stop
    have all := ended (moved.kin.prompt_iff.mp pr) (at_end ▸ stop)
    rw [← all] at cut
    conv at cut => lhs; rw [← List.take_append_drop p.spare.length queued]
    exact List.append_cancel_left cut
  rcases gather_moves moved.supplies (aligned.accept accepts) emptied small ended' with
    ⟨q, e, b, more, u, gathered, result, drains⟩ | ⟨err, e, gathered, nothing, none, result, unsteady⟩
  · left
    refine ⟨q, e, queued.take p.spare.length ++ b, more, u, gathered, ⟨?_, accepts.trans result.accepts,
      moved.trans result.moved, result.done, ?_, fun pr => result.prompt (moved.kin.prompt_iff.mpr pr)⟩, ?_⟩
    · rw [cut, result.split, List.append_assoc]
    · intro st room going some none
      obtain ⟨none_queued, none_read⟩ := List.append_eq_nil_iff.mp none
      rw [none_queued, List.nil_append] at cut
      have room' : p'.spare ≠ [] := by
        have := accepts.spare
        rw [none_queued, List.length_nil, Nat.add_zero] at this
        exact List.ne_nil_of_length_pos (this ▸ List.length_pos_of_ne_nil room)
      exact result.steady (moved.kin.steady_iff.mpr st) room' (at_end.trans going) (cut ▸ some) none_read
    · have drains := drains.behind (queued.take p.spare.length)
      rwa [List.take_append_drop] at drains
  · right
    rw [accepts.filled] at nothing
    obtain ⟨nothing, none_queued⟩ := List.append_eq_nil_iff.mp nothing
    rw [none_queued] at moved cut result
    have := moved.trans result
    rw [cut]
    refine ⟨err, e, gathered, nothing, ?_, this, fun st => unsteady (moved.kin.steady_iff.mpr st)⟩
    rw [← List.take_append_drop p.spare.length queued, none_queued, none]
    rfl

/-- What collecting comes to: the bytes `b` of `s` were taken behind `raw`, and the buffer shows them. -/
structure Collected (keep : Bool) (d e : Device σ) (room : Nat) (p q : Pass)
    (before raw b queued s t : List UInt8) : Prop where
  split : s = b ++ t
  holds : q.Holds d.isText room (raw ++ b)
  aligned : q.Aligned keep (stay keep before b)
  moved : Moved keep d e before b queued t
  steady : Source.Steady d.medium → p.spare ≠ [] → p.atEnd = false → s ≠ [] → b ≠ []
  prompt : Source.Prompt d.medium → q.spare = [] ∨ t = []

/-- What was collected later comes behind what was gathered before. -/
private theorem Collected.after {room : Nat} {p next q : Pass} {e f : Device σ} {b c rest more t u : List UInt8}
    (split : s = b ++ t) (moved : Moved keep d e before b rest t)
    (steady : Source.Steady d.medium → p.spare ≠ [] → p.atEnd = false → s ≠ [] → b ≠ [])
    (further : Collected keep e f room next q (stay keep before b) (raw ++ b) c more t u) :
    Collected keep d f room p q before raw (b ++ c) more s u := by
  have holds := further.holds
  have aligned := further.aligned
  rw [moved.kin.isText, List.append_assoc] at holds
  rw [stay_append] at aligned
  refine ⟨?_, holds, aligned, moved.trans further.moved, ?_, fun pr => further.prompt (moved.kin.prompt_iff.mpr pr)⟩
  · rw [split, further.split, List.append_assoc]
  · intro st room going some
    exact List.append_ne_nil_of_left_ne_nil (steady st room going some) c

/-- A pass that text mode makes no room in stops. -/
private theorem strip_full {room : Nat} {p q : Pass} {b : List UInt8} (holds : q.strip.Holds true room (raw ++ b))
    (shorter : q.strip.filled.length ≤ q.filled.length)
    (decides : q.strip.filled.length < q.filled.length → p.decided < q.strip.decided)
    (stops : ¬ (q.strip.filled.length < q.filled.length ∧ p.decided < q.strip.decided ∧ p.decided < room)) :
    q.strip.filled.length = q.filled.length := by
  by_contra other
  have lost := Nat.lt_of_le_of_ne shorter other
  have := holds.room
  have := Newline.decided_le q.strip.filled
  rw [← holds.decided rfl] at this
  exact stops ⟨lost, decides lost, Nat.lt_of_lt_of_le (decides lost) (by omega)⟩

/-- Collecting goes on as long as text mode makes room. -/
theorem collect_moves {room : Nat} {p : Pass} (has : d.Supplies before queued s) (aligned : p.Aligned keep before)
    (holds : p.Holds d.isText room raw) (possible : d.config.bufferSize < Word.requestLimit)
    (ended : Source.Prompt d.medium → p.atEnd = true → queued = s) :
    (∃ q e b more t, d.collect keep room p = (.ok q, e) ∧ Collected keep d e room p q before raw b more s t ∧
      (q.spare = [] ∨ queued <+: b)) ∨
    ∃ err e, d.collect keep room p = (.error err, e) ∧ raw = [] ∧ queued = [] ∧
      Moved keep d e before [] [] s ∧ ¬ Source.Steady d.medium := by
  induction left : room - p.decided using Nat.strongRecOn generalizing p d before queued raw s with
  | ind _ ih =>
    subst left
    rw [collect]
    obtain ⟨p', d', took, ⟨q, e, b, more, t, gathered, result, drains⟩ | ⟨err, e, gathered, nothing, none, moved, unsteady⟩⟩ :=
      takeQueued_gather_moves has aligned possible ended
    · left
      rw [took]
      dsimp only
      rw [gathered]
      dsimp only
      have accepts := result.accepts
      split
      · next drops =>
        rw [result.moved.kin.isText, Bool.and_eq_true_iff, decide_eq_true_iff] at drops
        obtain ⟨text, undecided⟩ := drops
        rw [text] at holds
        obtain ⟨holds', offset, at_end, shorter, decides⟩ := holds.strip accepts
        have aligned' : q.strip.Aligned keep (stay keep before b) := by
          have := aligned.accept accepts
          rwa [Pass.Aligned, offset]
        split
        · next goes =>
          have small : e.config.bufferSize < Word.requestLimit := by
            rw [result.moved.kin.config]
            exact possible
          have ended' : Source.Prompt e.medium → q.strip.atEnd = true → more = t := by
            intro pr stop
            exact (result.prompt (result.moved.kin.prompt_iff.mp pr)).1 (at_end ▸ stop)
          have holds'' : q.strip.Holds e.isText room (raw ++ b) := by rwa [result.moved.kin.isText, text]
          rcases ih _ (by omega) result.moved.supplies aligned' holds'' small ended' rfl with
            ⟨q', f, b', more', u, collected, further, drains'⟩ | ⟨err, f, -, nothing, -⟩
          · refine ⟨q', f, b ++ b', more', u, collected, .after result.split result.moved result.steady further, ?_⟩
            exact drains'.imp_right drains.append
          · -- What was not decided was read.
            obtain ⟨rfl, rfl⟩ := List.append_eq_nil_iff.mp nothing
            rw [accepts.filled, holds.filled, shown_nil] at undecided
            cases undecided
        · next stops =>
          have same := strip_full holds' shorter decides stops
          have still : q.spare = [] → q.strip.spare = [] := by
            intro full
            have := holds'.room
            have := holds.room
            have := accepts.spare
            have := congrArg List.length accepts.filled
            rw [List.length_append] at this
            rw [full, List.length_nil] at *
            exact List.length_eq_zero_iff.mp (by omega)
          exact ⟨_, e, b, more, t, rfl, ⟨result.split, text ▸ holds', aligned', result.moved, result.steady,
            fun pr => (result.prompt pr).2.imp_left still⟩, result.done.imp still drains.all⟩
      · next plain =>
        rw [result.moved.kin.isText, Bool.and_eq_true_iff, decide_eq_true_iff, not_and] at plain
        have none : d.isText = true → b = [] := by
          intro text
          have undecided := plain text
          have := holds.decided text
          have := Newline.decided_le p.filled
          rw [accepts.decided, accepts.filled, List.length_append] at undecided
          exact List.length_eq_zero_iff.mp (by omega)
        exact ⟨q, e, b, more, t, rfl, ⟨result.split, holds.accept accepts none, aligned.accept accepts, result.moved,
          result.steady, fun pr => (result.prompt pr).2⟩, result.done.imp_right drains.all⟩
    · right
      rw [took]
      dsimp only
      rw [gathered]
      refine ⟨err, e, rfl, ?_, none, moved, unsteady⟩
      rw [holds.filled] at nothing
      exact (shown_eq_nil_iff ..).mp nothing

end ByteFlow.Device
