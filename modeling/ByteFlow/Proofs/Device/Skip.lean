import ByteFlow.Proofs.Device.Read

/-! Discarding bytes.
A stream is skipped by dropping what is queued and reading the rest into a buffer that nobody sees; in
memory the position moves past what stands there. In text mode what counts is what a read would show. -/
namespace ByteFlow.Device
open Medium

variable {σ : Type} [Medium σ] [Source σ] {d e f : Device σ} {room : Nat} {before raw s t : List UInt8}

/-- The result of a call that discards up to `room` bytes is the number of those that a read would give. -/
def Passes (d : Device σ) (before s : List UInt8) (room : Nat) : Except Failure Nat × Device σ → Prop
  | (.ok count, e) => ∃ bytes raw t, bytes.length = count ∧ d.Portion room s raw t bytes ∧ d.Fills room bytes t ∧
      d.Reads e before raw t
  | (.error _, e) => d.Reads e before [] s ∧ ¬ Source.Steady d.medium

private theorem Passes.none (ready : d.Ready before s) : d.Passes before s 0 (.ok 0, d) := by
  have none : d.Delivers before s 0 (d.Fills 0) (.ok [], d) := .none ready fun _ => .inl rfl
  obtain ⟨raw, t, portion, fills, reads⟩ := none
  exact ⟨[], raw, t, rfl, portion, fills, reads⟩

/-- After bytes that did not fill the room, a call goes on with the next ones. -/
private theorem Passes.append {bytes : List UInt8} {count : Nat} (small : bytes.length ≤ room)
    (portion : d.Portion bytes.length s raw t bytes) (reads : d.Reads e before raw t)
    (further : e.Passes (stay (d.keeps false) before raw) t (room - bytes.length) (.ok count, f)) :
    d.Passes before s room (.ok (bytes.length + count), f) := by
  obtain ⟨rest, raw', u, rfl, portion', fills, reads'⟩ := further
  have all := portion.append reads portion'
  rw [Nat.add_sub_cancel' small] at all
  refine ⟨bytes ++ rest, raw ++ raw', u, List.length_append, all, fun pr => ?_, reads.trans reads'⟩
  refine (fills (reads.prompt_iff.mpr pr)).imp_left fun full => ?_
  rw [List.length_append, full, Nat.add_sub_cancel' small]

/-- If going on fails, what came first counts. -/
private theorem Passes.ended {bytes : List UInt8} {more : Nat} {failure : Failure} (small : bytes.length ≤ room)
    (portion : d.Portion bytes.length s raw t bytes) (some : bytes ≠ []) (reads : d.Reads e before raw t)
    (further : e.Passes (stay (d.keeps false) before raw) t more (.error failure, f)) :
    d.Passes before s room (.ok bytes.length, f) := by
  obtain ⟨nothing, unsteady⟩ := further
  have reads' := reads.trans nothing
  rw [List.append_nil] at reads'
  refine ⟨bytes, raw, t, rfl, portion.widen (List.length_pos_of_ne_nil some) _ small, fun pr => ?_, reads'⟩
  exact absurd (Source.steady_of_prompt (reads.prompt_iff.mpr pr)) unsteady

/-- The first bytes that are queued may be dropped. -/
private theorem Ready.takes_skip (ready : d.Ready before s) (goes : d.keeps false = false) (n : Nat) :
    ∃ raw t, s = raw ++ t ∧ (d.readQueue.skip n).1 = raw.length ∧ raw.length ≤ n ∧
      d.Reads { d with
        reading := d.reading.put (d.readQueue.skip n).2
        pos := Word.addWrapped d.pos (d.readQueue.skip n).1 } before raw t := by
  obtain rfl := ready.before_eq_nil goes
  obtain ⟨queued, has⟩ := ready.supplies
  obtain ⟨rest, rfl⟩ := has.queued_prefix
  obtain ⟨count, wf, left⟩ := ChunkQueue.skip_spec has.wellFormed n
  rw [has.bytes, List.nil_append] at count left
  have split_eq : queued ++ rest = queued.take n ++ (queued.drop n ++ rest) := by
    rw [← List.append_assoc, List.take_append_drop]
  have length : (d.readQueue.skip n).1 = (queued.take n).length := by rw [count, List.length_take]
  rw [split_eq] at ready has
  rw [← List.take_append_drop n queued] at has
  refine ⟨queued.take n, queued.drop n ++ rest, split_eq, length, List.length_take_le .., ?_⟩
  rw [length]
  exact ready.takes goes (by simpa using has) wf left

private theorem skipSteps_passes (ready : d.Ready before s) (n : Nat) (scratch : List UInt8)
    (enough : min n scratchSize ≤ scratch.length) (possible : d.config.bufferSize < Word.requestLimit) :
    d.Passes before s n (d.skipSteps n scratch) := by
  induction n using Nat.strongRecOn generalizing d before s scratch with
  | ind n ih =>
    rw [skipSteps]
    split
    · next positive =>
      have delivered := readPass_delivers ready (scratch.take (min n scratchSize)) possible
      rw [List.length_take, Nat.min_eq_left enough] at delivered
      have size : 0 < scratchSize := by decide
      have step : 0 < min n scratchSize := by omega
      have small : min n scratchSize ≤ n := Nat.min_le_left ..
      dsimp only
      generalize d.readPass false (scratch.take (min n scratchSize)) = result at delivered
      obtain ⟨failure | bytes, e⟩ := result
      · exact delivered
      · obtain ⟨raw, t, portion, fills, reads⟩ := delivered
        dsimp only
        split
        · next short =>
          refine ⟨bytes, raw, t, rfl, portion.widen step n small, fun pr => .inr ((fills pr).resolve_left ?_), reads⟩
          omega
        · next whole =>
          have full : bytes.length = min n scratchSize := by
            have := portion.fits
            omega
          have config : e.config = d.config := reads.kin.config
          rw [← full] at portion small step ⊢
          have further := ih (n - bytes.length) (by omega) reads.ready bytes (by omega) (by rwa [config])
          generalize e.skipSteps (n - bytes.length) bytes = result at further
          obtain ⟨failure | count, f⟩ := result
          · exact .ended small portion (List.ne_nil_of_length_pos step) reads further
          · exact .append small portion reads further
    · next zero =>
      obtain rfl : n = 0 := by omega
      exact .none ready

private theorem skipByReading_passes (ready : d.Ready before s) (n : Nat)
    (possible : d.config.bufferSize < Word.requestLimit) :
    d.Passes before s n (d.skipByReading n) := by
  apply skipSteps_passes ready n _ _ possible
  rw [List.length_replicate]
  exact Nat.min_le_right ..

/-- Skipping reads what it skips, unless it can tell without reading where the next bytes are. -/
theorem skip_passes (ready : d.Ready before s) (able : d.readObstacle? = none) (reading : d.sequential = true ∨ d.isText = true)
    (n : Nat) (possible : d.config.bufferSize < Word.requestLimit) : d.Passes before s n (d.skip n) := by
  rw [skip, able]
  dsimp only
  split
  · next zero =>
    subst zero
    exact .none ready
  · next some =>
    split
    · exact skipByReading_passes ready n possible
    · next drops =>
      rw [Bool.not_eq_true, Bool.or_eq_false_iff] at drops
      obtain ⟨plain, outside⟩ := drops
      have stream : d.sequential = true := reading.resolve_right (by simp [plain])
      rw [stream, Bool.true_and] at outside
      have goes : d.keeps false = false := by simp [Device.keeps, outside]
      -- What is queued goes first, and if that is all that was asked for, nothing else goes.
      obtain ⟨raw, u, rfl, count, small, reads⟩ := ready.takes_skip goes n
      have portion := Portion.plain plain raw u
      rw [count] at reads ⊢
      split
      · next all =>
        rw [all] at portion
        exact ⟨raw, raw, u, all, portion, fun _ => .inl all, reads⟩
      · next less =>
        rw [if_neg (by simp [stream])]
        have further := skipByReading_passes reads.ready (n - raw.length) possible
        generalize skipByReading (σ := σ) _ (n - raw.length) = result at further
        obtain ⟨failure | more, f⟩ := result
        · dsimp only
          split
          · next nothing =>
            obtain rfl := List.length_eq_zero_iff.mp nothing
            obtain ⟨still, unsteady⟩ := further
            exact ⟨reads.trans still, fun st => unsteady (reads.steady_iff.mpr st)⟩
          · next some => exact .ended small portion (fun none => some (none ▸ rfl)) reads further
        · exact .append small portion reads further

/-- Where the next bytes are known to be, the queue may be dropped and the position moved along. -/
private theorem Ready.moves_past (ready : d.Ready [] s) (random : d.sequential = false) (n : Nat) {place : Nat}
    (there : place = d.pos + min n s.length) :
    d.Reads { d with reading := d.reading.put (d.readQueue.skip n).2, pos := place } [] (s.take n) (s.drop n) := by
  obtain ⟨queued, has⟩ := ready.supplies
  have placed := has.placed random
  have inside := placed.inside
  have small := placed.small
  have long := placed.pos_add_length
  have few := has.queued_prefix.length_le
  obtain ⟨-, wf, left⟩ := ChunkQueue.skip_spec has.wellFormed n
  rw [has.bytes, List.nil_append] at left
  have large := Word.maxValue_lt_modulus
  have length : (d.readQueue.skip n).2.toList.length = queued.length - n := by rw [left, List.length_drop]
  have reach : place + (d.readQueue.skip n).2.toList.length ≤ (Source.content d.medium).length := by omega
  have rest : s.drop n = (d.readQueue.skip n).2.toList ++
      (Source.content d.medium).drop (place + (d.readQueue.skip n).2.toList.length) := by
    rw [length, left]
    conv_lhs => rw [placed.rest]
    rw [List.drop_append, List.drop_drop, List.append_cancel_left_eq, List.drop_eq_drop_iff]
    omega
  have supplies := has.relocate random wf place reach
  have kin := Kin.of_parts d (Source.kept_refl d.medium) (d.readQueue.skip n).2 place d.mediumPos d.errorString
  have goes := keeps_of_random random
  have settled : stay (d.keeps false) [] (s.take n) = [] := by rw [goes]; rfl
  rw [← rest, ← settled] at supplies
  have moved : place = Word.addWrapped d.pos (s.take n).length := by
    rw [there, List.length_take, Word.addWrapped_of_lt (by omega)]
  have reads := ready.reads kin supplies d.cursor (fun stays => absurd (goes.symm.trans stays) Bool.false_ne_true) moved
    (fun _ => rfl) d.errorString
  dsimp only at reads
  rwa [upTo_cursor] at reads

/-- Where the next bytes are known to be, skipping goes past them unread. -/
theorem skip_eq (ready : d.Ready [] s) (able : d.readObstacle? = none) (random : d.sequential = false)
    (plain : d.isText = false) (n : Nat) :
    ∃ e, d.skip n = (.ok (min n s.length), e) ∧ d.Reads e [] (s.take n) (s.drop n) := by
  obtain ⟨queued, has⟩ := ready.supplies
  rw [skip, able]
  dsimp only
  split
  · next zero =>
    subst zero
    exact ⟨d, by rw [Nat.zero_min], ready.stays (.refl d) has rfl d.errorString⟩
  · have placed := has.placed random
    have small := placed.small
    have long := placed.pos_add_length
    have few := has.queued_prefix.length_le
    have large := Word.maxValue_lt_modulus
    have size : Medium.size d.medium = (Source.content d.medium).length := Source.size_eq (has.kind.trans random)
    obtain ⟨count, -, -⟩ := ChunkQueue.skip_spec has.wellFormed n
    rw [has.bytes, List.nil_append] at count
    have begun : (d.readQueue.skip n).1 ≤ min n s.length := by omega
    have after : Word.addWrapped d.pos (d.readQueue.skip n).1 = d.pos + (d.readQueue.skip n).1 :=
      Word.addWrapped_of_lt (by omega)
    rw [if_neg (by simp [plain, random])]
    split
    · next enough =>
      have whole : min n s.length = n := by omega
      rw [whole]
      exact ⟨_, rfl, ready.moves_past random n (by rw [after, enough, whole])⟩
    · next short =>
      have stop : max (Medium.size d.medium) (d.pos + (d.readQueue.skip n).1) = d.pos + s.length := by
        rw [size, Nat.max_eq_left (by omega), long]
      have target : min (Word.addClamped (d.pos + (d.readQueue.skip n).1) (n - (d.readQueue.skip n).1)) (d.pos + s.length) =
          d.pos + min n s.length := by
        have inside : min Word.maxValue (d.pos + s.length) = d.pos + s.length := Nat.min_eq_right (by omega)
        rw [Word.addClamped, Nat.add_assoc, Nat.add_sub_cancel' (by omega), Nat.min_assoc, inside, Nat.add_min_add_left]
      rw [if_pos (by simp [random]), after, stop, target, Nat.add_sub_add_left, Nat.add_sub_cancel' begun]
      exact ⟨_, rfl, ready.moves_past random n rfl⟩

end ByteFlow.Device
