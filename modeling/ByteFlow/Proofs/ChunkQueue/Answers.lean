import ByteFlow.Proofs.ChunkQueue.Representation
import ByteFlow.Proofs.Search.Find

/-! What is asked of a queue is answered by the queued bytes alone.
A peek fills a buffer of the caller's block by block; that what it leaves there is one stretch of the bytes, with the
rest of the buffer untouched, is seen by following how far the buffer is filled. -/
namespace ByteFlow.ChunkQueue

variable {q : ChunkQueue} {bytes dst : List UInt8}

/-! Peeking into a buffer, with every slice, difference and copy granted or refused -/

/-- The buffer with bytes put over those from `place` on, unless they do not fit in. -/
def overwrite? (dst : List UInt8) (place : Nat) (bytes : List UInt8) : Option (List UInt8) :=
  if place + bytes.length ≤ dst.length then some (dst.take place ++ bytes ++ dst.drop (place + bytes.length)) else none

/-- Fills up a buffer, which holds `done` bytes already, with what comes after the first `skip` bytes of blocks. -/
def copyInto? (dst : List UInt8) (done skip : Nat) : List (List UInt8) → Option (Nat × List UInt8)
  | [] => some (done, dst)
  | block :: rest =>
    if done = dst.length then some (done, dst)
    else if block.length ≤ skip then do copyInto? dst done (← minus? skip block.length) rest
    else do
      let source ← slice? block skip block.length
      let piece ← slice? source 0 (min source.length (← minus? dst.length done))
      copyInto? (← overwrite? dst done piece) (done + piece.length) 0 rest

def peekInto? (q : ChunkQueue) (dst : List UInt8) (place : Nat) : Option (Nat × List UInt8) := do
  copyInto? dst 0 place (← q.blocks?)

/-- What a buffer holds after bytes that fit in: them behind what stands before, and the same as before behind them. -/
private theorem overwrite?_of_le {place : Nat} {bytes : List UInt8} (fits : place + bytes.length ≤ dst.length) :
    ∃ dst', overwrite? dst place bytes = some dst' ∧ dst'.length = dst.length ∧
      dst'.take (place + bytes.length) = dst.take place ++ bytes ∧
      ∀ n, dst'.drop (place + bytes.length + n) = dst.drop (place + bytes.length + n) := by
  have front : (dst.take place ++ bytes).length = place + bytes.length := by
    rw [List.length_append, List.length_take_of_le (by omega)]
  refine ⟨_, if_pos fits, ?_, ?_, fun n => ?_⟩
  · rw [List.length_append, front, List.length_drop]
    omega
  · exact List.take_left' front
  · rw [List.drop_append, front, List.drop_eq_nil_of_le (by omega), List.nil_append, List.drop_drop]
    congr 1
    omega

/-- What is copied is put behind what the buffer holds already, and the buffer is as before behind that. -/
private theorem copyInto?_eq (blocks : List (List UInt8)) {done : Nat} (within : done ≤ dst.length) (skip : Nat) :
    copyInto? dst done skip blocks =
      some (done + (copyFrom skip (dst.length - done) blocks).length,
        dst.take done ++ copyFrom skip (dst.length - done) blocks ++
          dst.drop (done + (copyFrom skip (dst.length - done) blocks).length)) := by
  induction blocks generalizing dst done skip with
  | nil => simp [copyInto?, copyFrom]
  | cons block rest ih =>
    rw [copyInto?, copyFrom]
    by_cases full : done = dst.length
    · have closed : dst.length - done = 0 := by omega
      rw [if_pos full, if_pos closed]
      simp [full]
    · have open_ : ¬ dst.length - done = 0 := by omega
      rw [if_neg full, if_neg open_]
      by_cases past : block.length ≤ skip
      · rw [if_pos past, if_pos past, minus?_of_le past]
        exact ih within _
      · have inside : skip ≤ block.length := Nat.le_of_not_le past
        rw [if_neg past, if_neg past, slice?_of_le inside (Nat.le_refl _), minus?_of_le within, List.take_length]
        have cut : slice? (block.drop skip) 0 (min (block.drop skip).length (dst.length - done)) =
            some ((block.drop skip).take (dst.length - done)) := by
          rw [slice?_of_le (Nat.zero_le _) (Nat.min_le_left _ _), List.drop_zero, Nat.min_comm, ← List.take_eq_take_min]
        simp only [Option.bind_eq_bind, Option.bind_some, cut]
        have small : ((block.drop skip).take (dst.length - done)).length ≤ dst.length - done := List.length_take_le ..
        generalize (block.drop skip).take (dst.length - done) = piece at small ⊢
        have fits : done + piece.length ≤ dst.length := by omega
        obtain ⟨dst', put, size, front, behind⟩ := overwrite?_of_le fits
        rw [put, Option.bind_some, ih (by omega), size, Nat.sub_add_eq, front, behind, List.length_append, Nat.add_assoc,
          List.append_assoc (dst.take done)]

/-- A peek fills the front of a buffer and leaves the rest of it alone. -/
private theorem peekInto?_eq (wf : q.WellFormed) (dst : List UInt8) (place : Nat) :
    q.peekInto? dst place =
      some ((q.peek dst.length place).length, q.peek dst.length place ++ dst.drop (q.peek dst.length place).length) := by
  have copied := copyInto?_eq q.blocks (Nat.zero_le dst.length) place
  rw [Nat.zero_add, Nat.sub_zero, List.take_zero, List.nil_append] at copied
  rw [peekInto?, blocks?_eq wf]
  exact copied

/-- The bytes between two places, as far as there are any. -/
private theorem take_drop_eq (bytes : List UInt8) (place room : Nat) :
    (bytes.drop place).take room = (bytes.take (min (place + room) bytes.length)).drop place := by
  rw [List.drop_take, List.take_eq_take_iff, List.length_drop]
  omega

/-- A byte stands at a place of a first part if it stands there and the part reaches beyond. -/
private theorem getElem?_take_iff {stop i : Nat} {b : UInt8} :
    (bytes.take stop)[i]? = some b ↔ i < min stop bytes.length ∧ bytes[i]? = some b := by
  rw [List.getElem?_take]
  split
  · next before =>
    refine ⟨fun shown => ?_, And.right⟩
    have inside := (List.getElem?_eq_some_iff.mp shown).1
    exact ⟨by omega, shown⟩
  · next past => exact ⟨nofun, fun ⟨before, _⟩ => by omega⟩

/-- The search of a stretch is a search of the bytes up to its end. -/
private theorem indexOf_eq_indexOfByte (wf : q.WellFormed) (small : q.length ≤ Word.maxValue) (b : UInt8)
    (room start : Nat) :
    q.indexOf b room start = Search.indexOfByte (q.toList.take (start + room)) b start := by
  rw [indexOf_eq wf b room start small, Search.indexOfByte, List.drop_take, Nat.add_sub_cancel_left]
  simp only [Nat.add_comm start]

/-! All questions -/

/-- What a queue of these bytes answers, wherever one chunk ends and the next begins. -/
structure Answers (q : ChunkQueue) (bytes : List UInt8) : Prop where
  peek : ∀ room place, q.peek room place = (bytes.take (min (place + room) bytes.length)).drop place
  indexOf : q.length ≤ Word.maxValue → ∀ b room start,
    Search.IsFirst {i | start ≤ i ∧ i < min (start + room) bytes.length ∧ bytes[i]? = some b} (q.indexOf b room start)
  hasLine : q.length ≤ Word.maxValue → (q.hasLine = true ↔ Byte.lineFeed ∈ bytes)
  runAt : ∀ place, q.runAt place <+: bytes.drop place ∧ (q.runAt place = [] ↔ bytes.length ≤ place)
  front : q.front.length = 0 ↔ bytes = []

/-- No question is refused, and a peek leaves a buffer alone behind what it copies. -/
structure Granted (q : ChunkQueue) : Prop where
  peek : ∀ dst place, q.peekInto? dst place =
    some ((q.peek dst.length place).length, q.peek dst.length place ++ dst.drop (q.peek dst.length place).length)
  indexOf : ∀ b room start, start ≤ Word.maxValue → q.indexOf? b room start = some (q.indexOf b room start)
  runAt : ∀ place, q.runAt? place = some (q.runAt place)
  front : q.front? = some q.front

private theorem WellFormed.answers (wf : q.WellFormed) : q.Answers q.toList where
  peek := fun room place => by rw [peek_eq, take_drop_eq]
  indexOf := fun small b room start => by
    have searched := (Search.byteAnswers b (q.toList.take (start + room))).first start
    simp only [getElem?_take_iff] at searched
    rw [indexOf_eq_indexOfByte wf small]
    exact searched
  hasLine := hasLine_iff wf
  runAt := fun place => by
    have ahead := runAt_prefix q place
    exact ⟨ahead, runAt_eq_nil_iff q place⟩
  front := by
    rw [List.length_eq_zero_iff]
    exact front_eq_nil_iff wf

private theorem WellFormed.granted (wf : q.WellFormed) : q.Granted :=
  ⟨peekInto?_eq wf, wf.bounded.indexOf, wf.bounded.runAt, wf.bounded.front⟩

/-- Whether an action only asks. -/
def Action.asks : Action → Bool
  | .peek .. | .indexOf .. | .hasLine | .runAt _ | .front => true
  | _ => false

namespace Session

private theorem step_of_asks (s : Session) {action : Action} (asks : action.asks = true) : (s.step action).2 = s := by
  cases action with
  | peek | indexOf | hasLine | runAt | front => rfl
  | _ => cases asks

/-- After any run of actions from an empty queue of any chunk size, the queue answers by its bytes alone: what lies
between two places, where a byte is found first between them, whether a line is queued, and whether there is
anything at the front or behind a place, where it shows some first part of what is there. To ask changes nothing,
and no walk over the blocks leaves them or the buffer that it fills. -/
theorem questions_answered (chunkSize : Nat) (actions : List Action) :
    let s := ((start chunkSize).run actions).2
    s.queue.Answers s.queue.toList ∧ s.queue.Granted ∧ ∀ action, action.asks = true → (s.step action).2 = s := by
  intro s
  have wf : s.queue.WellFormed := (run_wellFormed _ (wellFormed_start chunkSize) actions).queue
  exact ⟨wf.answers, wf.granted, fun action => step_of_asks s⟩

/-- Two chunks, the first of which is begun: one stretch goes over their border, and another ends right there. -/
theorem questions_answered_border :
    let actions := [.append (Handle.ofFixed [] [97, 98, 10]) false, .append (Handle.ofFixed [] [99, 10]) false, .free 1]
    let s := ((start 4).run actions).2
    s.queue.toList = [98, 10, 99, 10] ∧ s.queue.peekInto? [0, 0, 0, 0] 1 = some (3, [10, 99, 10, 0]) ∧
      s.queue.length ≤ Word.maxValue ∧ IsLeast {i | 2 ≤ i ∧ i < min (2 + 2) 4 ∧ [98, 10, 99, 10][i]? = some (10 : UInt8)} 3 ∧
      s.queue.indexOf 99 2 0 = none ∧ Action.asks .hasLine = true ∧ (s.step .hasLine).2 = s := by
  intro actions s
  obtain ⟨answers, granted, same⟩ := questions_answered 4 actions
  have bytes : s.queue.toList = [98, 10, 99, 10] := by decide
  have small : s.queue.length ≤ Word.maxValue := by decide
  have peeked : s.queue.peek 4 1 = [10, 99, 10] := by rw [answers.peek, bytes]; rfl
  have filled := granted.peek [0, 0, 0, 0] 1
  have found := answers.indexOf small 10 2 2
  have third : s.queue.indexOf 10 2 2 = some 3 := by decide
  rw [show ([0, 0, 0, 0] : List UInt8).length = 4 from rfl, peeked] at filled
  rw [bytes, third] at found
  exact ⟨bytes, filled, small, found, by decide, rfl, same _ rfl⟩

end Session

end ByteFlow.ChunkQueue
