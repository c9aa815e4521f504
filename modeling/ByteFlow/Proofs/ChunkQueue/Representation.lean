import ByteFlow.Proofs.ChunkQueue.Bounds
import ByteFlow.Proofs.ChunkQueue.Refinement

/-! How a queue in use is represented, whatever was done to it before.
Neither the chunk size nor how long the queue grows matters to that, and every walk stays inside the
chunks and comes to its end. -/
namespace ByteFlow.ChunkQueue

/-- The shape of a queue: where its data begins and ends, and what its length counts. -/
structure Shaped (q : ChunkQueue) : Prop where
  chunked : 0 < q.chunks.length
  head_le : q.head ≤ (q.chunks.headD Handle.empty).length
  tail_le : q.tail ≤ (q.chunks.getLastD Handle.empty).length
  head_le_tail : q.chunks.length = 1 → q.head ≤ q.tail
  counted : q.length = (q.blocks.map List.length).foldr (· + ·) 0
  blocks_length : q.blocks.length = q.chunks.length
  filled : 0 < q.length → ∀ block ∈ q.blocks, block ≠ []
  drained : q.length = 0 → q.chunks.length = 1 ∧ q.head = 0 ∧ q.tail = 0

/-- No walk over the queue leaves its bounds or fails to end. -/
structure Bounded (q : ChunkQueue) : Prop where
  blocks : q.blocks? = some q.blocks
  front : q.front? = some q.front
  runAt : ∀ place, q.runAt? place = some (q.runAt place)
  indexOf : ∀ b room start, start ≤ Word.maxValue → q.indexOf? b room start = some (q.indexOf b room start)
  free : ∀ n, q.free? n = some (q.free n)
  chop : ∀ n, q.chop? n = some (q.chop n)
  read : ∀ n, q.read? n = some (q.read n)
  readChunk : q.readChunk? = some q.readChunk

private theorem length_blocksOf (head tail : Nat) (chunks : List Handle) :
    (blocksOf head tail chunks).length = chunks.length := by
  induction chunks generalizing head with
  | nil => rfl
  | cons c rest ih =>
    cases rest with
    | nil => rfl
    | cons next rest => simpa [blocksOf] using ih 0

private theorem WellFormed.shaped {q : ChunkQueue} (wf : q.WellFormed) : q.Shaped := by
  obtain ⟨before, last, lay⟩ := wf.layout
  have ends : q.chunks.getLastD Handle.empty = last := lay.lastChunk_eq
  refine ⟨?_, ?_, ?_, ?_, ?_, length_blocksOf _ _ _, wf.block_ne_nil, ?_⟩
  · simp [lay.chunks_eq]
  · cases shape : q.chunks with
    | nil => exact absurd lay.chunks_eq (by rw [shape]; simp)
    | cons c rest => exact wf.head_le_length shape
  · rw [ends]
    exact lay.tail_le
  · intro alone
    rw [lay.chunks_eq] at alone
    obtain rfl : before = [] := by simpa using alone
    exact lay.start_le
  · rw [wf.counted, toList, List.length_flatten]
    rfl
  · intro none
    obtain ⟨c, chunks_eq, head_eq, tail_eq⟩ := wf.of_length_eq_zero none
    exact ⟨by rw [chunks_eq]; rfl, head_eq, tail_eq⟩

theorem WellFormed.bounded {q : ChunkQueue} (wf : q.WellFormed) : q.Bounded where
  blocks := blocks?_eq wf
  front := front?_eq wf
  runAt := runAt?_eq wf
  indexOf := fun b room start small => indexOf?_eq wf b room start small
  free := free?_eq wf
  chop := chop?_eq wf
  read := read?_eq wf
  readChunk := readChunk?_eq wf

namespace Session

private theorem readLine_wellFormed {q r : ChunkQueue} (wf : q.WellFormed) {room : Nat} {bytes : List UInt8}
    (given : q.readLine? room = some (bytes, r)) : r.WellFormed := by
  rw [readLine?] at given
  split at given
  · cases given
  · split at given
    all_goals
      obtain ⟨-, wf_read, -⟩ := read_spec wf _
      rw [Option.some.inj given] at wf_read
      exact wf_read

/-- No action harms the layout of the two queues, however many bytes it asks for. -/
private theorem step_wellFormed (s : Session) (wf : s.WellFormed) (action : Action) : (s.step action).2.WellFormed := by
  cases action with
  | reserve n byteAt =>
    rw [step]
    cases granted : s.queue.reserve? s.outside n with
    | none => exact wf
    | some q =>
      have size : ((List.range n).map byteAt).length = n := by simp
      exact ⟨(fill_reserve?_spec wf.queue s.outside s.outside _ (by rw [size]; exact granted)).1, wf.saved⟩
  | reserveFront n byteAt =>
    rw [step]
    cases granted : s.queue.reserveFront? s.outside n with
    | none => exact wf
    | some q =>
      have size : ((List.range n).map byteAt).length = n := by simp
      exact ⟨(fillFront_reserveFront?_spec wf.queue s.outside s.outside _ (by rw [size]; exact granted)).1, wf.saved⟩
  | free n => exact ⟨(free_spec wf.queue n).1, wf.saved⟩
  | chop n => exact ⟨(chop_spec wf.queue n).1, wf.saved⟩
  | append data keep => cases keep <;> exact ⟨(append_spec wf.queue _ data).1, wf.saved⟩
  | appendBytes bytes => exact ⟨(appendBytes_spec wf.queue s.outside bytes).1, wf.saved⟩
  | put b => exact ⟨(put_spec wf.queue s.outside b).1, wf.saved⟩
  | get => exact ⟨(get_spec wf.queue).2.1, wf.saved⟩
  | unget b => exact ⟨(unget_spec wf.queue s.outside b).1, wf.saved⟩
  | read n => exact ⟨(read_spec wf.queue n).2.1, wf.saved⟩
  | readLine room =>
    rw [step]
    cases given : s.queue.readLine? room with
    | none => exact wf
    | some line => exact ⟨readLine_wellFormed wf.queue given, wf.saved⟩
  | readChunk => exact ⟨(readChunk_spec wf.queue).2.1, wf.saved⟩
  | readHandle n => exact ⟨(readHandle_spec wf.queue s.outside n).2.1, wf.saved⟩
  | skip n => exact ⟨(skip_spec wf.queue n).2.1, wf.saved⟩
  | clear => exact ⟨(clear_spec s.queue).1, wf.saved⟩
  | setChunkSize n => exact ⟨wf.queue.setChunkSize n, wf.saved⟩
  | save => exact ⟨wf.queue, wf.queue⟩
  | swap => exact ⟨wf.saved, wf.queue⟩
  | peek _ _ | indexOf _ _ _ | hasLine | runAt _ | front => exact wf

theorem run_wellFormed (s : Session) (wf : s.WellFormed) (actions : List Action) : (s.run actions).2.WellFormed := by
  induction actions generalizing s with
  | nil => exact wf
  | cons action actions ih => exact ih (s.step action).2 (step_wellFormed s wf action)

/-- After any run of actions from an empty queue of any chunk size, the queue has its shape: a chunk at
least, the data from inside the first one to inside the last one, a length that is the sum of the blocks,
no empty block before or behind data, and one chunk with nothing used of it when all is drained. No walk
over such a queue leaves a block or goes on for ever. -/
theorem queue_representation (chunkSize : Nat) (actions : List Action) :
    ((start chunkSize).run actions).2.queue.Shaped ∧ ((start chunkSize).run actions).2.queue.Bounded :=
  have wf := (run_wellFormed _ (wellFormed_start chunkSize) actions).queue
  ⟨wf.shaped, wf.bounded⟩

end Session

end ByteFlow.ChunkQueue
