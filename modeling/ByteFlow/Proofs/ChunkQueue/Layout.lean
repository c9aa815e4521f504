import ByteFlow.ChunkQueue.Basic
import ByteFlow.Proofs.Handle.Content
import Mathlib.Data.List.Basic

/-! How the chunks of a queue hold its bytes.
All chunks but the last are data to their ends, and only the last one may hold spare room. -/
namespace ByteFlow.ChunkQueue

/-- Each chunk holds data, the first one from `head` on. -/
def Led (head : Nat) : List Handle → Prop
  | [] => True
  | c :: rest => head < c.length ∧ Led 0 rest

/-- Where the data of the chunk behind `before` begins. -/
def start (head : Nat) : List Handle → Nat
  | [] => head
  | _ :: _ => 0

/-- Where the first block ends in its chunk. -/
def firstEnd (tail : Nat) : List Handle → Nat
  | [] => tail
  | c :: _ => c.length

/-- The chunks of the queue, split before the last one. -/
structure Layout (q : ChunkQueue) (before : List Handle) (last : Handle) : Prop where
  chunks_eq : q.chunks = before ++ [last]
  led : Led q.head before
  start_le : start q.head before ≤ q.tail
  tail_le : q.tail ≤ last.length

/-- What every operation keeps. The last block is empty only if the whole queue is. -/
structure WellFormed (q : ChunkQueue) : Prop where
  layout : ∃ before last, q.Layout before last
  counted : q.length = q.toList.length
  ended : q.tail = 0 ↔ q.length = 0

theorem led_concat (head : Nat) (before : List Handle) (c : Handle) :
    Led head (before ++ [c]) ↔ Led head before ∧ start head before < c.length := by
  induction before generalizing head with
  | nil => simp [Led, start]
  | cons b rest ih =>
    rw [List.cons_append, Led, Led, ih, and_assoc]
    cases rest <;> simp [start]

@[simp] theorem start_concat (head : Nat) (before : List Handle) (c : Handle) :
    start head (before ++ [c]) = 0 := by
  cases before <;> rfl

private theorem blocksOf_cons (head tail : Nat) (c : Handle) (before : List Handle) (last : Handle) :
    blocksOf head tail (c :: (before ++ [last])) =
      c.content.drop head :: blocksOf 0 tail (before ++ [last]) := by
  cases before <;> rfl

private theorem flatten_blocksOf (head tail : Nat) (before : List Handle) (last : Handle)
    (led : Led head before) :
    (blocksOf head tail (before ++ [last])).flatten =
      (before.flatMap Handle.content ++ last.content.take tail).drop head := by
  induction before generalizing head with
  | nil => simp [blocksOf]
  | cons c rest ih =>
    rw [List.cons_append, blocksOf_cons, List.flatten_cons, ih 0 led.2, List.drop_zero,
      List.flatMap_cons, List.append_assoc, List.drop_append_of_le_length]
    simpa using Nat.le_of_lt led.1

private theorem mem_blocksOf_ne_nil (head tail : Nat) (before : List Handle) (last : Handle)
    (led : Led head before) (data : start head before < tail) (fits : tail ≤ last.length) :
    ∀ block ∈ blocksOf head tail (before ++ [last]), block ≠ [] := by
  induction before generalizing head with
  | nil =>
    intro block member
    obtain rfl : block = (last.content.take tail).drop head := by simpa [blocksOf] using member
    apply List.ne_nil_of_length_pos
    simp only [start] at data
    simp
    omega
  | cons c rest ih =>
    intro block member
    rw [List.cons_append, blocksOf_cons] at member
    rcases List.mem_cons.mp member with rfl | member
    · apply List.ne_nil_of_length_pos
      have := led.1
      simp
      omega
    · refine ih 0 led.2 ?_ block member
      cases rest with
      | nil => exact Nat.lt_of_le_of_lt (Nat.zero_le _) data
      | cons _ _ => exact data

namespace Layout

variable {q : ChunkQueue} {before : List Handle} {last : Handle}

theorem toList_eq (lay : q.Layout before last) :
    q.toList = (before.flatMap Handle.content ++ last.content.take q.tail).drop q.head := by
  rw [toList, blocks, lay.chunks_eq, flatten_blocksOf _ _ _ _ lay.led]

theorem lastChunk_eq (lay : q.Layout before last) : q.lastChunk = last := by
  simp [lastChunk, lay.chunks_eq]

/-- The data begins inside what the chunks hold. -/
theorem head_le (lay : q.Layout before last) :
    q.head ≤ (before.flatMap Handle.content ++ last.content.take q.tail).length := by
  have fits := lay.tail_le
  have begins := lay.start_le
  have led := lay.led
  cases before with
  | nil =>
    simp only [start] at begins
    simp
    omega
  | cons c rest =>
    have := led.1
    simp
    omega

theorem length_toList (lay : q.Layout before last) :
    q.toList.length = (before.flatMap Handle.content).length + q.tail - q.head := by
  have fits := lay.tail_le
  rw [lay.toList_eq]
  simp
  omega

/-- Changing what lies behind the data, and then counting some of it as data. -/
theorem grow (lay : q.Layout before last) {r : ChunkQueue} {last' : Handle}
    (chunks_eq : r.chunks = before ++ [last']) (head_eq : r.head = q.head)
    (same : last'.content.take q.tail = last.content.take q.tail)
    (more : q.tail ≤ r.tail) (fits : r.tail ≤ last'.length) :
    r.Layout before last' ∧ r.toList = q.toList ++ (last'.content.take r.tail).drop q.tail := by
  have shaped : r.Layout before last' :=
    ⟨chunks_eq, head_eq ▸ lay.led, head_eq ▸ Nat.le_trans lay.start_le more, fits⟩
  refine ⟨shaped, ?_⟩
  have split : last'.content.take r.tail =
      last.content.take q.tail ++ (last'.content.take r.tail).drop q.tail := by
    rw [← same]
    conv_lhs => rw [← List.take_append_drop q.tail (last'.content.take r.tail)]
    rw [List.take_take, Nat.min_eq_left more]
  rw [shaped.toList_eq, lay.toList_eq, head_eq, split, ← List.append_assoc,
    List.drop_append_of_le_length lay.head_le, ← split]

end Layout

namespace WellFormed

variable {q : ChunkQueue} {before : List Handle} {last : Handle}

theorem toList_eq_nil (wf : q.WellFormed) (none : q.length = 0) : q.toList = [] :=
  List.length_eq_zero_iff.mp (wf.counted ▸ none)

/-- A queue with bytes in it ends in a block that is not empty. -/
theorem start_lt (wf : q.WellFormed) (lay : q.Layout before last) (some : 0 < q.length) :
    start q.head before < q.tail := by
  have counted := wf.counted
  rw [lay.length_toList] at counted
  cases before with
  | nil =>
    simp only [List.flatMap_nil, List.length_nil, Nat.zero_add] at counted
    simp only [start]
    omega
  | cons c rest =>
    have := mt wf.ended.mp (Nat.ne_of_gt some)
    simp only [start]
    omega

/-- An empty queue has one chunk, all of it spare. -/
theorem of_length_eq_zero (wf : q.WellFormed) (none : q.length = 0) :
    ∃ c, q.chunks = [c] ∧ q.head = 0 ∧ q.tail = 0 := by
  obtain ⟨before, last, lay⟩ := wf.layout
  have ended := wf.ended.mpr none
  have counted := wf.counted
  rw [lay.length_toList] at counted
  cases before with
  | nil =>
    have begins := lay.start_le
    simp only [start] at begins
    exact ⟨last, lay.chunks_eq, by omega, ended⟩
  | cons c rest =>
    have := lay.led.1
    simp at counted
    omega

/-- No block of a queue with bytes in it is empty. -/
theorem block_ne_nil (wf : q.WellFormed) (some : 0 < q.length) : ∀ block ∈ q.blocks, block ≠ [] := by
  obtain ⟨before, last, lay⟩ := wf.layout
  rw [blocks, lay.chunks_eq]
  exact mem_blocksOf_ne_nil _ _ _ _ lay.led (wf.start_lt lay some) lay.tail_le

/-- A layout whose last block is not empty belongs to a well-formed queue. -/
theorem of_layout (lay : q.Layout before last) (counted : q.length = q.toList.length)
    (data : start q.head before < q.tail) : q.WellFormed := by
  refine ⟨⟨before, last, lay⟩, counted, by omega, fun none => ?_⟩
  rw [lay.length_toList, none] at counted
  cases before with
  | nil => simp [start] at counted data; omega
  | cons c rest => have := lay.led.1; simp at counted; omega

end WellFormed

theorem wellFormed_single (c : Handle) (chunkSize : Nat) :
    (⟨[c], 0, 0, 0, chunkSize⟩ : ChunkQueue).WellFormed :=
  ⟨⟨[], c, rfl, trivial, Nat.le_refl 0, Nat.zero_le _⟩, by simp [toList, blocks, blocksOf], by simp⟩

@[simp] theorem toList_single (c : Handle) (chunkSize : Nat) :
    (⟨[c], 0, 0, 0, chunkSize⟩ : ChunkQueue).toList = [] := by
  simp [toList, blocks, blocksOf]

theorem wellFormed_withChunkSize (chunkSize : Nat) : (withChunkSize chunkSize).WellFormed :=
  wellFormed_single Handle.empty chunkSize

@[simp] theorem toList_withChunkSize (chunkSize : Nat) : (withChunkSize chunkSize).toList = [] :=
  toList_single Handle.empty chunkSize

/-- The chunk size decides only how later chunks are made. -/
theorem WellFormed.setChunkSize {q : ChunkQueue} (wf : q.WellFormed) (n : Nat) :
    ({ q with chunkSize := n } : ChunkQueue).WellFormed := by
  obtain ⟨before, last, lay⟩ := wf.layout
  exact ⟨⟨before, last, lay.chunks_eq, lay.led, lay.start_le, lay.tail_le⟩, wf.counted, wf.ended⟩

end ByteFlow.ChunkQueue
