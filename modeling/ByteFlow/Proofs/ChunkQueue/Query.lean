import ByteFlow.Proofs.ChunkQueue.Drain
import ByteFlow.Proofs.Newline

/-! Questions about the queued bytes.
Each walks the blocks, and none of the answers tells where one block ends and the next begins. -/
namespace ByteFlow.ChunkQueue

variable {q : ChunkQueue}

private theorem copyFrom_eq (skip room : Nat) (blocks : List (List UInt8)) :
    copyFrom skip room blocks = (blocks.flatten.drop skip).take room := by
  induction blocks generalizing skip room with
  | nil => simp [copyFrom]
  | cons block rest ih =>
    rw [copyFrom, List.flatten_cons]
    split
    · next full => rw [full, List.take_zero]
    · split
      · next past =>
        rw [ih, List.drop_append, List.drop_eq_nil_of_le past, List.nil_append]
      · next inside =>
        rw [List.drop_append_of_le_length (Nat.le_of_not_le inside), List.take_append]
        dsimp only
        rw [ih, List.drop_zero, List.length_take]
        congr 2
        omega

theorem peek_eq (q : ChunkQueue) (room place : Nat) :
    q.peek room place = (q.toList.drop place).take room :=
  copyFrom_eq place room q.blocks

/-- The places that are searched of one block and of those behind it. -/
private theorem window_append (start stop : Nat) (block rest : List UInt8) :
    ((block ++ rest).take stop).drop start =
      (block.take (min block.length stop)).drop start ++
        (rest.take (stop - block.length)).drop (start - block.length) := by
  rw [Nat.min_comm, List.take_append, List.drop_append, ← List.take_eq_take_min, List.length_take]
  rcases Nat.le_total block.length stop with long | short
  · rw [Nat.min_eq_right long]
  · rw [Nat.sub_eq_zero_of_le short, List.take_zero, List.drop_nil, List.drop_nil]

theorem findFrom_eq (b : UInt8) (start stop offset : Nat) (blocks : List (List UInt8)) :
    findFrom b start stop offset blocks =
      (((blocks.flatten.take (stop - offset)).drop (start - offset)).findIdx? (· == b)).map
        (offset + (start - offset) + ·) := by
  induction blocks generalizing offset with
  | nil => simp [findFrom]
  | cons block rest ih =>
    rw [findFrom, List.flatten_cons]
    split
    · next past => simp [Nat.sub_eq_zero_of_le past]
    · next before =>
      rw [window_append, List.findIdx?_append]
      dsimp only
      cases ((block.take (min block.length (stop - offset))).drop (start - offset)).findIdx? (· == b) with
      | some i => rfl
      | none =>
        rw [ih, Option.none_or, Option.map_map, Nat.sub_add_eq, Nat.sub_add_eq]
        cases found : (List.drop (start - offset - block.length)
            (rest.flatten.take (stop - offset - block.length))).findIdx? (· == b) with
        | none => rfl
        | some i =>
          -- a hit behind the block means that the block was searched to its end
          have reached : block.length < stop - offset := by
            have := (List.findIdx?_eq_some_iff_getElem.mp found).1
            simp only [List.length_drop, List.length_take] at this
            omega
          simp only [Option.map_some, Function.comp_apply, List.length_drop, List.length_take, Option.some.injEq]
          omega

theorem indexOf_eq (wf : q.WellFormed) (b : UInt8) (room start : Nat)
    (small : q.length ≤ Word.maxValue) :
    q.indexOf b room start =
      (((q.toList.drop start).take room).findIdx? (· == b)).map (start + ·) := by
  have window : (q.toList.take (min (Word.addClamped start room) q.length)).drop start =
      (q.toList.drop start).take room := by
    rw [List.drop_take, List.take_eq_take_iff, List.length_drop, ← wf.counted, Word.addClamped]
    omega
  rw [indexOf, findFrom_eq, Nat.sub_zero, Nat.sub_zero, ← toList, window, Nat.zero_add]

/-- A line is queued if a line feed is. -/
theorem hasLine_iff (wf : q.WellFormed) (small : q.length ≤ Word.maxValue) :
    q.hasLine = true ↔ Byte.lineFeed ∈ q.toList := by
  rw [hasLine, indexOf_eq wf _ _ _ small, List.drop_zero, wf.counted, List.take_length, Option.isSome_map,
    List.findIdx?_isSome]
  simp

/-- The first line, as far as the buffer has room for it and for a byte more. -/
theorem readLine?_spec (wf : q.WellFormed) (room : Nat) (small : q.length ≤ Word.maxValue) :
    if room < 2 then q.readLine? room = none
    else ∃ r, q.readLine? room = some ((Newline.firstLine q.toList).take (room - 1), r) ∧ r.WellFormed ∧
      r.toList = q.toList.drop ((Newline.firstLine q.toList).take (room - 1)).length := by
  rw [readLine?]
  split
  · rfl
  · rw [← Newline.firstLine_take, Newline.firstLine_eq_take, indexOf_eq wf _ _ _ small, List.drop_zero]
    cases found : (q.toList.take (room - 1)).findIdx? (· == Byte.lineFeed) with
    | some i =>
      obtain ⟨inside, -⟩ := List.findIdx?_eq_some_iff_getElem.mp found
      rw [List.length_take] at inside
      obtain ⟨taken, wf_r, left, -⟩ := read_spec wf (i + 1)
      rw [Option.map_some]
      simp only [Nat.zero_add]
      refine ⟨_, ?_, wf_r, ?_⟩
      · rw [List.take_take, Nat.min_eq_left (by omega), ← taken]
      · rw [left, List.take_take, List.length_take, List.drop_eq_drop_iff]
        omega
    | none =>
      obtain ⟨taken, wf_r, left, -⟩ := read_spec wf (room - 1)
      refine ⟨_, by rw [← taken]; rfl, wf_r, ?_⟩
      rw [left, List.length_take, List.drop_eq_drop_iff]
      omega

private theorem runFrom_prefix (place : Nat) (blocks : List (List UInt8)) :
    runFrom place blocks <+: blocks.flatten.drop place := by
  induction blocks generalizing place with
  | nil => exact List.nil_prefix
  | cons block rest ih =>
    rw [runFrom, List.flatten_cons]
    split
    · next inside =>
      rw [List.drop_append_of_le_length (Nat.le_of_lt inside)]
      exact List.prefix_append _ _
    · next past =>
      rw [List.drop_append, List.drop_eq_nil_of_le (Nat.le_of_not_lt past), List.nil_append]
      exact ih _

private theorem runFrom_eq_nil_iff (place : Nat) (blocks : List (List UInt8)) :
    runFrom place blocks = [] ↔ blocks.flatten.length ≤ place := by
  induction blocks generalizing place with
  | nil => simp [runFrom]
  | cons block rest ih =>
    rw [runFrom, List.flatten_cons, List.length_append]
    split
    · next inside =>
      rw [List.drop_eq_nil_iff]
      omega
    · next past =>
      rw [ih]
      omega

theorem runAt_prefix (q : ChunkQueue) (place : Nat) : q.runAt place <+: q.toList.drop place :=
  runFrom_prefix place q.blocks

theorem runAt_eq_nil_iff (q : ChunkQueue) (place : Nat) :
    q.runAt place = [] ↔ q.toList.length ≤ place :=
  runFrom_eq_nil_iff place q.blocks

end ByteFlow.ChunkQueue
