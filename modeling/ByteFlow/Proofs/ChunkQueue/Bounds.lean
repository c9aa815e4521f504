import ByteFlow.Proofs.ChunkQueue.Query

/-! The walks over a queue with every difference, slice and turn of a loop granted or refused.
A difference below zero and a slice out of its bytes answer nothing, and a loop has only so many turns.
On a well-formed queue nothing is ever refused, and each walk ends where the queue's own operation does. -/
namespace ByteFlow.ChunkQueue

/-- The difference of two sizes, unless it is below zero. -/
def minus? (a b : Nat) : Option Nat := if b ≤ a then some (a - b) else none

/-- The bytes from `low` up to `high`, unless these are out of order or past the end. -/
def slice? (bytes : List UInt8) (low high : Nat) : Option (List UInt8) :=
  if low ≤ high ∧ high ≤ bytes.length then some ((bytes.take high).drop low) else none

theorem minus?_of_le {a b : Nat} (le : b ≤ a) : minus? a b = some (a - b) := if_pos le

theorem slice?_of_le {bytes : List UInt8} {low high : Nat} (le : low ≤ high) (fits : high ≤ bytes.length) :
    slice? bytes low high = some ((bytes.take high).drop low) := if_pos ⟨le, fits⟩

/-- The data of the chunk numbered `place`, the last one being numbered `last`. -/
def cut? (head tail last : Nat) (chunk : Handle × Nat) : Option (List UInt8) :=
  slice? chunk.1.content (if chunk.2 = 0 then head else 0)
    (if chunk.2 = last then tail else chunk.1.length)

def blocks? (q : ChunkQueue) : Option (List (List UInt8)) :=
  q.chunks.zipIdx.mapM (cut? q.head q.tail (q.chunks.length - 1))

def front? (q : ChunkQueue) : Option (List UInt8) :=
  if q.length = 0 then some [] else q.blocks?.map (·.headD [])

def runFrom? (place : Nat) : List (List UInt8) → Option (List UInt8)
  | [] => some []
  | block :: rest =>
    if place < block.length then slice? block place block.length
    else do runFrom? (← minus? place block.length) rest

def runAt? (q : ChunkQueue) (place : Nat) : Option (List UInt8) := do runFrom? place (← q.blocks?)

/-- The search of one block, if it reaches past `start`. -/
def findIn? (b : UInt8) (start stop offset : Nat) (block : List UInt8) : Option (Option Nat) :=
  if start < offset + block.length then do
    let room ← minus? stop offset
    let window ← slice? block (start - offset) (min block.length room)
    some ((window.findIdx? (· == b)).map (offset + (start - offset) + ·))
  else some none

def findFrom? (b : UInt8) (start stop offset : Nat) : List (List UInt8) → Option (Option Nat)
  | [] => some none
  | block :: rest =>
    if stop ≤ offset then some none
    else do
      match ← findIn? b start stop offset block with
      | some place => some (some place)
      | none => findFrom? b start stop (offset + block.length) rest

def indexOf? (q : ChunkQueue) (b : UInt8) (room start : Nat) : Option (Option Nat) := do
  findFrom? b start (min (Word.addClamped start room) q.length) 0 (← q.blocks?)

/-- Drops bytes at the front, chunk by chunk, in so many turns at most. -/
def freeLoop? (turns : Nat) (q : ChunkQueue) (n : Nat) : Option ChunkQueue :=
  if n = 0 then some q
  else match turns with
    | 0 => none
    | turns + 1 => do
      let block ← minus? (q.chunks.headD Handle.empty).length q.head
      if q.chunks.length = 1 ∨ n < block then
        if q.length ≤ n then some (q.emptied q.chunks)
        else some { q with head := q.head + n, length := ← minus? q.length n }
      else
        let rest := { q with chunks := q.chunks.tail, head := 0, length := ← minus? q.length block }
        freeLoop? turns rest (← minus? n block)

def free? (q : ChunkQueue) (n : Nat) : Option ChunkQueue :=
  freeLoop? q.chunks.length q (min n q.length)

/-- Drops bytes at the back, chunk by chunk, in so many turns at most. -/
def chopLoop? (turns : Nat) (q : ChunkQueue) (n : Nat) : Option ChunkQueue :=
  if n = 0 then some q
  else match turns with
    | 0 => none
    | turns + 1 => do
      if q.chunks.length = 1 ∨ n < q.tail then
        if q.length ≤ n then some (q.emptied q.chunks)
        else some { q with tail := ← minus? q.tail n, length := ← minus? q.length n }
      else
        let chunks := q.chunks.dropLast
        let tail := (chunks.getLastD Handle.empty).length
        let rest := { q with chunks := chunks, tail := tail, length := ← minus? q.length q.tail }
        chopLoop? turns rest (← minus? n q.tail)

def chop? (q : ChunkQueue) (n : Nat) : Option ChunkQueue :=
  chopLoop? q.chunks.length q (min n q.length)

/-- Fills up `done` to `want` bytes, block by block, in so many turns at most. -/
def readLoop? (want : Nat) : Nat → ChunkQueue → List UInt8 → Option (List UInt8 × ChunkQueue)
  | turns, q, done =>
    if want ≤ done.length then some (done, q)
    else match turns with
      | 0 => none
      | turns + 1 => do
        let block ← q.front?
        let room ← minus? want done.length
        let piece ← slice? block 0 (min block.length room)
        readLoop? want turns (← q.free? piece.length) (done ++ piece)

def read? (q : ChunkQueue) (n : Nat) : Option (List UInt8 × ChunkQueue) :=
  readLoop? (min n q.length) (min n q.length) q []

def readChunk? (q : ChunkQueue) : Option (Handle × ChunkQueue) :=
  if q.length = 0 then some (Handle.empty, q)
  else
    let c := q.chunks.headD Handle.empty
    let rest := q.chunks.tail
    let out := (if rest.isEmpty then c.left q.tail else c).mid q.head none
    (minus? q.length out.length).map fun length =>
      (out, if rest.isEmpty then ⟨[Handle.empty], 0, 0, length, q.chunkSize⟩
        else { q with chunks := rest, head := 0, length := length })

variable {q : ChunkQueue} {before : List Handle} {last : Handle}

/-! What the layout grants -/

theorem WellFormed.head_le_length (wf : q.WellFormed) {c : Handle} {rest : List Handle}
    (chunks_eq : q.chunks = c :: rest) : q.head ≤ c.length := by
  obtain ⟨before, last, lay⟩ := wf.layout
  have same := chunks_eq.symm.trans lay.chunks_eq
  cases before with
  | nil =>
    obtain ⟨rfl, rfl⟩ : c = last ∧ rest = [] := by simpa using same
    exact Nat.le_trans lay.start_le lay.tail_le
  | cons b before =>
    obtain ⟨rfl, -⟩ : c = b ∧ rest = before ++ [last] := by simpa using same
    exact Nat.le_of_lt lay.led.1

private theorem mapM_cut? (head tail place : Nat) (before : List Handle) (last : Handle)
    (led : Led (if place = 0 then head else 0) before)
    (begins : start (if place = 0 then head else 0) before ≤ tail) (fits : tail ≤ last.length) :
    ((before ++ [last]).zipIdx place).mapM (cut? head tail (place + before.length)) =
      some (blocksOf (if place = 0 then head else 0) tail (before ++ [last])) := by
  induction before generalizing place with
  | nil =>
    have granted : cut? head tail place (last, place) =
        some ((last.content.take tail).drop (if place = 0 then head else 0)) := by
      rw [cut?, if_pos rfl]
      exact slice?_of_le begins (by rw [Handle.length_content]; exact fits)
    simp [granted, blocksOf]
  | cons c rest ih =>
    have later : (if place + 1 = 0 then head else 0) = 0 := if_neg (Nat.succ_ne_zero place)
    have granted : cut? head tail (place + (rest.length + 1)) (c, place) =
        some (c.content.drop (if place = 0 then head else 0)) := by
      have inner : place ≠ place + (rest.length + 1) := by omega
      have : slice? c.content (if place = 0 then head else 0) c.length = _ :=
        slice?_of_le (Nat.le_of_lt led.1) (Nat.le_of_eq c.length_content.symm)
      rw [List.take_of_length_le (Nat.le_of_eq c.length_content)] at this
      simpa only [cut?, if_neg inner] using this
    have others := ih (place + 1) (by rw [later]; exact led.2)
      (by rw [later]; cases rest <;> exact Nat.le_trans (Nat.zero_le _) begins)
    rw [later, Nat.add_right_comm, Nat.add_assoc] at others
    rw [List.cons_append, List.zipIdx_cons, List.mapM_cons, List.length_cons, granted, others]
    cases rest <;> rfl

/-- No block reaches past its chunk. -/
theorem blocks?_eq (wf : q.WellFormed) : q.blocks? = some q.blocks := by
  obtain ⟨before, last, lay⟩ := wf.layout
  have granted := mapM_cut? q.head q.tail 0 before last lay.led lay.start_le lay.tail_le
  rw [if_pos rfl, Nat.zero_add] at granted
  rw [blocks?, blocks, lay.chunks_eq, List.length_append, List.length_singleton, Nat.add_sub_cancel]
  exact granted

theorem front?_eq (wf : q.WellFormed) : q.front? = some q.front := by
  rw [front?, front, blocks?_eq wf]
  split <;> rfl

private theorem runFrom?_eq (place : Nat) (blocks : List (List UInt8)) :
    runFrom? place blocks = some (runFrom place blocks) := by
  induction blocks generalizing place with
  | nil => rfl
  | cons block rest ih =>
    rw [runFrom?, runFrom]
    split
    · next inside =>
      rw [slice?_of_le (Nat.le_of_lt inside) (Nat.le_refl _), List.take_length]
    · next past =>
      rw [minus?_of_le (Nat.le_of_not_lt past)]
      exact ih _

theorem runAt?_eq (wf : q.WellFormed) (place : Nat) : q.runAt? place = some (q.runAt place) := by
  rw [runAt?, blocks?_eq wf]
  exact runFrom?_eq place q.blocks

/-! The search -/

/-- The window that is searched of a block is in order if the search does not end before `start`
while there are bytes behind it. -/
private theorem findFrom?_eq (b : UInt8) (start stop offset : Nat) (blocks : List (List UInt8))
    (reaches : min start (offset + blocks.flatten.length) ≤ stop) :
    findFrom? b start stop offset blocks = some (findFrom b start stop offset blocks) := by
  induction blocks generalizing offset with
  | nil => rfl
  | cons block rest ih =>
    rw [List.flatten_cons, List.length_append] at reaches
    rw [findFrom?, findFrom]
    split
    · rfl
    · next before =>
      have found : findIn? b start stop offset block =
          some ((((block.take (min block.length (stop - offset))).drop (start - offset)).findIdx?
            (· == b)).map (offset + (start - offset) + ·)) := by
        rw [findIn?]
        split
        · next inside =>
          rw [minus?_of_le (by omega)]
          show (slice? _ _ _).bind _ = _
          rw [slice?_of_le (by omega) (Nat.min_le_left _ _)]
          rfl
        · next past =>
          rw [List.drop_eq_nil_of_le (by simp; omega)]
          rfl
      rw [found]
      dsimp only [Option.bind_eq_bind, Option.bind_some]
      cases ((block.take (min block.length (stop - offset))).drop (start - offset)).findIdx? (· == b) with
      | some i => rfl
      | none => exact ih (offset + block.length) (by omega)

theorem indexOf?_eq (wf : q.WellFormed) (b : UInt8) (room start : Nat) (small : start ≤ Word.maxValue) :
    q.indexOf? b room start = some (q.indexOf b room start) := by
  rw [indexOf?, blocks?_eq wf]
  refine findFrom?_eq b start _ 0 q.blocks ?_
  have counted := wf.counted
  rw [toList] at counted
  rw [Word.addClamped]
  omega

/-! Dropping -/

private theorem freeLoop?_eq (q : ChunkQueue) (head length n : Nat) (chunks : List Handle)
    (wf : ({ q with chunks := chunks, head := head, length := length } : ChunkQueue).WellFormed)
    (enough : n ≤ length) :
    freeLoop? chunks.length { q with chunks := chunks, head := head, length := length } n =
      some (freeFrom q head length n chunks) := by
  induction chunks generalizing head length n with
  | nil =>
    obtain ⟨before, last, lay⟩ := wf.layout
    exact absurd lay.chunks_eq (by simp)
  | cons c rest ih =>
    have inside := wf.head_le_length rfl
    rw [List.length_cons, freeLoop?]
    split
    · next none =>
      rw [none]
      cases rest <;> rfl
    · next some =>
      rw [List.headD_cons, minus?_of_le inside]
      dsimp only [Option.bind_eq_bind, Option.bind_some]
      cases rest with
      | nil =>
        rw [if_pos (.inl rfl), freeFrom, if_neg some]
        split
        · rfl
        · rw [minus?_of_le enough]
          rfl
      | cons next rest =>
        rw [freeFrom, if_neg some]
        by_cases short : n < c.length - head
        · rw [if_pos (.inr short), if_pos short]
          split
          · rfl
          · rw [minus?_of_le enough]
            rfl
        · rw [if_neg (by simp; omega), if_neg short]
          obtain ⟨wf_rest, -⟩ := wf.dropFirst (r := { q with
            chunks := next :: rest, head := 0, length := length - (c.length - head) }) rfl rfl rfl rfl rfl
          rw [minus?_of_le (by omega), minus?_of_le (by omega)]
          exact ih 0 (length - (c.length - head)) (n - (c.length - head)) wf_rest (by omega)

theorem free?_eq (wf : q.WellFormed) (n : Nat) : q.free? n = some (q.free n) :=
  freeLoop?_eq q q.head q.length (min n q.length) q.chunks wf (Nat.min_le_right _ _)

private theorem chopLoop?_eq (q : ChunkQueue) (tail length n : Nat) (backwards : List Handle)
    (wf : ({ q with chunks := backwards.reverse, tail := tail, length := length } : ChunkQueue).WellFormed)
    (enough : n ≤ length) :
    chopLoop? backwards.length
        { q with chunks := backwards.reverse, tail := tail, length := length } n =
      some (chopFrom q tail length n backwards) := by
  induction backwards generalizing tail length n with
  | nil =>
    obtain ⟨before, last, lay⟩ := wf.layout
    exact absurd lay.chunks_eq (by simp)
  | cons c backwards ih =>
    obtain ⟨before, last, lay⟩ := wf.layout
    have parts := lay.chunks_eq
    rw [List.reverse_cons] at parts
    obtain ⟨rfl, same⟩ := List.append_inj' parts rfl
    obtain rfl : c = last := by simpa using same
    have total := lay.length_toList
    rw [← wf.counted] at total
    rw [List.length_cons, chopLoop?]
    split
    · next none =>
      rw [none]
      cases backwards <;> rfl
    · next some =>
      cases backwards with
      | nil =>
        rw [if_pos (.inl rfl), chopFrom, if_neg some]
        split
        · rfl
        · simp only [List.reverse_nil, List.flatMap_nil, List.length_nil, Nat.zero_add] at total
          have within : n ≤ tail := by omega
          rw [minus?_of_le within, minus?_of_le enough]
          rfl
      | cons next rest =>
        rw [chopFrom, if_neg some]
        by_cases short : n < tail
        · rw [if_pos (.inr short), if_pos short]
          split
          · rfl
          · rw [minus?_of_le (Nat.le_of_lt short), minus?_of_le enough]
            rfl
        · rw [if_neg (by simp; omega), if_neg short]
          obtain ⟨-, wf_rest, bytes⟩ := WellFormed.dropLast
            (r := { q with chunks := (next :: rest).reverse, tail := next.length, length := length - tail })
            (by rw [← List.reverse_cons]; exact lay) wf (List.reverse_cons ..) rfl rfl rfl
          have within : tail ≤ length := by
            have parted := congrArg List.length bytes
            have fits := lay.tail_le
            rw [← wf.counted, List.length_append, List.length_take, Handle.length_content] at parted
            dsimp only at parted fits
            omega
          have popped : (c :: next :: rest).reverse.dropLast = (next :: rest).reverse := by
            rw [List.reverse_cons, List.dropLast_concat]
          have ended : ((next :: rest).reverse.getLastD Handle.empty).length = next.length := by
            rw [List.reverse_cons, List.getLastD_concat]
          rw [minus?_of_le within, minus?_of_le (Nat.le_of_not_lt short)]
          dsimp only [Option.bind_eq_bind, Option.bind_some]
          rw [popped, ended]
          exact ih next.length (length - tail) (n - tail) wf_rest (by omega)

theorem chop?_eq (wf : q.WellFormed) (n : Nat) : q.chop? n = some (q.chop n) := by
  have granted := chopLoop?_eq q q.tail q.length (min n q.length) q.chunks.reverse
    (by rw [List.reverse_reverse]; exact wf) (Nat.min_le_right _ _)
  rw [List.reverse_reverse, List.length_reverse] at granted
  exact granted

/-! Reading -/

private theorem length_front_le (wf : q.WellFormed) : q.front.length ≤ q.length := by
  rw [wf.counted]
  have first : q.front <+: q.toList := front_prefix q
  exact first.length_le

/-- Asking for no more than there is reads the same. -/
private theorem read_min (wf : q.WellFormed) (n : Nat) : q.read (min n q.length) = q.read n := by
  fun_induction read q n with
  | case1 q n piece taken more remaining found ih =>
    have short := length_front_le wf
    obtain ⟨wf_free, bytes, -⟩ := free_spec wf piece.length
    have left : (q.free piece.length).length = q.length - piece.length := by
      rw [wf_free.counted, bytes, List.length_drop, ← wf.counted]
    have same : q.front.take (min n q.length) = piece := List.take_eq_take_iff.mpr (by omega)
    have fits : piece.length ≤ q.length := Nat.le_trans (List.length_take_le' _ _) short
    rw [read, same, dif_pos ⟨taken.1, Nat.le_min.mpr ⟨taken.2, fits⟩⟩]
    have rest : min n q.length - piece.length = min (n - piece.length) (q.free piece.length).length := by
      rw [left]
      omega
    rw [rest, ih wf_free, found]
  | case2 q n piece nothing =>
    have short := length_front_le wf
    have same : q.front.take (min n q.length) = piece := List.take_eq_take_iff.mpr (by omega)
    rw [read, same, dif_neg (by omega)]

/-- Each turn of the loop takes a byte at least, for the block in front is not empty. -/
private theorem readLoop?_eq (wf : q.WellFormed) (want turns : Nat) (done : List UInt8)
    (enough : want - done.length ≤ q.length) (ends : want - done.length ≤ turns) :
    readLoop? want turns q done =
      some (done ++ (q.read (want - done.length)).1, (q.read (want - done.length)).2) := by
  induction turns generalizing q done with
  | zero =>
    have none : want - done.length = 0 := Nat.le_zero.mp ends
    rw [readLoop?, if_pos (by omega), none, read]
    simp
  | succ turns ih =>
    rw [readLoop?]
    split
    · next full =>
      rw [Nat.sub_eq_zero_of_le full, read]
      simp
    · next wanting =>
      have some : 0 < q.length := by omega
      have filled : 0 < q.front.length := by
        refine List.length_pos_iff.mpr fun empty => ?_
        rw [front_eq_nil_iff wf, ← List.length_eq_zero_iff, ← wf.counted] at empty
        omega
      have granted : slice? q.front 0 (min q.front.length (want - done.length)) =
          .some (q.front.take (want - done.length)) := by
        rw [slice?_of_le (Nat.zero_le _) (Nat.min_le_left _ _), List.drop_zero, Nat.min_comm, ← List.take_eq_take_min]
      rw [front?_eq wf, minus?_of_le (by omega)]
      dsimp only [Option.bind_eq_bind, Option.bind_some]
      rw [granted]
      dsimp only [Option.bind_some]
      rw [free?_eq wf]
      dsimp only [Option.bind_some]
      generalize piece_eq : q.front.take (want - done.length) = piece
      have size := congrArg List.length piece_eq
      rw [List.length_take] at size
      obtain ⟨wf_free, bytes, -⟩ := free_spec wf piece.length
      have left : (q.free piece.length).length = q.length - piece.length := by
        rw [wf_free.counted, bytes, List.length_drop, ← wf.counted]
      have rest : want - (done ++ piece).length = want - done.length - piece.length := by
        rw [List.length_append]
        omega
      have once : q.read (want - done.length) =
          (piece ++ ((q.free piece.length).read (want - done.length - piece.length)).1,
            ((q.free piece.length).read (want - done.length - piece.length)).2) := by
        rw [read, piece_eq, dif_pos (by omega)]
      rw [ih wf_free (done ++ piece) (by rw [rest, left]; omega) (by rw [rest]; omega), rest, once,
        List.append_assoc]

theorem read?_eq (wf : q.WellFormed) (n : Nat) : q.read? n = some (q.read n) := by
  have granted := readLoop?_eq wf (min n q.length) (min n q.length) [] (Nat.min_le_right _ _) (Nat.le_refl _)
  rw [List.length_nil, Nat.sub_zero, read_min wf] at granted
  exact granted

/-- The chunk handed out holds no more than is queued. -/
theorem readChunk?_eq (wf : q.WellFormed) : q.readChunk? = some q.readChunk := by
  obtain ⟨content_eq, -⟩ := readChunk_spec wf
  have within : q.readChunk.1.length ≤ q.length := by
    rw [← Handle.length_content, content_eq]
    exact length_front_le wf
  obtain ⟨before, last, lay⟩ := wf.layout
  rw [readChunk?]
  rw [readChunk] at within ⊢
  cases shape : q.chunks with
  | nil => exact absurd lay.chunks_eq (by rw [shape]; simp)
  | cons c rest =>
    rw [shape] at within
    dsimp only [List.headD_cons, List.tail_cons] at within ⊢
    split
    · rfl
    · next some =>
      rw [if_neg some] at within
      split
      · next alone =>
        rw [if_pos alone] at within
        rw [minus?_of_le within]
        rfl
      · next several =>
        rw [if_neg several] at within
        rw [minus?_of_le within]
        rfl

end ByteFlow.ChunkQueue
