import ByteFlow.Proofs.ChunkQueue.Layout

/-! Taking bytes from either end of a queue, and looking at its front.
Whole chunks go as wholes; a chunk that is taken from in part keeps the rest in place. -/
namespace ByteFlow.ChunkQueue

variable {q r : ChunkQueue} {before : List Handle} {last : Handle}

private theorem emptied_spec (q : ChunkQueue) (c : Handle) :
    (q.emptied [c]).WellFormed ∧ (q.emptied [c]).toList = [] ∧
      (q.emptied [c]).chunkSize = q.chunkSize := by
  rw [emptied]
  split
  · exact ⟨wellFormed_single c _, toList_single c _, rfl⟩
  · exact ⟨wellFormed_withChunkSize _, toList_withChunkSize _, rfl⟩

theorem clear_spec (q : ChunkQueue) : q.clear.WellFormed ∧ q.clear.toList = [] :=
  ⟨wellFormed_withChunkSize _, toList_withChunkSize _⟩

/-! Chunks at the front -/

/-- The first of several chunks goes. -/
theorem WellFormed.dropFirst (wf : q.WellFormed) {c next : Handle} {rest : List Handle}
    (chunks_eq : q.chunks = c :: next :: rest) (chunks_r : r.chunks = next :: rest)
    (head_r : r.head = 0) (tail_r : r.tail = q.tail)
    (length_r : r.length = q.length - (c.length - q.head)) :
    r.WellFormed ∧ q.toList = c.content.drop q.head ++ r.toList := by
  obtain ⟨before, last, lay⟩ := wf.layout
  cases before with
  | nil => exact absurd lay.chunks_eq (by simp [chunks_eq])
  | cons b before =>
    have same := lay.chunks_eq
    rw [chunks_eq, List.cons_append, List.cons.injEq] at same
    obtain ⟨rfl, rest_eq⟩ := same
    have led := lay.led
    have ended := wf.ended.mp
    have total := lay.length_toList
    rw [← wf.counted, List.flatMap_cons, List.length_append, Handle.length_content] at total
    have shaped : r.Layout before last := by
      refine ⟨chunks_r.trans rest_eq, head_r ▸ led.2, ?_, tail_r ▸ lay.tail_le⟩
      cases before <;> simp [start, head_r]
    have bytes : q.toList = c.content.drop q.head ++ r.toList := by
      rw [shaped.toList_eq, lay.toList_eq, head_r, tail_r, List.drop_zero, List.flatMap_cons,
        List.append_assoc, List.drop_append_of_le_length]
      rw [Handle.length_content]
      exact Nat.le_of_lt led.1
    refine ⟨.of_layout shaped ?_ ?_, bytes⟩
    · rw [shaped.length_toList, tail_r, head_r, length_r]
      have := led.1
      omega
    · have : 0 < q.tail := Nat.pos_of_ne_zero fun none => by
        have := ended none
        have := led.1
        omega
      cases before <;> simpa [start, head_r, tail_r] using this

/-- Some bytes of the first block go, but not all of it. -/
private theorem WellFormed.raiseHead (wf : q.WellFormed) (lay : q.Layout before last) {n : Nat}
    (inside : q.head + n < firstEnd q.tail before) (chunks_r : r.chunks = q.chunks)
    (head_r : r.head = q.head + n) (tail_r : r.tail = q.tail) (length_r : r.length = q.length - n) :
    r.WellFormed ∧ r.toList = q.toList.drop n := by
  have total := lay.length_toList
  have begins := lay.start_le
  rw [← wf.counted] at total
  have data : start r.head before < r.tail := by
    cases before with
    | nil => simp only [firstEnd] at inside; simp only [start]; omega
    | cons c rest =>
      have ended := wf.ended.mp
      simp only [firstEnd, List.flatMap_cons, List.length_append, Handle.length_content] at inside total
      simp only [start]
      omega
  have shaped : r.Layout before last := by
    refine ⟨chunks_r ▸ lay.chunks_eq, ?_, Nat.le_of_lt data, tail_r ▸ lay.tail_le⟩
    cases before with
    | nil => trivial
    | cons c rest => exact ⟨head_r ▸ inside, lay.led.2⟩
  have bytes : r.toList = q.toList.drop n := by
    rw [shaped.toList_eq, lay.toList_eq, head_r, tail_r, List.drop_drop]
  refine ⟨.of_layout shaped ?_ data, bytes⟩
  rw [bytes, List.length_drop, ← wf.counted, length_r]

private theorem freeFrom_spec (q : ChunkQueue) (head length n : Nat) (chunks : List Handle)
    (wf : ({ q with chunks := chunks, head := head, length := length } : ChunkQueue).WellFormed)
    (enough : n ≤ length) :
    (freeFrom q head length n chunks).WellFormed ∧
      (freeFrom q head length n chunks).toList =
        ({ q with chunks := chunks, head := head, length := length } : ChunkQueue).toList.drop n ∧
      (freeFrom q head length n chunks).chunkSize = q.chunkSize := by
  obtain ⟨before, last, lay⟩ := wf.layout
  have chunks_eq := lay.chunks_eq
  have total := lay.length_toList
  have counted := wf.counted
  induction before generalizing head length n chunks with
  | nil =>
    obtain rfl : chunks = [last] := chunks_eq
    simp only [List.flatMap_nil, List.length_nil] at total
    rw [freeFrom]
    split
    · next none => exact ⟨wf, by rw [none, List.drop_zero], rfl⟩
    · split
      · next all =>
        obtain ⟨wf_emptied, bytes, size⟩ := emptied_spec q last
        refine ⟨wf_emptied, ?_, size⟩
        rw [bytes, List.drop_eq_nil_of_le (counted ▸ all)]
      · next some =>
        obtain ⟨wf_r, bytes⟩ := wf.raiseHead lay (n := n)
          (r := { q with chunks := [last], head := head + n, length := length - n })
          (by simp only [firstEnd]; dsimp only at counted total ⊢; omega) rfl rfl rfl rfl
        exact ⟨wf_r, bytes, rfl⟩
  | cons c before ih =>
    obtain ⟨next, rest, rest_eq⟩ : ∃ next rest, before ++ [last] = next :: rest := by
      cases before with
      | nil => exact ⟨last, [], rfl⟩
      | cons b more => exact ⟨b, more ++ [last], rfl⟩
    obtain rfl : chunks = c :: next :: rest := by rw [← rest_eq]; exact chunks_eq
    simp only [List.flatMap_cons, List.length_append, Handle.length_content] at total
    have led := lay.led.1
    rw [freeFrom]
    split
    · next none => exact ⟨wf, by rw [none, List.drop_zero], rfl⟩
    · split
      · next some =>
        rw [if_neg (by dsimp only at counted total led; omega)]
        obtain ⟨wf_r, bytes⟩ := wf.raiseHead lay (n := n)
          (r := { q with chunks := c :: next :: rest, head := head + n, length := length - n })
          (by simp only [firstEnd]; omega) rfl rfl rfl rfl
        exact ⟨wf_r, bytes, rfl⟩
      · next whole =>
        obtain ⟨wf_r, bytes⟩ := wf.dropFirst (r := { q with
          chunks := next :: rest, head := 0, length := length - (c.length - head) }) rfl rfl rfl rfl rfl
        obtain ⟨before', last', lay_r⟩ := wf_r.layout
        have same : before' = before ∧ last' = last := by
          have := lay_r.chunks_eq
          dsimp only at this
          rw [← rest_eq] at this
          simpa [eq_comm] using List.append_inj' this rfl
        obtain ⟨rfl, rfl⟩ := same
        obtain ⟨wf_free, bytes_free, size⟩ := ih 0 (length - (c.length - head)) (n - (c.length - head))
          (next :: rest) wf_r (by omega) lay_r lay_r.chunks_eq lay_r.length_toList wf_r.counted
        refine ⟨wf_free, ?_, size⟩
        rw [bytes_free, bytes, List.drop_append]
        simp
        omega

/-- Where nothing is dropped, nothing changes. -/
theorem free_eq_self {n : Nat} (none : min n q.length = 0) : q.free n = q := by
  obtain ⟨chunks, head, tail, length, chunkSize⟩ := q
  rw [free, none]
  cases chunks with
  | nil => rfl
  | cons c rest => cases rest <;> rfl

/-- Freeing takes bytes from the front, as far as there are any. -/
theorem free_spec (wf : q.WellFormed) (n : Nat) :
    (q.free n).WellFormed ∧ (q.free n).toList = q.toList.drop n ∧ (q.free n).chunkSize = q.chunkSize := by
  obtain ⟨wf_free, bytes, size⟩ := freeFrom_spec q q.head q.length (min n q.length) q.chunks wf (Nat.min_le_right _ _)
  refine ⟨wf_free, bytes.trans ?_, size⟩
  rw [List.drop_eq_drop_iff, ← wf.counted]
  omega

/-! Chunks at the back -/

/-- The last of several chunks goes. -/
theorem WellFormed.dropLast {p : Handle} (lay : q.Layout (before ++ [p]) last)
    (wf : q.WellFormed) (chunks_r : r.chunks = before ++ [p]) (head_r : r.head = q.head)
    (tail_r : r.tail = p.length) (length_r : r.length = q.length - q.tail) :
    r.Layout before p ∧ r.WellFormed ∧ q.toList = r.toList ++ last.content.take q.tail := by
  obtain ⟨led, data⟩ := (led_concat _ _ _).mp lay.led
  have shaped : r.Layout before p :=
    ⟨chunks_r, head_r ▸ led, by rw [head_r, tail_r]; exact Nat.le_of_lt data, Nat.le_of_eq tail_r⟩
  have bytes : q.toList = r.toList ++ last.content.take q.tail := by
    rw [lay.toList_eq, shaped.toList_eq, head_r, tail_r, List.flatMap_append, List.flatMap_singleton,
      List.take_of_length_le (l := p.content) (Nat.le_of_eq p.length_content), List.drop_append_of_le_length]
    have := shaped.head_le
    rwa [head_r, tail_r, List.take_of_length_le (l := p.content) (Nat.le_of_eq p.length_content)] at this
  refine ⟨shaped, .of_layout shaped ?_ (by rw [head_r, tail_r]; exact data), bytes⟩
  have := congrArg List.length bytes
  have fits := lay.tail_le
  rw [← wf.counted, List.length_append, List.length_take, Handle.length_content] at this
  omega

/-- Some bytes of the last block go, but not all of it. -/
private theorem WellFormed.lowerTail (wf : q.WellFormed) (lay : q.Layout before last) {n : Nat}
    (inside : start q.head before + n < q.tail) (chunks_r : r.chunks = q.chunks)
    (head_r : r.head = q.head) (tail_r : r.tail = q.tail - n) (length_r : r.length = q.length - n) :
    r.WellFormed ∧ r.toList = q.toList.take (q.length - n) := by
  have fits := lay.tail_le
  have shaped : r.Layout before last :=
    ⟨chunks_r ▸ lay.chunks_eq, head_r ▸ lay.led, by rw [head_r, tail_r]; omega, by omega⟩
  have bytes := (shaped.grow (r := q) lay.chunks_eq head_r.symm rfl (by omega) fits).2
  have total := congrArg List.length bytes
  rw [← wf.counted, List.length_append, List.length_drop, List.length_take, Handle.length_content] at total
  refine ⟨.of_layout shaped (by omega) (by rw [head_r, tail_r]; omega), ?_⟩
  rw [bytes, List.take_left' (by omega)]

private theorem chopFrom_spec (q : ChunkQueue) (tail length n : Nat) (backwards : List Handle)
    (wf : ({ q with chunks := backwards.reverse, tail := tail, length := length } : ChunkQueue).WellFormed)
    (enough : n ≤ length) :
    (chopFrom q tail length n backwards).WellFormed ∧
      (chopFrom q tail length n backwards).toList =
        ({ q with chunks := backwards.reverse, tail := tail, length := length } : ChunkQueue).toList.take
          (length - n) ∧
      (chopFrom q tail length n backwards).chunkSize = q.chunkSize := by
  have counted := wf.counted
  dsimp only at counted
  induction backwards generalizing tail length n with
  | nil =>
    obtain ⟨before, last, lay⟩ := wf.layout
    exact absurd lay.chunks_eq (by simp)
  | cons c backwards ih =>
    obtain ⟨before, last, lay⟩ := wf.layout
    have parts := lay.chunks_eq
    rw [List.reverse_cons] at parts
    obtain ⟨rfl, same⟩ := List.append_inj' parts rfl
    obtain rfl : c = last := by simpa using same
    have total := lay.length_toList
    cases backwards with
    | nil =>
      simp only [List.reverse_nil, List.flatMap_nil, List.length_nil] at total
      rw [chopFrom]
      split
      · next none => exact ⟨wf, (List.take_of_length_le (by rw [none]; exact Nat.le_of_eq counted.symm)).symm, rfl⟩
      · split
        · next all =>
          obtain ⟨wf_emptied, bytes, size⟩ := emptied_spec q c
          refine ⟨wf_emptied, ?_, size⟩
          rw [bytes, Nat.sub_eq_zero_of_le all, List.take_zero]
        · next some =>
          obtain ⟨wf_r, bytes⟩ := wf.lowerTail lay (n := n)
            (r := { q with chunks := [c], tail := tail - n, length := length - n })
            (by simp only [List.reverse_nil, start]; omega) rfl rfl rfl rfl
          exact ⟨wf_r, bytes, rfl⟩
    | cons next rest =>
      have layout : ({ q with
          chunks := (c :: next :: rest).reverse, tail := tail, length := length } : ChunkQueue).Layout
          (rest.reverse ++ [next]) c := by rw [← List.reverse_cons]; exact lay
      have data := wf.start_lt lay
      rw [chopFrom]
      split
      · next none => exact ⟨wf, (List.take_of_length_le (by rw [none]; exact Nat.le_of_eq counted.symm)).symm, rfl⟩
      · next some =>
        have positive : 0 < tail := by
          have := data (show 0 < length by omega)
          exact Nat.lt_of_le_of_lt (Nat.zero_le _) this
        split
        · next inside =>
          have more : tail ≤ length := by
            obtain ⟨-, -, bytes⟩ := WellFormed.dropLast layout wf
              (r := { q with chunks := rest.reverse ++ [next], tail := next.length, length := length - tail })
              rfl rfl rfl rfl
            have := congrArg List.length bytes
            have fits := lay.tail_le
            rw [← counted, List.length_append, List.length_take, Handle.length_content] at this
            dsimp only at this fits
            omega
          rw [if_neg (by omega)]
          obtain ⟨wf_r, bytes⟩ := wf.lowerTail layout (n := n)
            (r := { q with
              chunks := (c :: next :: rest).reverse, tail := tail - n, length := length - n })
            (by rw [start_concat]; dsimp only; omega) rfl rfl rfl rfl
          exact ⟨wf_r, bytes, rfl⟩
        · next whole =>
          obtain ⟨-, wf_r, bytes⟩ := WellFormed.dropLast layout wf
            (r := { q with
              chunks := (next :: rest).reverse, tail := next.length, length := length - tail })
            (List.reverse_cons ..) rfl rfl rfl
          obtain ⟨wf_chop, bytes_chop, size⟩ := ih next.length (length - tail) (n - tail) wf_r (by omega) wf_r.counted
          refine ⟨wf_chop, ?_, size⟩
          have shorter := wf_r.counted
          dsimp only at shorter
          rw [bytes_chop, bytes, List.take_append_of_le_length (by omega)]
          congr 1
          omega

/-- Chopping takes bytes from the back, as far as there are any. -/
theorem chop_spec (wf : q.WellFormed) (n : Nat) :
    (q.chop n).WellFormed ∧ (q.chop n).toList = q.toList.take (q.length - n) ∧
      (q.chop n).chunkSize = q.chunkSize := by
  obtain ⟨wf_chop, bytes, size⟩ := chopFrom_spec q q.tail q.length (min n q.length) q.chunks.reverse
    (by rw [List.reverse_reverse]; exact wf) (Nat.min_le_right _ _)
  refine ⟨wf_chop, bytes.trans ?_, size⟩
  rw [List.reverse_reverse]
  congr 1
  omega

/-! Reading -/

theorem front_of_single {c : Handle} (chunks_eq : q.chunks = [c]) (positive : 0 < q.length) :
    q.front = (c.content.take q.tail).drop q.head := by
  rw [front, if_neg (Nat.ne_of_gt positive), blocks, chunks_eq]
  rfl

theorem front_of_many {c next : Handle} {rest : List Handle} (chunks_eq : q.chunks = c :: next :: rest)
    (positive : 0 < q.length) : q.front = c.content.drop q.head := by
  rw [front, if_neg (Nat.ne_of_gt positive), blocks, chunks_eq]
  rfl

/-- The bytes at the front are a prefix of all. -/
theorem front_prefix (q : ChunkQueue) : q.front <+: q.toList := by
  rw [front]
  split
  · exact List.nil_prefix
  · rw [toList]
    cases q.blocks with
    | nil => exact List.nil_prefix
    | cons block rest => exact List.prefix_append _ _

/-- There are bytes at the front unless the queue is empty. -/
theorem front_eq_nil_iff (wf : q.WellFormed) : q.front = [] ↔ q.toList = [] := by
  refine ⟨fun empty => ?_, fun empty => ?_⟩
  · refine wf.toList_eq_nil (Decidable.byContradiction fun positive => ?_)
    rw [front, if_neg positive] at empty
    cases shape : q.blocks with
    | nil => exact positive (by rw [wf.counted, toList, shape]; rfl)
    | cons block rest =>
      rw [shape, List.headD_cons] at empty
      exact wf.block_ne_nil (Nat.pos_of_ne_zero positive) block (by rw [shape]; exact List.mem_cons_self) empty
  · rw [front, if_pos (by rw [wf.counted, empty]; rfl)]

theorem get_spec (wf : q.WellFormed) :
    q.get.1 = q.toList.head? ∧ q.get.2.WellFormed ∧ q.get.2.toList = q.toList.drop 1 := by
  obtain ⟨rest, joined⟩ := front_prefix q
  rw [get]
  cases shape : q.front with
  | nil =>
    have empty := (front_eq_nil_iff wf).mp shape
    dsimp only
    rw [empty]
    exact ⟨rfl, wf, rfl⟩
  | cons b more =>
    obtain ⟨wf_free, bytes, -⟩ := free_spec wf 1
    refine ⟨?_, wf_free, bytes⟩
    rw [← joined, shape]
    rfl

/-- Reading takes as many bytes as there is room for, through as many chunks as it needs. -/
theorem read_spec (wf : q.WellFormed) (n : Nat) :
    (q.read n).1 = q.toList.take n ∧ (q.read n).2.WellFormed ∧
      (q.read n).2.toList = q.toList.drop n ∧ (q.read n).2.chunkSize = q.chunkSize := by
  fun_induction read q n with
  | case1 q n piece taken more remaining found ih =>
    obtain ⟨wf_free, bytes, size⟩ := free_spec wf piece.length
    obtain ⟨more_eq, wf_rest, left, size_rest⟩ := ih wf_free
    rw [found] at more_eq wf_rest left size_rest
    dsimp only at more_eq left size_rest
    obtain ⟨rest, joined⟩ := front_prefix q
    have piece_eq : q.toList.take piece.length = piece := by
      rw [← joined, List.take_append_of_le_length (List.length_take_le' _ _)]
      simp only [piece, List.length_take]
      exact List.take_eq_take_iff.mpr (by omega)
    refine ⟨?_, wf_rest, ?_, size_rest.trans size⟩
    · have joint : q.toList.take (piece.length + (n - piece.length)) = _ := List.take_add
      rw [piece_eq, Nat.add_sub_cancel' taken.2] at joint
      rw [more_eq, bytes, joint]
    · rw [left, bytes, List.drop_drop, Nat.add_sub_cancel' taken.2]
  | case2 q n piece nothing =>
    have stops : n = 0 ∨ q.toList = [] := by
      rw [← front_eq_nil_iff wf, ← List.length_eq_zero_iff]
      simp only [piece, List.length_take] at nothing
      omega
    rcases stops with rfl | empty
    · exact ⟨rfl, wf, rfl, rfl⟩
    · dsimp only
      rw [empty, List.take_nil, List.drop_nil]
      exact ⟨rfl, wf, rfl, rfl⟩

/-- The first chunk is handed out as it is; what is left begins with the next one. -/
theorem readChunk_spec (wf : q.WellFormed) :
    q.readChunk.1.content = q.front ∧ q.readChunk.2.WellFormed ∧
      q.toList = q.readChunk.1.content ++ q.readChunk.2.toList ∧
      q.readChunk.2.chunkSize = q.chunkSize := by
  obtain ⟨before, last, lay⟩ := wf.layout
  cases shape : q.chunks with
  | nil => exact absurd lay.chunks_eq (by rw [shape]; simp)
  | cons c rest =>
    by_cases empty : q.length = 0
    · have result : q.readChunk = (Handle.empty, q) := by simp [readChunk, shape, empty]
      rw [result, front, if_pos empty]
      exact ⟨rfl, wf, rfl, rfl⟩
    · have positive := Nat.pos_of_ne_zero empty
      cases rest with
      | nil =>
        have result : q.readChunk = ((c.left q.tail).mid q.head none,
            ⟨[Handle.empty], 0, 0, q.length - ((c.left q.tail).mid q.head none).length, q.chunkSize⟩) := by
          simp [readChunk, shape, empty]
        have front_eq := front_of_single shape positive
        have content_eq : ((c.left q.tail).mid q.head none).content = q.front := by
          rw [Handle.content_mid, Handle.content_left, front_eq, Option.getD_none,
            List.take_of_length_le (by rw [← Handle.length_content, Handle.content_left]; simp)]
        have whole : q.toList = q.front := by
          rw [front_eq, toList, blocks, shape]
          simp [blocksOf]
        have emptied : q.length - ((c.left q.tail).mid q.head none).length = 0 := by
          rw [← Handle.length_content, content_eq, ← whole, wf.counted, Nat.sub_self]
        rw [result, emptied]
        exact ⟨content_eq, wellFormed_single _ _, by rw [toList_single, List.append_nil, content_eq, whole], rfl⟩
      | cons next rest =>
        have result : q.readChunk = (c.mid q.head none, { q with
            chunks := next :: rest, head := 0, length := q.length - (c.mid q.head none).length }) := by
          simp [readChunk, shape, empty]
        have content_eq : (c.mid q.head none).content = c.content.drop q.head := by
          rw [Handle.content_mid, Option.getD_none, List.take_of_length_le (by simp)]
        obtain ⟨wf_r, bytes⟩ := wf.dropFirst shape
          (r := { q with
            chunks := next :: rest, head := 0, length := q.length - (c.mid q.head none).length })
          rfl rfl rfl (by
            dsimp only
            rw [← Handle.length_content, content_eq, List.length_drop, Handle.length_content])
        rw [result, front_of_many shape positive]
        exact ⟨content_eq, wf_r, by rw [content_eq]; exact bytes, rfl⟩

theorem readHandle_spec (wf : q.WellFormed) (held : List StorageId) (n : Nat) :
    (q.readHandle held n).1.content = q.toList.take n ∧ (q.readHandle held n).2.WellFormed ∧
      (q.readHandle held n).2.toList = q.toList.drop n := by
  have clamped : q.toList.take n = q.toList.take (min n q.length) ∧
      q.toList.drop n = q.toList.drop (min n q.length) := by
    rw [List.take_eq_take_iff, List.drop_eq_drop_iff, ← wf.counted]
    omega
  rw [clamped.1, clamped.2]
  rw [readHandle]
  dsimp only
  split
  · next empty =>
    rw [empty]
    exact ⟨rfl, wf, rfl⟩
  · split
    · next chunk =>
      obtain ⟨content_eq, wf_r, bytes, -⟩ := readChunk_spec wf
      have cut : q.readChunk.1.content.length = min n q.length := by rw [content_eq, chunk]
      exact ⟨by rw [bytes, List.take_left' cut], wf_r, by rw [bytes, List.drop_left' cut]⟩
    · obtain ⟨taken, wf_r, left, -⟩ := read_spec wf (min n q.length)
      exact ⟨by rw [Handle.content_ofList, taken], wf_r, left⟩

theorem skip_spec (wf : q.WellFormed) (n : Nat) :
    (q.skip n).1 = min n q.toList.length ∧ (q.skip n).2.WellFormed ∧
      (q.skip n).2.toList = q.toList.drop n := by
  obtain ⟨wf_free, bytes, -⟩ := free_spec wf n
  exact ⟨by rw [← wf.counted]; rfl, wf_free, bytes⟩

end ByteFlow.ChunkQueue
