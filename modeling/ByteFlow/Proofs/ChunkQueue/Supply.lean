import ByteFlow.Proofs.ChunkQueue.Layout

/-! Adding bytes at either end of a queue.
Whether room is found in a chunk, by growing it, or in a new one, the queued bytes come out alike. -/
namespace ByteFlow.ChunkQueue

variable {q r : ChunkQueue} {before : List Handle} {last : Handle}

/-! At the back -/

theorem changeLast_concat (held : List StorageId) (f : List StorageId → Handle → Handle)
    (before : List Handle) (last : Handle) :
    ∃ others, changeLast held f (before ++ [last]) = before ++ [f others last] := by
  induction before generalizing held with
  | nil => exact ⟨held, rfl⟩
  | cons c rest ih =>
    obtain ⟨others, changed⟩ := ih (c.id?.toList ++ held)
    refine ⟨others, ?_⟩
    rw [List.cons_append, List.cons_append, ← changed]
    cases rest <;> rfl

/-- Ending the last chunk where its data ends and counting some of a new one as data. -/
private theorem Layout.extend (lay : q.Layout before last) (data : start q.head before < q.tail)
    {last' chunk : Handle} (chunks_eq : r.chunks = before ++ [last'] ++ [chunk])
    (head_eq : r.head = q.head) (same : last'.content = last.content.take q.tail)
    (fits : r.tail ≤ chunk.length) :
    r.Layout (before ++ [last']) chunk ∧ r.toList = q.toList ++ chunk.content.take r.tail := by
  have length_eq : last'.length = q.tail := by
    have := lay.tail_le
    rw [← last'.length_content, same]
    simp
    omega
  have shaped : r.Layout (before ++ [last']) chunk := by
    refine ⟨chunks_eq, ?_, ?_, fits⟩
    · rw [head_eq, led_concat]
      exact ⟨lay.led, length_eq ▸ data⟩
    · rw [start_concat]
      exact Nat.zero_le _
  refine ⟨shaped, ?_⟩
  rw [shaped.toList_eq, lay.toList_eq, head_eq, List.flatMap_append, List.flatMap_cons,
    List.flatMap_nil, List.append_nil, same, List.drop_append_of_le_length lay.head_le]

private theorem extendWith_spec (held : List StorageId) (chunk : Handle) (lay : q.Layout before last) :
    ∃ last', (q.extendWith held chunk).chunks = before ++ [last'] ++ [chunk] ∧
      last'.content = last.content.take q.tail := by
  obtain ⟨others, changed⟩ := changeLast_concat held (fun held => Handle.resize held q.tail) before last
  refine ⟨_, by rw [extendWith, lay.chunks_eq, changed], ?_⟩
  rw [Handle.content_resize, Nat.sub_eq_zero_of_le lay.tail_le, List.replicate_zero, List.append_nil]

/-- A chunk is spilled into only when the last one holds data. -/
private theorem WellFormed.data_of_spills (wf : q.WellFormed) (lay : q.Layout before last)
    {held : List StorageId} {n : Nat} (small : n < Word.requestLimit) (spills : q.spills held n) :
    start q.head before < q.tail := by
  refine wf.start_lt lay (Nat.pos_of_ne_zero fun none => ?_)
  have ended := wf.ended.mpr none
  simp only [ChunkQueue.spills, ended, Nat.zero_add, Bool.and_eq_true, Bool.or_eq_true, decide_eq_true_eq] at spills
  omega

private theorem grown_layout (held : List StorageId) (n : Nat) (lay : q.Layout before last) :
    ∃ last', (⟨changeLast held (fun held => Handle.resize held (max q.chunkSize (q.tail + n))) q.chunks,
        q.head, q.tail, q.length, q.chunkSize⟩ : ChunkQueue).Layout before last' ∧
      q.tail + n ≤ last'.length ∧
      (⟨changeLast held (fun held => Handle.resize held (max q.chunkSize (q.tail + n))) q.chunks,
        q.head, q.tail, q.length, q.chunkSize⟩ : ChunkQueue).toList = q.toList := by
  obtain ⟨others, changed⟩ := changeLast_concat held
    (fun held => Handle.resize held (max q.chunkSize (q.tail + n))) before last
  rw [lay.chunks_eq, changed]
  have same : (Handle.resize others (max q.chunkSize (q.tail + n)) last).content.take q.tail =
      last.content.take q.tail := by
    have := lay.tail_le
    rw [Handle.content_resize, List.take_append_of_le_length (by simp; omega), List.take_take,
      Nat.min_eq_left (by omega)]
  obtain ⟨shaped, same_bytes⟩ := lay.grow
    (r := ⟨_, q.head, q.tail, q.length, q.chunkSize⟩) rfl rfl same (Nat.le_refl _)
    (by rw [Handle.length_resize]; dsimp only; omega)
  refine ⟨_, shaped, by rw [Handle.length_resize]; omega, ?_⟩
  rw [same_bytes, List.drop_eq_nil_of_le (List.length_take_le _ _), List.append_nil]

/-- The last chunk comes to reach past the data, which stays as it is. -/
private theorem provide_spec (wf : q.WellFormed) (held : List StorageId) {n : Nat} (small : n < Word.requestLimit) :
    ∃ before last, (q.provide held n).Layout before last ∧ (q.provide held n).tail + n ≤ last.length ∧
      (q.provide held n).toList = q.toList ∧ (q.provide held n).length = q.length ∧
      (q.provide held n).chunkSize = q.chunkSize := by
  obtain ⟨before, last, lay⟩ := wf.layout
  rw [provide]
  split
  · next fits => exact ⟨before, last, lay, lay.lastChunk_eq ▸ fits, rfl, rfl, rfl⟩
  · dsimp only
    split
    · next spills =>
      have data := wf.data_of_spills lay small spills
      obtain ⟨last', chunks_eq, same⟩ := extendWith_spec held Handle.empty lay
      obtain ⟨extended, same_bytes⟩ := lay.extend data chunks_eq rfl same (Nat.zero_le _)
      obtain ⟨grown, shaped, fits, same_grown⟩ := grown_layout held n extended
      refine ⟨_, grown, shaped, fits, ?_, rfl, rfl⟩
      rw [same_grown, same_bytes, Handle.content_empty, List.take_nil, List.append_nil]
    · obtain ⟨grown, shaped, fits, same_grown⟩ := grown_layout held n lay
      exact ⟨_, grown, shaped, fits, same_grown, rfl, rfl⟩

/-- The last `n` bytes of the queue lie in its last chunk. -/
def HasSlot (n : Nat) (q : ChunkQueue) : Prop :=
  ∃ before last, q.Layout before last ∧ start q.head before + n ≤ q.tail

theorem reserve?_eq_none_iff (q : ChunkQueue) (held : List StorageId) (n : Nat) :
    q.reserve? held n = none ↔ n = 0 ∨ Word.requestLimit ≤ n := by
  rw [reserve?]
  split
  · next refused => simp [refused]
  · next granted => simp [granted]

/-- A reservation queues a slot of the size asked for behind the data. -/
theorem reserve?_spec (wf : q.WellFormed) {held : List StorageId} {n : Nat}
    (granted : q.reserve? held n = some r) :
    r.WellFormed ∧ r.HasSlot n ∧ r.toList = q.toList ++ r.slot n ∧ (r.slot n).length = n ∧
      r.length = q.length + n ∧ r.chunkSize = q.chunkSize := by
  rw [reserve?] at granted
  split at granted
  · cases granted
  · next possible =>
    obtain ⟨before, last, lay, fits, same_bytes, same_length, same_size⟩ :=
      provide_spec wf held (n := n) (by omega)
    obtain ⟨others, changed⟩ := changeLast_concat held Handle.detach before last
    obtain rfl := Option.some.inj granted
    have chunks_eq : changeLast held Handle.detach (q.provide held n).chunks =
        before ++ [last.detach others] := by rw [lay.chunks_eq, changed]
    have begins := lay.start_le
    obtain ⟨shaped, more_bytes⟩ := lay.grow
      (r := { q.provide held n with
        chunks := changeLast held Handle.detach (q.provide held n).chunks
        tail := (q.provide held n).tail + n
        length := (q.provide held n).length + n })
      chunks_eq rfl (by rw [Handle.content_detach]) (Nat.le_add_right _ _)
      (by rw [← Handle.length_content, Handle.content_detach, Handle.length_content]; exact fits)
    have slot_eq : ∀ {s : ChunkQueue}, s.Layout before (last.detach others) → s.slot n =
        ((last.detach others).content.take s.tail).drop (s.tail - n) := by
      intro s layout
      rw [slot, layout.lastChunk_eq]
    rw [same_bytes] at more_bytes
    have grown : ({ q.provide held n with
        chunks := changeLast held Handle.detach (q.provide held n).chunks
        tail := (q.provide held n).tail + n
        length := (q.provide held n).length + n } : ChunkQueue).toList.length = q.length + n := by
      rw [more_bytes, List.length_append, ← wf.counted]
      simp
      omega
    refine ⟨.of_layout shaped ?_ ?_, ⟨before, _, shaped, ?_⟩, ?_, ?_, ?_, same_size⟩
    · rw [grown, ← same_length]
    · dsimp only; omega
    · dsimp only; omega
    · rw [slot_eq shaped, more_bytes]
      simp
    · rw [slot_eq shaped]
      simp
      omega
    · rw [← same_length]

/-- Whatever is written over, no chunk gets longer or shorter. -/
theorem WellFormed.fill (wf : q.WellFormed) (held : List StorageId) (bytes : List UInt8) : (q.fill held bytes).WellFormed := by
  obtain ⟨before, last, lay⟩ := wf.layout
  have counted := wf.counted
  obtain ⟨others, changed⟩ := changeLast_concat held
    (fun held => Handle.store held (q.tail - bytes.length) bytes) before last
  have chunks_eq : (q.fill held bytes).chunks = before ++ [last.store others (q.tail - bytes.length) bytes] := by
    simpa [ChunkQueue.fill, lay.chunks_eq] using changed
  have fits : q.tail ≤ (last.store others (q.tail - bytes.length) bytes).length := by simpa using lay.tail_le
  have shaped : (q.fill held bytes).Layout before (last.store others (q.tail - bytes.length) bytes) :=
    ⟨chunks_eq, lay.led, lay.start_le, fits⟩
  refine ⟨⟨before, _, shaped⟩, ?_, wf.ended⟩
  rw [lay.length_toList] at counted
  rw [shaped.length_toList]
  exact counted

/-- Writing over the last bytes leaves those before them alone. -/
private theorem fill_spec (wf : q.WellFormed) (held : List StorageId) (bytes : List UInt8)
    (slot : q.HasSlot bytes.length) :
    (q.fill held bytes).WellFormed ∧
      (q.fill held bytes).toList = q.toList.take (q.length - bytes.length) ++ bytes := by
  obtain ⟨before, last, lay, room⟩ := slot
  have fits := lay.tail_le
  have begins := lay.start_le
  obtain ⟨others, changed⟩ := changeLast_concat held
    (fun held => Handle.store held (q.tail - bytes.length) bytes) before last
  have chunks_eq : (q.fill held bytes).chunks =
      before ++ [last.store others (q.tail - bytes.length) bytes] := by
    rw [fill, lay.chunks_eq, changed]
  have shorter : ({ q with tail := q.tail - bytes.length } : ChunkQueue).Layout before last :=
    ⟨lay.chunks_eq, lay.led, by dsimp only; omega, by dsimp only; omega⟩
  have old := (shorter.grow (r := q) lay.chunks_eq rfl rfl (Nat.sub_le _ _) fits).2
  have written : (last.store others (q.tail - bytes.length) bytes).content =
      last.content.take (q.tail - bytes.length) ++ bytes ++ last.content.drop q.tail := by
    rw [Handle.content_store, Handle.overlaid, List.take_of_length_le (l := bytes) (by simp; omega)]
    congr 2
    omega
  have cut : (last.content.take (q.tail - bytes.length)).length = q.tail - bytes.length := by
    simp
    omega
  obtain ⟨shaped, new⟩ := shorter.grow (r := q.fill held bytes) chunks_eq rfl
    (by rw [written, List.append_assoc, List.take_append_of_le_length (Nat.le_of_eq cut.symm),
      List.take_take, Nat.min_self])
    (Nat.sub_le _ _) (by rw [Handle.length_store]; exact fits)
  have replaced : ((last.store others (q.tail - bytes.length) bytes).content.take
      (q.fill held bytes).tail).drop (q.tail - bytes.length) = bytes := by
    rw [written, List.take_left' (by rw [List.length_append, cut]; dsimp only [fill]; omega)]
    exact List.drop_left' cut
  dsimp only at new old
  rw [replaced] at new
  have kept : q.toList.take (q.length - bytes.length) =
      ({ q with tail := q.tail - bytes.length } : ChunkQueue).toList := by
    rw [old]
    refine List.take_left' ?_
    have slot_length : ((last.content.take q.tail).drop (q.tail - bytes.length)).length = bytes.length := by
      simp
      omega
    have total := wf.counted
    rw [old, List.length_append, slot_length] at total
    omega
  refine ⟨?_, by rw [new, kept]⟩
  refine ⟨⟨before, _, shaped⟩, ?_, wf.ended⟩
  have same : (q.fill held bytes).toList.length = q.toList.length := by
    rw [new, old]
    simp
    omega
  rw [same]
  exact wf.counted

/-- A reservation that is filled at once queues the bytes of the filling. -/
theorem fill_reserve?_spec (wf : q.WellFormed) (held others : List StorageId) (bytes : List UInt8)
    (granted : q.reserve? held bytes.length = some r) :
    (r.fill others bytes).WellFormed ∧ (r.fill others bytes).toList = q.toList ++ bytes := by
  obtain ⟨wf_r, slot, bytes_r, _, length_r, _⟩ := reserve?_spec wf granted
  obtain ⟨wf_filled, filled⟩ := fill_spec wf_r others bytes slot
  refine ⟨wf_filled, ?_⟩
  rw [filled, length_r, Nat.add_sub_cancel, bytes_r, wf.counted, List.take_left]

/-- Bytes that can be asked for at once are queued; too many are refused whole. -/
theorem appendBytes_spec (wf : q.WellFormed) (held : List StorageId) (bytes : List UInt8) :
    (q.appendBytes held bytes).WellFormed ∧ (q.appendBytes held bytes).toList =
      if bytes.length < Word.requestLimit then q.toList ++ bytes else q.toList := by
  rw [appendBytes]
  cases granted : q.reserve? held bytes.length with
  | some r =>
    have possible : ¬ (bytes.length = 0 ∨ Word.requestLimit ≤ bytes.length) := by
      rw [← reserve?_eq_none_iff q held, granted]
      simp
    rw [if_pos (by omega)]
    exact fill_reserve?_spec wf held held bytes granted
  | none =>
    refine ⟨wf, ?_⟩
    rcases (reserve?_eq_none_iff q held _).mp granted with none | large
    · simp [List.length_eq_zero_iff.mp none]
    · rw [if_neg (by omega)]

theorem put_spec (wf : q.WellFormed) (held : List StorageId) (b : UInt8) :
    (q.put held b).WellFormed ∧ (q.put held b).toList = q.toList ++ [b] := by
  have small : [b].length < Word.requestLimit := show 1 < Word.requestLimit by decide
  have := appendBytes_spec wf held [b]
  rwa [if_pos small] at this

/-- A handle taken over as a chunk shows the same bytes there, whatever storage it has. -/
theorem append_spec (wf : q.WellFormed) (held : List StorageId) (data : Handle) :
    (q.append held data).WellFormed ∧ (q.append held data).toList = q.toList ++ data.content := by
  rw [append]
  split
  · next none =>
    have : data.length = 0 := by simpa [Handle.isEmpty] using none
    exact ⟨wf, by rw [(Handle.content_eq_nil_iff data).mpr this, List.append_nil]⟩
  · next some =>
    have positive : 0 < data.length := Nat.pos_of_ne_zero (by simpa [Handle.isEmpty] using some)
    dsimp only
    split
    · next ended =>
      have none := wf.ended.mp ended
      obtain ⟨c, chunks_eq, head_eq, -⟩ := wf.of_length_eq_zero none
      have shaped : (⟨q.chunks.dropLast ++ [data], q.head, data.length, q.length + data.length,
          q.chunkSize⟩ : ChunkQueue).Layout [] data :=
        ⟨by simp [chunks_eq], trivial, by simp [start, head_eq], Nat.le_refl _⟩
      have bytes : (⟨q.chunks.dropLast ++ [data], q.head, data.length, q.length + data.length,
          q.chunkSize⟩ : ChunkQueue).toList = data.content := by
        rw [shaped.toList_eq]
        simp [head_eq, List.take_of_length_le]
      refine ⟨.of_layout shaped ?_ ?_, ?_⟩
      · rw [bytes, none, Nat.zero_add, Handle.length_content]
      · simpa [start, head_eq] using positive
      · rw [bytes, wf.toList_eq_nil none, List.nil_append]
    · next ended =>
      obtain ⟨before, last, lay⟩ := wf.layout
      have data_before := wf.start_lt lay (Nat.pos_of_ne_zero (mt wf.ended.mpr ended))
      obtain ⟨last', chunks_eq, same⟩ := extendWith_spec (data.id?.toList ++ held) data lay
      obtain ⟨shaped, bytes⟩ := lay.extend data_before
        (r := ⟨(q.extendWith (data.id?.toList ++ held) data).chunks, q.head, data.length,
          q.length + data.length, q.chunkSize⟩) chunks_eq rfl same (Nat.le_refl _)
      rw [List.take_of_length_le (by simp)] at bytes
      refine ⟨.of_layout shaped ?_ ?_, bytes⟩
      · rw [bytes, List.length_append, Handle.length_content, wf.counted]
      · rw [start_concat]
        exact positive

/-! At the front -/

/-- The first `n` bytes of the queue lie in its first chunk. -/
def HasFrontSlot (n : Nat) (q : ChunkQueue) : Prop :=
  ∃ before last, q.Layout before last ∧ q.head + n ≤ firstEnd q.tail before

/-- Bytes that were dropped from the first chunk, or never used there, count as data again. -/
private theorem lowered_spec (lay : q.Layout before last) (wf : q.WellFormed) {n : Nat} (some : 0 < n)
    (room : n ≤ q.head) (chunks_eq : r.chunks = q.chunks) (head_eq : r.head = q.head - n)
    (tail_eq : r.tail = q.tail) (length_eq : r.length = q.length + n) :
    r.WellFormed ∧ r.HasFrontSlot n ∧ r.toList.drop n = q.toList := by
  have counted := wf.counted
  have begins := lay.start_le
  have behind := lay.head_le
  have led := lay.led
  have data : start r.head before < r.tail := by
    cases before with
    | nil => simp only [start] at begins ⊢; omega
    | cons c rest =>
      have ended := wf.ended.mp
      have total := lay.length_toList
      have := led.1
      simp only [start] at begins ⊢
      simp only [List.flatMap_cons, List.length_append, Handle.length_content] at total
      omega
  have shaped : r.Layout before last := by
    refine ⟨chunks_eq ▸ lay.chunks_eq, ?_, Nat.le_of_lt data, tail_eq ▸ lay.tail_le⟩
    cases before with
    | nil => trivial
    | cons c rest => exact ⟨by have := led.1; omega, led.2⟩
  have bytes : r.toList.drop n = q.toList := by
    rw [shaped.toList_eq, lay.toList_eq, tail_eq, List.drop_drop]
    congr 1
    omega
  refine ⟨.of_layout shaped ?_ data, ⟨before, last, shaped, ?_⟩, bytes⟩
  · rw [shaped.length_toList, length_eq, counted, lay.length_toList]
    simp only [List.length_append, List.length_take, Handle.length_content] at behind
    have := lay.tail_le
    omega
  · cases before with
    | nil => simp only [start, firstEnd] at begins ⊢; omega
    | cons c rest => have := led.1; simp only [firstEnd]; omega

private theorem overlaid_nil (place : Nat) (bytes : List UInt8) : Handle.overlaid place [] bytes = bytes := by
  simp [Handle.overlaid]

private theorem drop_overlaid (place : Nat) (new bytes : List UInt8)
    (fits : place + new.length ≤ bytes.length) :
    (Handle.overlaid place new bytes).drop place = new ++ bytes.drop (place + new.length) := by
  have cut : (bytes.take place).length = place := by
    simp
    omega
  rw [Handle.overlaid, List.take_of_length_le (l := new) (by omega), List.append_assoc,
    List.drop_left' cut]

/-- Writing over the first bytes leaves those behind them alone. -/
private theorem rewritten_first_spec (wf : q.WellFormed) {n : Nat} (slot : q.HasFrontSlot n)
    (held : List StorageId) (f : List StorageId → Handle → Handle) (bytes : List UInt8)
    (small : bytes.length ≤ n)
    (writes : ∀ others c, (f others c).content = Handle.overlaid q.head bytes c.content)
    (chunks_eq : r.chunks = changeFirst held f q.chunks) (head_eq : r.head = q.head)
    (tail_eq : r.tail = q.tail) (length_eq : r.length = q.length) :
    r.WellFormed ∧ r.HasFrontSlot n ∧ r.toList = bytes ++ q.toList.drop bytes.length := by
  obtain ⟨before, last, lay, room⟩ := slot
  have fits := lay.tail_le
  have same_length : ∀ others (c : Handle), q.head + bytes.length ≤ c.length →
      (f others c).length = c.length := by
    intro others c inside
    rw [← Handle.length_content, writes, Handle.overlaid]
    simp
    omega
  obtain ⟨before', last', shaped, ends, written⟩ : ∃ before' last', r.Layout before' last' ∧
      firstEnd q.tail before' = firstEnd q.tail before ∧
      r.toList = bytes ++ q.toList.drop bytes.length := by
    cases before with
    | nil =>
      simp only [firstEnd] at room
      have shaped : r.Layout [] (f (Handle.ids [] ++ held) last) := by
        refine ⟨by rw [chunks_eq, lay.chunks_eq]; rfl, trivial, ?_, ?_⟩
        · rw [head_eq, tail_eq]
          exact lay.start_le
        · rw [tail_eq, same_length _ _ (by omega)]
          exact fits
      refine ⟨_, _, shaped, rfl, ?_⟩
      rw [shaped.toList_eq, lay.toList_eq, head_eq, tail_eq, List.flatMap_nil, List.nil_append,
        List.nil_append, writes, List.drop_take, drop_overlaid _ _ _ (by simp; omega), List.take_append,
        List.take_of_length_le (by omega), List.drop_drop, List.drop_take]
      congr 2
      omega
    | cons c rest =>
      simp only [firstEnd] at room
      have shaped : r.Layout (f (Handle.ids (rest ++ [last]) ++ held) c :: rest) last := by
        refine ⟨by rw [chunks_eq, lay.chunks_eq]; rfl, ⟨?_, lay.led.2⟩, ?_, tail_eq ▸ fits⟩
        · rw [head_eq, same_length _ _ (by omega)]
          exact lay.led.1
        · rw [tail_eq]
          exact lay.start_le
      refine ⟨_, _, shaped, same_length _ _ (by omega), ?_⟩
      rw [shaped.toList_eq, lay.toList_eq, head_eq, tail_eq, List.flatMap_cons, List.flatMap_cons,
        List.append_assoc, List.append_assoc, List.drop_drop,
        List.drop_append_of_le_length (by rw [Handle.length_content, same_length _ _ (by omega)]; omega),
        List.drop_append_of_le_length (by simp; omega), writes, drop_overlaid _ _ _ (by simp; omega),
        List.append_assoc]
  have total : bytes.length ≤ q.length := by
    have := lay.length_toList
    have counted := wf.counted
    cases before with
    | nil => simp only [firstEnd, List.flatMap_nil, List.length_nil] at room this; omega
    | cons c rest =>
      simp only [firstEnd, List.flatMap_cons, List.length_append, Handle.length_content] at room this
      omega
  refine ⟨⟨⟨before', last', shaped⟩, ?_, ?_⟩, ⟨before', last', shaped, ?_⟩, written⟩
  · rw [written, length_eq, List.length_append, List.length_drop, ← wf.counted]
    omega
  · rw [tail_eq, length_eq]
    exact wf.ended
  · rw [head_eq, tail_eq, ends]
    exact room

private theorem fillFront_spec (wf : q.WellFormed) (held : List StorageId) (bytes : List UInt8)
    (slot : q.HasFrontSlot bytes.length) :
    (q.fillFront held bytes).WellFormed ∧
      (q.fillFront held bytes).toList = bytes ++ q.toList.drop bytes.length := by
  obtain ⟨wf_filled, -, filled⟩ := rewritten_first_spec (r := q.fillFront held bytes) wf slot held
    (fun held => Handle.store held q.head bytes) bytes (Nat.le_refl _)
    (fun others c => Handle.content_store others q.head bytes c) rfl rfl rfl rfl
  exact ⟨wf_filled, filled⟩

theorem reserveFront?_eq_none_iff (q : ChunkQueue) (held : List StorageId) (n : Nat) :
    q.reserveFront? held n = none ↔ n = 0 ∨ Word.requestLimit ≤ n := by
  rw [reserveFront?]
  split
  · next refused => simp [refused]
  · next granted => simp [granted]

/-- The first chunk may lose what was read of it. -/
private theorem trimmed_spec (wf : q.WellFormed) (some : q.length ≠ 0) (held : List StorageId)
    (chunks_eq : r.chunks = changeFirst held (fun held => Handle.remove held 0 q.head) q.chunks) (head_eq : r.head = 0)
    (tail_eq : r.tail = if r.chunks.length = 1 then q.tail - q.head else q.tail) (length_eq : r.length = q.length) :
    r.WellFormed ∧ r.toList = q.toList := by
  obtain ⟨before, last, lay⟩ := wf.layout
  have data := wf.start_lt lay (Nat.pos_of_ne_zero some)
  have fits := lay.tail_le
  have trimmed : ∀ (others : List StorageId) (c : Handle), (c.remove others 0 q.head).content = c.content.drop q.head := by
    intro others c
    rw [Handle.content_remove, Handle.removed, List.take_zero, List.nil_append, Nat.zero_add]
  have length_trimmed : ∀ (others : List StorageId) (c : Handle), (c.remove others 0 q.head).length = c.length - q.head := by
    intro others c
    rw [← Handle.length_content, trimmed, List.length_drop, Handle.length_content]
  rw [lay.chunks_eq] at chunks_eq
  cases before with
  | nil =>
    simp only [start] at data
    rw [if_pos (by rw [chunks_eq]; rfl)] at tail_eq
    have shaped : r.Layout [] (last.remove (Handle.ids [] ++ held) 0 q.head) := by
      refine ⟨chunks_eq, trivial, ?_, ?_⟩
      · simp only [start]
        omega
      · rw [length_trimmed]
        omega
    have bytes : r.toList = q.toList := by
      rw [shaped.toList_eq, lay.toList_eq, trimmed, head_eq, tail_eq, List.drop_zero, List.flatMap_nil, List.nil_append,
        List.nil_append, List.drop_take]
    refine ⟨.of_layout shaped ?_ ?_, bytes⟩
    · rw [bytes, length_eq, wf.counted]
    · simp only [start]
      omega
  | cons c rest =>
    simp only [start] at data
    have led := lay.led
    have many : ¬ r.chunks.length = 1 := by simp [chunks_eq, changeFirst]
    rw [if_neg many] at tail_eq
    have shaped : r.Layout (c.remove (Handle.ids (rest ++ [last]) ++ held) 0 q.head :: rest) last := by
      refine ⟨chunks_eq, ⟨?_, led.2⟩, Nat.zero_le _, tail_eq ▸ fits⟩
      rw [length_trimmed, head_eq]
      have := led.1
      omega
    have bytes : r.toList = q.toList := by
      rw [shaped.toList_eq, lay.toList_eq, head_eq, tail_eq, List.drop_zero, List.flatMap_cons, List.flatMap_cons, trimmed,
        List.append_assoc, List.append_assoc, List.drop_append_of_le_length]
      rw [Handle.length_content]
      exact Nat.le_of_lt led.1
    refine ⟨.of_layout shaped ?_ ?_, bytes⟩
    · rw [bytes, length_eq, wf.counted]
    · simp only [start]
      omega

/-- A chunk of its own before the first one has room for what is to come before the data. -/
private theorem prepended_spec (wf : q.WellFormed) (some : q.length ≠ 0) (start_eq : q.head = 0) {n : Nat}
    (positive : 0 < n)
    {room : Handle} (chunks_eq : r.chunks = room :: q.chunks) (head_eq : r.head + n = room.length) (tail_eq : r.tail = q.tail)
    (length_eq : r.length = q.length + n) : r.WellFormed ∧ r.HasFrontSlot n ∧ r.toList.drop n = q.toList := by
  obtain ⟨before, last, lay⟩ := wf.layout
  have data := wf.start_lt lay (Nat.pos_of_ne_zero some)
  have led := lay.led
  rw [start_eq] at led
  have shaped : r.Layout (room :: before) last := by
    refine ⟨?_, ⟨by omega, led⟩, Nat.zero_le _, tail_eq ▸ lay.tail_le⟩
    rw [chunks_eq, lay.chunks_eq]
    rfl
  have bytes : r.toList.drop n = q.toList := by
    rw [shaped.toList_eq, lay.toList_eq, List.drop_drop, head_eq, List.flatMap_cons, List.append_assoc,
      List.drop_left' room.length_content, tail_eq, start_eq, List.drop_zero]
  refine ⟨.of_layout shaped ?_ ?_, ⟨_, _, shaped, Nat.le_of_eq head_eq⟩, bytes⟩
  · have total := congrArg List.length bytes
    have := shaped.length_toList
    rw [List.flatMap_cons, List.length_append, Handle.length_content] at this
    rw [List.length_drop, ← wf.counted] at total
    omega
  · rw [tail_eq]
    exact Nat.lt_of_le_of_lt (Nat.zero_le _) data

/-- Room at the front for `n` bytes, once they count as data. -/
private theorem provideFront_spec (wf : q.WellFormed) (held : List StorageId) {n : Nat} (some : 0 < n)
    (chunks_eq : r.chunks = (q.provideFront held n).chunks)
    (head_eq : r.head = (q.provideFront held n).head - n)
    (tail_eq : r.tail = (q.provideFront held n).tail) (length_eq : r.length = q.length + n) :
    r.WellFormed ∧ r.HasFrontSlot n ∧ r.toList.drop n = q.toList := by
  obtain ⟨before, last, lay⟩ := wf.layout
  rw [provideFront] at chunks_eq head_eq tail_eq
  split at chunks_eq
  · next room =>
    rw [if_pos room] at head_eq tail_eq
    exact lowered_spec lay wf some room chunks_eq head_eq tail_eq length_eq
  · next crowded =>
    rw [if_neg crowded] at head_eq tail_eq
    dsimp only at chunks_eq head_eq tail_eq
    by_cases none : q.length = 0
    · obtain ⟨c, chunks_q, head_q, tail_q⟩ := wf.of_length_eq_zero none
      rw [if_pos none] at chunks_eq tail_eq
      rw [chunks_q] at chunks_eq
      have shaped : r.Layout [] (((c.remove (Handle.ids [] ++ held) 0 q.head).resize
          (Handle.ids [] ++ held) (max q.chunkSize n))) := by
        refine ⟨chunks_eq, trivial, ?_, ?_⟩
        · simp only [start]
          omega
        · rw [Handle.length_resize]
          omega
      have total := shaped.length_toList
      rw [List.flatMap_nil, List.length_nil] at total
      refine ⟨.of_layout shaped (by omega) (by simp only [start]; omega), ⟨_, _, shaped, ?_⟩, ?_⟩
      · simp only [firstEnd]
        omega
      · rw [wf.toList_eq_nil none, List.drop_eq_nil_of_le (by omega)]
    · rw [if_neg none] at chunks_eq tail_eq
      obtain ⟨wf_trimmed, same⟩ := trimmed_spec (r := { q with
        chunks := changeFirst held (fun held => Handle.remove held 0 q.head) q.chunks
        head := 0
        tail := if (changeFirst held (fun held => Handle.remove held 0 q.head) q.chunks).length = 1
          then q.tail - q.head else q.tail }) wf none held rfl rfl rfl rfl
      rw [← same]
      apply prepended_spec wf_trimmed none rfl some chunks_eq
      · rw [Handle.length_resize]
        omega
      · exact tail_eq
      · exact length_eq

/-- A reservation at the front queues a slot of the size asked for before the data. -/
private theorem reserveFront?_spec (wf : q.WellFormed) {held : List StorageId} {n : Nat}
    (granted : q.reserveFront? held n = some r) :
    r.WellFormed ∧ r.HasFrontSlot n ∧ r.toList.drop n = q.toList ∧ r.length = q.length + n := by
  rw [reserveFront?] at granted
  split at granted
  · cases granted
  · next possible =>
    have length_eq : (q.provideFront held n).length = q.length := by
      rw [provideFront]
      split <;> rfl
    obtain rfl := Option.some.inj granted
    obtain ⟨wf_room, slot, bytes⟩ := provideFront_spec wf held (n := n) (by omega)
      (r := { q.provideFront held n with
        head := (q.provideFront held n).head - n
        length := (q.provideFront held n).length + n }) rfl rfl rfl (by rw [length_eq])
    obtain ⟨wf_detached, slot_detached, same⟩ := rewritten_first_spec wf_room slot held Handle.detach
      [] (Nat.zero_le _) (fun others c => by rw [Handle.content_detach, overlaid_nil])
      (r := { q.provideFront held n with
        chunks := changeFirst held Handle.detach (q.provideFront held n).chunks
        head := (q.provideFront held n).head - n
        length := (q.provideFront held n).length + n }) rfl rfl rfl rfl
    rw [List.nil_append, List.length_nil, List.drop_zero] at same
    exact ⟨wf_detached, slot_detached, same ▸ bytes, by rw [← length_eq]⟩

theorem fillFront_reserveFront?_spec (wf : q.WellFormed) (held others : List StorageId)
    (bytes : List UInt8) (granted : q.reserveFront? held bytes.length = some r) :
    (r.fillFront others bytes).WellFormed ∧ (r.fillFront others bytes).toList = bytes ++ q.toList := by
  obtain ⟨wf_r, slot, bytes_r, -⟩ := reserveFront?_spec wf granted
  obtain ⟨wf_filled, filled⟩ := fillFront_spec wf_r others bytes slot
  exact ⟨wf_filled, by rw [filled, bytes_r]⟩

theorem unget_spec (wf : q.WellFormed) (held : List StorageId) (b : UInt8) :
    (q.unget held b).WellFormed ∧ (q.unget held b).toList = b :: q.toList := by
  rw [unget]
  split
  · next room =>
    obtain ⟨before, last, lay⟩ := wf.layout
    obtain ⟨wf_lowered, slot, bytes⟩ := lowered_spec lay wf (n := 1) Nat.one_pos room
      (r := { q with head := q.head - 1, length := q.length + 1 }) rfl rfl rfl rfl
    obtain ⟨wf_filled, filled⟩ := fillFront_spec wf_lowered held [b] slot
    exact ⟨wf_filled, by rw [filled, List.length_singleton, bytes]; rfl⟩
  · cases granted : q.reserveFront? held 1 with
    | some r => exact fillFront_reserveFront?_spec wf held held [b] granted
    | none =>
      rcases (reserveFront?_eq_none_iff q held 1).mp granted with bad | bad
      · cases bad
      · exact absurd bad (by decide)

end ByteFlow.ChunkQueue
