import ByteFlow.Device.Basic
import ByteFlow.Proofs.ChunkQueue.Supply
import ByteFlow.Proofs.Medium.Source

/-! The bytes that a device has in store: those queued and those still in the medium.
On a random-access medium they are the queued ones and what stands behind them; unless bytes were put
back, the queue is only a copy of what stands at the position. Filling the queue and finding the medium
again leave them as they are. -/
namespace ByteFlow.Device
open Medium

namespace Channels

theorem queue_mem (c : Channels) : c.queue ∈ c.queues := List.get_mem _ _

@[simp] theorem put_queue (c : Channels) : c.put c.queue = c := by
  simp [put, queue]

@[simp] theorem put_put (c : Channels) (q r : ChunkQueue) : (c.put q).put r = c.put r := by
  simp [put]

theorem queue_grow (c : Channels) (n chunkSize : Nat) : (c.grow n chunkSize).queue = c.queue := by
  simp [grow, queue, List.getElem_append_left c.inside]

theorem current_select {c : Channels} {channel : Nat} (inside : channel < c.count) :
    (c.select channel).current = channel := by
  rw [select]
  split
  · rfl
  · next outside => exact absurd inside outside

theorem queues_select (c : Channels) (channel : Nat) : (c.select channel).queues = c.queues := by
  rw [select]
  split <;> rfl

theorem count_put (c : Channels) (q : ChunkQueue) : (c.put q).count = c.count := List.length_set

theorem count_select (c : Channels) (channel : Nat) : (c.select channel).count = c.count := by
  rw [count, queues_select, count]

theorem getElem?_current (c : Channels) : c.queues[c.current]? = some c.queue := List.getElem?_eq_getElem c.inside

/-- A chosen channel that exists is the current one from then on, with its queue. -/
theorem getElem?_select (c : Channels) {channel : Nat} (inside : channel < c.count) :
    c.queues[channel]? = some (c.select channel).queue := by
  have found := (c.select channel).getElem?_current
  rwa [current_select inside, queues_select] at found

theorem queue_change (c : Channels) (channel : Nat) (f : ChunkQueue → ChunkQueue) :
    (c.change channel f).queue = if channel = c.current then f c.queue else c.queue := by
  simp only [queue, change, List.get_eq_getElem, List.getElem_modify]

/-! What holds of every queue still does if it holds of the ones that came in. -/

variable {p : ChunkQueue → Prop} {c : Channels} {n chunkSize : Nat}

theorem forall_single (new : p (.withChunkSize chunkSize)) : ∀ q ∈ (single chunkSize).queues, p q := by
  intro q member
  rwa [List.mem_singleton.mp member]

theorem forall_put (all : ∀ q ∈ c.queues, p q) {r : ChunkQueue} (new : p r) : ∀ q ∈ (c.put r).queues, p q := by
  intro q member
  rcases List.mem_or_eq_of_mem_set member with old | same
  · exact all q old
  · rwa [same]

theorem forall_grow (all : ∀ q ∈ c.queues, p q) (new : p (.withChunkSize chunkSize)) :
    ∀ q ∈ (c.grow n chunkSize).queues, p q := by
  intro q member
  rcases List.mem_append.mp member with old | added
  · exact all q old
  · rwa [List.eq_of_mem_replicate added]

theorem forall_change (all : ∀ q ∈ c.queues, p q) {channel : Nat} {f : ChunkQueue → ChunkQueue}
    (changed : ∀ q, p q → p (f q)) : ∀ q ∈ (c.change channel f).queues, p q := by
  intro q member
  obtain ⟨i, inside, found⟩ := List.getElem_of_mem member
  simp only [change, List.length_modify] at inside
  simp only [change, List.getElem_modify] at found
  have old := all _ (List.getElem_mem inside)
  split at found
  · exact found ▸ changed _ old
  · exact found ▸ old

end Channels

theorem follow_eq {σ : Type} (d : Device σ) (n : Nat) :
    d.follow n = { d with mediumPos := if d.sequential then d.mediumPos else Word.addWrapped d.mediumPos n } := by
  rw [follow]
  split <;> rfl

variable {σ : Type} [Medium σ] [Source σ]

/-- What a random-access device has queued takes the places from its position on; behind it comes what
stands there. -/
structure Placed (d : Device σ) (queued s : List UInt8) : Prop where
  rest : s = queued ++ (Source.content d.medium).drop (d.pos + queued.length)
  inside : d.pos + queued.length ≤ (Source.content d.medium).length
  small : (Source.content d.medium).length ≤ Word.maxValue
  stands : Source.place d.medium = d.mediumPos

/-- The read queue holds `before`, which was read but stays, and `queued`; `s` is what comes from
there on. -/
structure Supplies (d : Device σ) (before queued s : List UInt8) : Prop where
  sound : Source.Sound d.medium
  kind : Medium.isSequential d.medium = d.sequential
  wellFormed : d.readQueue.WellFormed
  bytes : d.readQueue.toList = before ++ queued
  streamed : d.sequential = true → s = queued ++ Source.ahead d.medium
  placed : d.sequential = false → d.Placed queued s

/-- A random-access medium stands at the device's position. -/
def Synced (d : Device σ) : Prop := d.sequential = false → d.mediumPos = d.pos

/-- What reading leaves alone, the other read channels among it. -/
structure Kin (d e : Device σ) : Prop where
  sequential : e.sequential = d.sequential
  mode : e.mode = d.mode
  config : e.config = d.config
  reading : e.reading = d.reading.put e.readQueue
  writing : e.writing = d.writing
  transaction : e.transaction = d.transaction
  outside : e.outside = d.outside
  medium : Source.Kept d.medium e.medium

/-! Kinship -/

theorem Kin.refl (d : Device σ) : d.Kin d :=
  ⟨rfl, rfl, rfl, (Channels.put_queue d.reading).symm, rfl, rfl, rfl, Source.kept_refl _⟩

theorem Kin.trans {d e f : Device σ} (first : d.Kin e) (second : e.Kin f) : d.Kin f where
  sequential := second.sequential.trans first.sequential
  mode := second.mode.trans first.mode
  config := second.config.trans first.config
  reading := by rw [second.reading, first.reading, Channels.put_put]
  writing := second.writing.trans first.writing
  transaction := second.transaction.trans first.transaction
  outside := second.outside.trans first.outside
  medium := Source.kept_trans first.medium second.medium

/-- A reading step may touch the medium, the read queue, the positions and the error string. -/
theorem Kin.of_parts (d : Device σ) {m : σ} (kept : Source.Kept d.medium m) (q : ChunkQueue)
    (pos mediumPos : Nat) (errorString : String) :
    d.Kin { d with
      medium := m, reading := d.reading.put q, pos := pos, mediumPos := mediumPos
      errorString := errorString } :=
  ⟨rfl, rfl, rfl, by rw [readQueue, Channels.queue_put], rfl, rfl, rfl, kept⟩

theorem Kin.isText {d e : Device σ} (kin : d.Kin e) : e.isText = d.isText := by
  rw [Device.isText, kin.mode, Device.isText]

theorem Kin.isBuffered {d e : Device σ} (kin : d.Kin e) : e.isBuffered = d.isBuffered := by
  rw [Device.isBuffered, kin.mode, Device.isBuffered]

theorem Kin.readObstacle? {d e : Device σ} (kin : d.Kin e) : e.readObstacle? = d.readObstacle? := by
  rw [Device.readObstacle?, isOpen, kin.mode, Device.readObstacle?, isOpen]

theorem Kin.steady_iff {d e : Device σ} (kin : d.Kin e) :
    Source.Steady e.medium ↔ Source.Steady d.medium := Source.steady_of_kept kin.medium

theorem Kin.prompt_iff {d e : Device σ} (kin : d.Kin e) :
    Source.Prompt e.medium ↔ Source.Prompt d.medium := Source.prompt_of_kept kin.medium

/-! Supplies -/

variable {d : Device σ} {before queued s : List UInt8}

/-- What is in store reaches to the end of the contents. -/
theorem Placed.pos_add_length (placed : d.Placed queued s) :
    d.pos + s.length = (Source.content d.medium).length := by
  have := placed.inside
  rw [placed.rest, List.length_append, List.length_drop]
  omega

/-- What is queued comes first. -/
theorem Supplies.queued_prefix (has : d.Supplies before queued s) : queued <+: s := by
  cases kind : d.sequential with
  | true =>
    rw [has.streamed kind]
    exact List.prefix_append _ _
  | false =>
    rw [(has.placed kind).rest]
    exact List.prefix_append _ _

theorem Supplies.length_readQueue (has : d.Supplies before queued s) :
    d.readQueue.length = before.length + queued.length := by
  rw [has.wellFormed.counted, has.bytes, List.length_append]

/-- Once all that was queued is read, the next bytes are the medium's. -/
theorem Supplies.ahead_eq (has : d.Supplies before [] s) (synced : d.Synced) :
    Source.ahead d.medium = s := by
  cases kind : d.sequential with
  | true =>
    rw [has.streamed kind, List.nil_append]
  | false =>
    have placed := has.placed kind
    rw [Source.ahead_eq (has.kind.trans kind), placed.stands, synced kind, placed.rest, List.nil_append,
      List.length_nil, Nat.add_zero]

/-- Finding the medium again cannot fail, for the position lies inside. -/
theorem sync_supplies (has : d.Supplies before queued s) :
    ∃ e, d.sync = (.ok (), e) ∧ e.Supplies before queued s ∧ d.Kin e ∧ e.pos = d.pos ∧ e.Synced := by
  rw [sync]
  split
  · next settled =>
    refine ⟨d, rfl, has, .refl d, rfl, fun random => ?_⟩
    rcases settled with stream | settled
    · rw [random] at stream
      cases stream
    · exact settled
  · next astray =>
    have random : d.sequential = false := by
      rw [not_or] at astray
      simpa using astray.1
    obtain ⟨rest, inside, small, -⟩ := has.placed random
    obtain ⟨m, moved, there, sound, kept⟩ :=
      Source.seek_spec d.heldBesideMedium d.pos has.sound (has.kind.trans random) (by omega)
    rw [moved]
    have same := Source.content_of_kept kept (has.kind.trans random)
    refine ⟨_, rfl, ⟨sound, ?_, has.wellFormed, has.bytes, ?_, ?_⟩, ?_, rfl, fun _ => rfl⟩
    · exact (Source.isSequential_of_kept kept).trans has.kind
    · intro stream
      rw [random] at stream
      cases stream
    · intro _
      exact ⟨by rwa [same], by rwa [same], by rwa [same], there⟩
    · have := Kin.of_parts d kept d.readQueue d.pos d.pos d.errorString
      rwa [readQueue, Channels.put_queue] at this

/-- What a fill makes of the queue: the bytes delivered come behind what was there. -/
theorem fill_chop_spec {q r : ChunkQueue} (wf : q.WellFormed) {held : List StorageId} {n : Nat}
    (granted : q.reserve? held n = some r) {bytes : List UInt8} (few : bytes.length ≤ n) :
    ((r.fill held (bytes ++ (r.slot n).drop bytes.length)).chop (n - bytes.length)).WellFormed ∧
      ((r.fill held (bytes ++ (r.slot n).drop bytes.length)).chop (n - bytes.length)).toList =
        q.toList ++ bytes := by
  obtain ⟨-, -, -, slot_length, -, -⟩ := ChunkQueue.reserve?_spec wf granted
  have whole : (bytes ++ (r.slot n).drop bytes.length).length = n := by
    rw [List.length_append, List.length_drop, slot_length]
    omega
  obtain ⟨wf_filled, filled⟩ := ChunkQueue.fill_reserve?_spec wf held held
    (bytes ++ (r.slot n).drop bytes.length) (by rw [whole]; exact granted)
  obtain ⟨wf_chop, chopped, -⟩ := ChunkQueue.chop_spec wf_filled (n - bytes.length)
  refine ⟨wf_chop, ?_⟩
  have cut : q.toList.length + n - (n - bytes.length) = (q.toList ++ bytes).length := by
    rw [List.length_append]
    omega
  rw [chopped, wf_filled.counted, filled, List.length_append, whole, cut, ← List.append_assoc, List.take_left]

/-- A reservation that nothing was written to is taken back whole. -/
theorem chop_reserve?_spec {q r : ChunkQueue} (wf : q.WellFormed) {held : List StorageId} {n : Nat}
    (granted : q.reserve? held n = some r) : (r.chop n).WellFormed ∧ (r.chop n).toList = q.toList := by
  obtain ⟨wf_r, -, bytes, slot_length, length_r, -⟩ := ChunkQueue.reserve?_spec wf granted
  obtain ⟨wf_chop, chopped, -⟩ := ChunkQueue.chop_spec wf_r n
  refine ⟨wf_chop, ?_⟩
  rw [chopped, length_r, Nat.add_sub_cancel, bytes, wf.counted, List.take_left]

/-- Bytes that left the medium for the queue are still to come. -/
theorem Supplies.queue_more (has : d.Supplies before [] s) (synced : d.Synced) {m : σ} {q : ChunkQueue}
    {more : List UInt8} {mediumPos : Nat} (sound : Source.Sound m) (kept : Source.Kept d.medium m)
    (wf : q.WellFormed) (bytes : q.toList = before ++ more)
    (ahead : Source.ahead d.medium = more ++ Source.ahead m)
    (stands : d.sequential = false → Source.place m = mediumPos) :
    Supplies { d with medium := m, reading := d.reading.put q, mediumPos := mediumPos } before more s := by
  have rest := has.ahead_eq synced
  refine ⟨sound, ?_, ?_, ?_, ?_, ?_⟩
  · exact (Source.isSequential_of_kept kept).trans has.kind
  · rw [readQueue, Channels.queue_put]
    exact wf
  · rw [readQueue, Channels.queue_put]
    exact bytes
  · intro _
    rw [← rest, ahead]
  · intro random
    have placed := has.placed random
    have same := Source.content_of_kept kept (has.kind.trans random)
    have here : (Source.content d.medium).drop d.pos = s := by
      rw [placed.rest, List.nil_append, List.length_nil, Nat.add_zero]
    have split : s = more ++ Source.ahead m := by rw [← rest, ahead]
    have long := placed.pos_add_length
    have reach := congrArg List.length split
    rw [List.length_append] at reach
    refine ⟨?_, ?_, by rw [same]; exact placed.small, stands random⟩
    · show s = more ++ (Source.content m).drop (d.pos + more.length)
      rw [same, ← List.drop_drop, here, split, List.drop_left]
    · show d.pos + more.length ≤ (Source.content m).length
      rw [same]
      omega

/-- A fill queues some of the bytes to come, or fails and leaves them all. -/
theorem fill_supplies (has : d.Supplies before [] s) (synced : d.Synced) {chunk : Nat} (some : 0 < chunk)
    (possible : chunk < Word.requestLimit) :
    (∃ queued e, d.fill chunk = (.ok queued.length, e) ∧ e.Supplies before queued s ∧ d.Kin e ∧
      e.pos = d.pos ∧ queued.length ≤ chunk ∧ (Source.Steady d.medium → s ≠ [] → queued ≠ []) ∧
      (Source.Prompt d.medium → queued = s.take chunk)) ∨
    ∃ err e, d.fill chunk = (.error err, e) ∧ e.Supplies before [] s ∧ d.Kin e ∧ e.pos = d.pos ∧
      ¬ Source.Steady d.medium := by
  have rest := has.ahead_eq synced
  have bytes := has.bytes
  rw [List.append_nil] at bytes
  rw [fill]
  dsimp only
  cases granted : d.readQueue.reserve? (d.heldBesideReading d.reading.current) chunk with
  | none =>
    rcases (ChunkQueue.reserve?_eq_none_iff ..).mp granted with none | large
    · omega
    · omega
  | some r =>
    rcases Source.read_spec d.heldBesideMedium chunk has.sound with
      ⟨delivered, m, read, few, ahead, stands, sound, kept, steady, prompt⟩ |
      ⟨err, m, read, ahead, stands, sound, kept, unsteady⟩
    · left
      obtain ⟨wf, filled⟩ := fill_chop_spec has.wellFormed granted few
      rw [bytes] at filled
      rw [rest] at steady prompt
      rw [read]
      dsimp only
      rw [Nat.min_eq_left few, follow_eq]
      refine ⟨delivered, _, rfl, ?_, Kin.of_parts d kept _ d.pos _ d.errorString, rfl, few,
        fun st => steady st some, prompt⟩
      refine has.queue_more synced sound kept wf filled ahead fun random => ?_
      obtain ⟨-, inside, small, there⟩ := has.placed random
      rw [if_neg (by simp [random]), stands (has.kind.trans random), there, synced random, Word.addWrapped]
      symm
      apply Nat.mod_eq_of_lt
      have length := congrArg List.length ahead
      rw [Source.ahead_eq (has.kind.trans random), there, synced random, List.length_drop,
        List.length_append] at length
      have := Word.maxValue_lt_modulus
      omega
    · right
      obtain ⟨wf, same⟩ := chop_reserve?_spec has.wellFormed granted
      rw [bytes] at same
      rw [read]
      refine ⟨err, _, rfl, ?_, Kin.of_parts d kept _ d.pos d.mediumPos d.errorString, rfl, unsteady⟩
      refine has.queue_more synced sound kept wf (by rw [same, List.append_nil]) ahead.symm fun random => ?_
      rw [stands (has.kind.trans random), (has.placed random).stands]

end ByteFlow.Device
