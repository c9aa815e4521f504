import ByteFlow.Proofs.ChunkQueue.Supply
import ByteFlow.Proofs.Medium.Source
import Mathlib.Algebra.BigOperators.Group.Finset.Piecewise
import Mathlib.Algebra.Order.BigOperators.Group.Finset

/-! What happens to a pipe at its other end.
Feeding a channel adds to what waits there and leaves the others alone; limits and the closing of the
write end change nothing that waits. -/
namespace ByteFlow.Medium

/-- Bytes as they went over channels, in their order. -/
abbrev Traffic := List (Nat × List UInt8)

namespace Traffic

/-- The bytes that went over one channel. -/
def onChannel (log : Traffic) (channel : Nat) : List UInt8 :=
  (log.filter fun entry => entry.1 == channel).flatMap Prod.snd

/-- How many bytes went over all channels. -/
def total (log : Traffic) : Nat := (log.flatMap Prod.snd).length

@[simp] theorem onChannel_append (log more : Traffic) (channel : Nat) :
    (log ++ more).onChannel channel = log.onChannel channel ++ more.onChannel channel := by
  rw [onChannel, List.filter_append, List.flatMap_append]
  rfl

@[simp] theorem onChannel_nil (channel : Nat) : onChannel [] channel = [] := rfl

@[simp] theorem onChannel_singleton (channel other : Nat) (bytes : List UInt8) :
    onChannel [(channel, bytes)] other = if channel = other then bytes else [] := by
  by_cases same : channel = other <;> simp [onChannel, same]

@[simp] theorem total_append (log more : Traffic) : (log ++ more).total = log.total + more.total := by
  rw [total, List.flatMap_append, List.length_append]
  rfl

@[simp] theorem total_singleton (channel : Nat) (bytes : List UInt8) : total [(channel, bytes)] = bytes.length := by
  simp [total]

/-- All that went is what went over each of the channels. -/
private theorem total_eq_sum (log : Traffic) {channels : Finset Nat} (known : ∀ entry ∈ log, entry.1 ∈ channels) :
    log.total = ∑ channel ∈ channels, (log.onChannel channel).length := by
  induction log with
  | nil => exact (Finset.sum_const_zero).symm
  | cons entry rest ih =>
    obtain ⟨channel, bytes⟩ := entry
    have here : channel ∈ channels := known (channel, bytes) List.mem_cons_self
    have only : ∑ other ∈ channels, (onChannel [(channel, bytes)] other).length = bytes.length := by
      simp only [onChannel_singleton, apply_ite List.length, List.length_nil, Finset.sum_ite_eq, here, if_true]
    rw [← List.singleton_append, total_append, total_singleton,
      ih fun other member => known other (List.mem_cons_of_mem _ member)]
    simp only [onChannel_append, List.length_append, Finset.sum_add_distrib, only]

/-- What is not more on any channel is not more in all. -/
theorem total_le_total {log more : Traffic}
    (less : ∀ channel, (log.onChannel channel).length ≤ (more.onChannel channel).length) : log.total ≤ more.total := by
  have known : ∀ entry ∈ log ++ more, entry.1 ∈ ((log ++ more).map Prod.fst).toFinset := fun entry member =>
    List.mem_toFinset.mpr (List.mem_map_of_mem member)
  rw [log.total_eq_sum fun entry member => known entry (List.mem_append_left more member),
    more.total_eq_sum fun entry member => known entry (List.mem_append_right log member)]
  exact Finset.sum_le_sum fun channel _ => less channel

theorem length_onChannel_le (log : Traffic) (channel : Nat) : (log.onChannel channel).length ≤ log.total := by
  induction log with
  | nil => exact Nat.le_refl 0
  | cons entry rest ih =>
    rw [← List.singleton_append, onChannel_append, total_append, List.length_append]
    refine Nat.add_le_add ?_ ih
    rw [onChannel_singleton, total_singleton]
    split
    · exact Nat.le_refl _
    · exact Nat.zero_le _

end Traffic

namespace Pipe

/-- What the holder of the other end does with a pipe. -/
inductive Act where
  | feed (held : List StorageId) (channel : Nat) (data : Handle)
  | limitReads (limit : Option Nat)
  | limitWrites (limit : Option Nat)
  | closeWriteEnd

def act (p : Pipe) : Act → Pipe
  | .feed held channel data => (p.feed held channel data).2
  | .limitReads limit => { p with readLimit := limit }
  | .limitWrites limit => { p with writeLimit := limit }
  | .closeWriteEnd => p.closeWriteEnd

/-- What the pipe accepts by that. -/
def accepts (p : Pipe) : Act → Traffic
  | .feed held channel data => if (p.feed held channel data).1 then [(channel, data.content)] else []
  | _ => []

def actAll (p : Pipe) (acts : List Act) : Pipe := acts.foldl act p

def acceptsAll (p : Pipe) : List Act → Traffic
  | [] => []
  | a :: rest => p.accepts a ++ (p.act a).acceptsAll rest

/-- What waits on a channel. -/
def waitingOn (p : Pipe) (channel : Nat) : List UInt8 := ((p.incoming[channel]?).map ChunkQueue.toList).getD []

variable {p : Pipe}

theorem waiting_eq (p : Pipe) : p.waiting = p.waitingOn p.readChannel := rfl

private theorem pendingOn_eq (sound : Source.Sound p) (channel : Nat) :
    p.pendingOn channel = (p.waitingOn channel).length := by
  rw [pendingOn, waitingOn]
  cases found : p.incoming[channel]? with
  | none => rfl
  | some queue => exact (sound queue (List.mem_of_getElem? found)).counted

theorem available_eq (sound : Source.Sound p) : Medium.available p = p.waiting.length := pendingOn_eq sound p.readChannel

/-! Feeding -/

private theorem wellFormed_newQueue : newQueue.WellFormed := ChunkQueue.wellFormed_withChunkSize _

/-- Channels that are not there yet hold nothing. -/
private theorem getElem?_padTo (n i : Nat) (queues : List ChunkQueue) :
    (((padTo n newQueue queues)[i]?).map ChunkQueue.toList).getD [] = ((queues[i]?).map ChunkQueue.toList).getD [] := by
  rw [padTo]
  by_cases inside : i < queues.length
  · rw [List.getElem?_append_left inside]
  · rw [List.getElem?_append_right (Nat.not_lt.mp inside), List.getElem?_replicate,
      List.getElem?_eq_none (Nat.not_lt.mp inside)]
    split
    · exact ChunkQueue.toList_withChunkSize _
    · rfl

private theorem mem_padTo {n : Nat} {queues : List ChunkQueue} {q : ChunkQueue} (sound : ∀ q ∈ queues, q.WellFormed)
    (member : q ∈ padTo n newQueue queues) : q.WellFormed := by
  rcases List.mem_append.mp member with old | new
  · exact sound q old
  · rw [List.eq_of_mem_replicate new]
    exact wellFormed_newQueue

/-- What is fed is the last that waits on its channel. -/
theorem feed_spec (sound : Source.Sound p) (open_ : p.writeEndClosed = false) (held : List StorageId) (channel : Nat)
    (data : Handle) :
    Source.Sound (p.feed held channel data).2 ∧
      ∀ other, (p.feed held channel data).2.waitingOn other =
        p.waitingOn other ++ if channel = other then data.content else [] := by
  rw [feed, if_neg (by simp [open_])]
  refine ⟨fun q member => ?_, fun other => ?_⟩
  · obtain ⟨i, inside, found⟩ := List.getElem_of_mem member
    dsimp only at inside found
    rw [List.length_modify] at inside
    rw [List.getElem_modify] at found
    have wf := mem_padTo sound (List.getElem_mem inside)
    split at found
    · rw [← found]
      exact (ChunkQueue.append_spec wf _ data).1
    · rw [← found]
      exact wf
  · have before := getElem?_padTo (channel + 1) other p.incoming
    rw [waitingOn, waitingOn, ← before]
    dsimp only
    rw [List.getElem?_modify]
    by_cases same : channel = other
    · subst same
      rw [if_pos rfl]
      have inside : channel < (padTo (channel + 1) newQueue p.incoming).length := by
        rw [padTo, List.length_append, List.length_replicate]
        omega
      have wf := mem_padTo sound (List.getElem_mem inside)
      rw [List.getElem?_eq_getElem inside]
      simp only [if_true, Option.map_eq_map, Option.map_some, Option.getD_some]
      exact (ChunkQueue.append_spec wf _ data).2
    · rw [if_neg same, List.append_nil]
      simp only [same, if_false, Option.map_eq_map, Option.map_id_fun', id]

/-- An act adds what the pipe accepts by it, and nothing else. -/
theorem act_spec (sound : Source.Sound p) (a : Act) :
    Source.Sound (p.act a) ∧
      (∀ channel, (p.act a).waitingOn channel = p.waitingOn channel ++ (p.accepts a).onChannel channel) ∧
      (p.act a).readChannel = p.readChannel := by
  cases a with
  | feed held channel data =>
    rw [act, accepts]
    cases closed : p.writeEndClosed with
    | true =>
      have refused : p.feed held channel data = (false, p) := if_pos closed
      rw [refused]
      exact ⟨sound, fun _ => (List.append_nil _).symm, rfl⟩
    | false =>
      obtain ⟨sound', waits⟩ := feed_spec sound closed held channel data
      have taken : (p.feed held channel data).1 = true := by rw [feed, if_neg (by simp [closed])]
      rw [if_pos taken]
      refine ⟨sound', fun other => ?_, ?_⟩
      · rw [waits, Traffic.onChannel_singleton]
      · rw [feed, if_neg (by simp [closed])]
  | limitReads limit => exact ⟨sound, fun _ => (List.append_nil _).symm, rfl⟩
  | limitWrites limit => exact ⟨sound, fun _ => (List.append_nil _).symm, rfl⟩
  | closeWriteEnd => exact ⟨sound, fun _ => (List.append_nil _).symm, rfl⟩

theorem actAll_spec (sound : Source.Sound p) (acts : List Act) :
    Source.Sound (p.actAll acts) ∧
      ∀ channel, (p.actAll acts).waitingOn channel = p.waitingOn channel ++ (p.acceptsAll acts).onChannel channel := by
  induction acts generalizing p with
  | nil => exact ⟨sound, fun _ => (List.append_nil _).symm⟩
  | cons a rest ih =>
    obtain ⟨sound', waits, -⟩ := act_spec sound a
    obtain ⟨sound'', later⟩ := ih sound'
    refine ⟨sound'', fun channel => ?_⟩
    show ((p.act a).actAll rest).waitingOn channel = _
    rw [later, waits, acceptsAll, Traffic.onChannel_append, List.append_assoc]

/-! Writing -/

private theorem getD_padTo {α : Type} (n i : Nat) (x : α) (xs : List α) : (padTo n x xs).getD i x = xs.getD i x := by
  rw [padTo, List.getD_eq_getElem?_getD, List.getD_eq_getElem?_getD]
  by_cases inside : i < xs.length
  · rw [List.getElem?_append_left inside]
  · rw [List.getElem?_append_right (Nat.not_lt.mp inside), List.getElem?_replicate,
      List.getElem?_eq_none (Nat.not_lt.mp inside)]
    split <;> rfl

/-- The pipe `q` is `p` after it recorded bytes on its current channel. -/
structure Records (p q : Pipe) (bytes : List UInt8) : Prop where
  written : ∀ channel, (q.writtenOn channel).content =
    (p.writtenOn channel).content ++ if p.writeChannel = channel then bytes else []
  channel : q.writeChannel = p.writeChannel
  limit : q.writeLimit = p.writeLimit

theorem Records.nothing (p : Pipe) : Records p p [] := ⟨fun _ => by rw [ite_self, List.append_nil], rfl, rfl⟩

theorem Records.trans {q r : Pipe} {bytes more : List UInt8} (first : Records p q bytes) (second : Records q r more) :
    Records p r (bytes ++ more) := by
  refine ⟨fun channel => ?_, second.channel.trans first.channel, second.limit.trans first.limit⟩
  rw [second.written, first.written, first.channel, List.append_assoc]
  split <;> rfl

/-- What a pipe takes is recorded behind what was recorded before. -/
theorem write_spec (held : List StorageId) (p : Pipe) (bytes : List UInt8) :
    ∃ q, p.write held bytes = (.ok (capped p.writeLimit bytes.length), q) ∧
      Records p q (bytes.take (capped p.writeLimit bytes.length)) := by
  rw [write]
  dsimp only
  by_cases none : capped p.writeLimit bytes.length = 0
  · rw [if_pos none, none, List.take_zero]
    exact ⟨p, rfl, .nothing p⟩
  · rw [if_neg none]
    refine ⟨_, rfl, fun channel => ?_, rfl, rfl⟩
    rw [writtenOn, writtenOn, ← getD_padTo (p.writeChannel + 1) channel Handle.empty p.written]
    dsimp only
    rw [List.getD_eq_getElem?_getD, List.getElem?_modify, List.getD_eq_getElem?_getD]
    by_cases same : p.writeChannel = channel
    · subst same
      have inside : p.writeChannel < (padTo (p.writeChannel + 1) Handle.empty p.written).length := by
        rw [padTo, List.length_append, List.length_replicate]
        omega
      rw [List.getElem?_eq_getElem inside, if_pos rfl]
      simp only [if_true, Option.map_eq_map, Option.map_some, Option.getD_some, Handle.content_append]
    · rw [if_neg same, List.append_nil]
      simp only [same, if_false, Option.map_eq_map, Option.map_id_fun', id]

/-- Reading leaves what was written alone. -/
theorem read_written (p : Pipe) (n : Nat) :
    (p.read n).2.written = p.written ∧ (p.read n).2.writeChannel = p.writeChannel ∧ (p.read n).2.writeLimit = p.writeLimit := by
  rw [read]
  split <;> exact ⟨rfl, rfl, rfl⟩

/-! Pipes that give nothing -/

/-- A pipe is never random-access, so that its size does not matter. -/
private theorem size_random {p : Pipe} (random : Medium.isSequential p = false) :
    Medium.size p = ([] : List UInt8).length :=
  absurd random.symm Bool.false_ne_true

/-- A pipe whose reads are capped at nothing, as a source of nothing: what waits there stays. -/
@[reducible] def blocked : Source Pipe where
  Sound p := (∀ q ∈ p.incoming, q.WellFormed) ∧ p.readLimit = some 0
  ahead _ := []
  content _ := []
  place _ := 0
  Steady _ := True
  Prompt _ := True
  Kept a b := Apart a b ∧ b.waiting = a.waiting
  kept_refl p := ⟨.refl p, rfl⟩
  kept_trans first second := ⟨first.1.trans second.1, second.2.trans first.2⟩
  isSequential_of_kept _ := rfl
  content_of_kept _ _ := rfl
  steady_of_kept _ := Iff.rfl
  prompt_of_kept _ := Iff.rfl
  steady_of_prompt := id
  ahead_eq random := absurd random.symm Bool.false_ne_true
  size_eq := @size_random
  read_spec _ p n sound := by
    obtain ⟨p', read, left, sound', apart⟩ := Pipe.read_spec sound.1 n
    have nothing : capped p.readLimit n = 0 := by
      rw [sound.2]
      exact Nat.zero_min n
    rw [nothing, List.take_zero] at read
    rw [nothing, List.drop_zero] at left
    exact .inl ⟨[], p', read, Nat.zero_le n, rfl, fun random => absurd random.symm Bool.false_ne_true,
      ⟨sound', apart.readLimit.trans sound.2⟩, ⟨apart, left⟩, fun _ _ some => absurd rfl some,
      fun _ => List.take_nil.symm⟩
  seek_spec _ _ _ _ random := absurd random.symm Bool.false_ne_true

end Pipe

end ByteFlow.Medium
