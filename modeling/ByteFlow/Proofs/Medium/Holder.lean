import ByteFlow.Medium.Choice
import ByteFlow.Proofs.ChunkQueue.Coherence
import Mathlib.Data.List.Flatten

/-! Media that hold handles.
A medium may hold handles that callers gave it or that it gives them. Reading, opening and closing only take
views of these; writing and moving write what nobody else holds. -/
namespace ByteFlow.Medium
open Handle

/-- A medium with its handles, which keep apart from those of all others. -/
class Holder (σ : Type) [Medium σ] where
  handles : σ → List Handle
  ids_subset (m : σ) : Handle.ids (handles m) ⊆ Medium.ids m
  read (held : List StorageId) (m : σ) (n : Nat) : Covers (handles m) (handles (Medium.read held m n).2)
  write (held : List StorageId) (m : σ) (bytes : List UInt8) :
    Becomes held (handles m) (handles (Medium.write held m bytes).2)
  seek (held : List StorageId) (m : σ) (place : Nat) : Becomes held (handles m) (handles (Medium.seek held m place).2)
  openWith (m : σ) (mode : OpenMode) : Covers (handles m) (handles (Medium.openWith m mode).2)
  close (m : σ) : Covers (handles m) (handles (Medium.close m).2)
  flush (m : σ) : Covers (handles m) (handles (Medium.flush m).2)
  select (m : σ) (read write : Nat) : Covers (handles m) (handles (Medium.select m read write))

/-! Memory -/

namespace Memory

variable {held : List StorageId}

/-- The first write to shared contents goes to a copy. -/
private theorem write_becomes (m : Medium.Memory) (bytes : List UInt8) :
    Becomes held [m.data] [(m.write held bytes).2.data] := by
  refine .of_placed ?_
  rw [Memory.write]
  dsimp only
  split
  · exact (placed_resize held m.data _).trans (ChunkQueue.placed_store held m.cursor bytes _)
  · exact ChunkQueue.placed_store held m.cursor bytes m.data

/-- Zeros up to a place past the end go to a copy too. -/
private theorem seek_becomes (m : Medium.Memory) (place : Nat) :
    Becomes held [m.data] [(m.seek held place).2.data] := by
  rw [Memory.seek]
  split
  · exact .refl _
  · split
    · exact .of_placed (placed_resize held m.data place)
    · exact .refl _

/-- Contents that are truncated are let go, not written. -/
private theorem openWith_covers (m : Medium.Memory) (mode : OpenMode) : Covers [m.data] [(m.openWith mode).2.data] := by
  rw [Memory.openWith]
  cases mode.truncate with
  | false => exact .refl _
  | true => exact .blank

end Memory

instance : Holder Memory where
  handles m := [m.data]
  ids_subset m := by rw [ids_singleton]; exact List.Subset.refl _
  read _ _ _ := .refl _
  write _ m bytes := Memory.write_becomes m bytes
  seek _ m place := Memory.seek_becomes m place
  openWith m mode := Memory.openWith_covers m mode
  close _ := .refl _
  flush _ := .refl _
  select _ _ _ := .refl _

/-! Pipes -/

namespace Pipe

variable {held : List StorageId} (p : Pipe)

/-- The chunks of all queues, and the records of what was written. -/
def handles : List Handle := p.incoming.flatMap ChunkQueue.chunks ++ p.written

private theorem ids_handles : Handle.ids p.handles = p.ids := by
  rw [handles, ids_append, ChunkQueue.ids_chunks]
  rfl

private theorem read_covers (n : Nat) : Covers p.handles (p.read n).2.handles := by
  rw [Pipe.read]
  split
  · exact .refl _
  · next queue here =>
    exact (Covers.part _ here (ChunkQueue.remains_read queue _).covers).append (.refl _)

private theorem padTo_reaches {α : Type} (x : α) (xs : List α) (i : Nat) : ∃ y, (padTo (i + 1) x xs)[i]? = some y := by
  have inside : i < (padTo (i + 1) x xs).length := by
    rw [padTo, List.length_append, List.length_replicate]
    omega
  exact ⟨_, List.getElem?_eq_getElem inside⟩

/-- A record grows where nobody else looks. -/
private theorem write_becomes (bytes : List UInt8) : Becomes held p.handles (p.write held bytes).2.handles := by
  rw [Pipe.write]
  dsimp only
  split
  · exact .refl _
  · obtain ⟨record, here⟩ := padTo_reaches Handle.empty p.written p.writeChannel
    have padded : Covers p.written (padTo (p.writeChannel + 1) Handle.empty p.written) := by
      have pad := Covers.pad (fun h => [h]) (.blank : Covers [] [Handle.empty]) p.written (p.writeChannel + 1 - p.written.length)
      rwa [List.flatMap_singleton', List.flatMap_singleton'] at pad
    generalize padTo (p.writeChannel + 1) Handle.empty p.written = records at here padded
    rw [modify_eq_set here]
    refine (Becomes.of_covers ((Covers.refl _).append padded)).trans (.behind (.one here ?_))
    refine (placed_append _ record _).mono fun id member => ?_
    rw [ChunkQueue.ids_chunks] at member
    simp only [List.mem_append] at member ⊢
    tauto

private theorem ids_padTo (n : Nat) (queues : List ChunkQueue) :
    Handle.ids ((padTo n newQueue queues).flatMap ChunkQueue.chunks) = queues.flatMap ChunkQueue.ids := by
  have blank (n : Nat) : (List.replicate n newQueue).flatMap ChunkQueue.ids = [] := by
    induction n with
    | zero => rfl
    | succ n ih =>
      rw [List.replicate_succ, List.flatMap_cons, ih]
      rfl
  rw [ChunkQueue.ids_chunks, padTo, List.flatMap_append, blank, List.append_nil]

/-- A handle that is fed stays what it is for whoever kept it. -/
theorem feed_becomes (channel : Nat) (data : Handle) :
    Becomes held (data :: p.handles) (p.feed held channel data).2.handles := by
  rw [Pipe.feed]
  split
  · exact .of_covers (.of_subset (List.subset_cons_self ..))
  · obtain ⟨queue, here⟩ := padTo_reaches newQueue p.incoming channel
    have blank : Covers [] newQueue.chunks := .blank
    have padded : Covers (p.incoming.flatMap ChunkQueue.chunks)
        ((padTo (channel + 1) newQueue p.incoming).flatMap ChunkQueue.chunks) := .pad _ blank p.incoming _
    have known := ids_padTo (channel + 1) p.incoming
    dsimp only
    generalize padTo (channel + 1) newQueue p.incoming = queues at here padded known
    rw [modify_eq_set here]
    have others : Handle.ids ((queues.eraseIdx channel).flatMap ChunkQueue.chunks) ⊆ p.incoming.flatMap ChunkQueue.ids := by
      rw [← known]
      exact ids_subset ((List.eraseIdx_sublist ..).flatMap _).subset
    have taken : Becomes (Handle.ids p.written ++ held) ([data] ++ queues.flatMap ChunkQueue.chunks)
        ([] ++ (queues.set channel (queue.append (p.ids ++ held) data)).flatMap ChunkQueue.chunks) := by
      refine .part ChunkQueue.chunks here ((ChunkQueue.append_becomes queue data).mono fun id member => ?_)
      simp only [Pipe.ids, List.mem_append] at member ⊢
      have := @others id
      tauto
    exact (Becomes.of_covers (.keep data (padded.append (.refl _)))).trans taken.beside

end Pipe

instance : Holder Pipe where
  handles := Pipe.handles
  ids_subset p := by rw [Pipe.ids_handles]; exact List.Subset.refl _
  read _ p n := p.read_covers n
  write _ p bytes := p.write_becomes bytes
  seek _ _ _ := .refl _
  openWith _ _ := .refl _
  close _ := .refl _
  flush _ := .refl _
  select _ _ _ := .refl _

/-! Others -/

instance : Holder Scripted where
  handles _ := []
  ids_subset _ := List.Subset.refl _
  read _ _ _ := .refl _
  write _ _ _ := .refl _
  seek _ _ _ := .refl _
  openWith _ _ := .refl _
  close _ := .refl _
  flush _ := .refl _
  select _ _ _ := .refl _

instance : Holder Choice where
  handles c := c.fact Holder.handles Holder.handles Holder.handles
  ids_subset c := by cases c <;> exact Holder.ids_subset _
  read held c n := by cases c <;> exact Holder.read held _ n
  write held c bytes := by cases c <;> exact Holder.write held _ bytes
  seek held c place := by cases c <;> exact Holder.seek held _ place
  openWith c mode := by cases c <;> exact Holder.openWith _ mode
  close c := by cases c <;> exact Holder.close _
  flush c := by cases c <;> exact Holder.flush _
  select c read write := by cases c <;> exact Holder.select _ read write

end ByteFlow.Medium
