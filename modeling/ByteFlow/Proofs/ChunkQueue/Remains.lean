import ByteFlow.Proofs.ChunkQueue.Drain

/-! Which chunks are left when bytes are taken from a queue.
Whatever is taken, no chunk is written: those that stay are as they were, and the last one may give way to
a chunk without storage. -/
namespace ByteFlow.ChunkQueue

/-- Each chunk of the second queue is one of the first, unchanged, or has no storage. -/
def Remains (q r : ChunkQueue) : Prop := ∀ c ∈ r.chunks, c ∈ q.chunks ∨ c = Handle.empty

theorem Remains.refl (q : ChunkQueue) : q.Remains q := fun _ member => .inl member

private theorem Remains.trans {q r s : ChunkQueue} (first : q.Remains r) (second : r.Remains s) : q.Remains s := by
  intro c member
  rcases second c member with there | rfl
  · exact first c there
  · exact .inr rfl

theorem remains_clear (q : ChunkQueue) : q.Remains q.clear := fun _ member => .inr (List.mem_singleton.mp member)

private theorem mem_emptied {q : ChunkQueue} {chunks : List Handle} {c : Handle}
    (member : c ∈ (q.emptied chunks).chunks) :
    c ∈ chunks ∨ c = Handle.empty := by
  rw [emptied] at member
  split at member
  · exact .inl member
  · exact .inr (List.mem_singleton.mp member)

private theorem mem_freeFrom {q : ChunkQueue} {head length n : Nat} {chunks : List Handle} {c : Handle}
    (member : c ∈ (freeFrom q head length n chunks).chunks) : c ∈ chunks ∨ c = Handle.empty := by
  fun_induction freeFrom q head length n chunks with
  | case3 | case6 => exact mem_emptied member
  | case8 head length n first next rest some past block ih =>
    rcases ih member with there | empty
    · exact .inl (List.mem_cons_of_mem _ there)
    · exact .inr empty
  | _ => exact .inl member

private theorem mem_chopFrom {q : ChunkQueue} {tail length n : Nat} {backwards : List Handle} {c : Handle}
    (member : c ∈ (chopFrom q tail length n backwards).chunks) : c ∈ backwards ∨ c = Handle.empty := by
  fun_induction chopFrom q tail length n backwards with
  | case3 => exact mem_emptied member
  | case6 =>
    rcases mem_emptied member with there | empty
    · exact .inl (List.mem_reverse.mp there)
    · exact .inr empty
  | case8 tail length n first next rest some past ih =>
    rcases ih member with there | empty
    · exact .inl (List.mem_cons_of_mem _ there)
    · exact .inr empty
  | case5 | case7 => exact .inl (List.mem_reverse.mp member)
  | _ => exact .inl member

theorem remains_free (q : ChunkQueue) (n : Nat) : q.Remains (q.free n) := fun _ member => mem_freeFrom member

theorem remains_chop (q : ChunkQueue) (n : Nat) : q.Remains (q.chop n) := by
  intro c member
  rcases mem_chopFrom member with there | empty
  · exact .inl (List.mem_reverse.mp there)
  · exact .inr empty

theorem remains_read (q : ChunkQueue) (n : Nat) : q.Remains (q.read n).2 := by
  fun_induction read q n with
  | case1 q n piece taken more rest found ih =>
    rw [found] at ih
    exact (remains_free q piece.length).trans ih
  | case2 q n piece nothing => exact .refl q

theorem remains_readChunk (q : ChunkQueue) : q.Remains q.readChunk.2 := by
  rw [readChunk]
  split
  · exact .refl q
  · next c rest shape =>
    split
    · exact .refl q
    · split
      · exact fun _ member => .inr (List.mem_singleton.mp member)
      · intro d member
        rw [shape]
        exact .inl (List.mem_cons_of_mem c member)

end ByteFlow.ChunkQueue
