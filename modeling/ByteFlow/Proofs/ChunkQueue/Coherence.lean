import ByteFlow.ChunkQueue.Session
import ByteFlow.Proofs.ChunkQueue.Remains
import ByteFlow.Proofs.Handle.Coherence

/-! What a queue does to the storages of its chunks.
Chunks come from callers and go to callers uncopied, and a spare chunk may still be looked at by one who was
given it. Whatever the queue does, it writes only what none but the chunk in hand looks at. -/
namespace ByteFlow.ChunkQueue
open Handle

variable {held : List StorageId} {q r : ChunkQueue}

/-! Chunks -/

theorem ids_chunks (queues : List ChunkQueue) :
    Handle.ids (queues.flatMap chunks) = queues.flatMap ids := by
  induction queues with
  | nil => rfl
  | cons q rest ih =>
    rw [List.flatMap_cons, List.flatMap_cons, ids_append, ih]
    rfl

private theorem changeFirst_becomes {f : List StorageId → Handle → Handle}
    (placed : ∀ held c, Placed held c.storage (f held c).storage) (chunks : List Handle) :
    Becomes held chunks (changeFirst held f chunks) := by
  cases chunks with
  | nil => exact .refl _
  | cons c rest =>
    have first : Becomes (Handle.ids rest ++ held) [c] [f (Handle.ids rest ++ held) c] := .of_placed (placed _ c)
    exact first.beside

private theorem changeLast_becomes {f : List StorageId → Handle → Handle}
    (placed : ∀ held c, Placed held c.storage (f held c).storage) (chunks : List Handle) :
    Becomes held chunks (changeLast held f chunks) := by
  induction chunks generalizing held with
  | nil => exact .refl _
  | cons c rest ih =>
    cases rest with
    | nil => exact .of_placed (placed held c)
    | cons next rest =>
      have others : Becomes (Handle.ids [c] ++ held) (next :: rest) _ := ih
      rw [changeLast, ← ids_singleton]
      exact others.behind

/-- What is left of the chunks needs no storing. -/
theorem Remains.covers (remains : q.Remains r) : Covers q.chunks r.chunks := by
  intro m holds c member
  rcases remains c member with there | rfl
  · exact holds c there
  · exact m.backs_absent

/-! Writing at the end -/

/-- The chunk put behind the others may have been anyone's. -/
private theorem extendWith_becomes (q : ChunkQueue) (chunk : Handle) :
    Becomes held (q.chunks ++ [chunk]) (q.extendWith (chunk.id?.toList ++ held) chunk).chunks := by
  rw [← ids_singleton]
  exact .beside (changeLast_becomes (fun held c => placed_resize held c q.tail) q.chunks)

private theorem provide_becomes (q : ChunkQueue) (n : Nat) : Becomes held q.chunks (q.provide held n).chunks := by
  have spilled : Becomes held q.chunks (q.extendWith held Handle.empty).chunks := by
    have more : Covers q.chunks ([Handle.empty] ++ q.chunks) := .cons .blank (.refl _)
    exact (Becomes.of_covers (more.trans .swap)).trans (extendWith_becomes q Handle.empty)
  have grown (q : ChunkQueue) (n : Nat) : Becomes held q.chunks (changeLast held (fun held => resize held n) q.chunks) :=
    changeLast_becomes (fun held c => placed_resize held c n) q.chunks
  rw [provide]
  split
  · exact .refl _
  · dsimp only
    split
    · exact spilled.trans (grown _ _)
    · exact grown q _

private theorem placed_detach (held : List StorageId) (c : Handle) : Placed held c.storage (c.detach held).storage :=
  placed_edit held c c.length id

theorem placed_store (held : List StorageId) (place : Nat) (bytes : List UInt8) (c : Handle) :
    Placed held c.storage (c.store held place bytes).storage :=
  placed_edit held c c.length (overlaid place bytes)

/-- Room is made where nobody else looks, be it in a shared chunk, in a spare one or in a new one. -/
theorem reserve_becomes {n : Nat} (granted : q.reserve? held n = some r) : Becomes held q.chunks r.chunks := by
  rw [reserve?] at granted
  split at granted
  · cases granted
  · cases granted
    exact (provide_becomes q n).trans (changeLast_becomes placed_detach _)

theorem fill_becomes (q : ChunkQueue) (bytes : List UInt8) : Becomes held q.chunks (q.fill held bytes).chunks :=
  changeLast_becomes (fun held c => placed_store held _ bytes c) q.chunks

theorem appendBytes_becomes (q : ChunkQueue) (bytes : List UInt8) :
    Becomes held q.chunks (q.appendBytes held bytes).chunks := by
  rw [appendBytes]
  split
  · next r granted => exact (reserve_becomes granted).trans (fill_becomes r bytes)
  · exact .refl _

/-- A handle that is taken over stays what it is for whoever kept it. -/
theorem append_becomes (q : ChunkQueue) (data : Handle) :
    Becomes held (data :: q.chunks) (q.append held data).chunks := by
  rw [append]
  split
  · exact .of_covers (.of_subset (List.subset_cons_self ..))
  · dsimp only
    split
    · refine .of_covers (.of_subset fun c member => ?_)
      rcases List.mem_append.mp member with first | last
      · exact List.mem_cons_of_mem _ (List.dropLast_subset _ first)
      · exact List.mem_cons.mpr (.inl (List.mem_singleton.mp last))
    · exact (Becomes.of_covers Covers.swap).trans (extendWith_becomes q data)

/-! Writing at the front -/

private theorem provideFront_becomes (q : ChunkQueue) (n : Nat) :
    Becomes held q.chunks (q.provideFront held n).chunks := by
  have cut : Becomes held q.chunks (changeFirst held (fun held => remove held 0 q.head) q.chunks) :=
    changeFirst_becomes (fun held c => placed_remove held c 0 q.head) q.chunks
  have grown (chunks : List Handle) (n : Nat) : Becomes held chunks (changeFirst held (fun held => resize held n) chunks) :=
    changeFirst_becomes (fun held c => placed_resize held c n) chunks
  rw [provideFront]
  split
  · exact .refl _
  · dsimp only
    split
    · exact cut.trans (grown _ _)
    · exact cut.trans (.trans (.of_covers (.cons .blank (.refl _))) (grown _ _))

private theorem reserveFront_becomes {n : Nat} (granted : q.reserveFront? held n = some r) :
    Becomes held q.chunks r.chunks := by
  rw [reserveFront?] at granted
  split at granted
  · cases granted
  · cases granted
    exact (provideFront_becomes q n).trans (changeFirst_becomes placed_detach _)

private theorem fillFront_becomes (q : ChunkQueue) (bytes : List UInt8) :
    Becomes held q.chunks (q.fillFront held bytes).chunks :=
  changeFirst_becomes (fun held c => placed_store held _ bytes c) q.chunks

theorem unget_becomes (q : ChunkQueue) (b : UInt8) : Becomes held q.chunks (q.unget held b).chunks := by
  rw [unget]
  split
  · exact fillFront_becomes { q with head := q.head - 1, length := q.length + 1 } [b]
  · split
    · next r granted => exact (reserveFront_becomes granted).trans (fillFront_becomes r [b])
    · exact .refl _

/-! Reading -/

private theorem remains_get (q : ChunkQueue) : q.Remains q.get.2 := by
  rw [get]
  split
  · exact .refl q
  · exact remains_free q 1

/-- The chunk handed out is a view of the first one. -/
theorem readChunk_covers (q : ChunkQueue) : Covers q.chunks (q.readChunk.1 :: q.readChunk.2.chunks) := by
  refine .cons ?_ (remains_readChunk q).covers
  rw [readChunk]
  split
  · exact .blank
  · next c rest shape =>
    have first : c ∈ q.chunks := by rw [shape]; exact List.mem_cons_self
    split
    · exact .blank
    · split
      · exact .of_placed first fun held => (placed_left held c q.tail).trans (placed_mid held _ q.head none)
      · exact .of_placed first fun held => placed_mid held c q.head none

private theorem readHandle_becomes (q : ChunkQueue) (n : Nat) :
    Becomes held q.chunks ((q.readHandle held n).1 :: (q.readHandle held n).2.chunks) := by
  rw [readHandle]
  dsimp only
  split
  · exact .of_covers (.cons .blank (.refl _))
  · split
    · exact .of_covers (readChunk_covers q)
    · have copied : Becomes held q.chunks (ofList (q.ids ++ held) (q.read (min n q.length)).1 :: q.chunks) :=
        .of_copy _ fun _ member => member
      exact copied.trans (.of_covers (.keep _ (remains_read q _).covers))

private theorem readLine_remains {room : Nat} {bytes : List UInt8} (found : q.readLine? room = some (bytes, r)) :
    q.Remains r := by
  rw [readLine?] at found
  split at found
  · cases found
  · split at found
    · next i _ =>
      have left := remains_read q (i + 1)
      rwa [Option.some.inj found] at left
    · have left := remains_read q (room - 1)
      rwa [Option.some.inj found] at left

/-! A queue in use -/

/-- The handles that come with an action. -/
def Action.given : Action → List Handle
  | .append data _ => [data]
  | _ => []

/-- The handles that go out with a reply. -/
def Reply.handles : Reply → List Handle
  | .handle h => [h]
  | _ => []

namespace Session

variable {s : Session} {given : List Handle}

/-- The chunks of the queue and of the one saved from it. -/
def handles (s : Session) : List Handle := s.queue.chunks ++ s.saved.chunks

private theorem withQueue_becomes (reply : Reply)
    (becomes : Becomes s.outside (given ++ s.queue.chunks) (reply.handles ++ r.chunks)) :
    Becomes (Handle.ids s.kept) (given ++ s.handles)
      ((s.withQueue reply r).1.handles ++ (s.withQueue reply r).2.handles) := by
  have both : Becomes (Handle.ids s.kept) (given ++ s.queue.chunks ++ s.saved.chunks) _ := becomes.beside
  rwa [List.append_assoc, List.append_assoc] at both

/-- Every action keeps the chunks coherent with the kept handles and with all handles given and answered. -/
theorem step_becomes (s : Session) (action : Action) :
    Becomes (Handle.ids s.kept) (action.given ++ s.handles)
      ((s.step action).1.handles ++ (s.step action).2.handles) := by
  cases action with
  | reserve n byteAt =>
    rw [step]
    split
    · next r granted => exact withQueue_becomes _ ((reserve_becomes granted).trans (fill_becomes r _))
    · exact .refl _
  | reserveFront n byteAt =>
    rw [step]
    split
    · next r granted => exact withQueue_becomes _ ((reserveFront_becomes granted).trans (fillFront_becomes r _))
    · exact .refl _
  | free n => exact withQueue_becomes .done (.of_covers (remains_free s.queue n).covers)
  | chop n => exact withQueue_becomes .done (.of_covers (remains_chop s.queue n).covers)
  | append data keep =>
    rw [step]
    cases keep with
    | false => exact withQueue_becomes .done (append_becomes s.queue data)
    | true =>
      have taken : Becomes (Handle.ids (s.kept ++ [data])) ([data] ++ s.handles) _ :=
        @withQueue_becomes _ { s with kept := s.kept ++ [data] } _ .done (append_becomes s.queue data)
      exact taken.mono (ids_subset (List.subset_append_left ..))
  | appendBytes bytes => exact withQueue_becomes .done (appendBytes_becomes s.queue bytes)
  | put b => exact withQueue_becomes .done (appendBytes_becomes s.queue [b])
  | get => exact withQueue_becomes (.byte _) (.of_covers (remains_get s.queue).covers)
  | unget b => exact withQueue_becomes .done (unget_becomes s.queue b)
  | read n => exact withQueue_becomes (.bytes _) (.of_covers (remains_read s.queue n).covers)
  | readLine room =>
    rw [step]
    split
    · next found => exact withQueue_becomes (.bytes _) (.of_covers (readLine_remains found).covers)
    · exact .refl _
  | readChunk => exact withQueue_becomes (.handle _) (.of_covers (readChunk_covers s.queue))
  | readHandle n => exact withQueue_becomes (.handle _) (readHandle_becomes s.queue n)
  | skip n => exact withQueue_becomes (.size _) (.of_covers (remains_free s.queue n).covers)
  | clear => exact withQueue_becomes .done (.of_covers (remains_clear s.queue).covers)
  | setChunkSize n => exact withQueue_becomes (.size n) (.refl _)
  | save => exact .of_covers (.of_subset (by simp [handles, step, Action.given, Reply.handles]))
  | swap =>
    have swapped : Covers (s.queue.chunks ++ s.saved.chunks) (s.saved.chunks ++ s.queue.chunks) := .swap
    exact .of_covers swapped
  | peek | indexOf | hasLine | runAt | front => exact .refl _

end Session

end ByteFlow.ChunkQueue
