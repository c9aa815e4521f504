import ByteFlow.Proofs.Device.Coherence

/-! Queues and devices as layers that trade handles with a caller.
A layer takes handles over, gives others out and works in between; others hold storages meanwhile, and count. -/
namespace ByteFlow
open Handle

/-! What is queued, seen through any view of the chunks -/

namespace ChunkQueue

/-- The data of chunks that show what `look` says. -/
def blocksSeen (look : Handle → List UInt8) (head tail : Nat) : List Handle → List (List UInt8)
  | [] => []
  | [c] => [((look c).take tail).drop head]
  | c :: next :: rest => (look c).drop head :: blocksSeen look 0 tail (next :: rest)

/-- The queued bytes, if the chunks show what `look` says. -/
def seen (look : Handle → List UInt8) (q : ChunkQueue) : List UInt8 := (blocksSeen look q.head q.tail q.chunks).flatten

private theorem blocksSeen_eq {look : Handle → List UInt8} {chunks : List Handle}
    (shows : ∀ c ∈ chunks, look c = c.content)
    (head tail : Nat) : blocksSeen look head tail chunks = blocksOf head tail chunks := by
  induction chunks generalizing head with
  | nil => rfl
  | cons c rest ih =>
    rw [List.forall_mem_cons] at shows
    cases rest with
    | nil => rw [blocksSeen, blocksOf, shows.1]
    | cons next rest => rw [blocksSeen, blocksOf, shows.1, ih shows.2]

private theorem seen_eq {look : Handle → List UInt8} {q : ChunkQueue} (shows : ∀ c ∈ q.chunks, look c = c.content) :
    q.seen look = q.toList := by
  rw [seen, blocksSeen_eq shows]
  rfl

end ChunkQueue

/-! Layers -/

/-- A queue in use, or a device over one of the media. -/
inductive Layer where
  | queue (session : ChunkQueue.Session)
  | device (device : Device Medium.Choice)

namespace Layer

/-- A call on the medium past its device. -/
inductive Raw where
  | read (n : Nat)
  | write (bytes : List UInt8)
  | seek (place : Nat)
  | openWith (mode : OpenMode)

/-- What a layer is asked to do. -/
inductive Request where
  | queue (action : ChunkQueue.Action)
  | device (action : Device.Action)
  | raw (call : Raw)
  | feed (channel : Nat) (data : Handle)
  | closeWriteEnd
  | limit (read write : Option Nat)
  | setData (data : Handle)
  | buffer
  | written (channel : Nat)

/-- The handles that come with a request. -/
def Request.given : Request → List Handle
  | queue action => action.given
  | device action => action.given
  | feed _ data | setData data => [data]
  | _ => []

def Raw.run {σ : Type} [Medium σ] (held : List StorageId) (m : σ) : Raw → σ
  | read n => (Medium.read held m n).2
  | write bytes => (Medium.write held m bytes).2
  | seek place => (Medium.seek held m place).2
  | openWith mode => (Medium.openWith m mode).2

/-- What a medium gives out, and the medium after a request that its kind knows. -/
def onMedium (held : List StorageId) : Medium.Choice → Request → List Handle × Medium.Choice
  | m, .raw call => ([], call.run held m)
  | .pipe p, .feed channel data => ([], .pipe (p.feed held channel data).2)
  | .pipe p, .closeWriteEnd => ([], .pipe p.closeWriteEnd)
  | .pipe p, .limit read write => ([], .pipe { p with readLimit := read, writeLimit := write })
  | .pipe p, .written channel => ([p.writtenOn channel], .pipe p)
  | .memory m, .setData data => ([], .memory (m.setData data))
  | .memory m, .buffer => ([m.data], .memory m)
  | m, _ => ([], m)

/-- The handles that a layer gives out, and the layer after a request that it knows, while all others hold
`others`. -/
def serve (others : List Handle) : Layer → Request → List Handle × Layer
  | queue s, .queue action =>
    let (reply, s) := { s with kept := others }.step action
    (reply.handles, queue s)
  | device d, .device action =>
    let (reply, d) := { d with outside := ids others }.perform action
    (Device.answered reply, device d)
  | device d, request =>
    let d := { d with outside := ids others }
    let (given, m) := onMedium d.heldBesideMedium d.medium request
    (given, device { d with medium := m })
  | layer, _ => ([], layer)

/-- The handles of a layer. -/
def handles : Layer → List Handle
  | queue s => s.handles
  | device d => d.handles

/-- The bytes that a layer carries, queue by queue and for each handle of the medium. -/
def carried : Layer → List (List UInt8)
  | queue s => [s.queue.toList, s.saved.toList]
  | device d => (d.reading.queues ++ d.writing.queues).map ChunkQueue.toList ++ match d.medium with
    | .memory m => [m.data.content]
    | .pipe p => p.incoming.map ChunkQueue.toList ++ p.written.map content
    | .scripted s => [s.data, s.written]

/-- The same bytes, if the handles show what `look` says. -/
def contents (look : Handle → List UInt8) : Layer → List (List UInt8)
  | queue s => [s.queue.seen look, s.saved.seen look]
  | device d => (d.reading.queues ++ d.writing.queues).map (ChunkQueue.seen look) ++ match d.medium with
    | .memory m => [look m.data]
    | .pipe p => p.incoming.map (ChunkQueue.seen look) ++ p.written.map look
    | .scripted s => [s.data, s.written]

private theorem map_seen_eq {look : Handle → List UInt8} {queues : List ChunkQueue}
    (shows : ∀ h ∈ queues.flatMap ChunkQueue.chunks, look h = h.content) :
    queues.map (ChunkQueue.seen look) = queues.map ChunkQueue.toList := by
  refine List.map_congr_left fun q member => ChunkQueue.seen_eq fun c chunk => ?_
  exact shows c (List.mem_flatMap.mpr ⟨q, member, chunk⟩)

/-- What shows each handle as it is shows the layer as it is. -/
theorem contents_eq {look : Handle → List UInt8} {layer : Layer} (shows : ∀ h ∈ layer.handles, look h = h.content) :
    layer.contents look = layer.carried := by
  cases layer with
  | queue s =>
    obtain ⟨queue, saved⟩ := List.forall_mem_append.mp shows
    rw [contents, carried, ChunkQueue.seen_eq queue, ChunkQueue.seen_eq saved]
  | device d =>
    obtain ⟨reading, rest⟩ := List.forall_mem_append.mp shows
    obtain ⟨writing, medium⟩ := List.forall_mem_append.mp rest
    rw [contents, carried, List.map_append, List.map_append, map_seen_eq reading, map_seen_eq writing]
    congr 1
    generalize d.medium = m at medium
    cases m with
    | memory m => exact congrArg (fun bytes => [bytes]) (medium m.data (List.mem_singleton_self _))
    | pipe p =>
      obtain ⟨incoming, written⟩ := List.forall_mem_append.mp medium
      dsimp only
      rw [map_seen_eq incoming, List.map_congr_left written]
    | scripted s => rfl

/-! What a layer does to the storages of others -/

private theorem Raw.becomes {σ : Type} [Medium σ] [Medium.Holder σ] {held : List StorageId} (m : σ) (call : Raw) :
    Becomes held (Medium.Holder.handles m) (Medium.Holder.handles (call.run held m)) := by
  cases call with
  | read n => exact .of_covers (Medium.Holder.read held m n)
  | write bytes => exact Medium.Holder.write held m bytes
  | seek place => exact Medium.Holder.seek held m place
  | openWith mode => exact .of_covers (Medium.Holder.openWith m mode)

private theorem onMedium_becomes (held : List StorageId) (m : Medium.Choice) (request : Request) :
    Becomes held (request.given ++ Medium.Holder.handles m)
      ((onMedium held m request).1 ++ Medium.Holder.handles (onMedium held m request).2) := by
  have unmoved (given : List Handle) : Becomes held (given ++ Medium.Holder.handles m) (Medium.Holder.handles m) :=
    .of_covers (.of_subset (List.subset_append_right ..))
  cases request with
  | queue action => exact unmoved action.given
  | device action => exact unmoved action.given
  | raw call => exact call.becomes m
  | feed channel data =>
    cases m with
    | pipe p => exact p.feed_becomes channel data
    | memory | scripted => exact unmoved [data]
  | closeWriteEnd => cases m <;> exact .refl _
  | limit => cases m <;> exact .refl _
  | setData data =>
    cases m with
    | memory m => exact .of_covers (.of_subset (List.subset_append_left [data] [m.data]))
    | pipe | scripted => exact unmoved [data]
  | buffer =>
    cases m with
    | memory m => exact .of_covers (.cons (.refl _) (.refl _))
    | pipe | scripted => exact .refl _
  | written channel =>
    cases m with
    | pipe p =>
      refine .of_covers (.cons ?_ (.refl _))
      show Covers p.handles [p.written.getD channel empty]
      rw [List.getD_eq_getElem?_getD]
      cases there : p.written[channel]? with
      | none => exact .blank
      | some record => exact .of_storage (List.mem_append_right _ (List.mem_of_getElem? there)) rfl
    | memory | scripted => exact .refl _

/-- Whatever a layer does, it writes nothing that others look at, be it handed in, kept or given out. -/
theorem serve_becomes (others : List Handle) (layer : Layer) (request : Request) :
    Becomes (ids others) (request.given ++ layer.handles)
      ((layer.serve others request).1 ++ (layer.serve others request).2.handles) := by
  cases layer with
  | queue s =>
    cases request with
    | queue action => exact ChunkQueue.Session.step_becomes { s with kept := others } action
    | _ => exact .of_covers (.of_subset (List.subset_append_right ..))
  | device d =>
    have past (request : Request) : Device.Trades { d with outside := ids others } request.given
        (onMedium { d with outside := ids others }.heldBesideMedium d.medium request).1
        { d with
          outside := ids others
          medium := (onMedium { d with outside := ids others }.heldBesideMedium d.medium request).2 } :=
      .of_medium (onMedium_becomes _ d.medium request) rfl rfl rfl
    cases request with
    | device action => exact ({ d with outside := ids others }.perform_trades action).becomes
    | _ => exact (past _).becomes

end Layer

end ByteFlow
