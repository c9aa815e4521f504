import ByteFlow.Proofs.Handle.Sharing

/-! One memory under all live handles.
Each handle carries the storage it looks at; here the storages of one name are one place in memory,
and an action stores what the handle it is about carries. -/
namespace ByteFlow.Handle

/-! Names -/

namespace Table

variable (t : Table) (name other : String) (h : Handle)

@[simp] theorem find?_put_self : (t.put name h).find? name = some h := by
  obtain ⟨entries⟩ := t
  simp only [put, find?]
  induction entries with
  | nil => simp [putSorted]
  | cons e rest ih =>
    simp only [putSorted]
    split
    · exact List.lookup_cons_self
    · split
      · exact List.lookup_cons_self
      · next differs _ =>
        have other : (name == e.1) = false := by simpa using differs
        rw [List.lookup_cons, other]
        exact ih

variable {name other}

@[simp] theorem find?_put_of_ne (differs : other ≠ name) : (t.put name h).find? other = t.find? other := by
  obtain ⟨entries⟩ := t
  have apart : (other == name) = false := by simpa using differs
  simp only [put, find?]
  induction entries with
  | nil => simp [putSorted, List.lookup_cons, apart]
  | cons e rest ih =>
    simp only [putSorted]
    split
    · next same => rw [List.lookup_cons, List.lookup_cons, ← same, apart]
    · split
      · rw [List.lookup_cons, apart]
      · rw [List.lookup_cons, List.lookup_cons, ih]

@[simp] theorem find?_drop_self : (t.drop name).find? name = none := by
  rw [drop, others, find?, List.lookup_eq_none_iff]
  intro e member
  have differs : e.1 ≠ name := by simpa using (List.mem_filter.mp member).2
  exact bne_iff_ne.mpr differs.symm

@[simp] theorem find?_drop_of_ne (differs : other ≠ name) : (t.drop name).find? other = t.find? other := by
  obtain ⟨entries⟩ := t
  have apart : (other == name) = false := by simpa using differs
  simp only [drop, others, find?]
  induction entries with
  | nil => rfl
  | cons e rest ih =>
    rw [List.lookup_cons, List.filter_cons]
    split
    · rw [List.lookup_cons, ih]
    · next same =>
      have gone : e.1 = name := by simpa using same
      rw [gone, apart]
      exact ih

variable {t h}

theorem mem_of_find? (found : t.find? name = some h) : (name, h) ∈ t.entries := by
  obtain ⟨before, after, split, -⟩ := List.lookup_eq_some_iff.mp found
  simp [split]

theorem mem_held {id : StorageId} (found : t.find? name = some h) (holds : h.id? = some id) :
    id ∈ t.held := by
  rw [held, ids, List.mem_filterMap]
  exact ⟨h, List.mem_map.mpr ⟨_, mem_of_find? found, rfl⟩, holds⟩

theorem mem_heldByOthers {id : StorageId} (found : t.find? other = some h) (differs : other ≠ name)
    (holds : h.id? = some id) : id ∈ t.heldByOthers name := by
  rw [heldByOthers, ids, List.mem_filterMap]
  refine ⟨h, List.mem_map.mpr ⟨(other, h), ?_, rfl⟩, holds⟩
  rw [others, List.mem_filter]
  exact ⟨mem_of_find? found, by simpa using differs⟩

theorem heldByOthers_put (t : Table) (name : String) (h : Handle) : (t.put name h).heldByOthers name = t.heldByOthers name := by
  obtain ⟨entries⟩ := t
  suffices same : (putSorted name h entries).filter (fun e => e.1 != name) = entries.filter (fun e => e.1 != name) by
    rw [heldByOthers, heldByOthers, others, others, put, same]
  induction entries with
  | nil => simp [putSorted]
  | cons e rest ih =>
    simp only [putSorted]
    split
    · next same => simp [same]
    · split
      · simp
      · rw [List.filter_cons, List.filter_cons, ih]

end Table

end ByteFlow.Handle

namespace ByteFlow

/-- What is stored where. Storage that is never written lies apart from the heap. -/
structure Memory where
  fixed : StorageId → List UInt8
  heap : StorageId → List UInt8

namespace Memory

/-- The bytes stored where a storage says. -/
def bytesOf (m : Memory) : Storage → List UInt8
  | .absent => []
  | .fixed id _ => m.fixed id
  | .heap id _ _ => m.heap id

/-- The bytes that a handle shows, seen in memory. -/
def read (m : Memory) (h : Handle) : List UInt8 := ((m.bytesOf h.storage).drop h.start).take h.length

/-- Stores the bytes of a storage where it says. -/
def write (m : Memory) : Storage → Memory
  | .absent => m
  | .fixed id bytes => { m with fixed := fun i => if i = id then bytes else m.fixed i }
  | .heap id bytes _ => { m with heap := fun i => if i = id then bytes else m.heap i }

/-- The memory holds the bytes that a storage carries. -/
def Backs (m : Memory) (s : Storage) : Prop := m.bytesOf s = s.bytes

variable {m : Memory} {held : List StorageId} {old new s : Storage}

theorem read_of_backs {h : Handle} (backs : m.Backs h.storage) : m.read h = h.content := by
  rw [read, Handle.content, backs]

theorem backs_absent (m : Memory) : m.Backs .absent := rfl

theorem backs_write_self (m : Memory) (s : Storage) : (m.write s).Backs s := by
  cases s <;> simp [Backs, write, bytesOf, Storage.bytes]

private theorem write_of_backs (backs : m.Backs s) : m.write s = m := by
  cases s with
  | absent => rfl
  | fixed id bytes =>
    have same : m.fixed id = bytes := backs
    simp only [write, ← same]
    congr
    funext i
    split
    · next here => rw [here]
    · rfl
  | heap id bytes capacity =>
    have same : m.heap id = bytes := backs
    simp only [write, ← same]
    congr
    funext i
    split
    · next here => rw [here]
    · rfl

/-- Bytes stored under a name that nobody holds are in nobody's way. -/
theorem backs_write_of_notMem {id : StorageId} (named : new.id? = some id) (free : id ∉ held)
    (backs : m.Backs s) (holds : ∀ id, s.id? = some id → id ∈ held) : (m.write new).Backs s := by
  have apart : s.id? ≠ some id := fun same => free (holds id same)
  cases new with
  | absent => exact backs
  | fixed _ bytes =>
    cases named
    cases s with
    | fixed j _ =>
      have : j ≠ id := by simpa [Storage.id?] using apart
      simpa [Backs, write, bytesOf, this] using backs
    | absent | heap => exact backs
  | heap _ bytes capacity =>
    cases named
    cases s with
    | heap j _ _ =>
      have : j ≠ id := by simpa [Storage.id?] using apart
      simpa [Backs, write, bytesOf, this] using backs
    | absent | fixed => exact backs

theorem backs_write_of_placed (placed : Handle.Placed held old new) (kept : m.Backs old) (backs : m.Backs s)
    (holds : ∀ id, s.id? = some id → id ∈ held) : (m.write new).Backs s := by
  cases placed with
  | absent => exact backs
  | same => rw [write_of_backs kept]; exact backs
  | own id bytes capacity free => exact backs_write_of_notMem rfl free backs holds

/-- A view needs no storing, for it stays where it is even if everybody holds everything. -/
theorem backs_of_placed (placed : ∀ held, Handle.Placed held old new) (kept : m.Backs old) :
    m.Backs new := by
  cases new with
  | absent => exact backs_absent m
  | fixed id bytes =>
    cases placed []
    exact kept
  | heap id bytes capacity =>
    cases placed [id] with
    | same => exact kept
    | own _ _ _ free => exact absurd (List.mem_singleton_self id) free

private theorem fixed_write_of_placed (placed : Handle.Placed held old new) (kept : m.Backs old) :
    (m.write new).fixed = m.fixed := by
  cases placed with
  | absent => rfl
  | same => rw [write_of_backs kept]
  | own => rfl

end Memory

namespace Handle

/-- Live handles over one memory. -/
structure World where
  memory : Memory
  table : Table

namespace World

def start : World := ⟨⟨fun _ => [], fun _ => []⟩, Table.empty⟩

/-- Stores the bytes of the handle under a name. -/
def settle (m : Memory) (t : Table) (name : String) : World :=
  ⟨match t.find? name with
    | some h => m.write h.storage
    | none => m, t⟩

/-- Does an action, as far as it comes, and stores the bytes of the handle it is about. -/
def step (w : World) (action : Table.Action) : World :=
  settle w.memory (Broken.after (w.table.step action)) action.target

def run (w : World) (actions : List Table.Action) : World := actions.foldl step w

/-- The bytes under a name, seen in memory. -/
def value (w : World) (name : String) : Option (List UInt8) := (w.table.find? name).map w.memory.read

/-- The memory holds what every live handle carries. -/
def Sound (w : World) : Prop := ∀ name h, w.table.find? name = some h → w.memory.Backs h.storage

theorem value_of_sound {w : World} (sound : w.Sound) (name : String) :
    w.value name = (w.table.find? name).map content := by
  rw [value]
  cases found : w.table.find? name with
  | none => rfl
  | some h => exact congrArg some (Memory.read_of_backs (sound name h found))

variable {m : Memory} {t : Table} {name : String} {h : Handle}

/-- Storing what the memory holds already changes nothing. -/
private theorem settle_of_sound (sound : Sound ⟨m, t⟩) (name : String) : settle m t name = ⟨m, t⟩ := by
  rw [settle]
  split
  · next h found => rw [Memory.write_of_backs (sound name h found)]
  · rfl

private theorem settle_put (m : Memory) (t : Table) (name : String) (h : Handle) :
    settle m (t.put name h) name = ⟨m.write h.storage, t.put name h⟩ := by
  rw [settle, Table.find?_put_self]

/-- A handle may be put where a write of its bytes leaves all other handles as they are. -/
private theorem sound_put
    (others : ∀ other o, other ≠ name → t.find? other = some o → (m.write h.storage).Backs o.storage) :
    Sound ⟨m.write h.storage, t.put name h⟩ := by
  intro other o found
  by_cases same : other = name
  · subst same
    rw [Table.find?_put_self] at found
    cases found
    exact m.backs_write_self _
  · exact others other o same (by rwa [Table.find?_put_of_ne _ _ same] at found)

private theorem sound_put_backed (sound : Sound ⟨m, t⟩) (backs : m.Backs h.storage) : Sound ⟨m, t.put name h⟩ := by
  have kept := Memory.write_of_backs backs
  rw [← kept]
  apply sound_put
  intro other o _ found
  rw [kept]
  exact sound other o found

private theorem sound_putPieces (sound : Sound ⟨m, t⟩) (name : String) (pieces : List Handle)
    (backs : ∀ piece ∈ pieces, m.Backs piece.storage) : Sound ⟨m, t.putPieces name pieces⟩ := by
  rw [Table.putPieces]
  have backs : ∀ p ∈ pieces.zipIdx, m.Backs p.1.storage := fun p member =>
    backs p.1 (List.fst_mem_of_mem_zipIdx member)
  generalize pieces.zipIdx = numbered at backs
  induction numbered generalizing t with
  | nil => exact sound
  | cons p rest ih =>
    rw [List.forall_mem_cons] at backs
    exact ih (sound_put_backed sound backs.1) backs.2

theorem sound_start : start.Sound := by
  intro name h found
  cases found

/-- A new storage has a name of its own, be it written or not. -/
private theorem sound_make (sound : Sound ⟨m, t⟩) (name : String) (origin : Origin) :
    Sound (step ⟨m, t⟩ (.make name origin)) := by
  have stepped : step ⟨m, t⟩ (.make name origin) =
      ⟨m.write (origin.make t.held).storage, t.put name (origin.make t.held)⟩ := settle_put ..
  rw [stepped]
  refine sound_put fun other o _ found => ?_
  have backs := sound other o found
  have holds : ∀ id, o.storage.id? = some id → id ∈ t.held := fun id => Table.mem_held found
  have copied : ∀ bytes, (m.write (ofList t.held bytes).storage).Backs o.storage := fun bytes =>
    Memory.backs_write_of_placed (placed_ofList t.held bytes fun _ => id) (m.backs_absent) backs holds
  cases origin with
  | nothing => exact backs
  | copied bytes => exact copied bytes
  | filled n b => exact copied (List.replicate n b)
  | fixed bytes => exact Memory.backs_write_of_notMem rfl (fresh_notMem t.held) backs holds
  | room capacity =>
    simp only [Origin.make, withCapacity]
    split
    · exact backs
    · exact Memory.backs_write_of_notMem rfl (fresh_notMem t.held) backs holds

private theorem fixed_make (m : Memory) (t : Table) (name : String) (origin : Origin)
    (heap : ∀ bytes, origin ≠ .fixed bytes) : (step ⟨m, t⟩ (.make name origin)).memory.fixed = m.fixed := by
  have stepped : step ⟨m, t⟩ (.make name origin) =
      ⟨m.write (origin.make t.held).storage, t.put name (origin.make t.held)⟩ := settle_put ..
  have copied : ∀ bytes, (m.write (ofList t.held bytes).storage).fixed = m.fixed := fun bytes =>
    Memory.fixed_write_of_placed (placed_ofList t.held bytes fun _ => id) m.backs_absent
  rw [stepped]
  cases origin with
  | nothing => rfl
  | copied bytes => exact copied bytes
  | filled n b => exact copied (List.replicate n b)
  | fixed bytes => exact absurd rfl (heap bytes)
  | room capacity =>
    simp only [Origin.make, withCapacity]
    split <;> rfl

/-- What an action leaves behind: a memory in step with all handles, with the same fixed storage. -/
def Follows (m : Memory) (w : World) : Prop := w.Sound ∧ w.memory.fixed = m.fixed

/-- A handle placed where others do not look follows. -/
private theorem follows_put {old : Storage} {held : List StorageId} (sound : Sound ⟨m, t⟩) (backs : m.Backs old)
    (placed : Placed held old h.storage)
    (holds : ∀ other o, other ≠ name → t.find? other = some o → ∀ id, o.id? = some id → id ∈ held) :
    Follows m (settle m (t.put name h) name) := by
  rw [settle_put]
  refine ⟨sound_put fun other o differs there => ?_, Memory.fixed_write_of_placed placed backs⟩
  exact Memory.backs_write_of_placed placed backs (sound other o there) (holds other o differs there)

private theorem follows_of_sound (sound : Sound ⟨m, t⟩) (name : String) : Follows m (settle m t name) := by
  rw [settle_of_sound sound]
  exact ⟨sound, rfl⟩

private theorem follows_split (sound : Sound ⟨m, t⟩) {source : String} (found : t.find? source = some h)
    {first second : Handle} (viewed : ∀ held, Placed held h.storage first.storage)
    (kept : second.storage = h.storage) : Follows m (settle m ((t.put source second).put name first) name) := by
  have backs := sound source h found
  exact follows_of_sound (sound_put_backed (sound_put_backed sound (kept ▸ backs))
    (Memory.backs_of_placed viewed backs)) name

/-- Every action but the making of a handle keeps to what only its own handle looks at. -/
private theorem follows_step (sound : Sound ⟨m, t⟩) (action : Table.Action)
    (old : ∀ name origin, action ≠ .make name origin) : Follows m (step ⟨m, t⟩ action) := by
  have outcome := t.stepBeside_outcome [] action
  rw [step, Table.step]
  generalize Broken.after (t.stepBeside [] action) = t' at outcome
  cases outcome with
  | same => exact follows_of_sound sound _
  | made named origin made => exact absurd made (old _ origin)
  | derived named found placed =>
    exact follows_put sound (sound _ _ found) placed fun other o _ there id => Table.mem_held there
  | changed named found placed =>
    exact follows_put sound (sound _ _ found) placed fun other o differs there id =>
      Table.mem_heldByOthers there differs
  | parted named cut found viewed kept => exact follows_split sound found viewed kept
  | split named found pieces viewed =>
    refine follows_of_sound (sound_putPieces sound _ pieces fun piece member => ?_) _
    exact Memory.backs_of_placed (viewed piece member) (sound _ _ found)
  | dropped named =>
    refine follows_of_sound (fun other o there => ?_) _
    by_cases gone : other = action.target
    · subst gone
      rw [Table.find?_drop_self] at there
      cases there
    · exact sound other o (by rwa [Table.find?_drop_of_ne _ gone] at there)

/-- Every action keeps the memory in step with all live handles. -/
theorem sound_step {w : World} (sound : w.Sound) (action : Table.Action) : (w.step action).Sound := by
  cases action with
  | make name origin => exact sound_make sound name origin
  | derive | change | appendShared | splitOff | splitTo | split | drop =>
    exact (follows_step sound _ (by intros; simp)).1

/-- Fixed storage is laid down when a handle on it is made, and never written. -/
theorem fixed_step {w : World} (sound : w.Sound) (action : Table.Action)
    (old : ∀ name bytes, action ≠ .make name (.fixed bytes)) : (w.step action).memory.fixed = w.memory.fixed := by
  cases action with
  | make name origin =>
    exact fixed_make w.memory w.table name origin fun bytes fixed => old name bytes (fixed ▸ rfl)
  | derive | change | appendShared | splitOff | splitTo | split | drop =>
    exact (follows_step sound _ (by intros; simp)).2

theorem sound_run {w : World} (sound : w.Sound) (actions : List Table.Action) : (w.run actions).Sound := by
  induction actions generalizing w with
  | nil => exact sound
  | cons action actions ih => exact ih (sound_step sound action)

end World

end Handle

end ByteFlow
