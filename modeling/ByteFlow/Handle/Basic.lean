import ByteFlow.Word

/-! Handles: views of storage that other handles may share.
A handle carries the storage it looks at, and an operation that writes is told which storages other
handles hold, for it may write in place only what nobody else holds. Operations take it for granted
that the storage they ask for can be had; what asks for more than any storage has room for is told
apart where changes are attempted. -/
namespace ByteFlow

/-- Names one storage among those in use. -/
abbrev StorageId := Nat

/-- Where bytes are kept: nowhere, in storage that is never written, or on the heap. -/
inductive Storage where
  | absent
  | fixed (id : StorageId) (bytes : List UInt8)
  | heap (id : StorageId) (bytes : List UInt8) (capacity : Nat)
  deriving DecidableEq

namespace Storage

def bytes : Storage → List UInt8
  | absent => []
  | fixed _ bytes => bytes
  | heap _ bytes _ => bytes

def id? : Storage → Option StorageId
  | absent => none
  | fixed id _ => some id
  | heap id _ _ => some id

/-- The bytes that a storage has room for. -/
def room : Storage → Nat
  | heap _ _ capacity => capacity
  | absent | fixed .. => 0

/-- No storage has room for more bytes. -/
def limit : Nat := Word.requestLimit

/-- The room of a storage once it holds `needed` bytes, which are put in at once: if it has to grow,
it takes twice the room at least, and eight bytes at least. -/
def grown (room needed : Nat) : Nat :=
  if needed ≤ room then room else max (max (2 * room) needed) 8

/-- The room of a storage once pieces are put in one by one, behind `length` bytes. -/
def grownAlong (room length : Nat) : List (List UInt8) → Nat
  | [] => room
  | piece :: rest =>
    grownAlong (grown room (length + piece.length)) (length + piece.length) rest

end Storage

/-- An assertion that the caller of an operation broke. -/
inductive Fault where
  | startOverflow
  | endOverflow
  | slice (start stop length : Nat)
  | splitOff (place length : Nat)
  | splitTo (place length : Nat)
  | wrappedEnd
  | tooLarge
  deriving DecidableEq

/-- The wording of a fault, if it has one. -/
def Fault.message? : Fault → Option String
  | startOverflow => some "range start overflow"
  | endOverflow => some "range end overflow"
  | slice start stop length => some ("slice bounds out of range: start=" ++ toString start ++
      ", end=" ++ toString stop ++ ", len=" ++ toString length)
  | splitOff place length => some ("split_off out of bounds: at=" ++ toString place ++
      ", len=" ++ toString length)
  | splitTo place length => some ("split_to out of bounds: at=" ++ toString place ++
      ", len=" ++ toString length)
  | wrappedEnd | tooLarge => none

/-- A fault in the midst of a change, and what it leaves behind. -/
structure Broken (α : Type) where
  fault : Fault
  left : α

/-- What there is behind a change, be it done or broken off. -/
def Broken.after {α : Type} : Except (Broken α) α → α
  | .ok done => done
  | .error broken => broken.left

/-- A view of `length` bytes of a storage; `reserved` says that its capacity was asked for. -/
structure Handle where
  storage : Storage
  start : Nat
  length : Nat
  reserved : Bool
  inside : start + length ≤ storage.bytes.length

namespace Handle

/-- The handle without storage. -/
def empty : Handle := ⟨.absent, 0, 0, false, by simp [Storage.bytes]⟩

instance : Inhabited Handle := ⟨empty⟩

/-- The bytes that the handle shows. -/
def content (h : Handle) : List UInt8 := (h.storage.bytes.drop h.start).take h.length

@[simp] theorem length_content (h : Handle) : h.content.length = h.length := by
  have := h.inside
  simp only [content, List.length_take, List.length_drop]
  omega

def isEmpty (h : Handle) : Bool := h.length == 0

def id? (h : Handle) : Option StorageId := h.storage.id?

/-- The storages that handles hold, once for each handle. -/
def ids (hs : List Handle) : List StorageId := hs.filterMap id?

/-- A storage name that nobody holds. -/
def fresh (held : List StorageId) : StorageId := held.foldl max 0 + 1

/-- A view of all of a storage. -/
def whole (storage : Storage) (reserved : Bool) : Handle :=
  ⟨storage, 0, storage.bytes.length, reserved, by omega⟩

/-- A copy of the bytes in storage of its own, with room for at least `capacity` bytes. -/
def allocate (held : List StorageId) (capacity : Nat) (bytes : List UInt8) : Handle :=
  whole (.heap (fresh held) bytes (max capacity bytes.length)) false

/-- A copy of the bytes; no bytes need no storage. -/
def ofList (held : List StorageId) (bytes : List UInt8) : Handle :=
  if bytes.isEmpty then empty else allocate held 0 bytes

/-- A view of storage that is never written. -/
def ofFixed (held : List StorageId) (bytes : List UInt8) : Handle :=
  whole (.fixed (fresh held) bytes) false

def filled (held : List StorageId) (n : Nat) (b : UInt8) : Handle :=
  ofList held (List.replicate n b)

/-- No bytes, but room for some, which stays. -/
def withCapacity (held : List StorageId) (capacity : Nat) : Handle :=
  if capacity = 0 then empty else { allocate held capacity [] with reserved := true }

def isFixed (h : Handle) : Bool :=
  match h.storage with
  | .fixed .. => true
  | _ => false

/-- Whether a write may happen in place, `held` being the storages that other handles hold. -/
def isDetached (held : List StorageId) (h : Handle) : Bool :=
  match h.storage with
  | .heap id _ _ => h.start == 0 && !held.contains id
  | _ => false

/-- Room without a new storage; only a detached handle has more than it shows. -/
def capacity (held : List StorageId) (h : Handle) : Nat :=
  match h.storage with
  | .heap _ _ capacity => if h.isDetached held then capacity else h.length
  | _ => h.length

/-- Whether two handles look at one storage; empty fixed storage counts as none. -/
def sharesWith (a b : Handle) : Bool :=
  match a.storage, b.storage with
  | .heap i _ _, .heap j _ _ => i == j
  | .fixed i bytes, .fixed j _ => i == j && !bytes.isEmpty
  | _, _ => false

def get? (h : Handle) (index : Nat) : Option UInt8 := h.content[index]?

/-! Views: they share the storage of the handle, unless they are empty. -/

def view (h : Handle) (offset length : Nat) (fits : offset + length ≤ h.length) : Handle :=
  if length = 0 then empty
  else ⟨h.storage, h.start + offset, length, false, by have := h.inside; omega⟩

def left (h : Handle) (n : Nat) : Handle := h.view 0 (min n h.length) (by omega)

def right (h : Handle) (n : Nat) : Handle :=
  h.view (h.length - min n h.length) (min n h.length) (by omega)

/-- The bytes from `place` on, at most `n?` of them. -/
def mid (h : Handle) (place : Nat) (n? : Option Nat) : Handle :=
  if fits : place < h.length then
    h.view place (min (n?.getD h.length) (h.length - place)) (by omega)
  else empty

def chopped (h : Handle) (n : Nat) : Handle := h.left (h.length - n)

/-- The first place of a range. -/
inductive Lower where
  | unbounded
  | included (place : Nat)
  | excluded (place : Nat)

/-- The last place of a range. -/
inductive Upper where
  | unbounded
  | included (place : Nat)
  | excluded (place : Nat)

def Lower.place : Lower → Except Fault Nat
  | unbounded => .ok 0
  | included n => .ok n
  | excluded n => if n < Word.maxValue then .ok (n + 1) else .error .startOverflow

def Upper.place (length : Nat) : Upper → Except Fault Nat
  | unbounded => .ok length
  | excluded n => .ok n
  | included n => if n < Word.maxValue then .ok (n + 1) else .error .endOverflow

/-- The bytes of a range, which has to lie inside. -/
def slice (h : Handle) (lower : Lower) (upper : Upper) : Except Fault Handle := do
  let start ← lower.place
  let stop ← upper.place h.length
  if fits : start ≤ stop ∧ stop ≤ h.length then
    return h.view start (stop - start) (by omega)
  else throw (.slice start stop h.length)

/-- The same storage with the first bytes out of sight. -/
def dropFirst (h : Handle) (n : Nat) (fits : n ≤ h.length) : Handle :=
  { h with start := h.start + n, length := h.length - n, inside := by have := h.inside; omega }

/-- The same storage with all but the first bytes out of sight. -/
def keepFirst (h : Handle) (n : Nat) (fits : n ≤ h.length) : Handle :=
  { h with length := n, inside := by have := h.inside; omega }

/-- The part from `place` on, and the handle cut down to what lies before. -/
def splitOff (h : Handle) (place : Nat) : Except Fault (Handle × Handle) :=
  if fits : place ≤ h.length then
    .ok (h.view place (h.length - place) (by omega), h.keepFirst place fits)
  else .error (.splitOff place h.length)

/-- The part before `place`, and the handle cut down to what lies from there on. -/
def splitTo (h : Handle) (place : Nat) : Except Fault (Handle × Handle) :=
  if fits : place ≤ h.length then .ok (h.view 0 place (by omega), h.dropFirst place fits)
  else .error (.splitTo place h.length)

end Handle

end ByteFlow
