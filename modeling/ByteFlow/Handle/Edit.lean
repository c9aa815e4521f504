import ByteFlow.Byte
import ByteFlow.Handle.Basic
import ByteFlow.Search.Substitution

/-! Changes of one handle. A change that writes goes through `edit`, which writes in place if the
handle is detached and into a new storage if not; other changes only narrow the view. -/
namespace ByteFlow.Handle

/-- The name of the storage that a write goes to: that of the handle if it is detached. -/
def ownId (held : List StorageId) (h : Handle) : StorageId :=
  match h.storage with
  | .heap id _ _ => if h.isDetached held then id else fresh (id :: held)
  | .fixed id _ => fresh (id :: held)
  | .absent => fresh held

/-- The room of the storage that a write of `n` bytes goes to, `room` being asked for if that storage
is a new one. -/
def roomFor (held : List StorageId) (room n : Nat) (h : Handle) : Nat :=
  Storage.grown (if h.isDetached held then h.storage.room else max room h.length) n

/-- Writes `f` of the content, asking for room for `room` bytes if a new storage is needed. -/
def edit (held : List StorageId) (room : Nat) (f : List UInt8 → List UInt8) (h : Handle) : Handle :=
  let bytes := f h.content
  whole (.heap (h.ownId held) bytes (h.roomFor held room bytes.length)) h.reserved

/-- Gives the handle a storage of its own. -/
def detach (held : List StorageId) (h : Handle) : Handle := h.edit held h.length id

/-- The length becomes `n`; growing adds copies of `b`, shrinking to nothing lets the storage go
unless its capacity is reserved. -/
def resizeWith (held : List StorageId) (n : Nat) (b : UInt8) (h : Handle) : Handle :=
  if smaller : n < h.length then
    if n = 0 ∧ !h.reserved then empty else h.keepFirst n (by omega)
  else if n = h.length then h
  else h.edit held n fun bytes => bytes ++ List.replicate (n - bytes.length) b

def resize (held : List StorageId) (n : Nat) (h : Handle) : Handle := h.resizeWith held n 0

/-- Grows a heap storage to a capacity. -/
def withRoom (capacity : Nat) (h : Handle) : Handle :=
  match same : h.storage with
  | .heap id bytes old =>
    { h with
      storage := .heap id bytes (Storage.grown old capacity)
      inside := by have := h.inside; simp only [same, Storage.bytes] at this ⊢; exact this }
  | _ => h

/-- Makes room for `capacity` bytes and keeps it from then on. -/
def reserve (held : List StorageId) (capacity : Nat) (h : Handle) : Handle :=
  let pinned := { h with reserved := true }
  if capacity = 0 ∨ (pinned.isDetached held ∧ capacity ≤ pinned.capacity held) then pinned
  else (pinned.edit held capacity id).withRoom capacity

/-- Gives up room that is not needed, unless it is reserved. -/
def squeeze (held : List StorageId) (h : Handle) : Handle :=
  if h.reserved then h
  else if h.length = 0 then empty
  else match h.storage with
    | .heap id _ _ => if h.isDetached held then whole (.heap id h.content h.length) false else h
    | _ => h

def truncate (held : List StorageId) (n : Nat) (h : Handle) : Handle :=
  if n < h.length then h.resize held n else h

/-- Drops bytes at the end. -/
def chop (held : List StorageId) (n : Nat) (h : Handle) : Handle := h.truncate held (h.length - n)

def append (held : List StorageId) (bytes : List UInt8) (h : Handle) : Handle :=
  if bytes.isEmpty then h else h.edit held (h.length + bytes.length) (· ++ bytes)

/-- Appends another handle's bytes; an empty handle without reserved room shares its storage. -/
def appendShared (held : List StorageId) (h other : Handle) : Handle :=
  if h.isEmpty ∧ !h.reserved then other else h.append held other.content

def push (held : List StorageId) (b : UInt8) (h : Handle) : Handle :=
  h.edit held (h.length + 1) (· ++ [b])

/-- The bytes with others put in at a place, after as many spaces as the place lies behind the end.
-/
def inserted (place : Nat) (new bytes : List UInt8) : List UInt8 :=
  bytes.take place ++ List.replicate (place - bytes.length) Byte.space ++ new ++ bytes.drop place

/-- Spaces up to a place that lies behind the end. -/
def padTo (held : List StorageId) (room place : Nat) (h : Handle) : Handle :=
  if h.length < place then
    h.edit held room fun bytes => bytes ++ List.replicate (place - bytes.length) Byte.space
  else h

/-- Puts bytes in; a result longer than any size changes nothing. The spaces before them are put in
on their own, so that the storage may grow twice. -/
def insert (held : List StorageId) (place : Nat) (bytes : List UInt8) (h : Handle) : Handle :=
  if bytes.isEmpty then h
  else match Word.add? (max place h.length) bytes.length with
    | none => h
    | some room => (h.padTo held room place).edit held room (inserted place bytes)

def prepend (held : List StorageId) (bytes : List UInt8) (h : Handle) : Handle :=
  h.insert held 0 bytes

def removed (place n : Nat) (bytes : List UInt8) : List UInt8 :=
  bytes.take place ++ bytes.drop (place + n)

/-- Takes bytes out, as far as there are any; at either end this only narrows the view. -/
def remove (held : List StorageId) (place n : Nat) (h : Handle) : Handle :=
  if n = 0 ∨ h.length ≤ place then h
  else
    let count := min n (h.length - place)
    if place + count = h.length then h.resize held place
    else if place = 0 then h.dropFirst count (by omega)
    else h.edit held h.length (removed place count)

/-- The bytes with some of them overwritten from a place on, as far as they reach. -/
def overlaid (place : Nat) (new bytes : List UInt8) : List UInt8 :=
  bytes.take place ++ new.take (bytes.length - place) ++ bytes.drop (place + new.length)

/-- Overwrites bytes from a place on. -/
def store (held : List StorageId) (place : Nat) (bytes : List UInt8) (h : Handle) : Handle :=
  h.edit held h.length (overlaid place bytes)

/-- Puts `after` where `n` bytes were: over them if it is as long and they lie inside, else by
taking out and putting in. The end of the bytes is a wrapped sum, so that a place behind all others
can seem to lie inside; the write breaks off there, when the handle is detached already. -/
def replace (held : List StorageId) (place n : Nat) (after : List UInt8) (h : Handle) :
    Except (Broken Handle) Handle :=
  if n = after.length ∧ Word.addWrapped place n ≤ h.length then
    if n = 0 then .ok h
    else if place + n ≤ h.length then .ok (h.store held place after)
    else .error ⟨.wrappedEnd, h.detach held⟩
  else .ok ((h.remove held place n).insert held place after)

/-- Replaces every occurrence of a pattern, from the left; without one nothing happens. The pieces are
put together in a new storage, which has room for the old bytes to begin with. -/
def replaceAll (held : List StorageId) (before after : List UInt8) (h : Handle) : Handle :=
  match Search.replaceAll? h.content before after with
  | none => h
  | some pieces =>
    if pieces.flatten.isEmpty then empty
    else
      { allocate (h.id?.toList ++ held) (Storage.grownAlong h.length 0 pieces) pieces.flatten with
        reserved := h.reserved }

def replaceByte (held : List StorageId) (before after : UInt8) (h : Handle) : Handle :=
  if before ≠ after ∧ h.content.contains before then
    h.edit held h.length fun bytes => bytes.map fun b => if b = before then after else b
  else h

/-- Makes every byte `b`, at a new length if one is given. -/
def fill (held : List StorageId) (b : UInt8) (length? : Option Nat) (h : Handle) : Handle :=
  let sized := match length? with
    | none => h
    | some n => h.resize held n
  if sized.isEmpty then sized
  else sized.edit held sized.length fun bytes => List.replicate bytes.length b

/-- Appends bytes one by one, which detaches even if there are none. -/
def extend (held : List StorageId) (bytes : List UInt8) (h : Handle) : Handle :=
  h.edit held (h.length + bytes.length) (· ++ bytes)

/-- Stores one byte, after zero bytes up to its place if need be; the last place of all is out of
reach. -/
def set (held : List StorageId) (index : Nat) (b : UInt8) (h : Handle) : Handle :=
  if Word.maxValue ≤ index then h
  else
    let grown := if h.length ≤ index then h.resize held (index + 1) else h
    grown.edit held grown.length fun bytes => bytes.set index b

/-- Reverses the bytes in place. -/
def reverse (held : List StorageId) (h : Handle) : Handle := h.edit held h.length List.reverse

end ByteFlow.Handle
