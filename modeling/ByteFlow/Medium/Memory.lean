import ByteFlow.Handle.Edit
import ByteFlow.Medium.Basic

/-! A random-access medium over one handle.
The handle may share its storage; the first write gives the medium a copy of its own. -/
namespace ByteFlow.Medium

structure Memory where
  data : Handle
  cursor : Nat
  writable : Bool

namespace Memory

def ofHandle (data : Handle) : Memory := ⟨data, 0, false⟩

/-- Replaces the contents and goes back to their beginning. -/
def setData (m : Memory) (data : Handle) : Memory := { m with data := data, cursor := 0 }

def read (m : Memory) (room : Nat) : Except IoError Delivery × Memory :=
  let bytes := (m.data.content.drop m.cursor).take room
  (.ok ⟨bytes, bytes.length⟩, { m with cursor := m.cursor + bytes.length })

/-- Overwrites and extends the contents from the cursor on. -/
def write (held : List StorageId) (m : Memory) (bytes : List UInt8) : Except IoError Nat × Memory :=
  let stop := m.cursor + bytes.length
  let grown := if m.data.length < stop then m.data.resize held stop else m.data
  (.ok bytes.length, { m with data := grown.store held m.cursor bytes, cursor := stop })

/-- A place past the end is filled up to with zeros, if the medium may be written. -/
def seek (held : List StorageId) (m : Memory) (place : Nat) : Except IoError Unit × Memory :=
  if place ≤ m.data.length then (.ok (), { m with cursor := place })
  else if m.writable then
    (.ok (), { m with data := m.data.resize held place, cursor := place })
  else (.error ⟨.invalidInput, "seek past the end of a read-only buffer"⟩, m)

def openWith (m : Memory) (mode : OpenMode) : Except IoError Unit × Memory :=
  (.ok (), ⟨if mode.truncate then Handle.empty else m.data, 0, mode.writable⟩)

end Memory

instance : Medium Memory where
  read _ m room := m.read room
  write held m bytes := m.write held bytes
  seek held m place := m.seek held place
  openWith m mode := m.openWith mode
  close m := (.ok (), m)
  flush m := (.ok (), m)
  select m _ _ := m
  isSequential _ := false
  size m := m.data.length
  available _ := 0
  ids m := m.data.id?.toList

end ByteFlow.Medium
