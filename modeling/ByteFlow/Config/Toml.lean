import ByteFlow.Config.Basic
import ByteFlow.Config.Toml.Document

/-! The parameters that a configuration text gives in its table `device`.
A parameter may be missing, but one of another type makes the whole text invalid. -/
namespace ByteFlow.Config.Toml

/-- The parameters that a text gives. -/
structure Given where
  bufferSize : Option Nat
  chunkSize : Option Nat
  writeChunkSize : Option Nat
  crlfOnWrite : Option Bool

def Value.size? : Value → Option Nat
  | .integer n => if 0 ≤ n then some n.toNat else none
  | _ => none

def Value.flag? : Value → Option Bool
  | .boolean b => some b
  | _ => none

/-- What `read` makes of an entry, which may be missing. -/
def entry? {α : Type} (read : Value → Option α) (key : String) (entries : Entries) :
    Option (Option α) :=
  match entries.lookup key with
  | none => some none
  | some v => (read v).map some

/-- Parameters by name; other names do not count. -/
def Given.ofEntries? (entries : Entries) : Option Given := do
  return ⟨← entry? Value.size? "buffer_size" entries, ← entry? Value.size? "chunk_size" entries,
    ← entry? Value.size? "write_chunk_size" entries, ← entry? Value.flag? "crlf_on_write" entries⟩

/-- Parameters in their order, all of them; further items do not count. -/
def Given.ofItems? : List Value → Option Given
  | bufferSize :: chunkSize :: writeChunkSize :: crlfOnWrite :: _ => do
    return ⟨← bufferSize.size?, ← chunkSize.size?, ← writeChunkSize.size?, ← crlfOnWrite.flag?⟩
  | _ => none

/-- Parameters by name or in their order; a date counts as a table with none of them. -/
def Given.ofValue? : Value → Option Given
  | .table _ entries => ofEntries? entries
  | .array items => ofItems? items
  | .date => ofEntries? []
  | _ => none

/-- The parameters in the `device` table of a text. -/
def given? (text : String) : Option Given := do
  match (← parse? text).lookup "device" with
  | none => Given.ofEntries? []
  | some v => Given.ofValue? v

/-- The given parameters override the others. -/
def Given.apply (g : Given) (c : Config) : Config :=
  ⟨g.bufferSize.getD c.bufferSize, g.chunkSize.getD c.chunkSize,
    g.writeChunkSize.getD c.writeChunkSize, g.crlfOnWrite.getD c.crlfOnWrite⟩

end ByteFlow.Config.Toml
