import ByteFlow.Medium.Memory
import ByteFlow.Medium.Pipe
import ByteFlow.Medium.Scripted

/-! One of the three media, for callers that choose among them when they run. -/
namespace ByteFlow.Medium

inductive Choice where
  | memory (m : Memory)
  | pipe (p : Pipe)
  | scripted (s : Scripted)

namespace Choice

/-- An operation of the chosen medium. -/
def run {α : Type} (c : Choice) (onMemory : Memory → α × Memory) (onPipe : Pipe → α × Pipe)
    (onScripted : Scripted → α × Scripted) : α × Choice :=
  match c with
  | memory m => (onMemory m).map id memory
  | pipe p => (onPipe p).map id pipe
  | scripted s => (onScripted s).map id scripted

/-- A fact about the chosen medium. -/
def fact {α : Type} (c : Choice) (ofMemory : Memory → α) (ofPipe : Pipe → α)
    (ofScripted : Scripted → α) : α :=
  match c with
  | memory m => ofMemory m
  | pipe p => ofPipe p
  | scripted s => ofScripted s

end Choice

instance : Medium Choice where
  read held c n := c.run (Medium.read held · n) (Medium.read held · n) (Medium.read held · n)
  write held c bytes :=
    c.run (Medium.write held · bytes) (Medium.write held · bytes) (Medium.write held · bytes)
  seek held c place :=
    c.run (Medium.seek held · place) (Medium.seek held · place) (Medium.seek held · place)
  openWith c mode :=
    c.run (Medium.openWith · mode) (Medium.openWith · mode) (Medium.openWith · mode)
  close c := c.run Medium.close Medium.close Medium.close
  flush c := c.run Medium.flush Medium.flush Medium.flush
  select c read write := match c with
    | .memory m => .memory (Medium.select m read write)
    | .pipe p => .pipe (Medium.select p read write)
    | .scripted s => .scripted (Medium.select s read write)
  isSequential c := c.fact Medium.isSequential Medium.isSequential Medium.isSequential
  size c := c.fact Medium.size Medium.size Medium.size
  available c := c.fact Medium.available Medium.available Medium.available
  ids c := c.fact Medium.ids Medium.ids Medium.ids

end ByteFlow.Medium
