import ByteFlow.Byte

/-! Line ends: a line feed, or a carriage return before it.
Reading text drops each carriage return that a line feed follows; writing text may put one there. -/
namespace ByteFlow.Newline
open Byte

/-- The bytes without each carriage return directly before a line feed. -/
def normalize : List UInt8 → List UInt8
  | [] => []
  | [b] => [b]
  | b :: next :: rest =>
    if b = carriageReturn ∧ next = lineFeed then normalize (next :: rest)
    else b :: normalize (next :: rest)

/-- The bytes with a carriage return before each line feed. -/
def expand (bytes : List UInt8) : List UInt8 :=
  bytes.flatMap fun b => if b = lineFeed then [carriageReturn, lineFeed] else [b]

/-- The pieces that end with each line feed, and an unended last one if it is not empty. -/
def lines : List UInt8 → List (List UInt8)
  | [] => []
  | b :: rest =>
    if b = lineFeed then [b] :: lines rest
    else match lines rest with
      | [] => [[b]]
      | line :: more => (b :: line) :: more

/-- A line without its line end; a carriage return goes only together with a line feed. -/
def chomp (line : List UInt8) : List UInt8 :=
  match line.reverse with
  | b :: rest =>
    if b = lineFeed then
      match rest with
      | c :: more => if c = carriageReturn then more.reverse else rest.reverse
      | [] => []
    else line
  | [] => []

/-- A pass over a buffer from `index` to `stop`: each byte moves down to `filled`, except a carriage
return directly before a line feed, which goes. -/
def stripFrom (buffer : Array UInt8) (stop index filled : Nat) : Array UInt8 × Nat :=
  if _h : index < stop then
    match buffer[index]? with
    | none => (buffer, filled)
    | some b =>
      if b = carriageReturn ∧ index + 1 < stop ∧ buffer[index + 1]? = some lineFeed then
        stripFrom buffer stop (index + 1) filled
      else stripFrom (buffer.setIfInBounds filled b) stop (index + 1) (filled + 1)
  else (buffer, filled)
termination_by stop - index

/-- Normalizes the bytes of a buffer from `start` to `stop` in place, and tells the new end. A
carriage return at the end stays, for a line feed may follow it. -/
def stripInPlace (buffer : Array UInt8) (start stop : Nat) : Array UInt8 × Nat :=
  stripFrom buffer stop start start

end ByteFlow.Newline
