/-! How a device is opened: six flags.
Appending and truncating imply writing, which normalizing makes explicit. -/
namespace ByteFlow

structure OpenMode where
  readable : Bool
  writable : Bool
  append : Bool
  truncate : Bool
  text : Bool
  unbuffered : Bool
  deriving DecidableEq, Repr

namespace OpenMode

/-- No flag: the mode of a closed device. -/
def closed : OpenMode := ⟨false, false, false, false, false, false⟩

def readOnly : OpenMode := { closed with readable := true }

def writeOnly : OpenMode := { closed with writable := true }

def readWrite : OpenMode := { closed with readable := true, writable := true }

/-- Combines the flags of two modes one by one. -/
def zip (f : Bool → Bool → Bool) (a b : OpenMode) : OpenMode :=
  ⟨f a.readable b.readable, f a.writable b.writable, f a.append b.append,
    f a.truncate b.truncate, f a.text b.text, f a.unbuffered b.unbuffered⟩

def union (a b : OpenMode) : OpenMode := zip (· || ·) a b

def difference (a b : OpenMode) : OpenMode := zip (fun x y => x && !y) a b

def isEmpty (a : OpenMode) : Bool := a == closed

/-- Whether every flag of `b` is set in `a`. -/
def contains (a b : OpenMode) : Bool := (b.difference a).isEmpty

def intersects (a b : OpenMode) : Bool := !(zip (· && ·) a b).isEmpty

/-- The mode with the flag set that others imply. -/
def normalized (a : OpenMode) : OpenMode :=
  { a with writable := a.writable || a.append || a.truncate }

/-- The flags with their names, from the lowest bit on. -/
def flags (a : OpenMode) : List (String × Bool) :=
  [("READ_ONLY", a.readable), ("WRITE_ONLY", a.writable), ("APPEND", a.append),
    ("TRUNCATE", a.truncate), ("TEXT", a.text), ("UNBUFFERED", a.unbuffered)]

def bits (a : OpenMode) : Nat := a.flags.foldr (fun flag n => 2 * n + flag.2.toNat) 0

/-- The names of the flags that are set. -/
def display (a : OpenMode) : String :=
  if a.isEmpty then "NOT_OPEN"
  else " | ".intercalate ((a.flags.filter (·.2)).map (·.1))

end OpenMode

end ByteFlow
