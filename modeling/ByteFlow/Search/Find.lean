import ByteFlow.Search.Matcher
import ByteFlow.Word

/-! Searches in a byte sequence: single bytes by a plain scan, longer patterns by a matcher.
Whichever way is taken, the answer is the first or last occurrence. -/
namespace ByteFlow.Search

def indexOfByte (text : List UInt8) (b : UInt8) (start : Nat) : Option Nat :=
  ((text.drop start).findIdx? (· == b)).map (· + start)

def indexOf (text pattern : List UInt8) (start : Nat) : Option Nat :=
  match pattern with
  | [] => if start ≤ text.length then some start else none
  | [b] => indexOfByte text b start
  | _ => (Matcher.ofPattern pattern).indexIn text.toArray start

/-- The last place up to `start`, or anywhere if there is no bound. -/
def lastIndexOfByte (text : List UInt8) (b : UInt8) (start : Option Nat) : Option Nat :=
  let stop := match start with
    | none => text.length
    | some n => min n (text.length - 1) + 1
  ((text.take stop).reverse.findIdx? (· == b)).map fun i => min stop text.length - 1 - i

def lastIndexOf (text pattern : List UInt8) (start : Option Nat) : Option Nat :=
  let bound := start.getD Word.maxValue
  match pattern with
  | [] => some (min bound text.length)
  | [b] => lastIndexOfByte text b (some bound)
  | _ => (Matcher.ofPattern pattern).lastIndexIn text.toArray bound

def contains (text pattern : List UInt8) : Bool := (indexOf text pattern 0).isSome

/-- Counts the hits from `start` on, each search beginning one past the hit before. -/
def countFrom (m : Matcher) (text : Array UInt8) (start : Nat) : Nat :=
  match m.indexIn text start with
  | none => 0
  | some i => if _h : start ≤ i ∧ i < text.size then countFrom m text (i + 1) + 1 else 1
termination_by text.size - start

/-- How many places the pattern stands at. -/
def count (text pattern : List UInt8) : Nat :=
  if pattern.isEmpty then text.length + 1
  else countFrom (Matcher.ofPattern pattern) text.toArray 0

def startsWith (text pattern : List UInt8) : Bool := pattern.isPrefixOf text

def endsWith (text pattern : List UInt8) : Bool := pattern.isSuffixOf text

end ByteFlow.Search
