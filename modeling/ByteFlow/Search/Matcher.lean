import ByteFlow.Search.Occurrence

/-! Substring search by skip tables: a byte tells how far the pattern may move without missing a
place. Skips are capped at 255, so that longer patterns work but move less. -/
namespace ByteFlow.Search

/-- No table entry is larger. -/
def maxSkip : Nat := 255

/-- How far before the pattern's end `b` last stands, or the cap or the length if it is not there.
-/
def forwardSkip (pattern : List UInt8) (b : UInt8) : Nat :=
  (pattern.reverse.take maxSkip).findIdx (· == b)

/-- How far after the pattern's beginning `b` first stands, with the same bounds. -/
def backwardSkip (pattern : List UInt8) (b : UInt8) : Nat :=
  (pattern.take maxSkip).findIdx (· == b)

def tableOf (skip : UInt8 → Nat) : Array Nat := (Array.range 256).map fun i => skip (UInt8.ofNat i)

/-- A pattern with its two skip tables. -/
structure Matcher where
  pattern : List UInt8
  forward : Array Nat
  backward : Array Nat

namespace Matcher

def ofPattern (pattern : List UInt8) : Matcher :=
  ⟨pattern, tableOf (forwardSkip pattern), tableOf (backwardSkip pattern)⟩

/-- Only the new pattern matters afterwards. -/
def setPattern (_m : Matcher) (pattern : List UInt8) : Matcher := ofPattern pattern

def skipForward (m : Matcher) (b : UInt8) : Nat := m.forward.getD b.toNat 1

def skipBackward (m : Matcher) (b : UInt8) : Nat := m.backward.getD b.toNat 1

/-- How many bytes of a reversed pattern agree with the text read backwards from `place`. -/
def agreement (text : Array UInt8) (place : Nat) : List UInt8 → Nat
  | [] => 0
  | b :: rest => if text[place]? = some b then agreement text (place - 1) rest + 1 else 0

/-- How far to move when only `agreed` bytes fit at the place whose last byte is at `current`: past
the byte that differs if the pattern does not hold it, else by one. -/
def advance (m : Matcher) (text : Array UInt8) (current agreed : Nat) : Nat :=
  if (text[current - agreed]?).map m.skipForward = some m.pattern.length then
    max 1 (m.pattern.length - agreed)
  else 1

theorem one_le_advance (m : Matcher) (text : Array UInt8) (current agreed : Nat) :
    1 ≤ m.advance text current agreed := by
  unfold advance
  split <;> omega

/-- Searches with the pattern's last byte at `current` or later. -/
def scanForward (m : Matcher) (text : Array UInt8) (current : Nat) : Option Nat :=
  if h : current < text.size then
    let skip := m.skipForward text[current]
    if skip = 0 then
      let agreed := agreement text current m.pattern.reverse
      if agreed = m.pattern.length then some (current - (m.pattern.length - 1))
      else scanForward m text (current + m.advance text current agreed)
    else scanForward m text (current + skip)
  else none
termination_by text.size - current
decreasing_by
  · exact Nat.sub_lt_sub_left h (Nat.lt_add_of_pos_right (one_le_advance m text current _))
  · omega

/-- The first place at or after `start` where the pattern stands. -/
def indexIn (m : Matcher) (text : Array UInt8) (start : Nat) : Option Nat :=
  if m.pattern.isEmpty then if start ≤ text.size then some start else none
  else if text.size < start + m.pattern.length then none
  else scanForward m text (start + (m.pattern.length - 1))

/-- Searches with the pattern's first byte at `current` or earlier. -/
def scanBackward (m : Matcher) (text : Array UInt8) (current : Nat) : Option Nat :=
  let skip := ((text[current]?).map m.skipBackward).getD 1
  if skip = 0 ∧ (text.extract current (current + m.pattern.length)).toList = m.pattern then
    some current
  else if max 1 skip ≤ current then scanBackward m text (current - max 1 skip)
  else none
termination_by current
decreasing_by omega

/-- The last place at or before `start` where the pattern stands. -/
def lastIndexIn (m : Matcher) (text : Array UInt8) (start : Nat) : Option Nat :=
  if m.pattern.isEmpty then some (min start text.size)
  else if text.size < m.pattern.length then none
  else scanBackward m text (min start (text.size - m.pattern.length))

end Matcher

end ByteFlow.Search
