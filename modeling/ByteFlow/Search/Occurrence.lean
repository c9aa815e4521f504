/-! Where a byte pattern stands in a text, and the plain searches that follow from it.
An empty pattern stands at every place, the end included. -/
namespace ByteFlow.Search

/-- `pattern` stands in `text` at `place`. -/
def OccursAt (pattern text : List UInt8) (place : Nat) : Prop :=
  place + pattern.length ≤ text.length ∧ (text.drop place).take pattern.length = pattern

instance (pattern text : List UInt8) (place : Nat) : Decidable (OccursAt pattern text place) :=
  inferInstanceAs (Decidable (_ ∧ _))

/-- The least place from `start` on where the pattern stands. -/
def firstFrom? (pattern text : List UInt8) (start : Nat) : Option Nat :=
  (List.range (text.length + 1)).find? fun i => decide (start ≤ i ∧ OccursAt pattern text i)

/-- The greatest place up to `stop` where the pattern stands. -/
def lastUpTo? (pattern text : List UInt8) (stop : Nat) : Option Nat :=
  (List.range (text.length + 1)).reverse.find? fun i => decide (i ≤ stop ∧ OccursAt pattern text i)

/-- How many places the pattern stands at, overlapping ones included. -/
def countPlaces (pattern text : List UInt8) : Nat :=
  (List.range (text.length + 1)).countP fun i => decide (OccursAt pattern text i)

end ByteFlow.Search
