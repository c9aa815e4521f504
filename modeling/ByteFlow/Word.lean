/-! Limits of the machine words that sizes and positions are kept in.
Sizes themselves are natural numbers; a limit is named where it decides something. -/
namespace ByteFlow.Word

/-- The largest size or position. -/
def maxValue : Nat := 0xffffffffffffffff

/-- Room requests reach up to, and never include, this size. -/
def requestLimit : Nat := 0x7fffffffffffffff

/-- The sum of two sizes, if it is a size. -/
def add? (a b : Nat) : Option Nat := if a + b ≤ maxValue then some (a + b) else none

/-- One more than the largest size. -/
def modulus : Nat := 0x10000000000000000

theorem maxValue_lt_modulus : maxValue < modulus := by decide

/-- The sum of two sizes as a machine word holds it. -/
def addWrapped (a b : Nat) : Nat := (a + b) % modulus

theorem addWrapped_of_lt {a b : Nat} (fits : a + b < modulus) : addWrapped a b = a + b := Nat.mod_eq_of_lt fits

theorem addWrapped_of_wraps {a b : Nat} (first : a < modulus) (second : b < modulus) (wraps : modulus ≤ a + b) :
    addWrapped a b = a + b - modulus := by
  rw [addWrapped, Nat.mod_eq_sub_mod wraps, Nat.mod_eq_of_lt (by omega)]

theorem addWrapped_zero {a : Nat} (inside : a < modulus) : addWrapped a 0 = a := addWrapped_of_lt inside

theorem addWrapped_addWrapped (a b c : Nat) : addWrapped (addWrapped a b) c = addWrapped a (b + c) := by
  rw [addWrapped, addWrapped, addWrapped, Nat.mod_add_mod, Nat.add_assoc]

/-- How far `b` lies behind `a`, going around if need be. -/
def distance (a b : Nat) : Nat := (b + modulus - a) % modulus

theorem distance_addWrapped {a n : Nat} (inside : a < modulus) (small : n < modulus) : distance a (addWrapped a n) = n := by
  rw [distance, addWrapped]
  by_cases wraps : a + n < modulus
  · rw [Nat.mod_eq_of_lt wraps, show a + n + modulus - a = n + modulus by omega, Nat.add_mod_right, Nat.mod_eq_of_lt small]
  · have once : (a + n) % modulus = a + n - modulus := by
      rw [Nat.mod_eq_sub_mod (Nat.not_lt.mp wraps), Nat.mod_eq_of_lt (by omega)]
    rw [once, show a + n - modulus + modulus - a = n by omega, Nat.mod_eq_of_lt small]

/-- The sum of two sizes, or the largest size if that is smaller. -/
def addClamped (a b : Nat) : Nat := min (a + b) maxValue

/-- A position moved by a signed distance, if the result is a position. -/
def shift? (a : Nat) (distance : Int) : Option Nat :=
  if 0 ≤ (a : Int) + distance ∧ (a : Int) + distance ≤ maxValue then
    some ((a : Int) + distance).toNat
  else none

end ByteFlow.Word
