import ByteFlow.Number.Integer
import Mathlib.Data.List.Forall2
import Mathlib.Data.Nat.Digits.Lemmas

/-! Digits and the numbers they write.
A digit of either case stands at its value in a list of 36, and a run of digits is written from the highest place
down. The digits that a number is written with are those of its expansion. -/
namespace ByteFlow.Number.Integer

/-- The digits of all bases in the order of their values, letters small. -/
def smallDigits : List UInt8 := "0123456789abcdefghijklmnopqrstuvwxyz".toList.map fun c => UInt8.ofNat c.toNat

/-- The same with capital letters. -/
def capitalDigits : List UInt8 := "0123456789ABCDEFGHIJKLMNOPQRSTUVWXYZ".toList.map fun c => UInt8.ofNat c.toNat

/-- `b` is a digit of `radix`, in either case, and `d` is its value. -/
structure IsDigit (radix : Nat) (b : UInt8) (d : Nat) : Prop where
  below : d < radix
  listed : smallDigits[d]? = some b ∨ capitalDigits[d]? = some b

theorem digitValue?_eq_some_iff {b : UInt8} {d : Nat} :
    Byte.digitValue? b = some d ↔ smallDigits[d]? = some b ∨ capitalDigits[d]? = some b := by
  constructor
  · have all : ∀ d ∈ Byte.digitValue? b, smallDigits[d]? = some b ∨ capitalDigits[d]? = some b :=
      Byte.forall_of_lt b (by decide +kernel)
    exact all d
  · have all : ∀ d < 36, ∀ list ∈ [smallDigits, capitalDigits], ∀ b ∈ list[d]?, Byte.digitValue? b = some d := by
      decide +kernel
    have lengths : smallDigits.length = 36 ∧ capitalDigits.length = 36 := by decide +kernel
    rintro (small | capital)
    · have inside := (List.getElem?_eq_some_iff.mp small).1
      exact all d (by omega) smallDigits (by simp) b small
    · have inside := (List.getElem?_eq_some_iff.mp capital).1
      exact all d (by omega) capitalDigits (by simp) b capital

theorem digitIn?_eq_some_iff {radix : Nat} {b : UInt8} {d : Nat} : Byte.digitIn? radix b = some d ↔ IsDigit radix b d := by
  rw [Byte.digitIn?, Option.filter_eq_some_iff, digitValue?_eq_some_iff, decide_eq_true_eq]
  exact ⟨fun ⟨listed, below⟩ => ⟨below, listed⟩, fun ⟨below, listed⟩ => ⟨listed, below⟩⟩

/-- The places of a number from the highest down: those of its expansion, or a single zero. -/
def places (base n : Nat) : List Nat := if n = 0 then [0] else (Nat.digits base n).reverse

private theorem places_ne_nil (base n : Nat) : places base n ≠ [] := by
  rw [places]
  split
  · simp
  · next some => exact fun nil => Nat.digits_ne_nil_iff_ne_zero.mpr some (List.reverse_eq_nil_iff.mp nil)

theorem ofDigits_places (base n : Nat) : Nat.ofDigits base (places base n).reverse = n := by
  rw [places]
  split
  · next none => simp [none]
  · rw [List.reverse_reverse, Nat.ofDigits_digits]

theorem lt_of_mem_places {base n d : Nat} (two : 2 ≤ base) (member : d ∈ places base n) : d < base := by
  rw [places] at member
  split at member
  · rw [List.mem_singleton] at member
    omega
  · exact Nat.digits_lt_base two (List.mem_reverse.mp member)

/-- Only zero begins with a zero. -/
theorem eq_zero_of_head?_places {base n : Nat} (zero : (places base n).head? = some 0) : n = 0 := by
  rw [places] at zero
  split at zero
  · assumption
  · next some =>
    rw [List.head?_reverse, List.getLast?_eq_some_getLast (Nat.digits_ne_nil_iff_ne_zero.mpr some)] at zero
    exact absurd (Option.some.inj zero) (Nat.getLast_digit_ne_zero base some)

theorem digits_eq_map {base : Nat} (two : 2 ≤ base) (n : Nat) : digits base n = (places base n).map Byte.digit := by
  induction n using Nat.strongRecOn with
  | ind n ih =>
    rw [digits]
    split
    · next long =>
      have some : 0 < n / base := Nat.div_pos long.2 (by omega)
      have expansion : Nat.digits base n = n % base :: Nat.digits base (n / base) := Nat.digits_def' two (by omega)
      rw [ih _ (Nat.div_lt_self (by omega) two), places, places, if_neg (by omega), if_neg (by omega), expansion,
        List.reverse_cons, List.map_append, List.map_singleton]
    · next short =>
      rw [places]
      split
      · next none => rw [none, List.map_singleton]
      · next some => rw [Nat.digits_of_lt base n some (by omega), List.reverse_singleton, List.map_singleton]

theorem digits_ne_nil {base : Nat} (two : 2 ≤ base) (n : Nat) : digits base n ≠ [] := by
  rw [digits_eq_map two]
  exact fun none => places_ne_nil base n (List.map_eq_nil_iff.mp none)

theorem getElem?_smallDigits {d : Nat} (small : d < 36) : smallDigits[d]? = some (Byte.digit d) := by
  have all : ∀ d < 36, smallDigits[d]? = some (Byte.digit d) := by decide +kernel
  exact all d small

end ByteFlow.Number.Integer
