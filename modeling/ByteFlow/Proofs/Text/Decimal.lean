import Mathlib.Data.List.Basic
import Mathlib.Data.Nat.Digits.Defs

/-! Decimal digits as characters. -/
namespace ByteFlow.Text

/-- A digit is the character of its value. -/
theorem exists_digitChar {c : Char} (digit : c.isDigit = true) : ∃ d < 10, c = Nat.digitChar d := by
  simp only [Char.isDigit, Bool.and_eq_true, decide_eq_true_eq, ge_iff_le, UInt32.le_iff_toNat_le] at digit
  have bounds : '0'.val.toNat = 48 ∧ '9'.val.toNat = 57 := ⟨rfl, rfl⟩
  have code : ∀ d < 10, (Nat.digitChar d).toNat = 48 + d := by decide
  have small : c.toNat - 48 < 10 := by
    rw [Char.toNat]
    omega
  refine ⟨c.toNat - 48, small, Char.toNat_inj.mp ?_⟩
  rw [code _ small, Char.toNat]
  omega

/-- What holds of the ten digits holds of every character that is one. -/
@[elab_as_elim]
theorem forall_digitChar {p : Char → Prop} {c : Char} (digit : c.isDigit = true) (all : ∀ d < 10, p (Nat.digitChar d)) : p c := by
  obtain ⟨d, small, rfl⟩ := exists_digitChar digit
  exact all d small

theorem isDigit_of_mem_toDigits {n : Nat} {c : Char} (member : c ∈ Nat.toDigits 10 n) : c.isDigit = true :=
  Nat.isDigit_of_mem_toDigits (by decide) (by decide) member

/-- Only zero is written with a zero in front. -/
theorem eq_zero_of_head?_toDigits {n : Nat} (zero : (Nat.toDigits 10 n).head? = some '0') : n = 0 := by
  induction n using Nat.strongRecOn with
  | ind n ih =>
    by_cases short : n < 10
    · rw [Nat.toDigits_of_lt_base short] at zero
      have all : ∀ n < 10, Nat.digitChar n = '0' → n = 0 := by decide
      exact all n short (Option.some.inj zero)
    · -- The highest digit of a longer number is that of the number without its last digit.
      have split := Nat.toDigits_append_toDigits (show 1 < 10 by decide) (show 0 < n / 10 by omega) (Nat.mod_lt n (by decide))
      rw [Nat.div_add_mod] at split
      rw [← split, List.head?_append_of_ne_nil _ (by simp)] at zero
      have := ih (n / 10) (by omega) zero
      omega

end ByteFlow.Text
