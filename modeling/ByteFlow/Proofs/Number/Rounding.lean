import ByteFlow.Number.Binary
import Mathlib.Algebra.Order.Field.Power
import Mathlib.Data.Rat.Cast.Order
import Mathlib.Tactic.FieldSimp
import Mathlib.Tactic.Linarith
import Mathlib.Tactic.NormNum
import Mathlib.Tactic.Positivity
import Mathlib.Tactic.Ring

/-! Rounding to a binary format.
The numbers that are rounded to a number of a format lie around it, half way to its neighbours on either side.
These ranges meet in their ends only, and an end belongs to the even one of the two: a number has one rounding. -/
namespace ByteFlow.Number.Binary

/-! Quotients -/

private theorem roundDiv_cases (num : Nat) {den : Nat} (some : 0 < den) :
    2 * (roundDiv num den * den) ≤ 2 * num + den ∧ 2 * num ≤ 2 * (roundDiv num den * den) + den ∧
    (2 * (roundDiv num den * den) = 2 * num + den ∨ 2 * num = 2 * (roundDiv num den * den) + den →
      roundDiv num den % 2 = 0) := by
  have split : den * (num / den) + num % den = num := Nat.div_add_mod num den
  have rest := Nat.mod_lt num some
  rw [Nat.mul_comm] at split
  have next : (num / den + 1) * den = num / den * den + den := by ring
  unfold roundDiv
  dsimp only
  split_ifs with less more
  · omega
  · rw [next]
    omega
  · rcases Nat.mod_two_eq_zero_or_one (num / den) with even | odd
    · rw [even, Nat.add_zero]
      omega
    · rw [odd, next]
      omega

/-- The rounded quotient is half from the quotient at most, and even where it is just half from it. -/
theorem roundDiv_spec (num : Nat) {den : Nat} (some : 0 < den) :
    (roundDiv num den : ℚ) - 1 / 2 ≤ num / den ∧ (num : ℚ) / den ≤ roundDiv num den + 1 / 2 ∧
    ((num : ℚ) / den = roundDiv num den - 1 / 2 ∨ (num : ℚ) / den = roundDiv num den + 1 / 2 →
      roundDiv num den % 2 = 0) := by
  have positive : (0 : ℚ) < den := by exact_mod_cast some
  obtain ⟨low, high, tie⟩ := roundDiv_cases num some
  generalize roundDiv num den = n at low high tie ⊢
  refine ⟨?_, ?_, ?_⟩
  · rw [le_div_iff₀ positive]
    have : (2 * (n * den) : ℚ) ≤ 2 * num + den := by exact_mod_cast low
    linarith
  · rw [div_le_iff₀ positive]
    have : (2 * num : ℚ) ≤ 2 * (n * den) + den := by exact_mod_cast high
    linarith
  · intro half
    apply tie
    rcases half with half | half
    · left
      rw [div_eq_iff positive.ne'] at half
      have : (2 * (n * den) : ℚ) = 2 * num + den := by rw [half]; ring
      exact_mod_cast this
    · right
      rw [div_eq_iff positive.ne'] at half
      have : (2 * num : ℚ) = 2 * (n * den) + den := by rw [half]; ring
      exact_mod_cast this

/-! Exponents -/

private theorem zpow_two_pos (e : ℤ) : (0 : ℚ) < 2 ^ e := by positivity

private theorem zpow_two_succ (e : ℤ) : (2 : ℚ) ^ (e + 1) = 2 * 2 ^ e := by
  rw [zpow_add₀ two_ne_zero, zpow_one, mul_comm]

private theorem cast_pow_two (n : Nat) : ((Nat.pow 2 n : ℕ) : ℚ) = 2 ^ n := by
  exact_mod_cast rfl

theorem cast_pow_toNat {e : ℤ} (nonneg : 0 ≤ e) : ((Nat.pow 2 e.toNat : ℕ) : ℚ) = 2 ^ e := by
  obtain ⟨n, rfl⟩ := Int.eq_ofNat_of_zero_le nonneg
  rw [Int.toNat_natCast, zpow_natCast, cast_pow_two]

theorem scaled_spec (num : Nat) {den : Nat} (some : 0 < den) (e : ℤ) :
    0 < (scaled num den e).2 ∧ ((scaled num den e).1 : ℚ) / (scaled num den e).2 = num / den / 2 ^ e := by
  have positive : (0 : ℚ) < den := by exact_mod_cast some
  rw [scaled]
  split
  · next nonneg =>
    refine ⟨Nat.mul_pos some (Nat.pow_pos (by decide)), ?_⟩
    rw [Nat.cast_mul, cast_pow_toNat nonneg, div_div]
  · next negative =>
    refine ⟨some, ?_⟩
    rw [Nat.cast_mul, cast_pow_toNat (by omega), zpow_neg]
    field_simp

private theorem log2_spec {n : Nat} (some : n ≠ 0) : (2 : ℚ) ^ (n.log2 : ℤ) ≤ n ∧ (n : ℚ) < 2 ^ ((n.log2 : ℤ) + 1) := by
  constructor
  · rw [zpow_natCast]
    exact_mod_cast Nat.log2_self_le some
  · have := Nat.lt_log2_self (n := n)
    rw [← Nat.cast_succ, zpow_natCast]
    exact_mod_cast this

private theorem log2_ratio {num den : Nat} (more : 0 < num) (some : 0 < den) :
    (2 : ℚ) ^ ((num.log2 : ℤ) - den.log2) < 2 * (num / den) ∧ (num : ℚ) / den < 2 * 2 ^ ((num.log2 : ℤ) - den.log2) := by
  have positive : (0 : ℚ) < den := by exact_mod_cast some
  obtain ⟨numLow, numHigh⟩ := log2_spec more.ne'
  obtain ⟨denLow, denHigh⟩ := log2_spec some.ne'
  rw [zpow_two_succ] at numHigh denHigh
  have logPositive := zpow_two_pos den.log2
  rw [zpow_sub₀ two_ne_zero]
  constructor
  · rw [div_lt_iff₀ logPositive, mul_assoc, div_mul_eq_mul_div, ← mul_div_assoc, lt_div_iff₀ positive]
    have : (2 : ℚ) ^ (num.log2 : ℤ) * den ≤ num * den := by gcongr
    have : (num : ℚ) * den < num * (2 * 2 ^ (den.log2 : ℤ)) := by gcongr
    linarith
  · rw [div_lt_iff₀ positive, mul_assoc, div_mul_eq_mul_div, ← mul_div_assoc, lt_div_iff₀ logPositive]
    have : (num : ℚ) * 2 ^ (den.log2 : ℤ) ≤ num * den := by gcongr
    have : (num : ℚ) * den < 2 * 2 ^ (num.log2 : ℤ) * den := by gcongr
    linarith

/-- At the place of its last digit, a ratio is a significand of the format's width and something behind the point,
unless it is below the least number of this width. -/
private theorem lastPlace_spec (f : Format) {num den : Nat} (more : 0 < num) (some : 0 < den) :
    f.lowest ≤ lastPlace f num den ∧ (num : ℚ) / den < 2 * 2 ^ f.fraction * 2 ^ lastPlace f num den ∧
    (f.lowest < lastPlace f num den → (2 : ℚ) ^ f.fraction * 2 ^ lastPlace f num den ≤ num / den) := by
  unfold lastPlace
  dsimp only
  generalize guessed : (num.log2 : ℤ) - den.log2 - f.fraction = guess
  obtain ⟨left, ratio⟩ := scaled_spec num some guess
  generalize (scaled num den guess).1 = a at ratio ⊢
  generalize (scaled num den guess).2 = b at left ratio ⊢
  have positive : (0 : ℚ) < b := by exact_mod_cast left
  have power : (2 : ℚ) ^ ((num.log2 : ℤ) - den.log2) = 2 ^ f.fraction * 2 ^ guess := by
    rw [← zpow_natCast, ← zpow_add₀ two_ne_zero]
    congr 1
    omega
  obtain ⟨low, high⟩ := log2_ratio more some
  rw [power] at low high
  -- the guess is right or one too large
  have place : a < b * Nat.pow 2 f.fraction ↔ (num : ℚ) / den < 2 ^ f.fraction * 2 ^ guess := by
    rw [← div_lt_iff₀ (zpow_two_pos guess), ← ratio, div_lt_iff₀ positive, ← cast_pow_two, mul_comm]
    exact_mod_cast Iff.rfl
  have step := zpow_two_succ (guess - 1)
  rw [sub_add_cancel] at step
  have grows {e e' : ℤ} (up : e ≤ e') : (2 : ℚ) * 2 ^ f.fraction * 2 ^ e ≤ 2 * 2 ^ f.fraction * 2 ^ e' := by
    gcongr
    norm_num
  split_ifs with less
  · rw [place] at less
    refine ⟨le_max_left .., ?_, ?_⟩
    · refine lt_of_lt_of_le ?_ (grows (le_max_right ..))
      rw [step] at less
      linarith
    · intro inner
      rw [max_eq_right (by omega)]
      rw [step] at low
      linarith
  · rw [place, not_lt] at less
    refine ⟨le_max_left .., ?_, ?_⟩
    · refine lt_of_lt_of_le ?_ (grows (le_max_right ..))
      linarith
    · intro inner
      rw [max_eq_right (by omega)]
      exact less

/-! The numbers of a format and what is rounded to them -/

/-- A significand and an exponent that a word of the format can hold: the significand has all its bits, unless the
exponent is the lowest one. -/
structure Format.Fits (f : Format) (s : Nat) (e : ℤ) : Prop where
  lowest : f.lowest ≤ e
  below : s < 2 * Nat.pow 2 f.fraction
  full : f.lowest < e → Nat.pow 2 f.fraction ≤ s

/-- The word of a number. The words of one exponent follow those of the exponent before. -/
def Format.word (f : Format) (s : Nat) (e : ℤ) : Nat := (e - f.lowest).toNat * Nat.pow 2 f.fraction + s

/-- How far below a number lies what is rounded to it, in units of its last place. Below a power of two the numbers lie
closer. -/
def Format.below (f : Format) (s : Nat) (e : ℤ) : ℚ := if s = Nat.pow 2 f.fraction ∧ f.lowest < e then 1 / 4 else 1 / 2

/-- What is rounded to a number, the ends of the range only if the number is even. -/
structure Format.Rounds (f : Format) (x : ℚ) (s : Nat) (e : ℤ) : Prop where
  low : (s - f.below s e) * 2 ^ e ≤ x
  high : x ≤ (s + 1 / 2) * 2 ^ e
  tie : x = (s - f.below s e) * 2 ^ e ∨ x = (s + 1 / 2) * 2 ^ e → s % 2 = 0

variable {f : Format} {s s' : Nat} {e e' : ℤ} {x : ℚ}

theorem Format.below_le (f : Format) (s : Nat) (e : ℤ) : f.below s e ≤ 1 / 2 := by
  unfold Format.below
  split <;> norm_num

theorem Format.below_pos (f : Format) (s : Nat) (e : ℤ) : 0 < f.below s e := by
  unfold Format.below
  split <;> norm_num

private theorem unit_pos (f : Format) : 0 < Nat.pow 2 f.fraction := Nat.pow_pos (by decide)

/-- Above the lowest exponent no range reaches further down than that of the power of two. -/
private theorem Format.Fits.least (held : f.Fits s e) (above : f.lowest < e) :
    ((Nat.pow 2 f.fraction : ℕ) - 1 / 4 : ℚ) ≤ s - f.below s e ∧
      ((Nat.pow 2 f.fraction : ℕ) - 1 / 2 : ℚ) ≤ s - 2 * f.below s e := by
  have full := held.full above
  unfold Format.below
  split_ifs with edge
  · rw [edge.1]
    constructor <;> linarith
  · have : Nat.pow 2 f.fraction + 1 ≤ s := by
      have : s ≠ Nat.pow 2 f.fraction := fun same => edge ⟨same, above⟩
      omega
    have : ((Nat.pow 2 f.fraction : ℕ) : ℚ) + 1 ≤ s := by exact_mod_cast this
    constructor <;> linarith

private theorem zpow_two_rise (up : e < e') : (2 : ℚ) * 2 ^ e ≤ 2 ^ e' := by
  rw [← zpow_two_succ]
  gcongr
  · norm_num
  · omega

/-- The ranges of the higher exponent begin where those of the lower one end. -/
private theorem Format.Fits.rises (held : f.Fits s e) (held' : f.Fits s' e') (up : e < e') :
    (s + 1 / 2 : ℚ) * 2 ^ e ≤ (s' - f.below s' e') * 2 ^ e' ∧
    ((s + 1 / 2 : ℚ) * 2 ^ e = (s' - f.below s' e') * 2 ^ e' → s % 2 = 1) := by
  have room := held.below
  obtain ⟨quarter, -⟩ := held'.least (lt_of_le_of_lt held.lowest up)
  have half : (s + 1 / 2 : ℚ) ≤ 2 * ((Nat.pow 2 f.fraction : ℕ) - 1 / 4) := by
    have : (s : ℚ) + 1 ≤ 2 * (Nat.pow 2 f.fraction : ℕ) := by exact_mod_cast room
    linarith
  have scale := zpow_two_rise up
  have positive := zpow_two_pos e
  have positive' := zpow_two_pos e'
  have unit : (1 : ℚ) ≤ (Nat.pow 2 f.fraction : ℕ) := by exact_mod_cast unit_pos f
  have first : (s + 1 / 2 : ℚ) * 2 ^ e ≤ 2 * ((Nat.pow 2 f.fraction : ℕ) - 1 / 4) * 2 ^ e := by gcongr
  have second : 2 * ((Nat.pow 2 f.fraction : ℕ) - 1 / 4 : ℚ) * 2 ^ e ≤ (s' - f.below s' e') * 2 ^ e' :=
    calc 2 * ((Nat.pow 2 f.fraction : ℕ) - 1 / 4 : ℚ) * 2 ^ e
        = ((Nat.pow 2 f.fraction : ℕ) - 1 / 4) * (2 * 2 ^ e) := by ring
      _ ≤ ((Nat.pow 2 f.fraction : ℕ) - 1 / 4) * 2 ^ e' := by
        apply mul_le_mul_of_nonneg_left scale
        linarith
      _ ≤ (s' - f.below s' e') * 2 ^ e' := by gcongr
  refine ⟨first.trans second, ?_⟩
  intro same
  have ends : (s + 1 / 2 : ℚ) = 2 * ((Nat.pow 2 f.fraction : ℕ) - 1 / 4) :=
    mul_right_cancel₀ positive.ne' (le_antisymm first (same ▸ second))
  have : (s : ℚ) + 1 = 2 * (Nat.pow 2 f.fraction : ℕ) := by linarith
  have : s + 1 = 2 * Nat.pow 2 f.fraction := by exact_mod_cast this
  omega

private theorem Format.Rounds.exponent_le (held : f.Fits s e) (held' : f.Fits s' e') (rounds : f.Rounds x s e)
    (rounds' : f.Rounds x s' e') : e' ≤ e := by
  by_contra up
  obtain ⟨apart, odd⟩ := held.rises held' (by omega)
  have low := rounds'.low
  have high := rounds.high
  have even := rounds.tie (.inr (by linarith))
  have := odd (by linarith)
  omega

private theorem Format.Rounds.significand_le (held : f.Fits s e) (rounds : f.Rounds x s e) (rounds' : f.Rounds x s' e) :
    s' ≤ s := by
  by_contra up
  have inner : ¬(s' = Nat.pow 2 f.fraction ∧ f.lowest < e) := by
    rintro ⟨rfl, above⟩
    have := held.full above
    omega
  have low := rounds'.low
  have high := rounds.high
  have tie := rounds'.tie
  rw [Format.below, if_neg inner] at low tie
  have positive := zpow_two_pos e
  have next : (s : ℚ) + 1 ≤ s' := by exact_mod_cast Nat.lt_of_not_le up
  have apart : (s + 1 / 2 : ℚ) * 2 ^ e ≤ (s' - 1 / 2) * 2 ^ e := by
    apply mul_le_mul_of_nonneg_right _ positive.le
    linarith
  have same : (s + 1 / 2 : ℚ) = s' - 1 / 2 := mul_right_cancel₀ positive.ne' (by linarith)
  have even := rounds.tie (.inr (by linarith))
  have even' := tie (.inl (by linarith))
  have : (s' : ℚ) = s + 1 := by linarith
  have : s' = s + 1 := by exact_mod_cast this
  omega

/-- Nothing is rounded to two numbers. -/
theorem Format.Rounds.unique (held : f.Fits s e) (held' : f.Fits s' e') (rounds : f.Rounds x s e)
    (rounds' : f.Rounds x s' e') :
    s = s' ∧ e = e' := by
  obtain rfl : e = e' := le_antisymm (rounds'.exponent_le held' held rounds) (rounds.exponent_le held held' rounds')
  exact ⟨le_antisymm (rounds'.significand_le held' rounds) (rounds.significand_le held rounds'), rfl⟩

/-- The neighbours of a number are at least twice as far away as the ends of its range. -/
private theorem Format.Fits.apart (held : f.Fits s e) (held' : f.Fits s' e') :
    (s' : ℚ) * 2 ^ e' ≤ (s - 2 * f.below s e) * 2 ^ e ∨ (s' : ℚ) * 2 ^ e' = s * 2 ^ e ∨
      (s + 1 : ℚ) * 2 ^ e ≤ s' * 2 ^ e' := by
  have positive := zpow_two_pos e
  have positive' := zpow_two_pos e'
  rcases lt_trichotomy e' e with lower | rfl | higher
  · left
    obtain ⟨-, half⟩ := held.least (lt_of_le_of_lt held'.lowest lower)
    have scale := zpow_two_rise lower
    have room : (s' : ℚ) + 1 ≤ 2 * (Nat.pow 2 f.fraction : ℕ) := by exact_mod_cast held'.below
    have unit : (1 : ℚ) ≤ (Nat.pow 2 f.fraction : ℕ) := by exact_mod_cast unit_pos f
    calc (s' : ℚ) * 2 ^ e' ≤ 2 * ((Nat.pow 2 f.fraction : ℕ) - 1 / 2) * 2 ^ e' := by
          apply mul_le_mul_of_nonneg_right _ positive'.le
          linarith
      _ = ((Nat.pow 2 f.fraction : ℕ) - 1 / 2) * (2 * 2 ^ e') := by ring
      _ ≤ ((Nat.pow 2 f.fraction : ℕ) - 1 / 2) * 2 ^ e := by
        apply mul_le_mul_of_nonneg_left scale
        linarith
      _ ≤ (s - 2 * f.below s e) * 2 ^ e := by gcongr
  · rcases lt_trichotomy s' s with less | rfl | more
    · left
      have next : (s' : ℚ) + 1 ≤ s := by exact_mod_cast less
      have := f.below_le s e'
      apply mul_le_mul_of_nonneg_right _ positive.le
      linarith
    · exact .inr (.inl rfl)
    · right; right
      have next : (s : ℚ) + 1 ≤ s' := by exact_mod_cast more
      gcongr
  · right; right
    have full : ((Nat.pow 2 f.fraction : ℕ) : ℚ) ≤ s' := by
      exact_mod_cast held'.full (lt_of_le_of_lt held.lowest higher)
    have room : (s : ℚ) + 1 ≤ 2 * (Nat.pow 2 f.fraction : ℕ) := by exact_mod_cast held.below
    have scale := zpow_two_rise higher
    calc (s + 1 : ℚ) * 2 ^ e ≤ 2 * (Nat.pow 2 f.fraction : ℕ) * 2 ^ e := by gcongr
      _ = (Nat.pow 2 f.fraction : ℕ) * (2 * 2 ^ e) := by ring
      _ ≤ s' * 2 ^ e' := by gcongr

/-- What is rounded to a number is no nearer to another one. -/
theorem Format.Rounds.nearest (held : f.Fits s e) (held' : f.Fits s' e') (rounds : f.Rounds x s e) :
    |x - s * 2 ^ e| ≤ |x - s' * 2 ^ e'| := by
  have low := rounds.low
  have high := rounds.high
  have positive := zpow_two_pos e
  have spread : 0 ≤ f.below s e * 2 ^ e := mul_nonneg (f.below_pos s e).le positive.le
  have half : f.below s e * 2 ^ e ≤ 1 / 2 * 2 ^ e := mul_le_mul_of_nonneg_right (f.below_le s e) positive.le
  rw [sub_mul] at low
  rw [add_mul] at high
  rcases held.apart held' with under | same | past
  · rw [sub_mul, mul_assoc] at under
    have : 0 ≤ x - s' * 2 ^ e' := by linarith
    rw [abs_of_nonneg this, abs_le]
    constructor <;> linarith
  · rw [same]
  · rw [add_mul, one_mul] at past
    have : x - s' * 2 ^ e' ≤ 0 := by linarith
    rw [abs_of_nonpos this, abs_le]
    constructor <;> linarith

private theorem Format.Rounds.of_mul {y : ℚ} (low : s - f.below s e ≤ y) (high : y ≤ s + 1 / 2)
    (tie : y = s - f.below s e ∨ y = s + 1 / 2 → s % 2 = 0) : f.Rounds (y * 2 ^ e) s e := by
  have positive := zpow_two_pos e
  refine ⟨mul_le_mul_of_nonneg_right low positive.le, mul_le_mul_of_nonneg_right high positive.le, ?_⟩
  intro ends
  apply tie
  exact ends.imp (mul_right_cancel₀ positive.ne') (mul_right_cancel₀ positive.ne')

theorem Format.rounds_self (f : Format) (s : Nat) (e : ℤ) : f.Rounds (s * 2 ^ e) s e := by
  have := f.below_pos s e
  apply Format.Rounds.of_mul
  · linarith
  · linarith
  · rintro (half | half) <;> linarith

private theorem unit_even (wide : 0 < f.fraction) : Nat.pow 2 f.fraction % 2 = 0 := by
  obtain ⟨k, split⟩ := Nat.exists_eq_succ_of_ne_zero wide.ne'
  rw [split]
  exact Nat.mul_mod_left _ _

/-- A significand before it is cut to whole numbers, and the nearest whole number. This is the significand, or it fills the
width and one bit more; then the number is the next power of two. -/
private theorem exists_rounds_of_nearest (wide : 0 < f.fraction) {n : Nat} {y : ℚ} (lowest : f.lowest ≤ e)
    (high : y < 2 * (Nat.pow 2 f.fraction : ℕ)) (low : f.lowest < e → ((Nat.pow 2 f.fraction : ℕ) : ℚ) ≤ y)
    (nearLow : (n : ℚ) - 1 / 2 ≤ y) (nearHigh : y ≤ n + 1 / 2) (tie : y = n - 1 / 2 ∨ y = n + 1 / 2 → n % 2 = 0) :
    ∃ s' e', f.Fits s' e' ∧ f.Rounds (y * 2 ^ e) s' e' ∧ f.word s' e' = f.word n e := by
  have atMost : n ≤ 2 * Nat.pow 2 f.fraction := by
    have : (n : ℚ) < 2 * (Nat.pow 2 f.fraction : ℕ) + 1 := by linarith
    have : n < 2 * Nat.pow 2 f.fraction + 1 := by exact_mod_cast this
    omega
  have full : f.lowest < e → Nat.pow 2 f.fraction ≤ n := by
    intro above
    have := low above
    have : ((Nat.pow 2 f.fraction : ℕ) : ℚ) < n + 1 := by linarith
    have : Nat.pow 2 f.fraction < n + 1 := by exact_mod_cast this
    omega
  rcases Nat.lt_or_eq_of_le atMost with inner | rfl
  · refine ⟨n, e, ⟨lowest, inner, full⟩, ?_, rfl⟩
    by_cases edge : n = Nat.pow 2 f.fraction ∧ f.lowest < e
    · have below : f.below n e = 1 / 4 := if_pos edge
      have := low edge.2
      rw [← edge.1] at this
      apply Format.Rounds.of_mul
      · linarith
      · exact nearHigh
      · rintro (half | half)
        · linarith
        · exact tie (.inr half)
    · have below : f.below n e = 1 / 2 := if_neg edge
      apply Format.Rounds.of_mul
      · rw [below]
        exact nearLow
      · exact nearHigh
      · rw [below]
        exact tie
  · refine ⟨Nat.pow 2 f.fraction, e + 1, ⟨by omega, by have := unit_pos f; omega, fun _ => le_rfl⟩, ?_, ?_⟩
    · have below : f.below (Nat.pow 2 f.fraction) (e + 1) = 1 / 4 := if_pos ⟨rfl, by omega⟩
      have halved : y * 2 ^ e = y / 2 * 2 ^ (e + 1) := by
        rw [zpow_two_succ]
        ring
      rw [halved]
      push_cast at nearLow
      apply Format.Rounds.of_mul
      · linarith
      · linarith
      · exact fun _ => unit_even wide
    · have next : (e + 1 - f.lowest).toNat = (e - f.lowest).toNat + 1 := by omega
      rw [Format.word, Format.word, next]
      ring

/-- Every positive ratio is rounded to a number, whose word is the result unless it is past that of infinity. -/
private theorem exists_rounds (wide : 0 < f.fraction) {num den : Nat} (more : 0 < num) (some : 0 < den) :
    ∃ s e, f.Fits s e ∧ f.Rounds (num / den) s e ∧ ofRatio f num den = min f.infinity (f.word s e) := by
  obtain ⟨lowest, high, low⟩ := lastPlace_spec f more some
  obtain ⟨left, ratio⟩ := scaled_spec num some (lastPlace f num den)
  obtain ⟨nearLow, nearHigh, tie⟩ := roundDiv_spec (scaled num den (lastPlace f num den)).1 left
  have result : ofRatio f num den = min f.infinity (f.word
      (roundDiv (scaled num den (lastPlace f num den)).1 (scaled num den (lastPlace f num den)).2) (lastPlace f num den)) := by
    rw [ofRatio, if_neg more.ne']
    rfl
  rw [ratio] at nearLow nearHigh tie
  have positive := zpow_two_pos (lastPlace f num den)
  rw [← cast_pow_two, ← div_lt_iff₀ positive] at high
  rw [← cast_pow_two, ← le_div_iff₀ positive] at low
  obtain ⟨s, e, held, rounds, word⟩ := exists_rounds_of_nearest wide lowest high low nearLow nearHigh tie
  rw [div_mul_cancel₀ _ positive.ne'] at rounds
  exact ⟨s, e, held, rounds, by rw [result, word]⟩

/-- Every number that is not negative is rounded to one of the format. -/
theorem exists_rounds_of_nonneg (wide : 0 < f.fraction) (nonneg : 0 ≤ x) : ∃ s e, f.Fits s e ∧ f.Rounds x s e := by
  rcases eq_or_lt_of_le nonneg with rfl | more
  · have unit := unit_pos f
    refine ⟨0, f.lowest, ⟨le_rfl, by omega, fun above => absurd above (lt_irrefl _)⟩, ?_⟩
    have := f.rounds_self 0 f.lowest
    rwa [Nat.cast_zero, zero_mul] at this
  · obtain ⟨n, split⟩ := Int.eq_ofNat_of_zero_le (Rat.num_pos.mpr more).le
    have value : (n / x.den : ℚ) = x := by
      conv_rhs => rw [← Rat.num_div_den x, split]
      rfl
    have positive : 0 < n := by
      have := Rat.num_pos.mpr more
      omega
    obtain ⟨s, e, held, rounds, -⟩ := exists_rounds wide positive x.den_pos
    exact ⟨s, e, held, value ▸ rounds⟩

/-- What is rounded to a number has the word of this number, or is infinite. -/
theorem ofRatio_eq (wide : 0 < f.fraction) {num den : Nat} (more : 0 < num) (some : 0 < den) (held : f.Fits s e)
    (rounds : f.Rounds (num / den) s e) : ofRatio f num den = min f.infinity (f.word s e) := by
  obtain ⟨s', e', held', rounds', result⟩ := exists_rounds wide more some
  obtain ⟨rfl, rfl⟩ := rounds.unique held held' rounds'
  exact result

/-- The result is the nearest number of the format, unless it is infinite. -/
theorem ofRatio_nearest (wide : 0 < f.fraction) {num den : Nat} (more : 0 < num) (some : 0 < den) :
    ∃ s e, f.Fits s e ∧ ofRatio f num den = min f.infinity (f.word s e) ∧
      ∀ s' e', f.Fits s' e' → |(num / den : ℚ) - s * 2 ^ e| ≤ |(num / den : ℚ) - s' * 2 ^ e'| := by
  obtain ⟨s, e, held, rounds, result⟩ := exists_rounds wide more some
  exact ⟨s, e, held, result, fun s' e' held' => rounds.nearest held held'⟩

/-! Words -/

private theorem split_word (f : Format) {word : Nat} (finite : word < f.infinity) :
    word / Nat.pow 2 f.fraction < Nat.pow 2 f.exponent - 1 ∧ word < f.sign := by
  have below : word / Nat.pow 2 f.fraction < Nat.pow 2 f.exponent - 1 := Nat.div_lt_of_lt_mul (by rwa [Nat.mul_comm])
  refine ⟨below, lt_of_lt_of_le finite ?_⟩
  rw [Format.infinity, Format.sign, Nat.pow_eq, Nat.pow_eq, Nat.pow_eq, Nat.pow_add, Nat.mul_comm]
  exact Nat.mul_le_mul_left _ (Nat.sub_le _ _)

private theorem sign_eq (f : Format) : f.sign = Nat.pow 2 f.fraction * Nat.pow 2 f.exponent := Nat.pow_add 2 _ _

/-- A word with a sign. -/
def Format.signed (f : Format) (negative : Bool) (word : Nat) : Nat := if negative then f.sign + word else word

/-- The sign is read off, and changes no other field. -/
private theorem fields_signed {word : Nat} (unsigned : word < f.sign) (negative : Bool) :
    decide (f.signed negative word / f.sign % 2 = 1) = negative ∧
    f.signed negative word / Nat.pow 2 f.fraction % Nat.pow 2 f.exponent =
      word / Nat.pow 2 f.fraction % Nat.pow 2 f.exponent ∧
    f.signed negative word % Nat.pow 2 f.fraction = word % Nat.pow 2 f.fraction := by
  have positive : 0 < f.sign := by omega
  unfold Format.signed
  cases negative with
  | false =>
    rw [if_neg Bool.false_ne_true, Nat.div_eq_of_lt unsigned]
    exact ⟨rfl, rfl, rfl⟩
  | true =>
    rw [if_pos rfl, Nat.add_div_left _ positive, Nat.div_eq_of_lt unsigned]
    refine ⟨rfl, ?_, ?_⟩
    · rw [sign_eq, Nat.mul_add_div (unit_pos f), Nat.add_mod_left]
    · rw [sign_eq, Nat.mul_add_mod]

/-- A word below infinity is that of a number of the format. -/
theorem exists_decode {word : Nat} (finite : word < f.infinity) :
    ∃ s e, f.Fits s e ∧ f.word s e = word ∧ ∀ negative, decode f (f.signed negative word) = .finite negative s e := by
  obtain ⟨below, unsigned⟩ := split_word f finite
  have split : Nat.pow 2 f.fraction * (word / Nat.pow 2 f.fraction) + word % Nat.pow 2 f.fraction = word :=
    Nat.div_add_mod _ _
  have rest := Nat.mod_lt word (unit_pos f)
  have field : word / Nat.pow 2 f.fraction % Nat.pow 2 f.exponent = word / Nat.pow 2 f.fraction :=
    Nat.mod_eq_of_lt (by omega)
  have fields := fields_signed unsigned
  simp only [decode, fields, field, below.ne, if_false]
  generalize word / Nat.pow 2 f.fraction = biased at split below
  generalize word % Nat.pow 2 f.fraction = fraction at split rest
  rcases Nat.eq_zero_or_pos biased with rfl | normal
  · refine ⟨fraction, f.lowest, ⟨le_rfl, by omega, fun above => absurd above (lt_irrefl _)⟩, ?_, fun _ => rfl⟩
    rw [Format.word, sub_self, Int.toNat_zero, Nat.zero_mul]
    omega
  · refine ⟨_, _, ⟨?_, ?_, fun _ => Nat.le_add_left _ _⟩, ?_, fun _ => if_neg normal.ne'⟩
    · omega
    · omega
    · have back : (f.lowest + (biased - 1) - f.lowest).toNat = biased - 1 := by omega
      obtain ⟨k, rfl⟩ := Nat.exists_eq_succ_of_ne_zero normal.ne'
      rw [Format.word, back, ← split, Nat.succ_sub_one, Nat.mul_succ]
      ring

/-- The words from infinity on are that of infinity and those of no number. -/
theorem decode_of_le {word : Nat} (past : f.infinity ≤ word) (unsigned : word < f.sign) (negative : Bool) :
    decode f (f.signed negative word) = if word = f.infinity then .infinite negative else .nan := by
  have split : Nat.pow 2 f.fraction * (word / Nat.pow 2 f.fraction) + word % Nat.pow 2 f.fraction = word :=
    Nat.div_add_mod _ _
  have least : Nat.pow 2 f.exponent - 1 ≤ word / Nat.pow 2 f.fraction := (Nat.le_div_iff_mul_le (unit_pos f)).mpr past
  have most : word / Nat.pow 2 f.fraction < Nat.pow 2 f.exponent := Nat.div_lt_of_lt_mul (sign_eq f ▸ unsigned)
  have full : word / Nat.pow 2 f.fraction = Nat.pow 2 f.exponent - 1 := by omega
  have field : word / Nat.pow 2 f.fraction % Nat.pow 2 f.exponent = Nat.pow 2 f.exponent - 1 := by
    rw [Nat.mod_eq_of_lt most, full]
  have exact : word % Nat.pow 2 f.fraction = 0 ↔ word = f.infinity := by
    rw [full, Nat.mul_comm] at split
    unfold Format.infinity
    omega
  simp only [decode, fields_signed unsigned, field, exact, if_true]

/-- The value of a word that is finite and not zero is rounded to this word. -/
theorem ofRatio_decode (wide : 0 < f.fraction) {word num den : Nat} (finite : word < f.infinity)
    (decoded : decode f word = .finite false s e)
    (more : 0 < num) (some : 0 < den) (value : (num / den : ℚ) = s * 2 ^ e) : ofRatio f num den = word := by
  obtain ⟨s', e', held, rfl, same⟩ := exists_decode finite
  obtain ⟨-, rfl, rfl⟩ := Datum.finite.inj (decoded.symm.trans (same false))
  rw [ofRatio_eq wide more some held (value ▸ f.rounds_self s e), min_eq_right finite.le]

end ByteFlow.Number.Binary
