import ByteFlow.Number.Decimal
import ByteFlow.Proofs.Number.Rounding

/-! The fewest decimal digits of a number.
A number of a format is written with the digits of one that is rounded to it. Those are looked for on grids of one
decimal place after another; the first grid with a hit has the fewest digits, and on it the nearest hit is one of the
two around the number. -/
namespace ByteFlow.Number.Decimal
open Binary

/-- The number that digits write. -/
def Scaled.value (d : Scaled) : ℚ := d.digits * 10 ^ d.exponent

theorem zpow_ten_pos (e : ℤ) : (0 : ℚ) < 10 ^ e := by positivity

private theorem cast_pow_ten {e : ℤ} (nonneg : 0 ≤ e) : ((Nat.pow 10 e.toNat : ℕ) : ℚ) = 10 ^ e := by
  obtain ⟨n, rfl⟩ := Int.eq_ofNat_of_zero_le nonneg
  rw [Int.toNat_natCast, zpow_natCast]
  exact_mod_cast rfl

theorem shifted_spec (num : Nat) {den : Nat} (some : 0 < den) (e : ℤ) :
    0 < (shifted num den e).2 ∧ ((shifted num den e).1 : ℚ) / (shifted num den e).2 = num / den * 10 ^ e := by
  have positive : (0 : ℚ) < den := by exact_mod_cast some
  rw [shifted]
  split
  · next nonneg =>
    refine ⟨some, ?_⟩
    rw [Nat.cast_mul, cast_pow_ten nonneg, div_mul_eq_mul_div]
  · next negative =>
    refine ⟨Nat.mul_pos some (Nat.pow_pos (by decide)), ?_⟩
    rw [Nat.cast_mul, cast_pow_ten (by omega), zpow_neg]
    field_simp

/-! Spans -/

/-- A span with its number between its ends. -/
structure Span.Sound (s : Span) : Prop where
  divides : 0 < s.denominator
  under : s.low < s.value
  past : s.value < s.high

/-- The number of a span. -/
def Span.number (s : Span) : ℚ := s.value / s.denominator

/-- What lies in a span. -/
structure Span.Contains (s : Span) (x : ℚ) : Prop where
  low : (s.low / s.denominator : ℚ) ≤ x
  high : x ≤ (s.high / s.denominator : ℚ)
  ends : x = s.low / s.denominator ∨ x = s.high / s.denominator → s.closed = true

variable {s : Span} {x y z : ℚ} {c : Nat} {e : ℤ}

private theorem Span.Contains.between (low : s.Contains x) (high : s.Contains y) (after : x ≤ z) (before : z ≤ y) :
    s.Contains z := by
  refine ⟨low.low.trans after, before.trans high.high, ?_⟩
  rintro (bottom | top)
  · exact low.ends (.inl (le_antisymm (bottom ▸ after) low.low))
  · exact high.ends (.inr (le_antisymm high.high (top ▸ before)))

private theorem Span.Sound.contains (sound : s.Sound) : s.Contains s.number := by
  have positive : (0 : ℚ) < s.denominator := by exact_mod_cast sound.divides
  have low : (s.low / s.denominator : ℚ) < s.number := div_lt_div_of_pos_right (by exact_mod_cast sound.under) positive
  have high : s.number < (s.high / s.denominator : ℚ) := div_lt_div_of_pos_right (by exact_mod_cast sound.past) positive
  refine ⟨low.le, high.le, ?_⟩
  rintro (bottom | top)
  · exact absurd bottom low.ne'
  · exact absurd top high.ne

private theorem Span.contains_iff (s : Span) (x : ℚ) : s.Contains x ↔
    if s.closed = true then (s.low / s.denominator : ℚ) ≤ x ∧ x ≤ (s.high / s.denominator : ℚ)
    else (s.low / s.denominator : ℚ) < x ∧ x < (s.high / s.denominator : ℚ) := by
  split_ifs with closed
  · exact ⟨fun inside => ⟨inside.low, inside.high⟩, fun ⟨low, high⟩ => ⟨low, high, fun _ => closed⟩⟩
  · constructor
    · rintro ⟨low, high, ends⟩
      exact ⟨lt_of_le_of_ne low fun bottom => closed (ends (.inl bottom.symm)),
        lt_of_le_of_ne high fun top => closed (ends (.inr top))⟩
    · rintro ⟨low, high⟩
      exact ⟨low.le, high.le, fun ends => absurd ends (not_or_intro low.ne' high.ne)⟩

private theorem Span.Sound.holds_iff (sound : s.Sound) (c : Nat) (e : ℤ) :
    s.holds c e = true ↔ s.Contains (c * 10 ^ e) := by
  have positive : (0 : ℚ) < s.denominator := by exact_mod_cast sound.divides
  obtain ⟨some, ratio⟩ := shifted_spec c Nat.one_pos e
  rw [Nat.cast_one, div_one] at ratio
  have positive' : (0 : ℚ) < (shifted c 1 e).2 := by exact_mod_cast some
  rw [← ratio, contains_iff, Span.holds]
  dsimp only
  split_ifs
  · rw [decide_eq_true_eq, div_le_div_iff₀ positive positive', div_le_div_iff₀ positive' positive]
    exact_mod_cast Iff.rfl
  · rw [decide_eq_true_eq, div_lt_div_iff₀ positive positive', div_lt_div_iff₀ positive' positive]
    exact_mod_cast Iff.rfl

/-! Grids -/

/-- The nearest of the digits on their grid that lie in the span, of two the upper ones. -/
structure Span.Nearest (s : Span) (d : Scaled) : Prop where
  contains : s.Contains d.value
  nearest : ∀ c : ℕ, s.Contains (c * 10 ^ d.exponent) → |d.value - s.number| ≤ |c * 10 ^ d.exponent - s.number|
  upper : ∀ c : ℕ, s.Contains (c * 10 ^ d.exponent) → |d.value - s.number| = |c * 10 ^ d.exponent - s.number| →
    c ≤ d.digits

/-- The number between its neighbours on a grid. -/
private theorem Span.Sound.exists_rest (sound : s.Sound) (e : ℤ) {ratio : Nat × Nat}
    (same : ratio = shifted s.value s.denominator (-e)) :
    ∃ rest : ℚ, s.number = ((ratio.1 / ratio.2 : ℕ) + rest) * 10 ^ e ∧ 0 ≤ rest ∧ rest < 1 ∧
      (ratio.2 ≤ 2 * (ratio.1 % ratio.2) ↔ 1 / 2 ≤ rest) := by
  subst same
  obtain ⟨some, ratio⟩ := shifted_spec s.value sound.divides (-e)
  generalize (shifted s.value s.denominator (-e)).1 = num at ratio ⊢
  generalize (shifted s.value s.denominator (-e)).2 = den at some ratio ⊢
  have positive : (0 : ℚ) < den := by exact_mod_cast some
  have power := zpow_ten_pos e
  have number : s.number = num / den * 10 ^ e := by
    rw [ratio, zpow_neg, mul_assoc, inv_mul_cancel₀ power.ne', mul_one, Span.number]
  have split : (den * (num / den : ℕ) + (num % den : ℕ) : ℚ) = num := by exact_mod_cast Nat.div_add_mod num den
  have less : ((num % den : ℕ) : ℚ) < den := by exact_mod_cast Nat.mod_lt num some
  refine ⟨(num % den : ℕ) / den, ?_, by positivity, (div_lt_one positive).mpr less, ?_⟩
  · rw [number, ← split]
    field_simp
  · rw [le_div_iff₀ positive, ← Nat.cast_le (α := ℚ)]
    push_cast
    constructor <;> intro half <;> linarith

private theorem Span.distance_eq (number : s.number = x * 10 ^ e) (c : Nat) :
    |c * 10 ^ e - s.number| = |c - x| * 10 ^ e := by
  rw [number, ← sub_mul, abs_mul, abs_of_pos (zpow_ten_pos e)]

/-- What lies in the span and on the grid is at the lower neighbour or below, or at the upper one or above; then the
neighbour lies in the span too. -/
private theorem Span.Sound.side (sound : s.Sound) {q : Nat} {rest : ℚ} (number : s.number = (q + rest) * 10 ^ e)
    (some : 0 ≤ rest)
    (less : rest < 1) (inside : s.Contains (c * 10 ^ e)) :
    c ≤ q ∧ s.Contains (q * 10 ^ e) ∨ q + 1 ≤ c ∧ s.Contains ((q + 1 : ℕ) * 10 ^ e) := by
  have power := zpow_ten_pos e
  rcases Nat.lt_or_ge q c with past | under
  · right
    refine ⟨past, sound.contains.between inside ?_ ?_⟩
    · rw [number]
      push_cast
      gcongr
    · have : ((q + 1 : ℕ) : ℚ) ≤ c := by exact_mod_cast past
      gcongr
  · left
    refine ⟨under, inside.between sound.contains ?_ ?_⟩
    · have : (c : ℚ) ≤ q := by exact_mod_cast under
      gcongr
    · rw [number]
      gcongr
      linarith

private theorem Span.Sound.nearest_upper (sound : s.Sound) {q : Nat} {rest : ℚ}
    (number : s.number = (q + rest) * 10 ^ e) (some : 0 ≤ rest)
    (less : rest < 1) (inside : s.Contains ((q + 1 : ℕ) * 10 ^ e)) (close : s.Contains (q * 10 ^ e) → 1 / 2 ≤ rest) :
    s.Nearest ⟨q + 1, e⟩ := by
  have power := zpow_ten_pos e
  have distance : |((q + 1 : ℕ) : ℚ) - (q + rest)| = 1 - rest := by
    push_cast
    rw [abs_of_nonneg] <;> linarith
  refine ⟨inside, fun c other => ?_, fun c other equal => ?_⟩
  · rw [Scaled.value, distance_eq number, distance_eq number, distance]
    apply mul_le_mul_of_nonneg_right _ power.le
    rcases sound.side number some less other with ⟨under, lower⟩ | ⟨past, -⟩
    · have half := close lower
      have : (c : ℚ) ≤ q := by exact_mod_cast under
      rw [abs_of_nonpos] <;> linarith
    · have : (q + 1 : ℚ) ≤ c := by exact_mod_cast past
      rw [abs_of_nonneg] <;> linarith
  · rw [Scaled.value, distance_eq number, distance_eq number, distance] at equal
    by_contra past
    have : (q + 2 : ℚ) ≤ c := by exact_mod_cast Nat.lt_of_not_le past
    have := mul_right_cancel₀ power.ne' equal
    rw [abs_of_nonneg] at this <;> linarith

private theorem Span.Sound.nearest_lower (sound : s.Sound) {q : Nat} {rest : ℚ}
    (number : s.number = (q + rest) * 10 ^ e) (some : 0 ≤ rest)
    (less : rest < 1) (inside : s.Contains (q * 10 ^ e)) (close : s.Contains ((q + 1 : ℕ) * 10 ^ e) → rest < 1 / 2) :
    s.Nearest ⟨q, e⟩ := by
  have power := zpow_ten_pos e
  have distance : |(q : ℚ) - (q + rest)| = rest := by
    rw [abs_of_nonpos] <;> linarith
  refine ⟨inside, fun c other => ?_, fun c other equal => ?_⟩
  · rw [Scaled.value, distance_eq number, distance_eq number, distance]
    apply mul_le_mul_of_nonneg_right _ power.le
    rcases sound.side number some less other with ⟨under, -⟩ | ⟨past, upper⟩
    · have : (c : ℚ) ≤ q := by exact_mod_cast under
      rw [abs_of_nonpos] <;> linarith
    · have half := close upper
      have : (q + 1 : ℚ) ≤ c := by exact_mod_cast past
      rw [abs_of_nonneg] <;> linarith
  · rw [Scaled.value, distance_eq number, distance_eq number, distance] at equal
    have equal := mul_right_cancel₀ power.ne' equal
    rcases sound.side number some less other with ⟨under, -⟩ | ⟨past, upper⟩
    · exact under
    · have half := close upper
      have : (q + 1 : ℚ) ≤ c := by exact_mod_cast past
      rw [abs_of_nonneg] at equal <;> linarith

/-- A grid is hit in the nearest place, unless it has nothing in the span. -/
private theorem Span.Sound.onGrid?_spec (sound : s.Sound) (e : ℤ) :
    (∀ d, s.onGrid? e = some d → d.exponent = e ∧ s.Nearest d) ∧
      (s.onGrid? e = none → ∀ c : ℕ, ¬ s.Contains (c * 10 ^ e)) := by
  obtain ⟨rest, number, nonneg, less, half⟩ := sound.exists_rest e rfl
  unfold Span.onGrid?
  dsimp only
  generalize (shifted s.value s.denominator (-e)).1 / (shifted s.value s.denominator (-e)).2 = q at number ⊢
  split_ifs with up down
  · rw [Bool.and_eq_true, Bool.or_eq_true, Bool.not_eq_true', decide_eq_true_eq, half, sound.holds_iff,
      ← Bool.not_eq_true,
      sound.holds_iff] at up
    refine ⟨fun d same => ?_, fun none => (nomatch none)⟩
    obtain rfl := Option.some.inj same
    exact ⟨rfl, sound.nearest_upper number nonneg less up.1 fun lower => up.2.resolve_left (not_not_intro lower)⟩
  · rw [sound.holds_iff] at down
    rw [Bool.and_eq_true, Bool.or_eq_true, Bool.not_eq_true', decide_eq_true_eq, half, sound.holds_iff] at up
    refine ⟨fun d same => ?_, fun none => (nomatch none)⟩
    obtain rfl := Option.some.inj same
    exact ⟨rfl, sound.nearest_lower number nonneg less down fun upper => lt_of_not_ge fun far => up ⟨upper, .inr far⟩⟩
  · refine ⟨fun d same => (nomatch same), fun _ c inside => ?_⟩
    rw [sound.holds_iff] at down
    rw [Bool.and_eq_true, Bool.or_eq_true, Bool.not_eq_true', ← Bool.not_eq_true, sound.holds_iff,
      sound.holds_iff] at up
    rcases sound.side number nonneg less inside with ⟨-, lower⟩ | ⟨-, upper⟩
    · exact down lower
    · exact up ⟨upper, .inl down⟩

private theorem Span.Sound.exists_contains (sound : s.Sound)
    (narrow : (10 : ℚ) ^ e < s.high / s.denominator - s.low / s.denominator) :
    ∃ c : ℕ, s.Contains (c * 10 ^ e) := by
  obtain ⟨rest, number, nonneg, less, -⟩ := sound.exists_rest e rfl
  generalize (shifted s.value s.denominator (-e)).1 / (shifted s.value s.denominator (-e)).2 = q at number
  have power := zpow_ten_pos e
  have inside := sound.contains
  have before : (q * 10 ^ e : ℚ) ≤ s.number := by
    rw [number]
    gcongr
    linarith
  have after : s.number < ((q + 1 : ℕ) : ℚ) * 10 ^ e := by
    rw [number]
    push_cast
    gcongr
  rcases lt_or_ge (s.low / s.denominator : ℚ) (q * 10 ^ e) with within | out
  · refine ⟨q, within.le, before.trans inside.high, ?_⟩
    rintro (bottom | top)
    · exact absurd bottom within.ne'
    · exact inside.ends (.inr (le_antisymm inside.high (top ▸ before)))
  · have within : ((q + 1 : ℕ) : ℚ) * 10 ^ e < s.high / s.denominator := by
      push_cast
      linarith
    refine ⟨q + 1, inside.low.trans after.le, within.le, ?_⟩
    rintro (bottom | top)
    · exact absurd (bottom ▸ after) (not_lt_of_ge inside.low)
    · exact absurd top within.ne

/-! Lengths -/

private theorem length_cases (n : Nat) : n < 10 ^ length n ∧ (n ≠ 0 → 10 ^ length n ≤ 10 * n) := by
  fun_induction length n with
  | case1 => exact ⟨Nat.one_pos, fun some => absurd rfl some⟩
  | case2 n some ih =>
    obtain ⟨below, least⟩ := ih
    rw [pow_succ]
    refine ⟨by omega, fun _ => ?_⟩
    rcases Nat.eq_zero_or_pos (n / 10) with none | more
    · rw [none] at below ⊢
      have : length 0 = 0 := by rw [length, dif_pos rfl]
      rw [this]
      omega
    · have := least more.ne'
      omega

/-- A number has as many digits as the least power of ten above it has zeros. -/
theorem length_spec {n : Nat} (some : n ≠ 0) : (10 : ℚ) ^ ((length n : ℤ) - 1) ≤ n ∧
    (n + 1 : ℚ) ≤ 10 ^ (length n : ℤ) := by
  obtain ⟨below, least⟩ := length_cases n
  have ten : (10 : ℚ) ^ (length n : ℤ) ≤ 10 * n := by
    rw [zpow_natCast]
    exact_mod_cast least some
  constructor
  · rw [zpow_sub₀ (by norm_num), zpow_one, div_le_iff₀ (by norm_num)]
    linarith
  · rw [zpow_natCast]
    exact_mod_cast below

/-- A number that is not too small lies between two powers of ten by its magnitude. -/
private theorem Span.Sound.magnitude_spec (sound : s.Sound) (reachable : (10 : ℚ) ^ (-(reach : ℤ)) ≤ s.number) :
    (10 : ℚ) ^ (s.magnitude - 1) ≤ s.number ∧ s.number < 10 ^ s.magnitude := by
  unfold Span.magnitude
  generalize reach = r at reachable ⊢
  have positive : (0 : ℚ) < s.denominator := by exact_mod_cast sound.divides
  have power := zpow_ten_pos r
  have lifted : s.number * 10 ^ (r : ℤ) = (s.value * Nat.pow 10 r : ℕ) / s.denominator := by
    rw [Span.number, Nat.cast_mul, div_mul_eq_mul_div, zpow_natCast]
    congr 2
    exact_mod_cast rfl
  obtain ⟨low, high⟩ : ((s.value * Nat.pow 10 r / s.denominator : ℕ) : ℚ) ≤ s.number * 10 ^ (r : ℤ) ∧
      s.number * 10 ^ (r : ℤ) < (s.value * Nat.pow 10 r / s.denominator : ℕ) + 1 := by
    rw [lifted, le_div_iff₀ positive, div_lt_iff₀ positive]
    constructor
    · exact_mod_cast Nat.div_mul_le_self _ _
    · exact_mod_cast Nat.lt_mul_of_div_lt (Nat.lt_succ_self _) sound.divides
  generalize s.value * Nat.pow 10 r / s.denominator = n at low high ⊢
  have some : n ≠ 0 := by
    rintro rfl
    rw [Nat.cast_zero, zero_add, ← lt_div_iff₀ power, one_div, ← zpow_neg] at high
    exact absurd reachable (not_le_of_gt high)
  obtain ⟨least, most⟩ := length_spec some
  have ten : (10 : ℚ) ≠ 0 := by norm_num
  constructor
  · rw [sub_right_comm, zpow_sub₀ ten, div_le_iff₀ power]
    exact least.trans low
  · rw [zpow_sub₀ ten, lt_div_iff₀ power]
    exact high.trans_le most

/-! The first grid with a hit -/

private theorem exists_first {α : Type} {p : Nat → Option α} {n : Nat} (hit : ∃ i < n, p i ≠ none) :
    ∃ i < n, ∃ a, (List.range n).findSome? p = some a ∧ p i = some a ∧ ∀ j < i, p j = none := by
  induction n with
  | zero =>
    obtain ⟨i, less, -⟩ := hit
    omega
  | succ n ih =>
    rw [List.range_succ, List.findSome?_append]
    by_cases earlier : ∃ i < n, p i ≠ none
    · obtain ⟨i, less, a, found, here, before⟩ := ih earlier
      refine ⟨i, by omega, a, ?_, here, before⟩
      rw [found]
      rfl
    · have before : ∀ j < n, p j = none := by simpa using earlier
      obtain ⟨i, less, here⟩ := hit
      obtain rfl : i = n := by
        by_contra other
        exact here (before i (by omega))
      obtain ⟨a, same⟩ := Option.ne_none_iff_exists'.mp here
      have none : (List.range i).findSome? p = none := by simpa using before
      refine ⟨i, less, a, ?_, same, before⟩
      rw [none, List.findSome?_singleton, same]
      rfl

/-- The shortest digits are on the first of seventeen grids with something in the span, in the nearest place there. -/
private theorem Span.Sound.shortest_spec (sound : s.Sound)
    (narrow : (10 : ℚ) ^ (s.magnitude - 17) < s.high / s.denominator - s.low / s.denominator) :
    ∃ n < 17, s.shortest.exponent = s.magnitude - (n + 1 : ℕ) ∧ s.Nearest s.shortest ∧
      ∀ m < n, ∀ c : ℕ, ¬ s.Contains (c * 10 ^ (s.magnitude - (m + 1 : ℕ))) := by
  have hit : ∃ n < 17, s.onGrid? (s.magnitude - (n + 1 : ℕ)) ≠ none := by
    refine ⟨16, by decide, fun none => ?_⟩
    obtain ⟨c, inside⟩ := sound.exists_contains narrow
    exact (sound.onGrid?_spec _).2 none c inside
  obtain ⟨n, less, d, found, here, before⟩ := exists_first hit
  obtain ⟨exponent, nearest⟩ := (sound.onGrid?_spec _).1 d here
  have shortest : s.shortest = d := by
    rw [Span.shortest, found]
    rfl
  rw [shortest]
  exact ⟨n, less, exponent, nearest, fun m earlier => (sound.onGrid?_spec _).2 (before m earlier)⟩

/-! Zeros at the end -/

@[simp] theorem Scaled.value_normal (fuel : Nat) (d : Scaled) : (Scaled.normal fuel d).value = d.value := by
  fun_induction Scaled.normal fuel d with
  | case1 => rfl
  | case2 d fuel zero ih =>
    have split : d.digits = 10 * (d.digits / 10) := by omega
    rw [ih, Scaled.value, Scaled.value, zpow_add₀ (by norm_num), zpow_one]
    conv_rhs => rw [split]
    push_cast
    ring
  | case3 => rfl

private theorem Scaled.normal_le (fuel : Nat) (d : Scaled) : (Scaled.normal fuel d).digits ≤ d.digits := by
  fun_induction Scaled.normal fuel d with
  | case1 => rfl
  | case2 d fuel zero ih => exact ih.trans (Nat.div_le_self _ _)
  | case3 => rfl

private theorem Scaled.normal_pow {fuel k : Nat} (enough : k ≤ fuel) (e : ℤ) :
    (Scaled.normal fuel ⟨10 ^ k, e⟩).digits = 1 := by
  induction fuel generalizing k e with
  | zero =>
    obtain rfl : k = 0 := by omega
    rfl
  | succ fuel ih =>
    rw [Scaled.normal]
    cases k with
    | zero => rfl
    | succ k =>
      have some : 10 ^ (k + 1) ≠ 0 ∧ 10 ^ (k + 1) % 10 = 0 := ⟨by positivity, by rw [pow_succ, Nat.mul_mod_left]⟩
      rw [if_pos some, pow_succ, Nat.mul_div_cancel _ (by decide)]
      exact ih (by omega) _

private theorem length_le {n k : Nat} (below : n < 10 ^ k) : length n ≤ k := by
  rcases Nat.eq_zero_or_pos n with rfl | some
  · rw [length, dif_pos rfl]
    exact Nat.zero_le k
  · have least := (length_cases n).2 some.ne'
    have : 10 ^ length n < 10 ^ (k + 1) := by
      rw [pow_succ]
      omega
    exact Nat.le_of_lt_succ ((Nat.pow_lt_pow_iff_right (by decide)).mp this)

/-- The nearest digits on a grid are not past the next power of ten. -/
private theorem Span.Nearest.digits_le (sound : s.Sound) {d : Scaled} (nearest : s.Nearest d) {n : Nat}
    (below : s.number < 10 ^ (d.exponent + n)) : d.digits ≤ 10 ^ n := by
  by_contra past
  have power := zpow_ten_pos d.exponent
  have whole : ((10 ^ n : ℕ) : ℚ) * 10 ^ d.exponent = 10 ^ (d.exponent + n) := by
    rw [zpow_add₀ (by norm_num), zpow_natCast, mul_comm]
    norm_cast
  have after : (10 : ℚ) ^ (d.exponent + n) < d.value := by
    rw [← whole, Scaled.value]
    have : ((10 ^ n : ℕ) : ℚ) < d.digits := by exact_mod_cast Nat.lt_of_not_le past
    gcongr
  have inside : s.Contains ((10 ^ n : ℕ) * 10 ^ d.exponent) := by
    rw [whole]
    exact sound.contains.between nearest.contains below.le after.le
  have close := nearest.nearest _ inside
  rw [whole, abs_of_pos (by linarith), abs_of_pos (by linarith)] at close
  linarith

private theorem Scaled.length_normal_le {d : Scaled} {n : Nat} (few : n ≤ 17) (below : d.digits ≤ 10 ^ n)
    (some : 0 < n) :
    length (Scaled.normal 17 d).digits ≤ n := by
  rcases Nat.lt_or_eq_of_le below with less | full
  · exact length_le ((Scaled.normal_le 17 d).trans_lt less)
  · obtain ⟨digits, e⟩ := d
    obtain rfl : digits = 10 ^ n := full
    rw [Scaled.normal_pow few]
    exact length_le (Nat.one_lt_pow some.ne' (by decide))

/-- Between the number and one of so many digits there is a place of the grid of as many digits, or the latter is one. -/
private theorem Span.Sound.exists_between (sound : s.Sound) (reachable : (10 : ℚ) ^ (-(reach : ℤ)) ≤ s.number)
    (some : c ≠ 0) (e : ℤ)
    {n : Nat} (few : length c ≤ n + 1) :
    ∃ c' : ℕ, ((c * 10 ^ e : ℚ) ≤ c' * 10 ^ (s.magnitude - (n + 1 : ℕ)) ∧
      c' * 10 ^ (s.magnitude - (n + 1 : ℕ)) ≤ s.number) ∨
      (s.number ≤ c' * 10 ^ (s.magnitude - (n + 1 : ℕ)) ∧ (c' * 10 ^ (s.magnitude - (n + 1 : ℕ)) : ℚ) ≤ c * 10 ^ e) := by
  obtain ⟨least, most⟩ := sound.magnitude_spec reachable
  obtain ⟨down, up⟩ := length_spec some
  have ten : (10 : ℚ) ≠ 0 := by norm_num
  have power := zpow_ten_pos e
  have onGrid (k : ℕ) (top : ℤ) (same : top = s.magnitude - (n + 1 : ℕ) + k) (x : ℕ) :
      ((x * 10 ^ k : ℕ) : ℚ) * 10 ^ (s.magnitude - (n + 1 : ℕ)) = x * 10 ^ top := by
    rw [same, zpow_add₀ ten, zpow_natCast]
    push_cast
    ring
  rcases lt_or_ge (c * 10 ^ e : ℚ) (10 ^ (s.magnitude - 1)) with under | least'
  · refine ⟨1 * 10 ^ n, .inl ?_⟩
    rw [onGrid n (s.magnitude - 1) (by omega), Nat.cast_one, one_mul]
    exact ⟨under.le, least⟩
  · rcases lt_or_ge (c * 10 ^ e : ℚ) (10 ^ s.magnitude) with most' | past
    · have low : (10 : ℚ) ^ ((length c : ℤ) - 1 + e) ≤ c * 10 ^ e := by
        rw [zpow_add₀ ten]
        gcongr
      have high : (c * 10 ^ e : ℚ) < 10 ^ ((length c : ℤ) + e) := by
        rw [zpow_add₀ ten]
        gcongr
        linarith
      have after : s.magnitude - 1 < length c + e := (zpow_lt_zpow_iff_right₀ (by norm_num)).mp (least'.trans_lt high)
      have before : length c - 1 + e < s.magnitude := (zpow_lt_zpow_iff_right₀ (by norm_num)).mp (low.trans_lt most')
      refine ⟨c * 10 ^ (n + 1 - length c), ?_⟩
      rw [onGrid (n + 1 - length c) e (by omega)]
      exact (le_total _ s.number).imp (fun below => ⟨le_rfl, below⟩) (fun above => ⟨above, le_rfl⟩)
    · refine ⟨1 * 10 ^ (n + 1), .inr ?_⟩
      rw [onGrid (n + 1) s.magnitude (by omega), Nat.cast_one, one_mul]
      exact ⟨most.le, past⟩

/-- Nothing in the span is written with fewer digits; nothing with as many is nearer, or as near and above. -/
private theorem Span.Sound.shortest_best (sound : s.Sound) (reachable : (10 : ℚ) ^ (-(reach : ℤ)) ≤ s.number)
    (narrow : (10 : ℚ) ^ (s.magnitude - 17) < s.high / s.denominator - s.low / s.denominator) (some : c ≠ 0)
    (inside : s.Contains (c * 10 ^ e)) :
    length (Scaled.normal 17 s.shortest).digits ≤ length c ∧
    (length c ≤ length (Scaled.normal 17 s.shortest).digits → |s.shortest.value - s.number| ≤ |c * 10 ^ e - s.number| ∧
      (|s.shortest.value - s.number| = |c * 10 ^ e - s.number| → (c * 10 ^ e : ℚ) ≤ s.shortest.value)) := by
  obtain ⟨n, less, exponent, nearest, before⟩ := sound.shortest_spec narrow
  have few : length (Scaled.normal 17 s.shortest).digits ≤ n + 1 := by
    apply Scaled.length_normal_le (by omega) (nearest.digits_le sound _) (by omega)
    rw [exponent, sub_add_cancel]
    exact (sound.magnitude_spec reachable).2
  constructor
  · refine few.trans (Nat.succ_le_of_lt ?_)
    by_contra short
    have positive : 0 < length c := by
      rw [length, dif_neg some]
      omega
    -- the grid of as many digits would have had a hit
    obtain ⟨c', between⟩ := sound.exists_between reachable some e (n := length c - 1) (by omega)
    apply before (length c - 1) (by omega) c'
    rcases between with ⟨after, below⟩ | ⟨above, before⟩
    · exact inside.between sound.contains after below
    · exact sound.contains.between inside above before
  · intro short
    obtain ⟨c', between⟩ := sound.exists_between reachable some e (short.trans few)
    have near := nearest.nearest c'
    have upper := nearest.upper c'
    rw [exponent] at near upper
    have rises (le : c' ≤ s.shortest.digits) : (c' : ℚ) * 10 ^ (s.magnitude - (n + 1 : ℕ)) ≤ s.shortest.value := by
      have power := zpow_ten_pos (s.magnitude - (n + 1 : ℕ))
      have : (c' : ℚ) ≤ s.shortest.digits := by exact_mod_cast le
      rw [Scaled.value, exponent]
      gcongr
    generalize (c' * 10 ^ (s.magnitude - (n + 1 : ℕ)) : ℚ) = x at between near upper rises
    generalize (c * 10 ^ e : ℚ) = y at inside between ⊢
    rcases between with ⟨after, below⟩ | ⟨above, before⟩
    · have held := inside.between sound.contains after below
      have closer := near held
      rw [abs_of_nonpos (sub_nonpos.mpr below)] at closer upper
      rw [abs_of_nonpos (sub_nonpos.mpr (after.trans below))]
      refine ⟨closer.trans (by linarith), fun same => ?_⟩
      exact after.trans (rises (upper held (by linarith)))
    · have held := sound.contains.between inside above before
      have closer := near held
      rw [abs_of_nonneg (sub_nonneg.mpr above)] at closer upper
      rw [abs_of_nonneg (sub_nonneg.mpr (above.trans before))]
      refine ⟨closer.trans (by linarith), fun same => ?_⟩
      have : y = x := by linarith
      rw [this]
      exact rises (upper held (by linarith))

/-! Spans of a format -/

/-- A format whose numbers are covered: seventeen digits tell any two of them, and none is out of reach. -/
structure Covered (f : Format) : Prop where
  wide : 0 < f.fraction
  precise : f.fraction ≤ 52
  ranged : 0 < f.exponent
  bounded : f.exponent ≤ 11

theorem covered_double : Covered .double := ⟨by decide, by decide, by decide, by decide⟩

theorem covered_single : Covered .single := ⟨by decide, by decide, by decide, by decide⟩

private theorem quarter_scale (e : ℤ) (x : Nat) :
    ((if 2 ≤ e then x * Nat.pow 2 (e - 2).toNat else x : ℕ) : ℚ) /
      (if 2 ≤ e then 1 else Nat.pow 2 (2 - e).toNat : ℕ) = x / 4 * 2 ^ e := by
  have shift : (2 : ℚ) ^ (e - 2) = 2 ^ e / 4 := by
    rw [zpow_sub₀ two_ne_zero]
    norm_num
  split_ifs with large
  · rw [Nat.cast_mul, cast_pow_toNat (by omega), shift]
    push_cast
    ring
  · have back : (2 : ℚ) ^ (2 - e) = (2 ^ (e - 2))⁻¹ := by rw [← zpow_neg, neg_sub]
    rw [cast_pow_toNat (by omega), back, shift]
    field_simp

/-- The span of a number is its range of rounding. -/
private theorem Span.ofFinite_spec (f : Format) {m : Nat} (some : m ≠ 0) (e : ℤ) :
    (Span.ofFinite f m e).Sound ∧ (Span.ofFinite f m e).number = m * 2 ^ e ∧
    (∀ x, (Span.ofFinite f m e).Contains x ↔ f.Rounds x m e) ∧
    ((Span.ofFinite f m e).high / (Span.ofFinite f m e).denominator -
        (Span.ofFinite f m e).low / (Span.ofFinite f m e).denominator : ℚ)
      = (1 / 2 + f.below m e) * 2 ^ e := by
  have low : ((Span.ofFinite f m e).low / (Span.ofFinite f m e).denominator : ℚ) = (m - f.below m e) * 2 ^ e := by
    refine (quarter_scale e _).trans ?_
    unfold Format.below
    split_ifs
    · rw [Nat.cast_sub (by omega)]
      push_cast
      ring
    · rw [Nat.cast_sub (by omega)]
      push_cast
      ring
  have high : ((Span.ofFinite f m e).high / (Span.ofFinite f m e).denominator : ℚ) = (m + 1 / 2) * 2 ^ e := by
    refine (quarter_scale e _).trans ?_
    push_cast
    ring
  have number : (Span.ofFinite f m e).number = m * 2 ^ e := by
    refine (quarter_scale e _).trans ?_
    push_cast
    ring
  have closed : (Span.ofFinite f m e).closed = true ↔ m % 2 = 0 := decide_eq_true_iff
  have divides : 0 < (Span.ofFinite f m e).denominator := by
    unfold Span.ofFinite
    dsimp only
    split_ifs
    · exact Nat.one_pos
    · exact Nat.pow_pos (by decide)
  have positive : (0 : ℚ) < (Span.ofFinite f m e).denominator := by exact_mod_cast divides
  have power : (0 : ℚ) < 2 ^ e := by positivity
  have below := f.below_pos m e
  refine ⟨⟨divides, ?_, ?_⟩, number, fun x => ?_, ?_⟩
  · rw [← Nat.cast_lt (α := ℚ), ← div_lt_div_iff_of_pos_right positive, low]
    refine lt_of_lt_of_eq ?_ number.symm
    gcongr
    linarith
  · rw [← Nat.cast_lt (α := ℚ), ← div_lt_div_iff_of_pos_right positive, high]
    refine lt_of_eq_of_lt number ?_
    gcongr
    linarith
  · constructor
    · rintro ⟨least, most, ends⟩
      rw [low] at least ends
      rw [high] at most ends
      exact ⟨least, most, fun half => closed.mp (ends half)⟩
    · rintro ⟨least, most, tie⟩
      rw [← low] at least tie
      rw [← high] at most tie
      exact ⟨least, most, fun ends => closed.mpr (tie ends)⟩
  · rw [low, high]
    ring

variable {f : Format} {m : Nat}

theorem Covered.lowest_ge (covered : Covered f) : -1074 ≤ f.lowest := by
  have := covered.precise
  have := covered.bounded
  have power : Nat.pow 2 (f.exponent - 1) ≤ Nat.pow 2 10 := Nat.pow_le_pow_right (by decide) (by omega)
  have evaluated : Nat.pow 2 10 = 1024 := rfl
  unfold Format.lowest
  omega

/-- No number of a covered format reaches the power of ten, nor does the inverse of one. -/
theorem two_pow_le_reach : (2 : ℚ) ^ (1075 : ℤ) ≤ 10 ^ (reach : ℤ) :=
  calc (2 : ℚ) ^ (1075 : ℤ) = 2 ^ 1075 := zpow_natCast 2 1075
    _ ≤ 2 ^ (11 * 100) := pow_le_pow_right₀ (by norm_num) (by decide)
    _ = (2 ^ 11) ^ 100 := pow_mul 2 11 100
    _ ≤ (10 ^ 4) ^ 100 := pow_le_pow_left₀ (by norm_num) (by norm_num) 100
    _ = 10 ^ (4 * 100) := (pow_mul 10 4 100).symm
    _ = 10 ^ (reach : ℤ) := (zpow_natCast 10 400).symm

/-- Only zero has something below reach in its range. -/
theorem Covered.reachable (covered : Covered f) (held : f.Fits m e) (some : m ≠ 0) (rounds : f.Rounds x m e) :
    (10 : ℚ) ^ (-(reach : ℤ)) ≤ x := by
  have lowest := covered.lowest_ge.trans held.lowest
  have one : (1 : ℚ) ≤ m := by exact_mod_cast Nat.one_le_iff_ne_zero.mpr some
  have below := f.below_le m e
  calc (10 : ℚ) ^ (-(reach : ℤ)) ≤ 2 ^ (-1075 : ℤ) := by
        rw [zpow_neg, zpow_neg]
        have := two_pow_le_reach
        gcongr
    _ = 1 / 2 * 2 ^ (-1074 : ℤ) := by
        have : (-1074 : ℤ) = -1075 + 1 := rfl
        rw [this, zpow_add₀ two_ne_zero]
        ring
    _ ≤ 1 / 2 * 2 ^ e := by gcongr; norm_num
    _ ≤ (m - f.below m e) * 2 ^ e := by gcongr; linarith
    _ ≤ x := rounds.low

/-- A number of seventeen digits changes by less than its range if its last digit changes by one. -/
private theorem Covered.narrow (covered : Covered f) (held : f.Fits m e) {top : ℤ}
    (least : (10 : ℚ) ^ (top - 1) ≤ m * 2 ^ e) :
    (10 : ℚ) ^ (top - 17) < (1 / 2 + f.below m e) * 2 ^ e := by
  have power : (0 : ℚ) < 2 ^ e := by positivity
  have unit : Nat.pow 2 f.fraction ≤ Nat.pow 2 52 := Nat.pow_le_pow_right (by decide) covered.precise
  have evaluated : Nat.pow 2 52 = 4503599627370496 := rfl
  rw [evaluated] at unit
  have split : (10 : ℚ) ^ (top - 17) = 10 ^ (top - 1) / 10 ^ (16 : ℤ) := by
    rw [← zpow_sub₀ (by norm_num), sub_sub]
    rfl
  have digits : (10 : ℚ) ^ (16 : ℤ) = 10000000000000000 := by norm_num
  rw [split, digits, div_lt_iff₀ (by norm_num)]
  refine least.trans_lt ?_
  have wide : (m : ℚ) < (1 / 2 + f.below m e) * 10000000000000000 := by
    unfold Format.below
    split_ifs with edge
    · have : (m : ℚ) ≤ 4503599627370496 := by exact_mod_cast edge.1 ▸ unit
      linarith
    · have : m < 9007199254740992 := by
        have := held.below
        omega
      have : (m : ℚ) < 9007199254740992 := by exact_mod_cast this
      linarith
  calc (m * 2 ^ e : ℚ) < (1 / 2 + f.below m e) * 10000000000000000 * 2 ^ e := by gcongr
    _ = (1 / 2 + f.below m e) * 2 ^ e * 10000000000000000 := by ring

/-- The digits that a number is written with are rounded to it. None that are rounded to it are fewer; of those that are
as many, none are nearer, or as near and above. -/
theorem shortest_digits (covered : Covered f) (held : f.Fits m e) (some : m ≠ 0) :
    let d := Scaled.normal 17 (Span.ofFinite f m e).shortest
    f.Rounds d.value m e ∧ d.digits ≠ 0 ∧ ∀ (c : ℕ) (k : ℤ), c ≠ 0 → f.Rounds (c * 10 ^ k) m e →
      length d.digits ≤ length c ∧
        (length c ≤ length d.digits → |d.value - m * 2 ^ e| ≤ |(c * 10 ^ k : ℚ) - m * 2 ^ e| ∧
        (|d.value - m * 2 ^ e| = |(c * 10 ^ k : ℚ) - m * 2 ^ e| → (c * 10 ^ k : ℚ) ≤ d.value)) := by
  dsimp only
  obtain ⟨sound, number, contains, width⟩ := Span.ofFinite_spec f some e
  generalize Span.ofFinite f m e = s at sound number contains width ⊢
  have reachable := covered.reachable held some (f.rounds_self m e)
  rw [← number] at reachable
  obtain ⟨least, -⟩ := sound.magnitude_spec reachable
  rw [number] at least
  have narrow := covered.narrow held least
  rw [← width] at narrow
  obtain ⟨n, -, -, nearest, -⟩ := sound.shortest_spec narrow
  have rounds := (contains _).mp nearest.contains
  rw [Scaled.value_normal, ← number]
  refine ⟨rounds, fun zero => ?_, fun c k more other =>
    sound.shortest_best reachable narrow more ((contains _).mpr other)⟩
  have positive := (zpow_ten_pos (-reach)).trans_le (covered.reachable held some rounds)
  have : s.shortest.value = 0 := by
    rw [← Scaled.value_normal 17, Scaled.value, zero, Nat.cast_zero, zero_mul]
  linarith

end ByteFlow.Number.Decimal
