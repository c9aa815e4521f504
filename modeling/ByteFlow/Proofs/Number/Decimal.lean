import ByteFlow.Proofs.Number.Literal
import ByteFlow.Proofs.Number.Shortest

/-! Decimal numbers read.
A literal is rounded to the nearest number of the format, however long it is. Beyond the first digits it only matters
whether one is not zero: no number of a format, and no middle between two of them, has more digits. -/
namespace ByteFlow.Number.Decimal
open Binary

variable {f : Format} {m : Nat} {e : ℤ} {x : ℚ}

/-! The word of a decimal number -/

private theorem Covered.significand_lt (covered : Covered f) (held : f.Fits m e) : (m + 1 / 2 : ℚ) < 2 ^ 53 := by
  have precise : Nat.pow 2 f.fraction ≤ Nat.pow 2 52 := Nat.pow_le_pow_right (by decide) covered.precise
  have evaluated : Nat.pow 2 52 = 4503599627370496 := rfl
  have below : m + 1 ≤ 2 * 4503599627370496 := by
    have := held.below
    omega
  have : (m + 1 : ℚ) ≤ 2 * 4503599627370496 := by exact_mod_cast below
  norm_num
  linarith

/-- What is rounded to a finite number is within reach. -/
private theorem Covered.below_reach (covered : Covered f) (held : f.Fits m e) (finite : f.word m e < f.infinity)
    (rounds : f.Rounds x m e) :
    x < 10 ^ (reach : ℤ) := by
  have bounded : Nat.pow 2 (f.exponent - 1) ≤ Nat.pow 2 10 :=
    Nat.pow_le_pow_right (by decide) (by have := covered.bounded; omega)
  have evaluated : Nat.pow 2 10 = 1024 := rfl
  have double : Nat.pow 2 f.exponent = 2 * Nat.pow 2 (f.exponent - 1) := by
    obtain ⟨k, split⟩ := Nat.exists_eq_succ_of_ne_zero covered.ranged.ne'
    rw [split, Nat.succ_sub_one]
    exact Nat.pow_succ'
  have most : e ≤ 1022 := by
    have room : (e - f.lowest).toNat + 1 < Nat.pow 2 f.exponent - 1 ∨ e = f.lowest := by
      rcases eq_or_lt_of_le held.lowest with least | above
      · exact .inr least.symm
      · left
        have full := held.full above
        refine Nat.lt_of_mul_lt_mul_right (a := Nat.pow 2 f.fraction) (lt_of_le_of_lt ?_ finite)
        rw [Nat.add_mul, Nat.one_mul]
        exact Nat.add_le_add_left full _
    have := covered.wide
    have := held.lowest
    unfold Format.lowest at *
    omega
  calc x ≤ (m + 1 / 2) * 2 ^ e := rounds.high
    _ ≤ (m + 1 / 2) * 2 ^ (1022 : ℤ) := by gcongr; norm_num
    _ < 2 ^ 53 * 2 ^ (1022 : ℤ) := by
      have := covered.significand_lt held
      gcongr
    _ = 2 ^ (1075 : ℤ) := by rw [← zpow_natCast, ← zpow_add₀ two_ne_zero]; rfl
    _ ≤ 10 ^ (reach : ℤ) := two_pow_le_reach

/-- What is past reach is rounded to no finite number. -/
private theorem Covered.past_reach (covered : Covered f) (held : f.Fits m e) (rounds : f.Rounds x m e)
    (past : 10 ^ (reach : ℤ) ≤ x) :
    min f.infinity (f.word m e) = f.infinity := by
  rw [min_eq_left]
  by_contra finite
  exact absurd past (not_le_of_gt (covered.below_reach held (Nat.lt_of_not_le finite) rounds))

/-- What is below reach is rounded to zero. -/
private theorem Covered.before_reach (covered : Covered f) (held : f.Fits m e) (rounds : f.Rounds x m e)
    (before : x < 10 ^ (-(reach : ℤ))) :
    min f.infinity (f.word m e) = 0 := by
  have zero : m = 0 := by
    by_contra other
    exact absurd before (not_lt_of_ge (covered.reachable held other rounds))
  have lowest : e = f.lowest := by
    by_contra other
    have full := held.full (lt_of_le_of_ne held.lowest (Ne.symm other))
    rw [zero] at full
    exact absurd full (Nat.not_le_of_gt (Nat.pow_pos (by decide)))
  rw [zero, lowest, Format.word, sub_self, Int.toNat_zero, Nat.zero_mul, Nat.zero_add, Nat.min_zero]

/-- A decimal number has the word of the number that it is rounded to, or is infinite. -/
private theorem toWord_eq (covered : Covered f) {d : Scaled} (held : f.Fits m e) (rounds : f.Rounds d.value m e) :
    d.toWord f = min f.infinity (f.word m e) := by
  unfold Scaled.toWord
  dsimp only
  by_cases some : d.digits = 0
  · rw [if_pos some]
    have zero : d.value = 0 := by rw [Scaled.value, some, Nat.cast_zero, zero_mul]
    exact (covered.before_reach held rounds (by rw [zero]; positivity)).symm
  rw [if_neg some]
  obtain ⟨least, most⟩ := length_spec some
  have power : (0 : ℚ) < 10 ^ d.exponent := by positivity
  have low : (10 : ℚ) ^ ((length d.digits : ℤ) + d.exponent - 1) ≤ d.value := by
    rw [add_sub_right_comm, zpow_add₀ (by norm_num), Scaled.value]
    gcongr
  have high : d.value < (10 : ℚ) ^ ((length d.digits : ℤ) + d.exponent) := by
    rw [zpow_add₀ (by norm_num), Scaled.value]
    gcongr
    linarith
  split_ifs with past before
  · refine (covered.past_reach held rounds (le_trans ?_ low)).symm
    gcongr
    · norm_num
    · omega
  · refine (covered.before_reach held rounds (high.trans_le ?_)).symm
    gcongr
    norm_num
  · obtain ⟨divides, ratio⟩ := shifted_spec d.digits Nat.one_pos d.exponent
    rw [Nat.cast_one, div_one] at ratio
    have positive : (0 : ℚ) < (shifted d.digits 1 d.exponent).2 := by exact_mod_cast divides
    have more : 0 < (shifted d.digits 1 d.exponent).1 := by
      have : (0 : ℚ) < (shifted d.digits 1 d.exponent).1 / (shifted d.digits 1 d.exponent).2 := by
        rw [ratio]
        have : (0 : ℚ) < d.digits := by exact_mod_cast Nat.pos_of_ne_zero some
        positivity
      exact_mod_cast (div_pos_iff_of_pos_right positive).mp this
    refine ofRatio_eq covered.wide more divides held ?_
    rw [ratio]
    exact rounds

/-! Digits -/

variable {digits : List UInt8}

private theorem foldl_eq (n : Nat) (digits : List UInt8) :
    digits.foldl (fun n b => 10 * n + (b.toNat - 0x30)) n = n * 10 ^ digits.length + ofDigits digits := by
  unfold ofDigits
  induction digits generalizing n with
  | nil => simp
  | cons b digits ih =>
    rw [List.foldl_cons, List.foldl_cons, ih, ih (10 * 0 + _), List.length_cons, pow_succ]
    ring

theorem ofDigits_append (a b : List UInt8) : ofDigits (a ++ b) = ofDigits a * 10 ^ b.length + ofDigits b := by
  rw [ofDigits, List.foldl_append, foldl_eq]
  rfl

theorem ofDigits_cons (b : UInt8) (rest : List UInt8) :
    ofDigits (b :: rest) = (b.toNat - 0x30) * 10 ^ rest.length + ofDigits rest := by
  rw [← List.singleton_append, ofDigits_append]
  simp [ofDigits]

@[simp] theorem ofDigits_nil : ofDigits [] = 0 := rfl

private theorem isDigit_spec {b : UInt8} (digit : Byte.isDigit b = true) : b.toNat - 0x30 ≤ 9 ∧
    (isZeroDigit b = false → 0 < b.toNat - 0x30) := by
  revert digit
  exact Byte.forall_of_lt b (by decide +kernel)

private theorem isZeroDigit_iff {b : UInt8} : isZeroDigit b = true ↔ b = 0x30 := beq_iff_eq

private theorem ofDigits_lt (all : ∀ b ∈ digits, Byte.isDigit b = true) : ofDigits digits < 10 ^ digits.length := by
  induction digits with
  | nil => decide
  | cons b rest ih =>
    have := ih fun c member => all c (List.mem_cons_of_mem _ member)
    have digit := (isDigit_spec (all b List.mem_cons_self)).1
    have : (b.toNat - 0x30) * 10 ^ rest.length ≤ 9 * 10 ^ rest.length := Nat.mul_le_mul_right _ digit
    rw [ofDigits_cons, List.length_cons, pow_succ]
    omega

theorem ofDigits_of_zeros (zero : digits.all isZeroDigit = true) : ofDigits digits = 0 := by
  induction digits with
  | nil => rfl
  | cons b rest ih =>
    rw [List.all_cons, Bool.and_eq_true, isZeroDigit_iff] at zero
    obtain ⟨rfl, zero⟩ := zero
    rw [ofDigits_cons, ih zero]
    simp

private theorem ofDigits_pos (all : ∀ b ∈ digits, Byte.isDigit b = true) (some : digits.all isZeroDigit = false) :
    0 < ofDigits digits := by
  induction digits with
  | nil => cases some
  | cons b rest ih =>
    rw [ofDigits_cons]
    cases first : isZeroDigit b with
    | false =>
      have := (isDigit_spec (all b List.mem_cons_self)).2 first
      positivity
    | true =>
      rw [List.all_cons, first, Bool.true_and] at some
      have := ih (fun c member => all c (List.mem_cons_of_mem _ member)) some
      omega

private theorem ofDigits_dropWhile (digits : List UInt8) :
    ofDigits (digits.dropWhile isZeroDigit) = ofDigits digits := by
  conv_rhs => rw [← List.takeWhile_append_dropWhile (p := isZeroDigit) (l := digits), ofDigits_append]
  rw [ofDigits_of_zeros List.all_takeWhile, Nat.zero_mul, Nat.zero_add]

private theorem le_ofDigits {b : UInt8} (digit : Byte.isDigit b = true) (some : isZeroDigit b = false)
    (rest : List UInt8) :
    10 ^ rest.length ≤ ofDigits (b :: rest) := by
  have := (isDigit_spec digit).2 some
  rw [ofDigits_cons]
  exact (Nat.le_mul_of_pos_left _ this).trans (Nat.le_add_right _ _)

/-! Digits that decide -/

/-- The ends of the ranges, which are quarters of a last place, are on every decimal grid that is fine enough. -/
private theorem quarters_apart (j : ℤ) {q : ℕ} {place : ℤ} (small : place ≤ 0) (fine : place ≤ e - 2) :
    j * (2 : ℚ) ^ (e - 2) ≤ q * 10 ^ place ∨ (q + 1) * 10 ^ place ≤ j * (2 : ℚ) ^ (e - 2) := by
  obtain ⟨i, grid⟩ : ∃ i : ℤ, j * (2 : ℚ) ^ (e - 2) = i * 10 ^ place := by
    refine ⟨j * 2 ^ (e - 2 - place).toNat * 5 ^ (-place).toNat, ?_⟩
    have two : (2 : ℚ) ^ (e - 2) = 2 ^ (e - 2 - place).toNat * 2 ^ place := by
      rw [← zpow_natCast, Int.toNat_of_nonneg (by omega), ← zpow_add₀ two_ne_zero, sub_add_cancel]
    have five : (5 : ℚ) ^ (-place).toNat * 5 ^ place = 1 := by
      rw [← zpow_natCast, Int.toNat_of_nonneg (by omega), ← zpow_add₀ (by norm_num), neg_add_cancel, zpow_zero]
    have ten : (10 : ℚ) ^ place = 2 ^ place * 5 ^ place := by rw [← mul_zpow]; norm_num
    push_cast
    rw [two, ten]
    calc j * ((2 : ℚ) ^ (e - 2 - place).toNat * 2 ^ place)
        = j * (2 ^ (e - 2 - place).toNat * 2 ^ place) * (5 ^ (-place).toNat * 5 ^ place) := by rw [five, mul_one]
      _ = _ := by ring
  have power : (0 : ℚ) < 10 ^ place := by positivity
  rw [grid]
  rcases le_or_gt i q with under | past
  · left
    have : (i : ℚ) ≤ q := by exact_mod_cast under
    gcongr
  · right
    have : (q + 1 : ℚ) ≤ i := by exact_mod_cast past
    gcongr

private theorem five_pow_le : (2 : ℚ) ^ 54 * 5 ^ 1075 ≤ 10 ^ 799 :=
  calc (2 : ℚ) ^ 54 * 5 ^ 1075 ≤ 10 ^ 17 * 5 ^ (10 * 108) :=
        mul_le_mul (by norm_num) (pow_le_pow_right₀ (by norm_num) (by decide)) (by positivity) (by positivity)
    _ = 10 ^ 17 * (5 ^ 10) ^ 108 := congrArg _ (pow_mul 5 10 108)
    _ ≤ 10 ^ 17 * (10 ^ 7) ^ 108 :=
        mul_le_mul_of_nonneg_left (pow_le_pow_left₀ (by norm_num) (by norm_num) 108) (by positivity)
    _ = 10 ^ 17 * 10 ^ (7 * 108) := congrArg _ (pow_mul 10 7 108).symm
    _ = 10 ^ (17 + 7 * 108) := (pow_add 10 17 (7 * 108)).symm
    _ ≤ 10 ^ 799 := pow_le_pow_right₀ (by norm_num) (by decide)

/-- The grid of so many digits is fine enough for a number of the format. -/
private theorem Covered.fine (covered : Covered f) (held : f.Fits m e) {q : ℕ} {place : ℤ} (long : (10 : ℚ) ^ 799 ≤ q)
    (rounds : f.Rounds x m e) (low : q * 10 ^ place < x) : place ≤ e - 2 := by
  by_contra coarse
  have least := covered.lowest_ge.trans held.lowest
  have power : (0 : ℚ) < 10 ^ place := by positivity
  have half : (m + 1 / 2 : ℚ) < 2 ^ 53 := covered.significand_lt held
  have above : (10 : ℚ) ^ 799 * 10 ^ place < 2 ^ 54 * 2 ^ place :=
    calc (10 : ℚ) ^ 799 * 10 ^ place ≤ q * 10 ^ place := by gcongr
      _ < x := low
      _ ≤ (m + 1 / 2) * 2 ^ e := rounds.high
      _ ≤ 2 ^ 53 * 2 ^ (place + 1) :=
        mul_le_mul half.le (zpow_le_zpow_right₀ (by norm_num) (by omega)) (by positivity) (by positivity)
      _ = 2 ^ 54 * 2 ^ place := by
        rw [zpow_add₀ two_ne_zero]
        ring
  have ten : (10 : ℚ) ^ place = 2 ^ place * 5 ^ place := by rw [← mul_zpow]; norm_num
  have five : (1 : ℚ) ≤ 5 ^ 1075 * 5 ^ place := by
    rw [← zpow_natCast, ← zpow_add₀ (by norm_num)]
    exact one_le_zpow₀ (by norm_num) (by omega)
  have two : (0 : ℚ) < 2 ^ place := by positivity
  refine absurd above (not_lt_of_ge ?_)
  calc (2 : ℚ) ^ 54 * 2 ^ place ≤ 2 ^ 54 * 2 ^ place * (5 ^ 1075 * 5 ^ place) :=
        le_mul_of_one_le_right (by positivity) five
    _ = 2 ^ 54 * 5 ^ 1075 * 10 ^ place := by rw [ten, mul_mul_mul_comm]
    _ ≤ 10 ^ 799 * 10 ^ place := mul_le_mul_of_nonneg_right five_pow_le power.le

/-- Between two numbers of so many digits is no end of a range, so that what lies between them is rounded alike. -/
private theorem Covered.between (covered : Covered f) (held : f.Fits m e) {q : ℕ} {place : ℤ}
    (long : (10 : ℚ) ^ 799 ≤ q) (small : place ≤ 0) {y : ℚ} (rounds : f.Rounds x m e) (lowX : q * 10 ^ place < x)
    (highX : x < (q + 1) * 10 ^ place) (lowY : q * 10 ^ place < y) (highY : y < (q + 1) * 10 ^ place) :
    f.Rounds y m e := by
  have fine := covered.fine held long rounds lowX
  have quarter : (2 : ℚ) ^ e = 4 * 2 ^ (e - 2) := by
    rw [zpow_sub₀ two_ne_zero]
    ring
  obtain ⟨j, low⟩ : ∃ j : ℤ, (m - f.below m e) * 2 ^ e = j * (2 : ℚ) ^ (e - 2) := by
    unfold Format.below
    rw [quarter]
    split_ifs
    · exact ⟨4 * m - 1, by push_cast; ring⟩
    · exact ⟨4 * m - 2, by push_cast; ring⟩
  have high : (m + 1 / 2) * 2 ^ e = (4 * m + 2 : ℤ) * (2 : ℚ) ^ (e - 2) := by
    rw [quarter]
    push_cast
    ring
  obtain ⟨least, most, -⟩ := rounds
  have under := (quarters_apart j (q := q) small fine).resolve_right (by linarith)
  have past := (quarters_apart (4 * m + 2) (q := q) small fine).resolve_left (by linarith)
  refine ⟨by linarith, by linarith, ?_⟩
  rintro (bottom | top) <;> linarith

/-- As many digits as count, the first of them not zero. -/
private theorem le_ofDigits_take (all : ∀ b ∈ digits, Byte.isDigit b = true)
    (first : ∀ b ∈ digits.head?, isZeroDigit b = false)
    (more : digits.drop decisive ≠ []) : (10 : ℚ) ^ 799 ≤ ofDigits (digits.take decisive) := by
  cases digits with
  | nil => exact absurd List.drop_nil more
  | cons b rest =>
    have long : 799 ≤ rest.length := by
      by_contra short
      exact more (List.drop_eq_nil_of_le (by rw [List.length_cons]; show rest.length + 1 ≤ 800; omega))
    have least := le_ofDigits (all b List.mem_cons_self) (first b rfl) (rest.take 799)
    rw [List.length_take, min_eq_left long, ← Nat.cast_le (α := ℚ), Nat.cast_pow] at least
    exact least

/-- A number past reach by itself is infinite. -/
private theorem toWord_past (covered : Covered f) {d : Scaled} (past : 10 ^ (reach : ℤ) ≤ d.value) :
    d.toWord f = f.infinity := by
  have positive := (zpow_ten_pos reach).trans_le past
  obtain ⟨m, e, held, rounds⟩ := exists_rounds_of_nonneg covered.wide positive.le
  exact (toWord_eq covered held rounds).trans (covered.past_reach held rounds past)

/-- Behind the digits that count, a one stands for whatever is not zero. -/
private theorem toWord_sticky (covered : Covered f) (held : f.Fits m e) {q : ℕ} {place : ℤ} {rest : ℚ}
    (long : (10 : ℚ) ^ 799 ≤ q) (above : 0 < rest) (below : rest < 10 ^ place)
    (rounds : f.Rounds (q * 10 ^ place + rest) m e) :
    (⟨10 * q + 1, place - 1⟩ : Scaled).toWord f = min f.infinity (f.word m e) := by
  have power := zpow_ten_pos place
  have value : (⟨10 * q + 1, place - 1⟩ : Scaled).value = q * 10 ^ place + 1 / 10 * 10 ^ place := by
    rw [Scaled.value, zpow_sub₀ (by norm_num)]
    push_cast
    ring
  rcases le_or_gt place 0 with small | large
  · refine toWord_eq covered held ?_
    rw [value]
    exact covered.between held long small rounds (by linarith) (by linarith) (by linarith) (by linarith)
  · have past : (10 : ℚ) ^ (reach : ℤ) ≤ q * 10 ^ place :=
      calc (10 : ℚ) ^ (reach : ℤ) = 10 ^ 400 := zpow_natCast 10 400
        _ ≤ 10 ^ 799 := pow_le_pow_right₀ (by norm_num) (by decide)
        _ ≤ q := long
        _ ≤ q * 10 ^ place := le_mul_of_one_le_right (Nat.cast_nonneg q) (one_le_zpow₀ (by norm_num) large.le)
    rw [covered.past_reach held rounds (by linarith)]
    exact toWord_past covered (by rw [value]; linarith)

/-- A number written by any digits has the word of the number that it is rounded to, or is infinite. -/
theorem toWord_ofDigits (covered : Covered f) (all : ∀ b ∈ digits, Byte.isDigit b = true) {k : ℤ}
    (held : f.Fits m e) (rounds : f.Rounds (ofDigits digits * (10 : ℚ) ^ k) m e) :
    (Scaled.ofDigits digits k).toWord f = min f.infinity (f.word m e) := by
  rw [← ofDigits_dropWhile] at rounds
  unfold Scaled.ofDigits
  dsimp only
  replace all : ∀ b ∈ digits.dropWhile isZeroDigit, Byte.isDigit b = true :=
    fun b member => all b (List.dropWhile_subset _ member)
  have first : ∀ b ∈ (digits.dropWhile isZeroDigit).head?, isZeroDigit b = false := fun b begins => by
    have := List.head?_dropWhile_not isZeroDigit digits
    rw [begins] at this
    exact this
  generalize digits.dropWhile isZeroDigit = counted at *
  have split := ofDigits_append (counted.take decisive) (counted.drop decisive)
  rw [List.take_append_drop] at split
  have power := zpow_ten_pos k
  have lift : ((10 : ℚ) ^ (counted.drop decisive).length) * 10 ^ k = 10 ^ (k + (counted.drop decisive).length) := by
    rw [zpow_add₀ (by norm_num), zpow_natCast, mul_comm]
  split_ifs with exact
  · rw [ofDigits_of_zeros exact, Nat.add_zero] at split
    refine toWord_eq covered held ?_
    rw [split] at rounds
    push_cast at rounds
    rwa [mul_assoc, lift] at rounds
  · have long := le_ofDigits_take all first (fun none => exact (by rw [none]; rfl))
    have some : (0 : ℚ) < ofDigits (counted.drop decisive) := by
      exact_mod_cast ofDigits_pos (fun b member => all b (List.drop_subset _ _ member))
        (Bool.eq_false_of_not_eq_true exact)
    have less : (ofDigits (counted.drop decisive) : ℚ) < 10 ^ (counted.drop decisive).length := by
      exact_mod_cast ofDigits_lt (fun b member => all b (List.drop_subset _ _ member))
    generalize ofDigits (counted.take decisive) = q at split long ⊢
    have number : (ofDigits counted * 10 ^ k : ℚ) =
        q * 10 ^ (k + (counted.drop decisive).length) + ofDigits (counted.drop decisive) * 10 ^ k := by
      rw [split, ← lift]
      push_cast
      ring
    rw [number] at rounds
    have below : ofDigits (counted.drop decisive) * (10 : ℚ) ^ k < 10 ^ (k + (counted.drop decisive).length) := by
      rw [← lift]
      gcongr
    have above : 0 < ofDigits (counted.drop decisive) * (10 : ℚ) ^ k := by positivity
    exact toWord_sticky covered held long above below rounds

/-! Literals -/

/-- What may follow the digits: a mark with an exponent, or nothing. -/
inductive Field : List UInt8 → ℤ → Prop
  | absent : Field [] 0
  | marked {mark : UInt8} {field : List UInt8} {k : ℤ} (letter : Byte.toLower mark = 0x65)
      (signed : exponent? field = some k) :
    Field (mark :: field) k

/-- A literal with its digits and the exponent of the last of them. -/
inductive Literal : List UInt8 → List UInt8 → ℤ → Prop
  | whole {digits rest : List UInt8} {k : ℤ} (some : digits ≠ []) (all : ∀ b ∈ digits, Byte.isDigit b = true)
      (field : Field rest k) :
    Literal (digits ++ rest) digits k
  | pointed {before after rest : List UInt8} {k : ℤ} (some : before ++ after ≠ [])
      (all : ∀ b ∈ before ++ after, Byte.isDigit b = true)
    (field : Field rest k) : Literal (before ++ 0x2e :: (after ++ rest)) (before ++ after) (k - after.length)

private theorem takeWhile_exact {run rest : List UInt8} (all : ∀ b ∈ run, Byte.isDigit b = true)
    (stop : ∀ b ∈ rest.head?, Byte.isDigit b = false) : (run ++ rest).takeWhile Byte.isDigit = run := by
  rw [List.takeWhile_append_of_pos all]
  cases rest with
  | nil => exact List.append_nil run
  | cons b rest => rw [List.takeWhile_cons_of_neg (by rw [stop b rfl]; exact Bool.false_ne_true), List.append_nil]

private theorem Field.stop {rest : List UInt8} {k : ℤ} (field : Field rest k) :
    ∀ b ∈ rest.head?, Byte.isDigit b = false ∧ b ≠ 0x2e := by
  cases field with
  | absent => exact fun b begins => nomatch begins
  | marked letter =>
    rintro b ⟨⟩
    have all : ∀ b : UInt8, Byte.toLower b = 0x65 → Byte.isDigit b = false ∧ b ≠ 0x2e :=
      fun b => Byte.forall_of_lt b (by decide +kernel)
    exact all _ letter

private theorem Scaled.ofDigits_shift (digits : List UInt8) (a b : ℤ) :
    (⟨(Scaled.ofDigits digits a).digits, (Scaled.ofDigits digits a).exponent + b⟩ : Scaled) =
      Scaled.ofDigits digits (a + b) := by
  unfold Scaled.ofDigits
  dsimp only
  split_ifs
  · rw [add_right_comm]
  · rw [sub_add_eq_add_sub, add_right_comm]

/-- The number that digits write with the exponent of the field behind them. -/
private def withField (base : Scaled) : List UInt8 → Option Scaled
  | [] => some base
  | mark :: field =>
    if Byte.toLower mark = 0x65 then (exponent? field).map fun e => ⟨base.digits, base.exponent + e⟩ else none

private theorem withField_eq_some_iff {rest : List UInt8} {d : Scaled} {a : ℤ} :
    withField (Scaled.ofDigits digits a) rest = some d ↔ ∃ k, Field rest k ∧ d = Scaled.ofDigits digits (a + k) := by
  constructor
  · intro read
    cases rest with
    | nil =>
      refine ⟨0, .absent, ?_⟩
      rw [add_zero]
      exact (Option.some.inj read).symm
    | cons mark field =>
      rw [withField] at read
      split_ifs at read with letter
      obtain ⟨k, signed, rfl⟩ := Option.map_eq_some_iff.mp read
      exact ⟨k, .marked letter signed, Scaled.ofDigits_shift digits a k⟩
  · rintro ⟨k, field, rfl⟩
    cases field with
    | absent => rw [add_zero, withField]
    | marked letter signed => rw [withField, if_pos letter, signed, Option.map_some, Scaled.ofDigits_shift]

private theorem literal?_whole {whole rest : List UInt8} (all : ∀ b ∈ whole, Byte.isDigit b = true)
    (stop : ∀ b ∈ rest.head?, Byte.isDigit b = false ∧ b ≠ 0x2e) :
    literal? (whole ++ rest) = if whole = [] then none else withField (Scaled.ofDigits whole 0) rest := by
  have run := takeWhile_exact all fun b begins => (stop b begins).1
  have point : (rest.head? == some 0x2e) = false := by
    rw [beq_eq_false_iff_ne]
    exact fun begins => (stop _ begins).2 rfl
  unfold literal?
  dsimp only
  rw [run, List.drop_left, point]
  simp only [List.isEmpty_nil, Bool.and_true, List.isEmpty_iff, Bool.false_eq_true, if_false, List.append_nil,
    List.length_nil,     Nat.cast_zero, neg_zero, List.drop_zero]
  rfl

private theorem literal?_pointed {before after rest : List UInt8} (allBefore : ∀ b ∈ before, Byte.isDigit b = true)
    (allAfter : ∀ b ∈ after, Byte.isDigit b = true) (stop : ∀ b ∈ rest.head?, Byte.isDigit b = false) :
    literal? (before ++ 0x2e :: (after ++ rest)) =
      if before ++ after = [] then none
      else withField (Scaled.ofDigits (before ++ after) (-(after.length : ℤ))) rest := by
  have run : (before ++ 0x2e :: (after ++ rest)).takeWhile Byte.isDigit = before :=
    takeWhile_exact allBefore fun b begins => by
      cases begins
      rfl
  have part := takeWhile_exact allAfter stop
  have point : ((0x2e :: (after ++ rest)).head? == some 0x2e) = true := rfl
  unfold literal?
  dsimp only
  rw [run, List.drop_left, point]
  simp only [if_true, List.drop_succ_cons, List.drop_zero, part, List.drop_left, Bool.and_eq_true, List.isEmpty_iff,
    List.append_eq_nil_iff]
  rfl

private theorem exists_run (text : List UInt8) :
    ∃ run rest, text = run ++ rest ∧ (∀ b ∈ run, Byte.isDigit b = true) ∧ ∀ b ∈ rest.head?, Byte.isDigit b = false := by
  refine ⟨text.takeWhile Byte.isDigit, text.dropWhile Byte.isDigit, List.takeWhile_append_dropWhile.symm, ?_,
    fun b begins => ?_⟩
  · exact List.all_eq_true.mp List.all_takeWhile
  · have := List.head?_dropWhile_not Byte.isDigit text
    rw [begins] at this
    exact this

/-- A text is cut behind its digits, or behind those after its point. -/
private theorem exists_cut (text : List UInt8) :
    (∃ whole rest, text = whole ++ rest ∧ (∀ b ∈ whole, Byte.isDigit b = true) ∧
      ∀ b ∈ rest.head?, Byte.isDigit b = false ∧ b ≠ 0x2e) ∨
    ∃ before after rest, text = before ++ 0x2e :: (after ++ rest) ∧ (∀ b ∈ before, Byte.isDigit b = true) ∧
      (∀ b ∈ after, Byte.isDigit b = true) ∧ ∀ b ∈ rest.head?, Byte.isDigit b = false := by
  obtain ⟨whole, tail, rfl, all, stop⟩ := exists_run text
  by_cases point : tail.head? = some 0x2e
  · right
    cases tail with
    | nil => cases point
    | cons b tail =>
      cases point
      obtain ⟨after, rest, rfl, all', stop'⟩ := exists_run tail
      exact ⟨whole, after, rest, rfl, all, all', stop'⟩
  · left
    exact ⟨whole, tail, rfl, all, fun b begins => ⟨stop b begins, fun same => point (same ▸ begins)⟩⟩

/-- What is read is a literal, with all digits that count. -/
theorem literal?_eq_some_iff {text : List UInt8} {d : Scaled} :
    literal? text = some d ↔ ∃ digits k, Literal text digits k ∧ d = Scaled.ofDigits digits k := by
  constructor
  · intro read
    rcases exists_cut text with ⟨whole, rest, rfl, all, stop⟩ | ⟨before, after, rest, rfl, allBefore, allAfter, stop⟩
    · rw [literal?_whole all stop] at read
      split_ifs at read with empty
      obtain ⟨k, field, rfl⟩ := withField_eq_some_iff.mp read
      exact ⟨whole, k, .whole empty all field, by rw [zero_add]⟩
    · rw [literal?_pointed allBefore allAfter stop] at read
      split_ifs at read with empty
      obtain ⟨k, field, rfl⟩ := withField_eq_some_iff.mp read
      refine ⟨before ++ after, k - after.length, .pointed empty ?_ field, by rw [neg_add_eq_sub]⟩
      exact fun b member => (List.mem_append.mp member).elim (allBefore b) (allAfter b)
  · rintro ⟨digits, k, literal, rfl⟩
    cases literal with
    | whole some all field =>
      rw [literal?_whole all field.stop, if_neg some]
      exact withField_eq_some_iff.mpr ⟨k, field, by rw [zero_add]⟩
    | @pointed before after rest k some all field =>
      rw [literal?_pointed (fun b member => all b (List.mem_append_left _ member))
        (fun b member => all b (List.mem_append_right _ member))
        fun b begins => (field.stop b begins).1, if_neg some]
      exact withField_eq_some_iff.mpr ⟨k, field, by rw [neg_add_eq_sub]⟩

/-! Texts -/

private theorem Literal.head? {text : List UInt8} {k : ℤ} (literal : Literal text digits k) :
    ∃ b ∈ text.head?, Byte.isDigit b = true ∨ b = 0x2e := by
  cases literal with
  | whole some all field =>
    obtain ⟨b, rest, rfl⟩ := List.exists_cons_of_ne_nil some
    exact ⟨b, rfl, .inl (all b List.mem_cons_self)⟩
  | @pointed before after rest k some all field =>
    cases before with
    | nil => exact ⟨_, rfl, .inr rfl⟩
    | cons b before => exact ⟨b, rfl, .inl (all b List.mem_cons_self)⟩

private theorem Literal.all {text : List UInt8} {k : ℤ} (literal : Literal text digits k) :
    ∀ b ∈ digits, Byte.isDigit b = true := by
  cases literal <;> assumption

private theorem plain_of_head {b : UInt8} (begins : Byte.isDigit b = true ∨ b = 0x2e) :
    Byte.toLower b ≠ 0x6e ∧ Byte.toLower b ≠ 0x69 ∧ Integer.isSign b = false := by
  revert begins
  exact Byte.forall_of_lt b (by decide +kernel)

/-- A literal is not taken for a name. -/
private theorem Literal.unsigned?_eq {text : List UInt8} {k : ℤ} (literal : Literal text digits k) :
    unsigned? f text = some (.word ((Scaled.ofDigits digits k).toWord f)) := by
  obtain ⟨b, begins, kind⟩ := literal.head?
  obtain ⟨notN, notI, -⟩ := plain_of_head kind
  have small : (text.map Byte.toLower).head? = some (Byte.toLower b) := by rw [List.head?_map, begins, Option.map_some]
  have nan : text.map Byte.toLower ≠ Text.Utf8.encode "nan" := by
    intro same
    rw [same] at small
    exact notN (Option.some.inj small).symm
  have inf : ¬(text.map Byte.toLower = Text.Utf8.encode "inf" ∨ text.map Byte.toLower = Text.Utf8.encode "infinity") := by
    rintro (same | same)
    · rw [same] at small
      exact notI (Option.some.inj small).symm
    · rw [same] at small
      exact notI (Option.some.inj small).symm
  unfold unsigned?
  dsimp only
  rw [if_neg nan, if_neg inf, literal?_eq_some_iff.mpr ⟨digits, k, literal, rfl⟩, Option.map_some]

/-- A literal is read as the number of the format that it is rounded to, whatever the number of its digits. A sign may
stand before it and blanks around. -/
theorem read_literal (covered : Covered f) {text lead body : List UInt8} {negative : Bool} {k : ℤ}
    (trims : Text.Spacing.Trims text (lead ++ body)) (sign : Integer.Sign true lead negative)
      (literal : Literal body digits k)
    (held : f.Fits m e) (rounds : f.Rounds (ofDigits digits * (10 : ℚ) ^ k) m e) :
    read f text = .ok (.word (f.signed negative (min f.infinity (f.word m e)))) := by
  obtain ⟨b, begins, kind⟩ := literal.head?
  have split : Integer.splitSign (lead ++ body) = (negative, body) := Integer.splitSign_append sign fun c first => by
    rw [begins] at first
    cases first
    exact (plain_of_head kind).2.2
  have some : (lead ++ body).isEmpty = false := by
    rw [List.isEmpty_eq_false_iff]
    intro none
    rw [(List.append_eq_nil_iff.mp none).2] at begins
    cases begins
  unfold read
  dsimp only
  rw [trims.trim_eq, some, split]
  dsimp only
  rw [literal.unsigned?_eq, toWord_ofDigits covered literal.all held rounds, if_neg Bool.false_ne_true]
  rfl

end ByteFlow.Number.Decimal
