import ByteFlow.Proofs.Number.Decimal

/-! Numbers printed.
The shortest text of a number is read back as this number, bit for bit. A text with a fixed number of places has the
digits of the nearest number with so many places. -/
namespace ByteFlow.Number.Decimal
open Binary

variable {f : Format} {m : Nat} {e : ℤ} {digits : List UInt8}

/-! Digits -/

private theorem isDigit_digits (n : Nat) : ∀ b ∈ Integer.digits 10 n, Byte.isDigit b = true := by
  rw [Integer.digits_eq_map (by decide)]
  intro b member
  obtain ⟨d, place, rfl⟩ := List.mem_map.mp member
  have all : ∀ d < 10, Byte.isDigit (Byte.digit d) = true := by decide
  exact all d (Integer.lt_of_mem_places (by decide) place)

private theorem digit_sub {d : Nat} (small : d < 10) : (Byte.digit d).toNat - 0x30 = d := by
  revert d
  decide

/-- The digits of a number write it. -/
@[simp] theorem ofDigits_digits (n : Nat) : ofDigits (Integer.digits 10 n) = n := by
  induction n using Nat.strongRecOn with
  | ind n ih =>
    rw [Integer.digits]
    split
    · next long =>
      rw [ofDigits_append, ih _ (Nat.div_lt_self (by omega) (by decide)), ofDigits_cons,
        digit_sub (Nat.mod_lt _ (by decide))]
      simp
      omega
    · next short =>
      rw [ofDigits_cons, digit_sub (by omega)]
      simp

private theorem isDigit_zeros (n : Nat) : ∀ b ∈ zeros n, Byte.isDigit b = true := by
  intro b member
  rw [List.eq_of_mem_replicate member]
  rfl

private theorem length_zeros (n : Nat) : (zeros n).length = n := List.length_replicate

private theorem ofDigits_zeros (n : Nat) : ofDigits (zeros n) = 0 := by
  apply ofDigits_of_zeros
  rw [List.all_eq_true]
  intro b member
  rw [List.eq_of_mem_replicate member]
  rfl

/-- A text with a point is a literal of its digits. -/
private theorem literal_pointed (all : ∀ b ∈ digits, Byte.isDigit b = true) (places : Nat) :
    Literal (pointed digits places) (zeros (places + 1 - digits.length) ++ digits) (-(places : ℤ)) := by
  have whole : ∀ b ∈ zeros (places + 1 - digits.length) ++ digits, Byte.isDigit b = true :=
    fun b member => (List.mem_append.mp member).elim (isDigit_zeros _ b) (all b)
  have long : places + 1 ≤ (zeros (places + 1 - digits.length) ++ digits).length := by
    rw [List.length_append, length_zeros]
    omega
  unfold pointed
  dsimp only
  generalize zeros (places + 1 - digits.length) ++ digits = padded at whole long ⊢
  have some : padded ≠ [] := List.ne_nil_of_length_pos (by omega)
  split_ifs with none
  · have literal := Literal.whole some whole .absent
    rwa [List.append_nil, ← neg_zero, ← Nat.cast_zero, ← none] at literal
  · have split := List.take_append_drop (padded.length - places) padded
    have tail : (padded.drop (padded.length - places)).length = places := by
      rw [List.length_drop]
      omega
    rw [← split] at some whole
    have literal := Literal.pointed some whole .absent
    rwa [List.append_nil, split, tail, zero_sub] at literal

/-- What is written is a literal of the number. -/
private theorem exists_literal_write (d : Scaled) :
    ∃ digits k, Literal d.write digits k ∧ (ofDigits digits * 10 ^ k : ℚ) = d.value := by
  unfold Scaled.write
  dsimp only
  split_ifs with large
  · refine ⟨Integer.digits 10 d.digits ++ zeros d.exponent.toNat, 0, ?_, ?_⟩
    · have some : Integer.digits 10 d.digits ++ zeros d.exponent.toNat ≠ [] :=
        fun none => Integer.digits_ne_nil (by decide) _ (List.append_eq_nil_iff.mp none).1
      have literal :=
        Literal.whole some
          (fun b member => (List.mem_append.mp member).elim (isDigit_digits _ b) (isDigit_zeros _ b)) .absent
      rwa [List.append_nil] at literal
    · rw [ofDigits_append, ofDigits_digits, ofDigits_zeros, length_zeros, Scaled.value, zpow_zero, mul_one]
      push_cast
      rw [← zpow_natCast, Int.toNat_of_nonneg large, add_zero]
  · refine ⟨_, _, literal_pointed (isDigit_digits _) _, ?_⟩
    rw [ofDigits_append, ofDigits_digits, ofDigits_zeros, Nat.zero_mul, Nat.zero_add, Scaled.value]
    congr 2
    omega

/-- Bytes of a number without its sign. -/
private def Plain (text : List UInt8) : Prop := ∀ b ∈ text, Byte.isDigit b = true ∨ b = 0x2e

private theorem plain_pointed (all : ∀ b ∈ digits, Byte.isDigit b = true) (places : Nat) :
    Plain (pointed digits places) := by
  have whole : ∀ b ∈ zeros (places + 1 - digits.length) ++ digits, Byte.isDigit b = true :=
    fun b member => (List.mem_append.mp member).elim (isDigit_zeros _ b) (all b)
  unfold pointed
  dsimp only
  generalize zeros (places + 1 - digits.length) ++ digits = padded at whole ⊢
  intro b member
  split_ifs at member
  · exact .inl (whole b member)
  · rcases List.mem_append.mp member with front | back
    · exact .inl (whole b (List.mem_of_mem_take front))
    · exact (List.mem_cons.mp back).elim .inr fun member => .inl (whole b (List.mem_of_mem_drop member))

private theorem plain_write (d : Scaled) : Plain d.write := by
  unfold Scaled.write
  dsimp only
  split_ifs
  · exact fun b member => .inl ((List.mem_append.mp member).elim (isDigit_digits _ b) (isDigit_zeros _ b))
  · exact plain_pointed (isDigit_digits _) _

/-! The shortest text -/

/-- A sign in front of a text without blanks leaves nothing to trim. -/
private theorem trims_signed {text : List UInt8} (inked : ∀ b ∈ text, ¬ Text.Spacing.Blank b) (negative : Bool) :
    Text.Spacing.Trims (signed negative text) (signed negative text) := by
  apply Text.Spacing.trims_self
  cases negative with
  | false => exact inked
  | true =>
    intro b member
    rcases List.mem_cons.mp member with rfl | member
    · decide
    · exact inked b member

private theorem Plain.inked {text : List UInt8} (plain : Plain text) : ∀ b ∈ text, ¬ Text.Spacing.Blank b := by
  intro b member
  have kind := plain b member
  revert kind
  exact Byte.forall_of_lt b (by decide +kernel)

private theorem read_signed (covered : Covered f) {text : List UInt8} {k : ℤ} (plain : Plain text)
    (literal : Literal text digits k)
    (held : f.Fits m e) (rounds : f.Rounds (ofDigits digits * (10 : ℚ) ^ k) m e) (negative : Bool) :
    read f (signed negative text) = .ok (.word (f.signed negative (min f.infinity (f.word m e)))) := by
  have trims := trims_signed plain.inked negative
  cases negative with
  | false => exact read_literal covered trims .none literal held rounds
  | true => exact read_literal covered trims (.minus rfl) literal held rounds

/-- The text of a number is a literal that is rounded to it. -/
private theorem exists_literal_shortest (covered : Covered f) (held : f.Fits m e) (negative : Bool) :
    ∃ text digits k, shortest f (.finite negative m e) = signed negative text ∧ Plain text ∧ Literal text digits k ∧
      f.Rounds (ofDigits digits * (10 : ℚ) ^ k) m e := by
  by_cases some : m = 0
  · have literal := Literal.whole (List.cons_ne_nil 0x30 []) (isDigit_zeros 1) .absent
    rw [List.append_nil] at literal
    refine ⟨zeros 1, zeros 1, 0, by rw [shortest, if_pos some], fun b member => .inl (isDigit_zeros 1 b member),
      literal, ?_⟩
    have rounds := f.rounds_self m e
    rw [some, Nat.cast_zero, zero_mul] at rounds
    rwa [ofDigits_zeros, Nat.cast_zero, zero_mul, some]
  · obtain ⟨rounds, -, -⟩ := shortest_digits covered held some
    obtain ⟨digits, k, literal, value⟩ := exists_literal_write (Scaled.normal 17 (Span.ofFinite f m e).shortest)
    exact ⟨_, digits, k, by rw [shortest, if_neg some], plain_write _, literal, value ▸ rounds⟩

private theorem inked_of_all {text : List UInt8} (all : text.all (fun b => !Byte.isBlank b) = true) :
    ∀ b ∈ text, ¬ Text.Spacing.Blank b := by
  intro b member blank
  have inked := List.all_eq_true.mp all b member
  rw [(Text.Spacing.isBlank_iff b).mpr blank] at inked
  cases inked

private theorem read_infinityText (f : Format) (negative : Bool) :
    read f (signed negative infinityText) = .ok (.word (f.signed negative f.infinity)) := by
  have trims := (trims_signed (inked_of_all rfl) negative : Text.Spacing.Trims (signed negative infinityText) _).trim_eq
  unfold read
  dsimp only
  rw [trims]
  cases negative <;> rfl

private theorem read_nanText (f : Format) : read f nanText = .ok .nan := by
  have trims := (trims_signed (inked_of_all rfl) false : Text.Spacing.Trims (signed false nanText) _).trim_eq
  unfold read
  dsimp only
  rw [show nanText = signed false nanText from rfl, trims]
  rfl

/-- Every number and infinity are read back from their shortest texts, bit for bit; what is no number is read as none. -/
theorem read_shortest (covered : Covered f) {word : Nat} (unsigned : word < f.sign) (negative : Bool) :
    read f (shortest f (decode f (f.signed negative word))) =
      .ok (if word ≤ f.infinity then .word (f.signed negative word) else .nan) := by
  rcases lt_trichotomy word f.infinity with finite | rfl | past
  · obtain ⟨m, e, held, rfl, decoded⟩ := exists_decode finite
    obtain ⟨text, digits, k, same, plain, literal, rounds⟩ := exists_literal_shortest covered held negative
    rw [decoded, same, read_signed covered plain literal held rounds, min_eq_right finite.le, if_pos finite.le]
  · rw [decode_of_le le_rfl unsigned, if_pos rfl, if_pos le_rfl]
    exact read_infinityText f negative
  · rw [decode_of_le past.le unsigned, if_neg past.ne', if_neg (Nat.not_le_of_gt past)]
    exact read_nanText f

/-! Fixed places -/

/-- So many places hold a number whole. -/
private theorem exists_whole (m : Nat) (e : ℤ) : ∃ j : ℕ, (m * 2 ^ e * 10 ^ (-e).toNat : ℚ) = j := by
  rcases le_or_gt 0 e with large | small
  · obtain ⟨n, rfl⟩ := Int.eq_ofNat_of_zero_le large
    refine ⟨m * 2 ^ n, ?_⟩
    have none : (-(n : ℤ)).toNat = 0 := by omega
    rw [none, zpow_natCast]
    push_cast
    ring
  · obtain ⟨n, rfl⟩ : ∃ n : ℕ, e = -(n : ℤ) := ⟨(-e).toNat, by omega⟩
    refine ⟨m * 5 ^ n, ?_⟩
    have ten : (10 : ℚ) ^ n = 2 ^ n * 5 ^ n := by rw [← mul_pow]; norm_num
    rw [neg_neg, Int.toNat_natCast, ten, zpow_neg, zpow_natCast]
    push_cast
    field_simp

/-- A whole number or the nearest to one, of two the even one. -/
structure Nearest (x : ℚ) (n : ℕ) : Prop where
  low : (n : ℚ) - 1 / 2 ≤ x
  high : x ≤ n + 1 / 2
  tie : x = n - 1 / 2 ∨ x = n + 1 / 2 → n % 2 = 0

/-- The digits are those of the nearest multiple of the last place, zeros behind the places that hold the number whole. -/
private theorem nearest_digits (places m : Nat) (e : ℤ) :
    Nearest (m * 2 ^ e * 10 ^ places)
      (roundDiv ((scaled m 1 (-e)).1 * Nat.pow 10 (min places (-e).toNat)) (scaled m 1 (-e)).2 *
      10 ^ (places - min places (-e).toNat)) := by
  obtain ⟨divides, ratio⟩ := scaled_spec m Nat.one_pos (-e)
  rw [Nat.cast_one, div_one, zpow_neg, div_inv_eq_mul] at ratio
  generalize (scaled m 1 (-e)).1 = num at ratio ⊢
  generalize (scaled m 1 (-e)).2 = den at divides ratio ⊢
  generalize lifted : min places (-e).toNat = kept
  obtain ⟨low, high, tie⟩ := roundDiv_spec (num * Nat.pow 10 kept) divides
  have number : ((num * Nat.pow 10 kept : ℕ) : ℚ) / den = m * 2 ^ e * 10 ^ kept := by
    rw [← ratio, Nat.cast_mul, mul_div_right_comm]
    congr 1
    exact_mod_cast rfl
  rw [number] at low high tie
  generalize roundDiv (num * Nat.pow 10 kept) den = n at low high tie ⊢
  rcases Nat.lt_or_ge kept places with more | all
  · obtain ⟨j, whole⟩ := exists_whole m e
    have same : kept = (-e).toNat := by omega
    rw [same, whole] at low high
    obtain rfl : n = j := by
      have : (n : ℚ) < j + 1 := by linarith
      have : n < j + 1 := by exact_mod_cast this
      have : (j : ℚ) < n + 1 := by linarith
      have : j < n + 1 := by exact_mod_cast this
      omega
    have exact : (m * 2 ^ e * 10 ^ places : ℚ) = (n * 10 ^ (places - kept) : ℕ) := by
      obtain ⟨k, split⟩ := Nat.exists_eq_add_of_le more.le
      rw [split, Nat.add_sub_cancel_left, pow_add, ← mul_assoc, same, whole]
      push_cast
      rfl
    rw [exact]
    generalize n * 10 ^ (places - kept) = x
    refine ⟨by linarith, by linarith, ?_⟩
    rintro (half | half) <;> linarith
  · have same : kept = places := by omega
    rw [same, Nat.sub_self, pow_zero, Nat.mul_one]
    rw [same] at low high tie
    exact ⟨low, high, tie⟩

/-- A point is set before so many digits, with one digit before it or more. -/
private theorem exists_pointed (digits : List UInt8) (places : Nat) :
    ∃ before after, pointed digits places = before ++ (if places = 0 then [] else 0x2e :: after) ∧ before ≠ [] ∧
      after.length = places ∧ before ++ after = zeros (places + 1 - digits.length) ++ digits := by
  have long : places + 1 ≤ (zeros (places + 1 - digits.length) ++ digits).length := by
    rw [List.length_append, length_zeros]
    omega
  unfold pointed
  dsimp only
  generalize zeros (places + 1 - digits.length) ++ digits = padded at long ⊢
  refine ⟨padded.take (padded.length - places), padded.drop (padded.length - places), ?_, ?_, ?_,
    List.take_append_drop _ _⟩
  · split_ifs with none
    · rw [none, Nat.sub_zero, List.take_length, List.append_nil]
    · rfl
  · apply List.ne_nil_of_length_pos
    rw [List.length_take]
    omega
  · rw [List.length_drop]
    omega

/-- Before the point a zero stands alone: the text is filled up to one digit there, and a number begins with no zero. -/
private theorem eq_nil_of_zero {n kept places : Nat} {rest after : List UInt8} (count : after.length = places)
    (split : 0x30 :: rest ++ after = zeros (places + 1 - (Integer.digits 10 n ++ zeros (places - kept)).length) ++
      (Integer.digits 10 n ++ zeros (places - kept))) : rest = [] := by
  by_contra some
  have more := List.length_pos_of_ne_nil some
  have lengths := congrArg List.length split
  rw [List.length_append, List.length_append, List.length_append, length_zeros, length_zeros, List.length_cons,
    count] at lengths
  have filled : places + 1 - ((Integer.digits 10 n).length + (places - kept)) = 0 := by omega
  rw [List.length_append, length_zeros, filled] at split
  cases run : Integer.digits 10 n with
  | nil => exact absurd run (Integer.digits_ne_nil (by decide) n)
  | cons b tail =>
    rw [run] at split lengths
    obtain rfl : 0x30 = b := (List.cons.inj split).1
    cases tail with
    | nil =>
      rw [List.length_singleton] at lengths
      omega
    | cons c tail => exact absurd run (Integer.digits_bare n (by decide) (by decide) c tail)

/-- A number is written with so many places after the point and one digit before it or more, of which only a single one
may be zero. The digits are those of the nearest number with so many places, of two the one with the even last digit. -/
theorem fixed_spec (places : Nat) (negative : Bool) (m : Nat) (e : ℤ) :
    ∃ before after,
      fixed places (.finite negative m e) = signed negative (before ++ if places = 0 then [] else 0x2e :: after) ∧
      before ≠ [] ∧ after.length = places ∧ (∀ b ∈ before ++ after, Byte.isDigit b = true) ∧
      (before.head? = some 0x30 → before = [0x30]) ∧ Nearest (m * 2 ^ e * 10 ^ places) (ofDigits (before ++ after)) := by
  unfold fixed
  dsimp only
  have nearest := nearest_digits places m e
  generalize min places (-e).toNat = kept at nearest ⊢
  generalize roundDiv ((scaled m 1 (-e)).1 * Nat.pow 10 kept) (scaled m 1 (-e)).2 = n at nearest ⊢
  have all : ∀ b ∈ Integer.digits 10 n ++ zeros (places - kept), Byte.isDigit b = true :=
    fun b member => (List.mem_append.mp member).elim (isDigit_digits _ b) (isDigit_zeros _ b)
  obtain ⟨before, after, written, some, count, split⟩ :=
    exists_pointed (Integer.digits 10 n ++ zeros (places - kept)) places
  refine ⟨before, after, by rw [written], some, count, ?_, ?_, ?_⟩
  · rw [split]
    exact fun b member => (List.mem_append.mp member).elim (isDigit_zeros _ b) (all b)
  · intro zero
    obtain ⟨b, rest, rfl⟩ := List.exists_cons_of_ne_nil some
    cases zero
    rw [eq_nil_of_zero count split]
  · rwa [split, ofDigits_append, ofDigits_append, ofDigits_digits, ofDigits_zeros, ofDigits_zeros, Nat.zero_mul,
      Nat.zero_add, Nat.add_zero, length_zeros]

end ByteFlow.Number.Decimal
