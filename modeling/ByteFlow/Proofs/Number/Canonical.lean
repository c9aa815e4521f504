import ByteFlow.Proofs.Number.Literal

/-! Written integers read back, and are written in one way only.
The text has small digits, no zero in front of others and a minus sign exactly for negative numbers, so none of its
digits can be taken for the mark of a base. -/
namespace ByteFlow.Number.Integer

variable {base : Nat}

/-- The digits of a number are small ones of its base. -/
private theorem mem_smallDigits_of_mem_digits {n : Nat} {b : UInt8} (least : 2 ≤ base) (most : base ≤ 36)
    (member : b ∈ digits base n) : b ∈ smallDigits := by
  rw [digits_eq_map least] at member
  obtain ⟨d, place, rfl⟩ := List.mem_map.mp member
  have below := lt_of_mem_places least place
  exact List.mem_of_getElem? (getElem?_smallDigits (by omega))

/-- A kind that is wide enough holds a number. -/
private theorem exists_holds (value : Int) : ∃ k : Kind, k.signed = true ∧ k.holds value = true := by
  refine ⟨⟨true, value.natAbs + 1⟩, rfl, ?_⟩
  have wide : (value.natAbs : Int) < Nat.pow 2 value.natAbs := by exact_mod_cast Nat.lt_two_pow_self
  rw [holds_iff, Kind.least, Kind.greatest, if_pos rfl, if_pos rfl, Nat.add_sub_cancel]
  omega

/-- In a base to write in, the text of a number is read as no other. -/
private theorem eq_of_write_eq (least : 2 ≤ base) (most : base ≤ 36) {v w : Int} (same : write base v = write base w) :
    v = w := by
  obtain ⟨k, signed, fits⟩ := exists_holds v
  have first := read_write fits (.inr ⟨least, most⟩)
  have literal : Literal k.signed base (write base w) w := literal_write (fun _ => signed) (.inr ⟨least, most⟩)
  rw [same, read_of_literal literal.trims literal] at first
  split at first
  · exact (Except.ok.inj first).symm
  · cases first

/-- A base that is none stands for ten. -/
private theorem write_of_invalid (invalid : ¬ (2 ≤ base ∧ base ≤ 36)) (value : Int) :
    write base value = write 10 value := by
  unfold write
  simp only [if_neg invalid]
  rfl

private theorem write_injective (base : Nat) : Function.Injective (write base) := by
  intro v w same
  by_cases valid : 2 ≤ base ∧ base ≤ 36
  · exact eq_of_write_eq valid.1 valid.2 same
  · rw [write_of_invalid valid, write_of_invalid valid] at same
    exact eq_of_write_eq (by decide) (by decide) same

/-- A number that a kind holds is read back from its text in the base that it was written in; written in base 0, that
is in decimal, it is read back in base 0 and in base 10. The text is a minus sign exactly for a negative number and then
small digits, the first of which is zero only where it is the only one. So no two numbers have one text in a base. -/
theorem numbers_read_back (base : Nat) :
    (∀ (k : Kind) (value : Int), k.holds value = true → 2 ≤ base ∧ base ≤ 36 →
      read k base (write base value) = .ok value) ∧
    (∀ (k : Kind) (value : Int), k.holds value = true →
      read k 0 (write 0 value) = .ok value ∧ read k 10 (write 0 value) = .ok value) ∧
    (∀ value, ∃ run, write base value = (if value < 0 then [Byte.minus] else []) ++ run ∧ run ≠ [] ∧
      (∀ b ∈ run, b ∈ smallDigits) ∧ (run.head? = some 0x30 → run = [0x30])) ∧
    ∀ v w, v ≠ w → write base v ≠ write base w := by
  refine ⟨fun k value fits valid => read_write fits (.inr valid), fun k value fits => ⟨read_write fits (.inl rfl), ?_⟩,
    fun value => ?_, fun v w differ same => differ (write_injective base same)⟩
  · rw [write_of_invalid (by decide)]
    exact read_write fits (.inr (by decide))
  · obtain ⟨radix, least, most, -, written⟩ := exists_radix base
    refine ⟨digits radix value.natAbs, written value, digits_ne_nil least _, fun b member => ?_, fun zero => ?_⟩
    · exact mem_smallDigits_of_mem_digits least most member
    · cases run : digits radix value.natAbs with
      | nil => simp [run] at zero
      | cons b rest =>
        rw [run] at zero
        cases zero
        cases rest with
        | nil => rfl
        | cons c rest => exact absurd run (digits_bare _ least most c rest)

/-- The least number of 64 bits in base 36, in which marks are digits, and in base 0; and zero. -/
theorem numbers_read_back_least :
    let k : Kind := ⟨true, 64⟩
    k.holds (-9223372036854775808) = true ∧
      read k 36 (write 36 (-9223372036854775808)) = .ok (-9223372036854775808) ∧
      read k 0 (write 0 (-9223372036854775808)) = .ok (-9223372036854775808) ∧ write 36 0 = [0x30] ∧
      write 36 0 ≠ write 36 (-9223372036854775808) := by
  intro k
  have fits : k.holds (-9223372036854775808) = true := by decide
  obtain ⟨back, decimal, -, distinct⟩ := numbers_read_back 36
  have zero : write 36 0 = [0x30] := by simp [write, digits, Byte.digit]
  exact ⟨fits, back k _ fits (by decide), (decimal k _ fits).1, zero, distinct 0 _ (by decide)⟩

end ByteFlow.Number.Integer
