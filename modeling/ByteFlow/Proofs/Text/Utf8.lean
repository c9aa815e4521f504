import ByteFlow.Text.Utf8
import Mathlib.Data.List.Basic

/-! Text and its bytes.
A byte sequence is the encoding of one text at most, and a byte below 128 is a character of its own. -/
namespace ByteFlow.Text.Utf8

variable {bytes front : List UInt8} {text : String} {b : UInt8}

theorem encode_eq (text : String) : encode text = text.toList.flatMap String.utf8EncodeChar := by
  unfold encode
  rw [String.toUTF8_eq_toByteArray, ← String.utf8Encode_toList, List.utf8Encode, List.toList_data_toByteArray]

theorem decode?_eq_some_iff : decode? bytes = some text ↔ encode text = bytes := by
  unfold decode? String.fromUTF8? encode
  constructor
  · intro decoded
    split at decoded
    · cases decoded
      simp [String.fromUTF8]
    · contradiction
  · rintro rfl
    have valid : (⟨text.toUTF8.data.toList.toArray⟩ : ByteArray).IsValidUTF8 := text.isValidUTF8
    rw [dif_pos valid]
    rfl

theorem decode?_eq_none_iff : decode? bytes = none ↔ ∀ text, encode text ≠ bytes := by
  simp [Option.eq_none_iff_forall_ne_some, decode?_eq_some_iff]

/-- The last byte of a longer character is not below 128. -/
private theorem utf8EncodeChar_eq_concat (c : Char) :
    ∃ front last, String.utf8EncodeChar c = front ++ [last] ∧ (last < 128 → front = []) := by
  have continues (v : Nat) : ¬ UInt8.ofNat (v % 64 + 128) < 128 := by
    have bound : v % 64 < 64 := Nat.mod_lt v (by decide)
    have limit : (128 : UInt8).toNat = 128 := rfl
    simp only [UInt8.lt_iff_toNat_lt, UInt8.toNat_ofNat', limit]
    omega
  unfold String.utf8EncodeChar
  generalize c.val.toNat = v
  dsimp only
  split
  · exact ⟨[], _, rfl, fun _ => rfl⟩
  · split
    · exact ⟨[_], _, rfl, fun small => absurd small (continues v)⟩
    · split
      · exact ⟨[_, _], _, rfl, fun small => absurd small (continues v)⟩
      · exact ⟨[_, _, _], _, rfl, fun small => absurd small (continues v)⟩

private theorem utf8EncodeChar_ofNat (small : b < 128) : String.utf8EncodeChar (Char.ofNat b.toNat) = [b] := by
  have few : b.toNat ≤ 127 := Nat.lt_succ_iff.mp small
  have valid : b.toNat.isValidChar := .inl (by omega)
  have same : (Char.ofNat b.toNat).val.toNat = b.toNat := by
    rw [Char.ofNat, dif_pos valid]
    rfl
  simp [String.utf8EncodeChar, same, few]

/-- Bytes below 128 are a text of as many characters. -/
theorem isValid_of_forall_lt (small : ∀ b ∈ bytes, b < 128) : isValid bytes = true := by
  have same : encode (String.ofList (bytes.map fun b => Char.ofNat b.toNat)) = bytes := by
    rw [encode_eq, String.toList_ofList, List.flatMap_map]
    refine (List.flatMap_congr fun b member => utf8EncodeChar_ofNat (small b member)).trans ?_
    exact List.flatMap_singleton' bytes
  rw [isValid, decode?_eq_some_iff.mpr same, Option.isSome_some]

/-- Behind a text a byte below 128 is one more character. -/
private theorem exists_encode_concat_iff (small : b < 128) :
    (∃ text, encode text = bytes ++ [b]) ↔ ∃ text, encode text = bytes := by
  constructor
  · rintro ⟨text, same⟩
    rw [encode_eq] at same
    rcases List.eq_nil_or_concat text.toList with none | ⟨chars, c, some⟩
    · simp [none] at same
    · -- The last character ends in that byte, so that it is nothing but that byte.
      obtain ⟨front, last, split, single⟩ := utf8EncodeChar_eq_concat c
      simp only [some, List.concat_eq_append, List.flatMap_append, List.flatMap_singleton, split, ← List.append_assoc] at same
      obtain ⟨inner, ends⟩ := List.append_inj' same rfl
      obtain rfl : last = b := by simpa using ends
      simp only [single small, List.append_nil] at inner
      refine ⟨String.ofList chars, ?_⟩
      rw [encode_eq, String.toList_ofList, inner]
  · rintro ⟨text, rfl⟩
    refine ⟨text.push (Char.ofNat b.toNat), ?_⟩
    simp [encode_eq, utf8EncodeChar_ofNat small]

theorem forall_encode_ne_concat_iff (small : b < 128) :
    (∀ text, encode text ≠ bytes ++ [b]) ↔ ∀ text, encode text ≠ bytes := by
  simpa using not_congr (exists_encode_concat_iff small)

end ByteFlow.Text.Utf8
