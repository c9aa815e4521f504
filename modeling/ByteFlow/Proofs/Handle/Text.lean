import ByteFlow.Proofs.Handle.Content
import ByteFlow.Proofs.Search.Substitution
import ByteFlow.Proofs.Text.Simplification

/-! What the text operations, and the changes made of several others, do to the bytes of a handle.
Sharing storage when nothing changes and working in place give the bytes that copying gives. -/
namespace ByteFlow.Handle

/-! Letter case -/

private theorem map_toLower_of_isLower {h : Handle} (same : h.isLower) :
    h.content.map Byte.toLower = h.content := by
  refine (List.map_congr_left fun b member => ?_).trans (List.map_id' _)
  have plain : ¬ Byte.isUpper b := by
    have := (Bool.not_eq_true' _).mp same
    rw [List.any_eq_false] at this
    exact this b member
  rw [Byte.toLower, if_neg plain]

private theorem map_toUpper_of_isUpper {h : Handle} (same : h.isUpper) :
    h.content.map Byte.toUpper = h.content := by
  refine (List.map_congr_left fun b member => ?_).trans (List.map_id' _)
  have plain : ¬ Byte.isLower b := by
    have := (Bool.not_eq_true' _).mp same
    rw [List.any_eq_false] at this
    exact this b member
  rw [Byte.toUpper, if_neg plain]

@[simp] theorem content_toLower (held : List StorageId) (h : Handle) :
    (h.toLower held).content = h.content.map Byte.toLower := by
  rw [toLower, copyUnless]
  split
  · next same => exact (map_toLower_of_isLower same).symm
  · exact content_ofList ..

@[simp] theorem content_toUpper (held : List StorageId) (h : Handle) :
    (h.toUpper held).content = h.content.map Byte.toUpper := by
  rw [toUpper, copyUnless]
  split
  · next same => exact (map_toUpper_of_isUpper same).symm
  · exact content_ofList ..

@[simp] theorem content_intoLower (held : List StorageId) (h : Handle) :
    (h.intoLower held).content = h.content.map Byte.toLower := by
  rw [intoLower]
  split
  · exact content_edit ..
  · exact content_toLower ..

@[simp] theorem content_intoUpper (held : List StorageId) (h : Handle) :
    (h.intoUpper held).content = h.content.map Byte.toUpper := by
  rw [intoUpper]
  split
  · exact content_edit ..
  · exact content_toUpper ..

/-! Blanks -/

@[simp] theorem content_trimmed (h : Handle) : h.trimmed.content = Text.Spacing.trim h.content := by
  rw [trimmed, content_mid, Option.getD_some, Text.Spacing.trim, List.drop_take]

@[simp] theorem content_intoTrimmed (held : List StorageId) (h : Handle) :
    (h.intoTrimmed held).content = Text.Spacing.trim h.content := by
  rw [intoTrimmed]
  split
  · exact content_edit ..
  · exact content_trimmed h

@[simp] theorem content_simplified (held : List StorageId) (h : Handle) :
    (h.simplified held).content = Text.Spacing.joinWords h.content := by
  rw [simplified]
  split
  · next same => exact (Text.Spacing.joinWords_of_isSimplified same).symm
  · rw [← Text.Spacing.simplify_eq_joinWords]
    dsimp only
    split
    · next none => exact (List.isEmpty_iff.mp none).symm
    · exact content_allocate ..

@[simp] theorem content_intoSimplified (held : List StorageId) (h : Handle) :
    (h.intoSimplified held).content = Text.Spacing.joinWords h.content := by
  rw [intoSimplified]
  split
  · exact content_simplified ..
  · split
    · next same => exact (Text.Spacing.joinWords_of_isSimplified same).symm
    · rw [content_edit, Text.Spacing.simplify_eq_joinWords]

@[simp] theorem content_repeated (held : List StorageId) (n : Nat) (h : Handle) :
    (h.repeated held n).content = (List.replicate n h.content).flatten := by
  rw [repeated]
  split
  · next once => simp [once]
  · split
    · next none =>
      rcases none with none | none
      · simp [none]
      · have : h.content = [] := (content_eq_nil_iff h).mpr (by simpa [isEmpty] using none)
        simp [this]
    · exact content_ofList ..

/-! Pieces -/

theorem indexOfByte_eq_none_iff {text : List UInt8} {b : UInt8} {start : Nat} :
    Search.indexOfByte text b start = none ↔ ∀ c ∈ text.drop start, c ≠ b := by
  simp [Search.indexOfByte]

theorem indexOfByte_eq_some {text : List UInt8} {b : UInt8} {start i : Nat}
    (found : Search.indexOfByte text b start = some i) :
    start ≤ i ∧ i < text.length ∧ text[i]? = some b ∧
      ∀ c ∈ (text.drop start).take (i - start), c ≠ b := by
  obtain ⟨k, there, rfl⟩ := Option.map_eq_some_iff.mp found
  obtain ⟨inside, here, first⟩ := List.findIdx?_eq_some_iff_getElem.mp there
  rw [List.length_drop] at inside
  refine ⟨Nat.le_add_left .., by omega, ?_, fun c member => ?_⟩
  · rw [List.getElem?_eq_getElem (by omega)]
    simpa [Nat.add_comm] using here
  · rw [Nat.add_sub_cancel] at member
    obtain ⟨j, before, rfl⟩ := List.getElem_of_mem member
    rw [List.length_take] at before
    rw [List.getElem_take]
    simpa using first j (by omega)

private theorem content_splitFrom (h : Handle) (separator : UInt8) (start : Nat) (inside : start ≤ h.length) :
    (h.splitFrom separator start).map content = (h.content.drop start).splitOn separator := by
  induction left : h.length - start using Nat.strongRecOn generalizing start with
  | ind _ ih =>
    subst left
    rw [splitFrom, List.splitOn_eq_splitOnP]
    cases found : Search.indexOfByte h.content separator start with
    | none =>
      rw [List.splitOnP_eq_singleton]
      · simp [List.take_of_length_le]
      · simpa using indexOfByte_eq_none_iff.mp found
    | some i =>
      obtain ⟨later, within, here, before⟩ := indexOfByte_eq_some found
      rw [length_content] at within
      have parts : h.content.drop start =
          (h.content.drop start).take (i - start) ++ separator :: h.content.drop (i + 1) := by
        obtain ⟨at_hit, same⟩ := List.getElem?_eq_some_iff.mp here
        rw [← same, ← List.drop_eq_getElem_cons at_hit]
        conv_lhs => rw [← List.take_append_drop (i - start) (h.content.drop start), List.drop_drop,
          Nat.add_sub_cancel' later]
      rw [parts, List.splitOnP_append_cons_of_forall_mem (by simpa using before) separator (by simp)]
      dsimp only
      rw [dif_pos ⟨later, within⟩, List.map_cons, content_mid, Option.getD_some, ih _ (by omega) _ within rfl,
        List.splitOn_eq_splitOnP]

@[simp] theorem content_split (h : Handle) (separator : UInt8) :
    (h.split separator).map content = h.content.splitOn separator :=
  content_splitFrom h separator 0 (Nat.zero_le _)

/-! Changes made of others -/

@[simp] theorem content_prepend (held : List StorageId) (bytes : List UInt8) (h : Handle)
    (fits : h.length + bytes.length ≤ Word.maxValue) :
    (h.prepend held bytes).content = bytes ++ h.content := by
  rw [prepend, content_insert held 0 bytes h (by simpa using fits)]
  split
  · next none => rw [none, List.nil_append]
  · simp [inserted]

theorem content_replaceAll (held : List StorageId) (before after : List UInt8) (h : Handle) :
    (h.replaceAll held before after).content = Search.substitute before after h.content := by
  rw [← Search.getD_replaceAll? after, replaceAll]
  split
  · next same => rw [same, Option.map_none, Option.getD_none]
  · next pieces replaced =>
    rw [replaced, Option.map_some, Option.getD_some]
    split
    · next none => exact (List.isEmpty_iff.mp none).symm
    · rw [content_reserved, content_allocate]

/-- Storing a byte shows zeros between the old end and its place. -/
theorem content_set (held : List StorageId) (index : Nat) (b : UInt8) (h : Handle)
    (fits : index < Word.maxValue) :
    (h.set held index b).content =
      (h.content ++ List.replicate (index + 1 - h.length) 0).set index b := by
  rw [set]
  rw [if_neg (by omega)]
  dsimp only
  rw [content_edit]
  split
  · next beyond => rw [content_resize, List.take_of_length_le (by simp; omega)]
  · next inside => rw [Nat.sub_eq_zero_of_le (by omega), List.replicate_zero, List.append_nil]

end ByteFlow.Handle
