import ByteFlow.Text.Spacing
import Mathlib.Data.List.DropRight

/-! Trimming takes off every blank at both ends, and nothing else.
Which bytes are blank, and what is left of a text, is said here without counting. -/
namespace ByteFlow.Text.Spacing

/-- Space, tab, line feed, vertical tab, form feed or carriage return. -/
def Blank (b : UInt8) : Prop := Char.ofNat b.toNat ∈ [' ', '\t', '\n', '\x0b', '\x0c', '\r']

instance (b : UInt8) : Decidable (Blank b) := inferInstanceAs (Decidable (_ ∈ _))

theorem isBlank_iff (b : UInt8) : Byte.isBlank b = true ↔ Blank b := Byte.forall_of_lt b (by decide +kernel)

/-- The body lies between blanks in the text, and neither begins nor ends with one. -/
structure Trims (text body : List UInt8) : Prop where
  between : ∃ before after, text = before ++ body ++ after ∧ (∀ b ∈ before, Blank b) ∧ ∀ b ∈ after, Blank b
  first : ∀ b ∈ body.head?, ¬ Blank b
  last : ∀ b ∈ body.getLast?, ¬ Blank b

variable {text body before after : List UInt8}

theorem takeWhile_isBlank (blanks : ∀ b ∈ before, Blank b) (first : ∀ b ∈ body.head?, ¬ Blank b) :
    (before ++ body).takeWhile Byte.isBlank = before := by
  rw [List.takeWhile_append_of_pos fun b member => (isBlank_iff b).mpr (blanks b member)]
  cases body with
  | nil => rw [List.takeWhile_nil, List.append_nil]
  | cons b rest =>
    have inked : ¬ Byte.isBlank b = true := fun blank => first b rfl ((isBlank_iff b).mp blank)
    rw [List.takeWhile_cons_of_neg inked, List.append_nil]

/-- The two counts of a trimming find the ends of the body. -/
theorem Trims.trim_eq (trims : Trims text body) : trim text = body := by
  obtain ⟨⟨before, after, rfl, front, back⟩, first, last⟩ := trims
  by_cases none : body = []
  · subst none
    have blanks : ∀ b ∈ before ++ after, Blank b := by
      simp only [List.mem_append]
      rintro b (member | member)
      · exact front b member
      · exact back b member
    have all : (before ++ after ++ []).takeWhile Byte.isBlank = before ++ after := takeWhile_isBlank blanks nofun
    rw [List.append_nil] at all
    rw [List.append_nil, trim, leading, all]
    exact List.drop_eq_nil_of_le (List.length_take_le' ..)
  · obtain ⟨b, rest, rfl⟩ := List.exists_cons_of_ne_nil none
    have left : leading (before ++ b :: rest ++ after) = before.length := by
      rw [leading, List.append_assoc]
      exact congrArg List.length (takeWhile_isBlank front first)
    have right : (before ++ b :: rest ++ after).reverse.takeWhile Byte.isBlank = after.reverse := by
      rw [List.reverse_append, List.reverse_append]
      refine takeWhile_isBlank (by simpa using back) fun c begins => last c ?_
      rw [List.head?_append_of_ne_nil _ (by simp), List.head?_reverse] at begins
      exact begins
    have stop : contentEnd (before ++ b :: rest ++ after) = (before ++ b :: rest).length := by
      rw [contentEnd, left, right, List.length_reverse, List.length_append, Nat.add_sub_cancel, List.length_append]
      omega
    rw [trim, left, stop, List.take_left, List.drop_left]

theorem trims_trim (text : List UInt8) : Trims text (trim text) := by
  generalize inner : text.dropWhile Byte.isBlank = rest
  have parts : rest.rdropWhile Byte.isBlank ++ rest.rtakeWhile Byte.isBlank = rest := List.rdropWhile_append_rtakeWhile
  have trims : Trims text (rest.rdropWhile Byte.isBlank) := by
    refine ⟨⟨text.takeWhile Byte.isBlank, rest.rtakeWhile Byte.isBlank, ?_, fun b member => ?_, fun b member => ?_⟩,
      fun b begins blank => ?_, fun b ends blank => ?_⟩
    · rw [List.append_assoc, parts, ← inner, List.takeWhile_append_dropWhile]
    · exact (isBlank_iff b).mp (List.mem_takeWhile_imp member)
    · exact (isBlank_iff b).mp (List.mem_rtakeWhile_imp member)
    · have first : rest.head? = some b := by rw [← parts, List.head?_append, begins, Option.some_or]
      have inked := List.head?_dropWhile_not Byte.isBlank text
      rw [inner, first] at inked
      exact Bool.false_ne_true (inked.symm.trans ((isBlank_iff b).mpr blank))
    · have some := List.ne_nil_of_mem (List.mem_of_getLast? ends)
      have inked := List.rdropWhile_last_not Byte.isBlank rest some
      rw [Option.some.inj ((List.getLast?_eq_some_getLast some).symm.trans ends)] at inked
      exact inked ((isBlank_iff b).mpr blank)
  rwa [trims.trim_eq]

theorem trims_self (inked : ∀ b ∈ text, ¬ Blank b) : Trims text text :=
  ⟨⟨[], [], by simp, nofun, nofun⟩, fun b begins => inked b (List.mem_of_mem_head? begins),
    fun b ends => inked b (List.mem_of_getLast? ends)⟩

end ByteFlow.Text.Spacing
