import ByteFlow.Search.Matcher
import Mathlib.Data.List.Basic

/-! The forward scan finds the first occurrence.
A skip never passes a place where the pattern stands: the bytes it looks at differ there. -/
namespace ByteFlow.Search

variable {pattern text : List UInt8}

/-! Occurrences -/

/-- An occurrence shows the pattern byte by byte, counted from the pattern's end. -/
private theorem OccursAt.getElem?_reverse {place : Nat} (occurs : OccursAt pattern text place) {j : Nat}
    (inside : j < pattern.length) : text[place + pattern.length - 1 - j]? = pattern.reverse[j]? := by
  have shown : ((text.drop place).take pattern.length)[pattern.length - 1 - j]? =
      pattern[pattern.length - 1 - j]? := by rw [occurs.2]
  rw [List.getElem?_take_of_lt (by omega), List.getElem?_drop] at shown
  rw [List.getElem?_reverse inside, ← shown]
  congr 1
  omega

private theorem occursAt_of_getElem?_reverse {place : Nat} (fits : place + pattern.length ≤ text.length)
    (shown : ∀ j < pattern.length, text[place + pattern.length - 1 - j]? = pattern.reverse[j]?) :
    OccursAt pattern text place := by
  refine ⟨fits, List.ext_getElem? fun k => ?_⟩
  rcases Nat.lt_or_ge k pattern.length with inside | outside
  · have := shown (pattern.length - 1 - k) (by omega)
    rw [List.getElem?_reverse (by omega)] at this
    rw [List.getElem?_take_of_lt inside, List.getElem?_drop]
    convert this using 2
    · omega
    · omega
  · rw [List.getElem?_eq_none (by simp; omega), List.getElem?_eq_none outside]

theorem firstFrom?_eq_some_iff {start i : Nat} :
    firstFrom? pattern text start = some i ↔
      start ≤ i ∧ OccursAt pattern text i ∧ ∀ j, start ≤ j → j < i → ¬ OccursAt pattern text j := by
  rw [firstFrom?, List.find?_range_eq_some]
  constructor
  · rintro ⟨found, -, first⟩
    obtain ⟨after, occurs⟩ := of_decide_eq_true found
    refine ⟨after, occurs, fun j from_start before there => ?_⟩
    have := first j before
    simp [from_start, there] at this
  · rintro ⟨after, occurs, first⟩
    refine ⟨by simp [after, occurs], ?_, fun j before => ?_⟩
    · have := occurs.1
      exact List.mem_range.mpr (by omega)
    · simp only [Bool.not_eq_true', decide_eq_false_iff_not, not_and]
      exact fun from_start => first j from_start before

theorem firstFrom?_eq_none_iff {start : Nat} :
    firstFrom? pattern text start = none ↔ ∀ j, start ≤ j → ¬ OccursAt pattern text j := by
  rw [firstFrom?, List.find?_range_eq_none]
  constructor
  · intro missing j from_start there
    have := missing j (by have := there.1; omega)
    simp [from_start, there] at this
  · intro missing j _
    simp only [Bool.not_eq_true', decide_eq_false_iff_not, not_and]
    exact fun from_start => missing j from_start

/-- Places without the pattern may be passed over. -/
private theorem firstFrom?_skip {start next : Nat} (later : start ≤ next)
    (missing : ∀ j, start ≤ j → j < next → ¬ OccursAt pattern text j) :
    firstFrom? pattern text next = firstFrom? pattern text start := by
  cases found : firstFrom? pattern text next with
  | none =>
    symm
    rw [firstFrom?_eq_none_iff] at found ⊢
    intro j from_start
    rcases Nat.lt_or_ge j next with before | after
    · exact missing j from_start before
    · exact found j after
  | some i =>
    symm
    rw [firstFrom?_eq_some_iff] at found ⊢
    obtain ⟨after, occurs, first⟩ := found
    refine ⟨Nat.le_trans later after, occurs, fun j from_start before => ?_⟩
    rcases Nat.lt_or_ge j next with passed | seen
    · exact missing j from_start passed
    · exact first j seen before

private theorem firstFrom?_of_occursAt {start : Nat} (occurs : OccursAt pattern text start) :
    firstFrom? pattern text start = some start :=
  firstFrom?_eq_some_iff.mpr ⟨Nat.le_refl _, occurs, fun _ from_start before => by omega⟩

theorem firstFrom?_nil (text : List UInt8) (start : Nat) :
    firstFrom? [] text start = if start ≤ text.length then some start else none := by
  split
  · next inside => exact firstFrom?_of_occursAt ⟨by simpa using inside, by simp⟩
  · next outside =>
    refine firstFrom?_eq_none_iff.mpr fun j from_start there => outside ?_
    exact Nat.le_trans from_start (by simpa using there.1)

namespace Matcher

/-! Skips -/

theorem skipForward_ofPattern (pattern : List UInt8) (b : UInt8) :
    (ofPattern pattern).skipForward b = forwardSkip pattern b := by
  have small : b.toNat < 256 := b.toNat_lt
  simp [skipForward, ofPattern, tableOf, Array.getD, small]

/-- The bytes that a skip passes over differ from the byte it was taken for. -/
private theorem getElem?_ne_of_lt_forwardSkip {b : UInt8} {j : Nat} (passed : j < forwardSkip pattern b) :
    pattern.reverse[j]? ≠ some b := by
  intro there
  have differs := List.not_of_lt_findIdx passed
  have inside : j < maxSkip := by
    have : forwardSkip pattern b ≤ (pattern.reverse.take maxSkip).length := List.findIdx_le_length
    rw [List.length_take] at this
    omega
  rw [List.getElem_take] at differs
  rw [List.getElem?_eq_some_iff] at there
  obtain ⟨_, same⟩ := there
  rw [same] at differs
  simp at differs

private theorem not_occursAt_of_skip {current place : Nat} {b : UInt8} (here : text[current]? = some b)
    (reaches : current ≤ place + pattern.length - 1)
    (passed : place + pattern.length - 1 < current + forwardSkip pattern b) :
    ¬ OccursAt pattern text place := by
  intro occurs
  have inside : place + pattern.length - 1 - current < pattern.length := by
    have := occurs.1
    have : forwardSkip pattern b ≤ pattern.length := by
      refine Nat.le_trans List.findIdx_le_length ?_
      rw [List.length_take, List.length_reverse]
      exact Nat.min_le_right ..
    omega
  have shown := occurs.getElem?_reverse inside
  rw [show place + pattern.length - 1 - (place + pattern.length - 1 - current) = current by omega, here]
    at shown
  exact getElem?_ne_of_lt_forwardSkip (by omega) shown.symm

/-! Agreement at one place -/

theorem agreement_le_length (text : Array UInt8) (place : Nat) (bytes : List UInt8) :
    agreement text place bytes ≤ bytes.length := by
  induction bytes generalizing place with
  | nil => exact Nat.le_refl _
  | cons b rest ih =>
    simp only [agreement, List.length_cons]
    have := ih (place - 1)
    split <;> omega

private theorem getElem?_of_lt_agreement {text : Array UInt8} {place j : Nat} {bytes : List UInt8}
    (agreed : j < agreement text place bytes) : text[place - j]? = bytes[j]? := by
  induction bytes generalizing place j with
  | nil => cases agreed
  | cons b rest ih =>
    simp only [agreement] at agreed
    split at agreed
    · next same =>
      cases j with
      | zero => simpa using same
      | succ j =>
        have there : text[place - 1 - j]? = rest[j]? := ih (Nat.lt_of_succ_lt_succ agreed)
        rw [show place - (j + 1) = place - 1 - j by omega, there, List.getElem?_cons_succ]
    · cases agreed

private theorem getElem?_agreement_ne {text : Array UInt8} {place : Nat} {bytes : List UInt8}
    (short : agreement text place bytes < bytes.length) :
    text[place - agreement text place bytes]? ≠ bytes[agreement text place bytes]? := by
  induction bytes generalizing place with
  | nil => cases short
  | cons b rest ih =>
    simp only [agreement] at short ⊢
    split
    · next same =>
      rw [if_pos same] at short
      rw [show place - (agreement text (place - 1) rest + 1) =
        place - 1 - agreement text (place - 1) rest by omega, List.getElem?_cons_succ]
      exact ih (by simpa using short)
    · next differs => simpa using differs

/-! The scan -/

variable {current : Nat}

/-- A pattern that agrees in all bytes stands here. -/
private theorem occursAt_of_agreement (reached : pattern.length ≤ current + 1) (here : current < text.length)
    (agreed : agreement text.toArray current pattern.reverse = pattern.length) :
    OccursAt pattern text (current - (pattern.length - 1)) := by
  rcases Nat.eq_zero_or_pos pattern.length with none | some
  · rw [List.length_eq_zero_iff] at none
    subst none
    exact ⟨by simp; omega, by simp⟩
  refine occursAt_of_getElem?_reverse (by omega) fun j inside => ?_
  have same : text.toArray[current - j]? = pattern.reverse[j]? := getElem?_of_lt_agreement (by omega)
  rw [show current - (pattern.length - 1) + pattern.length - 1 - j = current - j by omega]
  simpa using same

/-- Moving on by `advance` passes no occurrence. -/
private theorem not_occursAt_of_advance (reached : pattern.length ≤ current + 1)
    (differs : agreement text.toArray current pattern.reverse < pattern.length) {place : Nat}
    (reaches : current ≤ place + pattern.length - 1)
    (passed : place + pattern.length - 1 <
      current + (ofPattern pattern).advance text.toArray current
        (agreement text.toArray current pattern.reverse)) :
    ¬ OccursAt pattern text place := by
  intro occurs
  have short : agreement text.toArray current pattern.reverse < pattern.reverse.length := by simpa using differs
  have mismatch := getElem?_agreement_ne short
  generalize agreement text.toArray current pattern.reverse = agreed at *
  rcases Nat.eq_or_lt_of_le reaches with same | beyond
  · have shown := occurs.getElem?_reverse differs
    rw [← same] at shown
    exact mismatch (by simpa using shown)
  · rw [advance] at passed
    split at passed
    · next foreign =>
      obtain ⟨b, there, skip⟩ := Option.map_eq_some_iff.mp foreign
      rw [skipForward_ofPattern] at skip
      have whole : (ofPattern pattern).pattern = pattern := rfl
      rw [whole] at skip passed
      have there : text[current - agreed]? = some b := by simpa using there
      exact not_occursAt_of_skip there (by omega) (by omega) occurs
    · omega

private theorem scanForward_ofPattern (some : pattern ≠ []) (reached : pattern.length ≤ current + 1) :
    scanForward (ofPattern pattern) text.toArray current =
      firstFrom? pattern text (current - (pattern.length - 1)) := by
  have long : 0 < pattern.length := List.length_pos_of_ne_nil some
  induction left : text.length - current using Nat.strongRecOn generalizing current with
  | ind _ ih =>
    subst left
    rw [scanForward]
    split
    · next here =>
      have here' : current < text.length := by simpa using here
      have byte : text[current]? = Option.some text.toArray[current] := by simp
      rw [skipForward_ofPattern]
      dsimp only
      have whole : (ofPattern pattern).pattern = pattern := rfl
      rw [whole]
      split
      · next fits =>
        split
        · next agreed =>
          exact (firstFrom?_of_occursAt (occursAt_of_agreement reached here' agreed)).symm
        · next differs =>
          have := one_le_advance (ofPattern pattern) text.toArray current
            (agreement text.toArray current pattern.reverse)
          rw [ih _ (by omega) (by omega) rfl]
          refine firstFrom?_skip (by omega) fun place from_here passed => ?_
          have := agreement_le_length text.toArray current pattern.reverse
          rw [List.length_reverse] at this
          exact not_occursAt_of_advance reached (by omega) (by omega) (by omega)
      · next moves =>
        rw [ih _ (by omega) (by omega) rfl]
        refine firstFrom?_skip (by omega) fun place from_here passed => ?_
        exact not_occursAt_of_skip byte (by omega) (by omega)
    · next past =>
      symm
      refine firstFrom?_eq_none_iff.mpr fun place from_here there => ?_
      have := there.1
      simp at past
      omega

/-- The search gives the first place from `start` on where the pattern stands. -/
theorem indexIn_ofPattern (pattern text : List UInt8) (start : Nat) :
    (ofPattern pattern).indexIn text.toArray start = firstFrom? pattern text start := by
  rw [indexIn]
  have whole : (ofPattern pattern).pattern = pattern := rfl
  rw [whole, List.size_toArray]
  split
  · next none => rw [List.isEmpty_iff.mp none, firstFrom?_nil]
  · next some =>
    have some : pattern ≠ [] := by simpa using some
    split
    · next outside =>
      exact (firstFrom?_eq_none_iff.mpr fun place from_start there => by have := there.1; omega).symm
    · have := List.length_pos_of_ne_nil some
      rw [scanForward_ofPattern some (by omega), Nat.add_sub_cancel]

end Matcher

end ByteFlow.Search
