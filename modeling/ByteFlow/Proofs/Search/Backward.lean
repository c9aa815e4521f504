import ByteFlow.Proofs.Search.Forward

/-! The backward scan finds the last occurrence.
The byte where the pattern would begin tells how far back no pattern can begin: it stands nowhere among
the pattern's bytes that are passed over. -/
namespace ByteFlow.Search

variable {pattern text : List UInt8}

/-! Occurrences -/

/-- An occurrence shows the pattern byte by byte. -/
theorem OccursAt.getElem? {place : Nat} (occurs : OccursAt pattern text place) {j : Nat}
    (inside : j < pattern.length) : text[place + j]? = pattern[j]? := by
  have shown : ((text.drop place).take pattern.length)[j]? = pattern[j]? := by rw [occurs.2]
  rwa [List.getElem?_take_of_lt inside, List.getElem?_drop] at shown

theorem lastUpTo?_eq_some_iff {stop i : Nat} :
    lastUpTo? pattern text stop = some i ↔
      i ≤ stop ∧ OccursAt pattern text i ∧ ∀ j, i < j → j ≤ stop → ¬ OccursAt pattern text j := by
  rw [lastUpTo?, List.find?_eq_some_iff_getElem]
  simp only [List.length_reverse, List.length_range, List.getElem_reverse, List.getElem_range]
  constructor
  · rintro ⟨found, k, inside, rfl, last⟩
    obtain ⟨before, occurs⟩ := of_decide_eq_true found
    refine ⟨before, occurs, fun j later until_ there => ?_⟩
    have fits := there.1
    have := last (text.length - j) (by omega)
    rw [show text.length + 1 - 1 - (text.length - j) = j by omega] at this
    simp [until_, there] at this
  · rintro ⟨before, occurs, last⟩
    have fits := occurs.1
    refine ⟨by simp [before, occurs], text.length - i, by omega, by omega, fun k passed => ?_⟩
    simp only [Bool.not_eq_true', decide_eq_false_iff_not, not_and]
    exact fun until_ => last _ (by omega) until_

theorem lastUpTo?_eq_none_iff {stop : Nat} :
    lastUpTo? pattern text stop = none ↔ ∀ j, j ≤ stop → ¬ OccursAt pattern text j := by
  rw [lastUpTo?, List.find?_eq_none]
  simp only [List.mem_reverse, List.mem_range, decide_eq_true_eq, not_and]
  constructor
  · intro missing j until_ there
    have fits := there.1
    exact missing j (by omega) until_ there
  · intro missing j _ until_
    exact missing j until_

/-- Where nothing stands between two bounds, a search up to either gives the same. -/
theorem lastUpTo?_skip {stop next : Nat} (earlier : next ≤ stop)
    (missing : ∀ j, next < j → j ≤ stop → ¬ OccursAt pattern text j) :
    lastUpTo? pattern text next = lastUpTo? pattern text stop := by
  cases found : lastUpTo? pattern text next with
  | none =>
    symm
    rw [lastUpTo?_eq_none_iff] at found ⊢
    intro j until_
    rcases Nat.lt_or_ge next j with after | before
    · exact missing j after until_
    · exact found j before
  | some i =>
    symm
    rw [lastUpTo?_eq_some_iff] at found ⊢
    obtain ⟨before, occurs, last⟩ := found
    refine ⟨Nat.le_trans before earlier, occurs, fun j later until_ => ?_⟩
    rcases Nat.lt_or_ge next j with passed | seen
    · exact missing j passed until_
    · exact last j later seen

private theorem lastUpTo?_of_occursAt {stop : Nat} (occurs : OccursAt pattern text stop) :
    lastUpTo? pattern text stop = some stop :=
  lastUpTo?_eq_some_iff.mpr ⟨Nat.le_refl _, occurs, fun _ later until_ => by omega⟩

theorem lastUpTo?_nil (text : List UInt8) (stop : Nat) :
    lastUpTo? [] text stop = some (min stop text.length) := by
  refine lastUpTo?_eq_some_iff.mpr ⟨Nat.min_le_left _ _, ⟨Nat.min_le_right _ _, by simp⟩, ?_⟩
  intro j later until_ there
  have fits : j ≤ text.length := there.1
  omega

namespace Matcher

/-! Skips -/

theorem skipBackward_ofPattern (pattern : List UInt8) (b : UInt8) :
    (ofPattern pattern).skipBackward b = backwardSkip pattern b := by
  have small : b.toNat < 256 := b.toNat_lt
  simp [skipBackward, ofPattern, tableOf, Array.getD, small]

private theorem backwardSkip_le (pattern : List UInt8) (b : UInt8) :
    backwardSkip pattern b ≤ min maxSkip pattern.length := by
  have : backwardSkip pattern b ≤ (pattern.take maxSkip).length := List.findIdx_le_length
  rwa [List.length_take] at this

/-- The bytes that a skip passes over differ from the byte it was taken for. -/
private theorem getElem?_ne_of_lt_backwardSkip {b : UInt8} {j : Nat} (passed : j < backwardSkip pattern b) :
    pattern[j]? ≠ some b := by
  intro there
  have differs := List.not_of_lt_findIdx passed
  have inside : j < maxSkip := by
    have := backwardSkip_le pattern b
    omega
  rw [List.getElem_take] at differs
  obtain ⟨_, same⟩ := List.getElem?_eq_some_iff.mp there
  rw [same] at differs
  simp at differs

private theorem not_occursAt_of_skipBackward {current place : Nat} {b : UInt8} (here : text[current]? = some b)
    (reaches : place ≤ current) (passed : current < place + backwardSkip pattern b) :
    ¬ OccursAt pattern text place := by
  intro occurs
  have := backwardSkip_le pattern b
  have shown := occurs.getElem? (j := current - place) (by omega)
  rw [Nat.add_sub_cancel' reaches, here] at shown
  exact getElem?_ne_of_lt_backwardSkip (by omega) shown.symm

/-! The scan -/

/-- The scan may compare without asking whether the pattern fits, if it begins inside. -/
private theorem extract_eq_iff {current : Nat} (fits : current + pattern.length ≤ text.length) :
    (text.toArray.extract current (current + pattern.length)).toList = pattern ↔ OccursAt pattern text current := by
  rw [List.extract_toArray, List.extract_eq_take_drop, Nat.add_sub_cancel_left]
  exact ⟨fun same => ⟨fits, same⟩, fun occurs => occurs.2⟩

private theorem scanBackward_ofPattern (some : pattern ≠ []) {current : Nat}
    (fits : current + pattern.length ≤ text.length) :
    scanBackward (ofPattern pattern) text.toArray current = lastUpTo? pattern text current := by
  have long : 0 < pattern.length := List.length_pos_of_ne_nil some
  induction current using Nat.strongRecOn with
  | ind current ih =>
    have inside : current < text.length := by omega
    have byte : text[current]? = .some text[current] := List.getElem?_eq_getElem inside
    rw [scanBackward]
    have whole : (ofPattern pattern).pattern = pattern := rfl
    simp only [List.getElem?_toArray, byte, Option.map_some, Option.getD_some, skipBackward_ofPattern, whole,
      extract_eq_iff fits]
    -- Between the place that comes next and this one the pattern stands nowhere.
    have missing (unfit : ¬ (backwardSkip pattern text[current] = 0 ∧ OccursAt pattern text current)) :
        ∀ j, current < j + max 1 (backwardSkip pattern text[current]) → j ≤ current → ¬ OccursAt pattern text j := by
      intro j passed until_ there
      by_cases zero : backwardSkip pattern text[current] = 0
      · obtain rfl : j = current := by omega
        exact unfit ⟨zero, there⟩
      · exact not_occursAt_of_skipBackward byte until_ (by omega) there
    split
    · next found => exact (lastUpTo?_of_occursAt found.2).symm
    · next unfit =>
      split
      · next more =>
        rw [ih _ (by omega) (by omega)]
        exact lastUpTo?_skip (Nat.sub_le _ _) fun j later until_ => missing unfit j (by omega) until_
      · next last =>
        exact (lastUpTo?_eq_none_iff.mpr fun j until_ => missing unfit j (by omega) until_).symm

/-- The search gives the last place up to `stop` where the pattern stands. -/
theorem lastIndexIn_ofPattern (pattern text : List UInt8) (stop : Nat) :
    (ofPattern pattern).lastIndexIn text.toArray stop = lastUpTo? pattern text stop := by
  rw [lastIndexIn]
  have whole : (ofPattern pattern).pattern = pattern := rfl
  rw [whole, List.size_toArray]
  split
  · next none => rw [List.isEmpty_iff.mp none, lastUpTo?_nil]
  · next some =>
    have some : pattern ≠ [] := by simpa using some
    split
    · next short =>
      exact (lastUpTo?_eq_none_iff.mpr fun place _ there => by have := there.1; omega).symm
    · next roomy =>
      rw [scanBackward_ofPattern some (by omega)]
      refine lastUpTo?_skip (Nat.min_le_left _ _) fun place later _ there => ?_
      have := there.1
      omega

end Matcher

end ByteFlow.Search
