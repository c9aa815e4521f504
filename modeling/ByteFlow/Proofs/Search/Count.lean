import ByteFlow.Proofs.Search.Forward
import ByteFlow.Search.Find
import Mathlib.Data.Finset.Card
import Mathlib.Order.Interval.Finset.Nat

/-! Counting by searching on from each hit gives the number of places.
A search skips no place, so one that goes on right behind a hit leaves out that hit alone. -/
namespace ByteFlow.Search

/-- The places from `start` on where the pattern stands. -/
def placesFrom (pattern text : List UInt8) (start : Nat) : Finset Nat :=
  (Finset.range (text.length + 1)).filter fun i => start ≤ i ∧ OccursAt pattern text i

variable {pattern text : List UInt8} {start : Nat}

theorem mem_placesFrom {i : Nat} : i ∈ placesFrom pattern text start ↔ start ≤ i ∧ OccursAt pattern text i := by
  rw [placesFrom, Finset.mem_filter, Finset.mem_range]
  constructor
  · exact fun ⟨_, there⟩ => there
  · rintro ⟨later, occurs⟩
    have := occurs.1
    exact ⟨by omega, later, occurs⟩

/-- The first place from `start` on is one more than the places behind it. -/
theorem placesFrom_eq_insert {i : Nat} (found : firstFrom? pattern text start = some i) :
    placesFrom pattern text start = insert i (placesFrom pattern text (i + 1)) := by
  obtain ⟨later, occurs, first⟩ := firstFrom?_eq_some_iff.mp found
  ext j
  simp only [Finset.mem_insert, mem_placesFrom]
  constructor
  · rintro ⟨from_start, there⟩
    rcases Nat.lt_trichotomy j i with before | rfl | behind
    · exact absurd there (first j from_start before)
    · exact .inl rfl
    · exact .inr ⟨behind, there⟩
  · rintro (rfl | ⟨behind, there⟩)
    · exact ⟨later, occurs⟩
    · exact ⟨by omega, there⟩

private theorem countFrom_ofPattern (some : pattern ≠ []) (start : Nat) :
    countFrom (Matcher.ofPattern pattern) text.toArray start = (placesFrom pattern text start).card := by
  have long := List.length_pos_of_ne_nil some
  induction left : text.length - start using Nat.strongRecOn generalizing start with
  | ind _ ih =>
    subst left
    rw [countFrom, Matcher.indexIn_ofPattern]
    cases found : firstFrom? pattern text start with
    | none =>
      have missing := firstFrom?_eq_none_iff.mp found
      symm
      rw [Finset.card_eq_zero, Finset.eq_empty_iff_forall_notMem]
      exact fun j member => missing j (mem_placesFrom.mp member).1 (mem_placesFrom.mp member).2
    | some i =>
      obtain ⟨later, occurs, -⟩ := firstFrom?_eq_some_iff.mp found
      have inside : start ≤ i ∧ i < text.toArray.size := by
        have := occurs.1
        rw [List.size_toArray]
        omega
      have fresh : i ∉ placesFrom pattern text (i + 1) := fun member => Nat.lt_irrefl i (mem_placesFrom.mp member).1
      dsimp only
      rw [dif_pos inside, ih _ (by rw [List.size_toArray] at inside; omega) _ rfl, placesFrom_eq_insert found,
        Finset.card_insert_of_notMem fresh]

theorem count_eq_card (some : pattern ≠ []) : count text pattern = (placesFrom pattern text 0).card := by
  rw [count, if_neg (by simpa using some), countFrom_ofPattern some]

end ByteFlow.Search
