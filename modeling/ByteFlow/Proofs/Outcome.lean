import Mathlib.Logic.Basic

/-! When a chain of steps that may fail comes to a result.
Each step has to come to one, and the next step has to go on from it. -/
namespace ByteFlow.Outcome

variable {ε α β : Type} {x : Except ε α} {y : β}

theorem map_eq_ok_iff {f : α → β} : x.map f = .ok y ↔ ∃ z, x = .ok z ∧ f z = y := by
  cases x <;> simp [Except.map]

theorem pure_eq_ok_iff {z : β} : (pure z : Except ε β) = .ok y ↔ z = y := by
  simp [pure, Except.pure]

theorem bind_eq_ok_iff {next : α → Except ε β} : (x >>= next) = .ok y ↔ ∃ z, x = .ok z ∧ next z = .ok y := by
  cases x <;> simp [bind, Except.bind]

/-- A check that fails lets nothing follow. -/
theorem check_eq_ok_iff {failing : Prop} [Decidable failing] {fault : ε} {next : PUnit → Except ε β} :
    (if failing then (throw fault >>= next : Except ε β) else next ⟨⟩) = .ok y ↔ ¬ failing ∧ next ⟨⟩ = .ok y := by
  split
  · next fails => simp [fails, throw, throwThe, MonadExceptOf.throw, bind, Except.bind]
  · next passes => simp [passes]

end ByteFlow.Outcome
