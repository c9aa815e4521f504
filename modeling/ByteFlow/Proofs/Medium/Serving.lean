import ByteFlow.Medium.Scripted
import ByteFlow.Proofs.Medium.Source

/-! Streams that serve fixed bytes, as they please.
A read delivers some first part of the bytes to come, none of them included, or fails and takes none. Nothing
is promised about when it does which. -/
namespace ByteFlow

class Medium.Serving (σ : Type) [Medium σ] where
  /-- What the stream relies on. -/
  Sound : σ → Prop
  /-- The bytes still to be served. -/
  rest : σ → List UInt8
  isSequential {m : σ} : Sound m → Medium.isSequential m = true
  read_spec (held : List StorageId) {m : σ} (n : Nat) : Sound m →
    (∃ bytes m', Medium.read held m n = (.ok ⟨bytes, bytes.length⟩, m') ∧ bytes.length ≤ n ∧
      rest m = bytes ++ rest m' ∧ Sound m') ∨
    ∃ e m', Medium.read held m n = (.error e, m') ∧ rest m' = rest m ∧ Sound m'

namespace Medium

namespace Serving

variable {σ : Type} [Medium σ] [Serving σ]

/-- What is to come, of a state that is no stream just so many bytes as it has places. -/
def ahead (m : σ) : List UInt8 :=
  if Medium.isSequential m then rest m else List.replicate (Medium.size m) 0

theorem ahead_of_sound {m : σ} (sound : Sound m) : ahead m = rest m := if_pos (isSequential sound)

/-- A stream that serves as it pleases is a source, but neither a steady nor a prompt one. -/
instance (priority := low) source : Source σ where
  Sound := Sound
  ahead := ahead
  content m := List.replicate (Medium.size m) 0
  place _ := 0
  Steady _ := False
  Prompt _ := False
  Kept a b := Medium.isSequential b = Medium.isSequential a ∧
    (Medium.isSequential a = false → Medium.size b = Medium.size a)
  kept_refl _ := ⟨rfl, fun _ => rfl⟩
  kept_trans first second :=
    ⟨second.1.trans first.1, fun random => (second.2 (first.1.trans random)).trans (first.2 random)⟩
  isSequential_of_kept kept := kept.1
  content_of_kept kept random := congrArg (List.replicate · 0) (kept.2 random)
  steady_of_kept _ := Iff.rfl
  prompt_of_kept _ := Iff.rfl
  steady_of_prompt := id
  ahead_eq {m} random := by rw [ahead, random, List.drop_zero]; rfl
  size_eq _ := List.length_replicate.symm
  read_spec held m n sound := by
    have stream := isSequential sound
    have apart {p : Prop} (random : Medium.isSequential m = false) : p :=
      absurd (stream.symm.trans random) (by decide)
    rcases read_spec held n sound with ⟨bytes, m', read, few, served, sound'⟩ | ⟨e, m', read, same, sound'⟩
    · refine .inl ⟨bytes, m', read, few, ?_, apart, sound', ⟨?_, apart⟩, False.elim, False.elim⟩
      · rw [ahead_of_sound sound, ahead_of_sound sound', served]
      · rw [isSequential sound', stream]
    · refine .inr ⟨e, m', read, ?_, apart, sound', ⟨?_, apart⟩, id⟩
      · rw [ahead_of_sound sound, ahead_of_sound sound', same]
      · rw [isSequential sound', stream]
  seek_spec _ _ _ sound random := absurd ((isSequential sound).symm.trans random) (by decide)

end Serving

namespace Scripted

/-- A scripted stream whose plan never reports a false count. -/
structure Honest (s : Scripted) : Prop where
  sequential : s.sequential = true
  counts : ∀ outcome ∈ s.reads, ∀ n, outcome ≠ .claim n

private theorem report_of_honest {outcome : Option Outcome} (honest : ∀ n, outcome ≠ some (.claim n)) (n : Nat) :
    report n outcome = n := by
  rcases outcome with _ | _ | _ | count
  · rfl
  · rfl
  · rfl
  · exact absurd rfl (honest count)

private theorem room_le (n : Nat) (outcome : Option Outcome) : room n outcome ≤ n := by
  rcases outcome with _ | _ | most | _
  · exact Nat.le_refl n
  · exact Nat.le_refl n
  · exact Nat.min_le_right most n
  · exact Nat.le_refl n

/-- A scripted stream serves its data, whatever its plan caps or fails. -/
instance : Serving Scripted where
  Sound := Honest
  rest s := s.data.drop s.cursor
  isSequential honest := honest.sequential
  read_spec held s n honest := by
    show (∃ bytes m', s.read n = (.ok ⟨bytes, bytes.length⟩, m') ∧ _) ∨ ∃ e m', s.read n = (.error e, m') ∧ _
    have left : ∀ cursor, Honest { s with reads := s.reads.tail, cursor := cursor } := fun _ =>
      ⟨honest.sequential, fun outcome member => honest.counts outcome (List.mem_of_mem_tail member)⟩
    have delivers (outcome : Option Outcome) (planned : ∀ n, outcome ≠ some (.claim n)) :
        ∃ bytes m', ((.ok ⟨(s.data.drop s.cursor).take (room n outcome),
              report ((s.data.drop s.cursor).take (room n outcome)).length outcome⟩,
            { s with reads := s.reads.tail,
                     cursor := s.cursor + ((s.data.drop s.cursor).take (room n outcome)).length }) :
            Except IoError Delivery × Scripted) = (.ok ⟨bytes, bytes.length⟩, m') ∧ bytes.length ≤ n ∧
          s.data.drop s.cursor = bytes ++ m'.data.drop m'.cursor ∧ Honest m' := by
      refine ⟨_, _, by rw [report_of_honest planned], Nat.le_trans (List.length_take_le ..) (room_le n outcome),
        ?_, left _⟩
      dsimp only
      rw [← List.drop_drop]
      conv_lhs => rw [← List.take_append_drop (room n outcome) (s.data.drop s.cursor)]
      congr 1
      rw [List.drop_eq_drop_iff, List.length_take]
      omega
    rw [Scripted.read]
    cases planned : s.reads.head? with
    | none => exact .inl (delivers none fun _ => (Option.some_ne_none _).symm)
    | some outcome =>
      have member : outcome ∈ s.reads := List.mem_of_mem_head? planned
      cases outcome with
      | fail e => exact .inr ⟨e, _, rfl, rfl, left _⟩
      | cap most => exact .inl (delivers (some (.cap most)) fun n same => honest.counts _ member n (Option.some.inj same))
      | claim count => exact absurd rfl (honest.counts _ member count)

end Scripted

end Medium

end ByteFlow
