import ByteFlow.Medium.Traced

/-! Media that tell what they accept.
A write takes some first part of the bytes it is offered and tells how many, or fails and takes none. The
record of calls on any medium shows what was accepted. -/
namespace ByteFlow

class Medium.Accepting (σ : Type) [Medium σ] where
  /-- What the medium relies on. -/
  Sound : σ → Prop
  /-- The bytes that were accepted, in order. -/
  accepted : σ → List UInt8
  write_spec (held : List StorageId) {m : σ} (bytes : List UInt8) : Sound m →
    (∃ n m', Medium.write held m bytes = (.ok n, m') ∧ accepted m' = accepted m ++ bytes.take n ∧ Sound m') ∨
    ∃ e m', Medium.write held m bytes = (.error e, m') ∧ accepted m' = accepted m ∧ Sound m'
  seek_spec (held : List StorageId) {m : σ} (place : Nat) : Sound m →
    accepted (Medium.seek held m place).2 = accepted m ∧ Sound (Medium.seek held m place).2

namespace Medium

namespace Accepting

variable {σ : Type} [Medium σ] [Accepting σ] {held : List StorageId} {m m' : σ} {bytes : List UInt8}

theorem of_ok (sound : Sound m) {n : Nat} (wrote : Medium.write held m bytes = (.ok n, m')) :
    accepted m' = accepted m ++ bytes.take n ∧ Sound m' := by
  rcases write_spec held bytes sound with ⟨_, _, took, same⟩ | ⟨_, _, failed, -⟩
  · rw [wrote] at took
    cases took
    exact same
  · rw [wrote] at failed
    cases failed

theorem of_error (sound : Sound m) {e : IoError} (wrote : Medium.write held m bytes = (.error e, m')) :
    accepted m' = accepted m ∧ Sound m' := by
  rcases write_spec held bytes sound with ⟨_, _, took, -⟩ | ⟨_, _, failed, same⟩
  · rw [wrote] at took
    cases took
  · rw [wrote] at failed
    cases failed
    exact same

end Accepting

/-- The bytes that a call shows to be accepted. -/
def Call.accepted : Call → List UInt8
  | .write bytes (.ok n) => bytes.take n
  | _ => []

namespace Traced

variable {σ : Type}

def accepted (t : Traced σ) : List UInt8 := t.calls.reverse.flatMap Call.accepted

private theorem accepted_cons (m : σ) (call : Call) (calls : List Call) :
    accepted ⟨m, call :: calls⟩ = accepted ⟨m, calls⟩ ++ call.accepted := by
  rw [accepted, List.reverse_cons, List.flatMap_append, List.flatMap_singleton]
  rfl

/-- Whatever a medium does, its record tells what it accepted. -/
instance [Medium σ] : Accepting (Traced σ) where
  Sound _ := True
  accepted := accepted
  write_spec held t bytes _ := by
    show (∃ n t', t.record id (.write bytes) (Medium.write held t.medium bytes) = (.ok n, t') ∧ _) ∨
      ∃ e t', t.record id (.write bytes) (Medium.write held t.medium bytes) = (.error e, t') ∧ _
    generalize Medium.write held t.medium bytes = result
    obtain ⟨e | n, m⟩ := result
    · refine .inr ⟨e, _, rfl, (accepted_cons ..).trans ?_, trivial⟩
      exact List.append_nil t.accepted
    · exact .inl ⟨n, _, rfl, accepted_cons .., trivial⟩
  seek_spec held t place _ := by
    refine ⟨?_, trivial⟩
    show (t.record id (.seek place) (Medium.seek held t.medium place)).2.accepted = t.accepted
    refine (accepted_cons ..).trans ?_
    exact List.append_nil t.accepted

end Traced

end Medium

end ByteFlow
