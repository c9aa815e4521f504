import ByteFlow.Medium.Memory
import ByteFlow.Medium.Pipe

/-! Media that do not fail.
Memory and pipes may move less than they were asked to, but never break down: only a place they cannot
go to is refused, and then they stay as they are. -/
namespace ByteFlow

/-- A medium whose only failures are refused moves, which change nothing. -/
class Medium.Faultless (σ : Type) [Medium σ] : Prop where
  read_ok (held : List StorageId) (m : σ) (n : Nat) :
    ∃ bytes m', Medium.read held m n = (.ok ⟨bytes, bytes.length⟩, m') ∧ bytes.length ≤ n
  write_ok (held : List StorageId) (m : σ) (bytes : List UInt8) : ∃ n m', Medium.write held m bytes = (.ok n, m')
  seek_refused {held : List StorageId} {m m' : σ} {place : Nat} {e : IoError} :
    Medium.seek held m place = (.error e, m') → m' = m
  openWith_ok (m : σ) (mode : OpenMode) : ∃ m', Medium.openWith m mode = (.ok (), m')
  close_ok (m : σ) : ∃ m', Medium.close m = (.ok (), m')
  flush_ok (m : σ) : ∃ m', Medium.flush m = (.ok (), m')

theorem ChunkQueue.length_read_le (q : ChunkQueue) (n : Nat) : (q.read n).1.length ≤ n := by
  fun_induction ChunkQueue.read q n with
  | case1 q n piece taken more rest found ih =>
    rw [found] at ih
    have few : more.length ≤ n - piece.length := ih
    rw [List.length_append]
    omega
  | case2 q n piece none => exact Nat.zero_le n

namespace Medium

instance : Faultless Memory where
  read_ok _ m n := ⟨(m.data.content.drop m.cursor).take n, _, rfl, List.length_take_le ..⟩
  write_ok _ _ _ := ⟨_, _, rfl⟩
  seek_refused {held m m' place e} refused := by
    have refused : m.seek held place = (.error e, m') := refused
    rw [Memory.seek] at refused
    split at refused
    · cases refused
    · split at refused
      · cases refused
      · exact (Prod.mk.inj refused).2.symm
  openWith_ok _ _ := ⟨_, rfl⟩
  close_ok m := ⟨m, rfl⟩
  flush_ok m := ⟨m, rfl⟩

instance : Faultless Pipe where
  read_ok held p n := by
    show ∃ bytes p', p.read n = (.ok ⟨bytes, bytes.length⟩, p') ∧ bytes.length ≤ n
    rw [Pipe.read]
    split
    · exact ⟨[], p, rfl, Nat.zero_le n⟩
    · next queue found =>
      refine ⟨_, _, rfl, Nat.le_trans (queue.length_read_le _) ?_⟩
      cases p.readLimit with
      | none => exact Nat.le_refl n
      | some most => exact Nat.min_le_right most n
  write_ok held p bytes := by
    show ∃ n p', p.write held bytes = (.ok n, p')
    rw [Pipe.write]
    dsimp only
    split
    · exact ⟨_, _, rfl⟩
    · exact ⟨_, _, rfl⟩
  seek_refused refused := (Prod.mk.inj refused).2.symm
  openWith_ok p _ := ⟨p, rfl⟩
  close_ok p := ⟨p, rfl⟩
  flush_ok p := ⟨p, rfl⟩

end Medium

end ByteFlow
