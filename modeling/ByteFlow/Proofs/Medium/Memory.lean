import ByteFlow.Medium.Memory
import ByteFlow.Proofs.Handle.Content

/-! What writing to memory and moving in it make of its contents. -/
namespace ByteFlow.Medium.Memory
open Handle

/-- The contents with bytes put over what stands from a place on, and behind it. -/
def written (content : List UInt8) (place : Nat) (bytes : List UInt8) : List UInt8 :=
  content.take place ++ bytes ++ content.drop (place + bytes.length)

/-- The contents with zeros up to a place, if it lies behind them. -/
def padded (content : List UInt8) (place : Nat) : List UInt8 :=
  content ++ List.replicate (place - content.length) 0

theorem length_written {content : List UInt8} {place : Nat} (inside : place ≤ content.length) (bytes : List UInt8) :
    (written content place bytes).length = max content.length (place + bytes.length) := by
  rw [written, List.length_append, List.length_append, List.length_take, List.length_drop]
  omega

theorem drop_written {content : List UInt8} {place : Nat} (inside : place ≤ content.length) (bytes : List UInt8) :
    (written content place bytes).drop (place + bytes.length) = content.drop (place + bytes.length) := by
  rw [written]
  apply List.drop_left'
  rw [List.length_append, List.length_take]
  omega

theorem drop_written_of_le {content : List UInt8} {start place : Nat} {bytes : List UInt8} (inside : start ≤ content.length)
    (behind : start + bytes.length ≤ place) : (written content start bytes).drop place = content.drop place := by
  obtain ⟨more, rfl⟩ := Nat.exists_eq_add_of_le behind
  rw [← List.drop_drop, drop_written inside, List.drop_drop]

theorem written_nil (content : List UInt8) (place : Nat) : written content place [] = content := by
  rw [written, List.append_nil, List.length_nil, Nat.add_zero, List.take_append_drop]

/-- What is written in two pieces is written one behind the other. -/
theorem written_append {content : List UInt8} {place : Nat} (inside : place ≤ content.length) (first second : List UInt8) :
    written (written content place first) (place + first.length) second = written content place (first ++ second) := by
  have start : (written content place first).take (place + first.length) = content.take place ++ first := by
    rw [written]
    apply List.take_left'
    rw [List.length_append, List.length_take, Nat.min_eq_left inside]
  have rest : (written content place first).drop (place + first.length + second.length) =
      content.drop (place + (first ++ second).length) := by
    rw [← List.drop_drop, drop_written inside, List.drop_drop, List.length_append, Nat.add_assoc]
  rw [written, start, rest, written]
  simp only [List.append_assoc]

theorem length_padded (content : List UInt8) (place : Nat) :
    (padded content place).length = max content.length place := by
  rw [padded, List.length_append, List.length_replicate]
  omega

/-- A write takes all bytes, and extends the contents as far as it must. -/
theorem write_eq (held : List StorageId) (m : Memory) (bytes : List UInt8) (inside : m.cursor ≤ m.data.content.length) :
    ∃ m', Medium.write held m bytes = (.ok bytes.length, m') ∧
      m'.data.content = written m.data.content m.cursor bytes ∧ m'.cursor = m.cursor + bytes.length ∧
      m'.writable = m.writable := by
  refine ⟨_, rfl, ?_, rfl, rfl⟩
  dsimp only
  rw [content_store, overlaid]
  split
  · next grows =>
    rw [← length_content] at grows
    have none : m.data.content.drop (m.cursor + bytes.length) = [] := List.drop_eq_nil_of_le (by omega)
    rw [content_resize, List.take_of_length_le (Nat.le_of_lt grows), List.take_append_of_le_length inside, written, none,
      ← length_content]
    have length : (m.data.content ++ List.replicate (m.cursor + bytes.length - m.data.content.length) 0).length =
        m.cursor + bytes.length := by
      rw [List.length_append, List.length_replicate]
      omega
    rw [length, Nat.add_sub_cancel_left, List.take_length, List.drop_eq_nil_of_le (Nat.le_of_eq length)]
  · next fits =>
    rw [← length_content] at fits
    have whole : bytes.take (m.data.content.length - m.cursor) = bytes := List.take_of_length_le (by omega)
    rw [whole, written]

/-- A move past the end of writable memory fills the gap; elsewhere nothing but the place changes. -/
theorem seek_eq (held : List StorageId) (m : Memory) (place : Nat)
    (allowed : place ≤ m.data.content.length ∨ m.writable = true) :
    ∃ m', Medium.seek held m place = (.ok (), m') ∧ m'.data.content = padded m.data.content place ∧
      m'.cursor = place ∧ m'.writable = m.writable := by
  by_cases inside : place ≤ m.data.content.length
  · refine ⟨{ m with cursor := place }, ?_, ?_, rfl, rfl⟩
    · exact if_pos (by rwa [← length_content])
    · rw [padded, Nat.sub_eq_zero_of_le inside, List.replicate_zero, List.append_nil]
  · have writable := allowed.resolve_left inside
    refine ⟨{ m with data := m.data.resize held place, cursor := place }, ?_, ?_, rfl, rfl⟩
    · show m.seek held place = _
      rw [seek, if_neg (by rwa [← length_content]), if_pos writable]
    · dsimp only
      rw [content_resize, padded, List.take_of_length_le (by omega), length_content]

theorem seek_refused (held : List StorageId) (m : Memory) (place : Nat) (outside : ¬ place ≤ m.data.content.length)
    (fixed : m.writable = false) :
    ∃ message, Medium.seek held m place = (.error ⟨.invalidInput, message⟩, m) := by
  refine ⟨"seek past the end of a read-only buffer", ?_⟩
  show m.seek held place = _
  rw [seek, if_neg (by rwa [← length_content]), fixed]
  rfl

end ByteFlow.Medium.Memory
