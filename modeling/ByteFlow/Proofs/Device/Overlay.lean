import ByteFlow.Proofs.Device.Outgoing
import ByteFlow.Proofs.Device.Pass
import ByteFlow.Proofs.Medium.Memory

/-! Writing to memory through a device.
Memory takes all it is offered at once, so that a write puts all its bytes over what stands at the
position, with its line ends widened in text mode, and the positions follow. -/
namespace ByteFlow.Device
open Medium Medium.Memory

/-- The device `e` is `d` after `raw` was put over what stood where the memory stands. -/
structure Overlays (d e : Device Medium.Memory) (raw : List UInt8) : Prop where
  rest : e = { d with
    medium := e.medium
    pos := Word.addWrapped d.pos raw.length
    mediumPos := Word.addWrapped d.mediumPos raw.length }
  content : e.medium.data.content = written d.medium.data.content d.medium.cursor raw
  cursor : e.medium.cursor = d.medium.cursor + raw.length
  writable : e.medium.writable = d.medium.writable

/-- The places that a device over memory keeps are places, and machine words hold them. -/
structure Within (d : Device Medium.Memory) : Prop where
  random : d.sequential = false
  cursor : d.medium.cursor ≤ d.medium.data.content.length
  pos : d.pos < Word.modulus
  mediumPos : d.mediumPos < Word.modulus

variable {d e f : Device Medium.Memory} {raw more : List UInt8}

namespace Overlays

private theorem nothing (within : Within d) : Overlays d d [] := by
  refine ⟨?_, (written_nil ..).symm, rfl, rfl⟩
  rw [List.length_nil, Word.addWrapped_zero within.pos, Word.addWrapped_zero within.mediumPos]

private theorem within (overlays : Overlays d e raw) (within : Within d) : Within e := by
  refine ⟨?_, ?_, ?_, ?_⟩
  · rw [overlays.rest]
    exact within.random
  · rw [overlays.content, overlays.cursor, length_written within.cursor]
    exact Nat.le_max_right ..
  · rw [overlays.rest]
    exact Nat.mod_lt _ (by decide)
  · rw [overlays.rest]
    exact Nat.mod_lt _ (by decide)

private theorem trans (first : Overlays d e raw) (within : Within d) (second : Overlays e f more) :
    Overlays d f (raw ++ more) := by
  refine ⟨?_, ?_, ?_, second.writable.trans first.writable⟩
  · rw [second.rest, first.rest, List.length_append, ← Word.addWrapped_addWrapped, ← Word.addWrapped_addWrapped]
  · rw [second.content, first.content, first.cursor, written_append within.cursor]
  · rw [second.cursor, first.cursor, List.length_append, Nat.add_assoc]

end Overlays

/-- Memory takes all bytes at once. -/
theorem offer_eq (d : Device Medium.Memory) (bytes : List UInt8) (inside : d.medium.cursor ≤ d.medium.data.content.length) :
    ∃ m, d.offer bytes = (bytes.length, none, { d with medium := m }) ∧
      m.data.content = written d.medium.data.content d.medium.cursor bytes ∧
      m.cursor = d.medium.cursor + bytes.length ∧ m.writable = d.medium.writable := by
  rw [offer]
  split
  · next none =>
    obtain rfl := List.isEmpty_iff.mp none
    exact ⟨d.medium, rfl, (written_nil ..).symm, rfl, rfl⟩
  · next some =>
    have positive : 0 < bytes.length := List.length_pos_of_ne_nil (by simpa using some)
    obtain ⟨m, wrote, content, cursor, writable⟩ := write_eq d.heldBesideMedium d.medium bytes inside
    refine ⟨m, ?_, content, cursor, writable⟩
    rw [wrote]
    dsimp only
    rw [Nat.min_self, dif_pos ⟨positive, Nat.le_refl _⟩, List.drop_length, offer]
    rfl

private theorem writePiece_overlays (within : Within d) (bytes : List UInt8) :
    ∃ e, d.writePiece bytes = (.ok bytes.length, e) ∧ Overlays d e bytes := by
  rw [writePiece]
  split
  · next none =>
    obtain rfl := List.isEmpty_iff.mp none
    exact ⟨d, rfl, .nothing within⟩
  · obtain ⟨m, offered, content, cursor, writable⟩ := offer_eq d bytes within.cursor
    rw [if_neg (by simp [within.random]), offered]
    dsimp only
    rw [advance_eq, follow_eq]
    refine ⟨_, rfl, ?_, content, cursor, writable⟩
    simp only [within.random, Bool.false_eq_true, if_false]

private theorem takesAll_overlays (within : Within d) (most : Nat) : TakesAll most fun sent e => Overlays d e sent := by
  intro sent e piece _ overlays
  obtain ⟨f, wrote, more⟩ := writePiece_overlays (overlays.within within) piece
  exact ⟨f, wrote, overlays.trans within more⟩

/-- What was read ahead of the bytes that were written is given up. -/
private theorem afterWrite_eq (random : d.sequential = false) {place n : Nat} (pos : d.pos = Word.addWrapped place n)
    (inside : place < Word.modulus) (small : n < Word.modulus) :
    d.afterWrite place = { d with reading := d.reading.put (d.readQueue.free n) } := by
  rw [afterWrite, if_pos (by simp [random]), pos, Word.distance_addWrapped inside small]

/-- A write that is allowed puts what goes out for it over what stands at the position, and gives up as many of the
bytes read ahead. -/
theorem write_overlays {queued s : List UInt8} (has : d.Supplies [] queued s) (random : d.sequential = false)
    (able : d.writeObstacle? = none) {bytes : List UInt8} (some : ¬ bytes.isEmpty = true) :
    ∃ d' m, d'.Supplies [] queued s ∧ d.Kin d' ∧ d'.pos = d.pos ∧
      m.data.content = written d.medium.data.content d.pos (d.outgoing bytes) ∧
      m.cursor = d.pos + (d.outgoing bytes).length ∧ m.writable = d.medium.writable ∧ (d.write bytes).2.medium = m ∧
      ((d.outgoing bytes).length < Word.modulus → d.write bytes = (.ok bytes.length, { d' with
        medium := m
        reading := d'.reading.put (d'.readQueue.free (d.outgoing bytes).length)
        pos := Word.addWrapped d.pos (d.outgoing bytes).length
        mediumPos := Word.addWrapped d.pos (d.outgoing bytes).length })) := by
  obtain ⟨d', synced_eq, has', kin, pos, synced⟩ := sync_supplies has
  have random' : d'.sequential = false := kin.sequential.trans random
  have same : d'.medium.data = d.medium.data := kin.medium.1
  have placed := has'.placed random'
  have there : d'.mediumPos = d.pos := (synced random').trans pos
  have cursor : d'.medium.cursor = d.pos := placed.stands.trans there
  have small := placed.small
  have inside : d'.medium.cursor ≤ (Source.content d'.medium).length := by
    rw [cursor, ← pos]
    exact Nat.le_trans (Nat.le_add_right ..) placed.inside
  have word : d.pos < Word.modulus := by
    have := Word.maxValue_lt_modulus
    omega
  have within : Within d' := ⟨random', inside, pos ▸ word, there ▸ word⟩
  obtain ⟨e, wrote, rest, content, cursor', writable⟩ := outgoing_sent (takesAll_overlays within (max 2 bytes.length))
    (Nat.le_max_left ..) bytes (Nat.le_max_right ..) (.nothing within)
  have out : d'.outgoing bytes = d.outgoing bytes := by rw [outgoing, kin.isText, kin.config, outgoing]
  rw [List.nil_append, out] at rest content cursor'
  rw [cursor, same] at content
  rw [cursor] at cursor'
  rw [pos, there] at rest
  have final : d.write bytes = (.ok bytes.length, e.afterWrite d.pos) := by
    rw [write, able]
    dsimp only
    rw [if_neg some, synced_eq]
    dsimp only
    rw [wrote]
    dsimp only
    rw [pos]
  have random'' : e.sequential = false := by rw [rest]; exact random'
  refine ⟨d', e.medium, has', kin, pos, content, cursor', writable.trans kin.medium.2, ?_, fun few => ?_⟩
  · rw [final, afterWrite, if_pos (by simp [random''])]
  · rw [final, afterWrite_eq random'' (by rw [rest]) word few, rest]
    rfl

end ByteFlow.Device
