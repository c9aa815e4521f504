import ByteFlow.Proofs.Handle.Content
import ByteFlow.Proofs.Handle.Sharing
import Mathlib.Data.List.Forall2

/-! Percent escapes read back, whatever byte announces them.
Every byte is written as a unit of its own. Reading takes the units off one after the other and stays in step with
them: a kept byte is never the announcing one, and an escaped byte always begins with it. -/
namespace ByteFlow.Codec.Percent

/-- A letter or digit of ASCII, or one of four marks. -/
def Unreserved (b : UInt8) : Prop :=
  (Char.ofNat b.toNat).isAlphanum ∨ Char.ofNat b.toNat ∈ ['-', '.', '_', '~']

instance (b : UInt8) : Decidable (Unreserved b) := inferInstanceAs (Decidable (_ ∨ _))

private theorem isUnreserved_iff (b : UInt8) : Byte.isUnreserved b = true ↔ Unreserved b := by
  have all : ∀ n < 256, Byte.isUnreserved (UInt8.ofNat n) = true ↔ Unreserved (UInt8.ofNat n) := by
    decide +kernel
  simpa using all b.toNat b.toNat_lt

/-- The bytes that stand for themselves. -/
def Rule.Keeps (r : Rule) (b : UInt8) : Prop :=
  b ≠ r.escape ∧ (b ∈ r.excluded ∨ Unreserved b ∧ b ∉ r.included)

private theorem Rule.keeps_iff (r : Rule) (b : UInt8) : r.keeps b = true ↔ r.Keeps b := by
  simp [keeps, Keeps, isUnreserved_iff]

/-- The hexadecimal digits in the order of their values. -/
def capitals : List UInt8 :=
  ['0', '1', '2', '3', '4', '5', '6', '7', '8', '9', 'A', 'B', 'C', 'D', 'E', 'F'].map fun c => UInt8.ofNat c.toNat

private theorem getElem?_capitals {value : Nat} (small : value < 16) :
    capitals[value]? = some (Byte.upperDigit value) := by
  revert value
  decide

/-- What one byte is written as. -/
inductive Written (r : Rule) : UInt8 → List UInt8 → Prop
  | kept {b : UInt8} (keeps : r.Keeps b) : Written r b [b]
  | escaped {b high low : UInt8} (changes : ¬ r.Keeps b) (first : capitals[b.toNat / 16]? = some high)
      (second : capitals[b.toNat % 16]? = some low) : Written r b [r.escape, high, low]

private theorem written_unit (r : Rule) (b : UInt8) : Written r b (if r.keeps b then [b] else escaped r.escape b) := by
  have byte := b.toNat_lt
  split
  · next keeps => exact .kept ((r.keeps_iff b).mp keeps)
  · next changes =>
    have changes : ¬ r.Keeps b := fun keeps => changes ((r.keeps_iff b).mpr keeps)
    exact .escaped changes (getElem?_capitals (by omega)) (getElem?_capitals (by omega))

/-- The text is made of what the bytes are written as, in their order. -/
private theorem encode_units (r : Rule) (bytes : List UInt8) :
    ∃ units, List.Forall₂ (Written r) bytes units ∧ encode r bytes = units.flatten := by
  induction bytes with
  | nil => exact ⟨[], .nil, rfl⟩
  | cons b rest ih =>
    obtain ⟨units, written, text⟩ := ih
    refine ⟨_, .cons (written_unit r b) written, ?_⟩
    rw [List.flatten_cons, ← text]
    rfl

/-- The two digits of a byte name that byte. -/
private theorem pair?_digits (b : UInt8) :
    pair? (Byte.upperDigit (b.toNat / 16)) (Byte.upperDigit (b.toNat % 16)) = some b := by
  have byte := b.toNat_lt
  have high : b.toNat / 16 < 16 := by omega
  have low : b.toNat % 16 < 16 := by omega
  have halves : 16 * (b.toNat / 16) + b.toNat % 16 = b.toNat := Nat.div_add_mod ..
  have digits : ∀ value, value < 16 → Byte.digitIn? 16 (Byte.upperDigit value) = some value := by
    intro value small
    rw [Byte.digitIn?, Byte.digitValue?_upperDigit (by omega), Option.filter_some, if_pos (by simpa using small)]
  rw [pair?, digits _ high, digits _ low]
  dsimp only
  rw [halves, UInt8.ofNat_toNat]

/-- Another byte than the announcing one is read as it stands. -/
private theorem decode_cons_of_ne {escape b : UInt8} (plain : b ≠ escape) (rest : List UInt8) :
    decode escape (b :: rest) = b :: decode escape rest := by
  match rest with
  | [] => rfl
  | [_] => rfl
  | _ :: _ :: _ => rw [decode, if_neg plain]

private theorem decode_escaped (escape b : UInt8) (rest : List UInt8) :
    decode escape (escaped escape b ++ rest) = b :: decode escape rest := by
  simp only [escaped, List.cons_append, List.nil_append]
  rw [decode, if_pos rfl, pair?_digits]

/-- Reading what bytes were written as gives the bytes, and goes on behind them. -/
private theorem decode_encode_append (r : Rule) (bytes rest : List UInt8) :
    decode r.escape (encode r bytes ++ rest) = bytes ++ decode r.escape rest := by
  induction bytes with
  | nil => rfl
  | cons b bytes ih =>
    have unit : encode r (b :: bytes) = (if r.keeps b then [b] else escaped r.escape b) ++ encode r bytes := rfl
    rw [unit, List.append_assoc, List.cons_append]
    by_cases keeps : r.keeps b
    · have plain : b ≠ r.escape := ((r.keeps_iff b).mp keeps).1
      rw [if_pos keeps, List.cons_append, List.nil_append, decode_cons_of_ne plain, ih]
    · rw [if_neg keeps, decode_escaped, ih]

private theorem decode_encode (r : Rule) (bytes : List UInt8) : decode r.escape (encode r bytes) = bytes := by
  have read := decode_encode_append r bytes []
  rwa [List.append_nil, decode, List.append_nil] at read

/-- A text of kept bytes is written as it is. -/
private theorem encode_of_keeps {r : Rule} {bytes : List UInt8} (all : bytes.all r.keeps = true) :
    encode r bytes = bytes := by
  rw [List.all_eq_true] at all
  induction bytes with
  | nil => rfl
  | cons b rest ih =>
    rw [List.forall_mem_cons] at all
    have unit : encode r (b :: rest) = (if r.keeps b then [b] else escaped r.escape b) ++ encode r rest := rfl
    rw [unit, if_pos all.1, ih all.2]
    rfl

end ByteFlow.Codec.Percent

namespace ByteFlow.Handle

open Codec.Percent

@[simp] theorem content_toPercent (held : List StorageId) (r : Rule) (h : Handle) :
    (h.toPercent held r).content = encode r h.content := by
  rw [toPercent]
  split
  · next all => exact (encode_of_keeps all).symm
  · exact content_allocate ..

/-- A copy shares with nobody, the handle that was copied included. -/
private theorem sharesWith_allocate (held : List StorageId) (room : Nat) (bytes : List UInt8) (h : Handle) :
    (allocate (h.id?.toList ++ held) room bytes).sharesWith h = false := by
  have placed : Placed h.id?.toList .absent (allocate (h.id?.toList ++ held) room bytes).storage :=
    placed_allocate _ room bytes fun _ => List.mem_append_left held
  exact placed.unshared fun id named => by simp [named]

/-- Written with escapes, bytes read back as they were. Each is written by itself, as it is if the rule keeps it
and else as the announcing byte with two hexadecimal digits; and the storage of bytes is shared exactly if all of
them are kept. -/
theorem percent_reads_back (held : List StorageId) (r : Rule) (h : Handle) :
    decode r.escape (h.toPercent held r).content = h.content ∧
      (∃ units, List.Forall₂ (Written r) h.content units ∧ (h.toPercent held r).content = units.flatten) ∧
      (h.content ≠ [] → ((h.toPercent held r).sharesWith h = true ↔ ∀ b ∈ h.content, r.Keeps b)) := by
  rw [content_toPercent]
  refine ⟨decode_encode r h.content, encode_units r h.content, fun some => ?_⟩
  have some : 0 < h.length := by
    rw [← length_content]
    exact List.length_pos_of_ne_nil some
  have kept : h.content.all r.keeps = true ↔ ∀ b ∈ h.content, r.Keeps b := by
    simp only [List.all_eq_true, r.keeps_iff]
  rw [← kept, toPercent]
  split
  · next all => simp [all, sharesWith_of_storage some rfl]
  · next changes => simp [changes, sharesWith_allocate]

/-- The announcing byte is a digit here, stands in the text, and is listed both ways. -/
theorem percent_reads_back_digit :
    let r : Rule := ⟨[52, 32], [52, 122], 52⟩
    let h := ofList [] [52, 65, 32, 122, 52]
    decode r.escape (h.toPercent [] r).content = h.content ∧
      (h.toPercent [] r).content = [52, 51, 52, 65, 32, 52, 55, 65, 52, 51, 52] ∧
      (h.toPercent [] r).sharesWith h = false := by
  intro r h
  obtain ⟨back, -, shares⟩ := percent_reads_back [] r h
  refine ⟨back, by decide, ?_⟩
  have lost : ¬ ∀ b ∈ h.content, r.Keeps b := fun all => (all 52 (by decide)).1 rfl
  simpa using mt (shares (by decide)).mp lost

end ByteFlow.Handle
