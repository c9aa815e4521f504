import ByteFlow.Proofs.Codec.Base64.Reference
import Mathlib.Data.List.DropRight
import Mathlib.Data.Nat.Digits.Lemmas

/-! Base64 text and the bytes it stands for, whatever engine does as its description says.
Splitting bytes and joining six-bit values undo each other group by group, and reading and writing go through a text by
the same groups. Bytes and six-bit values are digits of one number in two bases. -/
namespace ByteFlow.Codec.Base64

/-! Regrouping bits -/

/-- The sextets hold the bits of the bytes in their order, and fewer than six zero bits behind them: from the highest
digit down, they write in base 64 the number that the bytes write in base 256, times the power of two that the zero
bits stand for. -/
structure Regroups (bytes : List UInt8) (sextets : List Nat) : Prop where
  small : ∀ v ∈ sextets, v < 64
  room : 8 * bytes.length ≤ 6 * sextets.length
  tight : 6 * sextets.length < 8 * bytes.length + 6
  same : Nat.ofDigits 64 sextets.reverse =
    Nat.ofDigits 256 (bytes.map UInt8.toNat).reverse * 2 ^ (6 * sextets.length - 8 * bytes.length)

variable {bytes text : List UInt8} {sextets : List Nat}

private theorem regroups_nil : Regroups [] [] := ⟨by simp, by simp, by simp, by simp⟩

private theorem regroups_pair {a : UInt8} {w x : Nat} (small : w < 64 ∧ x < 64) (same : w * 64 + x = a.toNat * 16) :
    Regroups [a] [w, x] := by
  refine ⟨?_, by simp, by simp, ?_⟩
  · simp only [List.forall_mem_cons]
    exact ⟨small.1, small.2, nofun⟩
  · simp only [List.reverse_cons, List.reverse_nil, List.nil_append, List.cons_append, List.map_cons, List.map_nil,
      List.length_cons, List.length_nil, Nat.ofDigits_cons, Nat.ofDigits_nil]
    omega

private theorem regroups_triple {a b : UInt8} {w x y : Nat} (small : w < 64 ∧ x < 64 ∧ y < 64)
    (same : (w * 64 + x) * 64 + y = (a.toNat * 256 + b.toNat) * 4) : Regroups [a, b] [w, x, y] := by
  refine ⟨?_, by simp, by simp, ?_⟩
  · simp only [List.forall_mem_cons]
    exact ⟨small.1, small.2.1, small.2.2, nofun⟩
  · simp only [List.reverse_cons, List.reverse_nil, List.nil_append, List.cons_append, List.map_cons, List.map_nil,
      List.length_cons, List.length_nil, Nat.ofDigits_cons, Nat.ofDigits_nil]
    omega

/-- Three bytes and four sextets that are one number may go in front. -/
private theorem Regroups.group {a b c : UInt8} {w x y z : Nat} (small : w < 64 ∧ x < 64 ∧ y < 64 ∧ z < 64)
    (same : ((w * 64 + x) * 64 + y) * 64 + z = (a.toNat * 256 + b.toNat) * 256 + c.toNat)
    (rest : Regroups bytes sextets) : Regroups (a :: b :: c :: bytes) (w :: x :: y :: z :: sextets) := by
  obtain ⟨below, room, tight, number⟩ := rest
  refine ⟨?_, by simp only [List.length_cons]; omega, by simp only [List.length_cons]; omega, ?_⟩
  · simp only [List.forall_mem_cons]
    exact ⟨small.1, small.2.1, small.2.2.1, small.2.2.2, below⟩
  · have spare : 6 * (sextets.length + 4) - 8 * (bytes.length + 3) = 6 * sextets.length - 8 * bytes.length := by omega
    have places : 64 ^ sextets.length = 256 ^ bytes.length * 2 ^ (6 * sextets.length - 8 * bytes.length) := by
      rw [show 64 = 2 ^ 6 by rfl, show 256 = 2 ^ 8 by rfl, ← pow_mul, ← pow_mul, ← pow_add, Nat.add_sub_cancel' room]
    have high : Nat.ofDigits 64 [z, y, x, w] = Nat.ofDigits 256 [c.toNat, b.toNat, a.toNat] := by
      simp only [Nat.ofDigits_cons, Nat.ofDigits_nil]
      omega
    have lists : (w :: x :: y :: z :: sextets).reverse = sextets.reverse ++ [z, y, x, w] ∧
        ((a :: b :: c :: bytes).map UInt8.toNat).reverse =
          (bytes.map UInt8.toNat).reverse ++ [c.toNat, b.toNat, a.toNat] := by simp
    rw [lists.1, lists.2, Nat.ofDigits_append, Nat.ofDigits_append, number, high]
    simp only [List.length_cons, List.length_reverse, List.length_map, spare, places]
    ring

/-- Splitting bytes regroups their bits. -/
private theorem regroups_split (bytes : List UInt8) : Regroups bytes (split bytes) := by
  fun_induction split bytes with
  | case1 a b c rest n ih =>
    have := a.toNat_lt
    have := b.toNat_lt
    have := c.toNat_lt
    exact ih.group (by omega) (by omega)
  | case2 a b n =>
    have := a.toNat_lt
    have := b.toNat_lt
    exact regroups_triple (by omega) (by omega)
  | case3 a n =>
    have := a.toNat_lt
    exact regroups_pair (by omega) (by omega)
  | case4 => exact regroups_nil

/-! Groups -/

private theorem toNat_ofNat_of_lt {n : Nat} (byte : n < 256) : (UInt8.ofNat n).toNat = n := by
  rw [UInt8.toNat_ofNat', Nat.mod_eq_of_lt byte]

private theorem eq_of_toNat_eq {b c : UInt8} (same : b.toNat = c.toNat) : b = c := UInt8.toNat_inj.mp same

/-- Six bits at a time, three bytes are four values. -/
private theorem whole_split (x y z : UInt8) : Whole (split [x, y, z]) := by
  refine ⟨rfl, ?_⟩
  have := x.toNat_lt
  have := y.toNat_lt
  have := z.toNat_lt
  simp only [split, List.forall_mem_cons]
  exact ⟨by omega, by omega, by omega, by omega, nofun⟩

private theorem join_split_three (x y z : UInt8) : join (split [x, y, z]) = [x, y, z] := by
  have := x.toNat_lt
  have := y.toNat_lt
  have := z.toNat_lt
  simp only [split, join, List.cons.injEq, and_true]
  refine ⟨eq_of_toNat_eq ?_, eq_of_toNat_eq ?_, eq_of_toNat_eq ?_⟩
  all_goals
    rw [toNat_ofNat_of_lt (by omega)]
    omega

private theorem split_join_whole {group : List Nat} (whole : Whole group) :
    ∃ x y z, join group = [x, y, z] ∧ split [x, y, z] = group := by
  obtain ⟨length, small⟩ := whole
  obtain ⟨p, q, r, s, rfl⟩ := List.length_eq_four.mp length
  simp only [List.forall_mem_cons] at small
  refine ⟨_, _, _, rfl, ?_⟩
  simp only [split]
  rw [toNat_ofNat_of_lt (by omega), toNat_ofNat_of_lt (by omega), toNat_ofNat_of_lt (by omega)]
  simp only [List.cons.injEq, and_true]
  omega

private theorem short_split_two (x y : UInt8) {pads : Nat} (few : pads ≤ 1) : Short (split [x, y]) pads := by
  have := x.toNat_lt
  have := y.toNat_lt
  have length : (split [x, y]).length = 3 := rfl
  refine ⟨.inr length, ?_, by omega⟩
  simp only [split, List.forall_mem_cons]
  exact ⟨by omega, by omega, by omega, nofun⟩

private theorem short_split_one (x : UInt8) {pads : Nat} (few : pads ≤ 2) : Short (split [x]) pads := by
  have := x.toNat_lt
  have length : (split [x]).length = 2 := rfl
  refine ⟨.inl length, ?_, by omega⟩
  simp only [split, List.forall_mem_cons]
  exact ⟨by omega, by omega, nofun⟩

/-- Bytes fill a short group with zero bits, which joining drops. -/
private theorem join_split_two (x y : UInt8) : leftover (split [x, y]) = 0 ∧ join (split [x, y]) = [x, y] := by
  have := x.toNat_lt
  have := y.toNat_lt
  simp only [split, join, leftover, List.cons.injEq, and_true]
  refine ⟨by omega, eq_of_toNat_eq ?_, eq_of_toNat_eq ?_⟩
  all_goals
    rw [toNat_ofNat_of_lt (by omega)]
    omega

private theorem join_split_one (x : UInt8) : leftover (split [x]) = 0 ∧ join (split [x]) = [x] := by
  have := x.toNat_lt
  simp only [split, join, leftover, List.cons.injEq, and_true]
  refine ⟨by omega, eq_of_toNat_eq ?_⟩
  rw [toNat_ofNat_of_lt (by omega)]
  omega

/-- Where the spare bits are zero, joining loses nothing. -/
private theorem split_join_short {group : List Nat} {pads : Nat} (short : Short group pads)
    (clear : leftover group = 0) :
    (∃ x y, join group = [x, y] ∧ split [x, y] = group) ∨ ∃ x, join group = [x] ∧ split [x] = group := by
  obtain ⟨two | three, small, -⟩ := short
  · obtain ⟨p, q, rfl⟩ := List.length_eq_two.mp two
    simp only [List.forall_mem_cons] at small
    rw [leftover] at clear
    refine .inr ⟨_, rfl, ?_⟩
    simp only [split]
    rw [toNat_ofNat_of_lt (by omega)]
    simp only [List.cons.injEq, and_true]
    omega
  · obtain ⟨p, q, r, rfl⟩ := List.length_eq_three.mp three
    simp only [List.forall_mem_cons] at small
    rw [leftover] at clear
    refine .inl ⟨_, _, rfl, ?_⟩
    simp only [split]
    rw [toNat_ofNat_of_lt (by omega), toNat_ofNat_of_lt (by omega)]
    simp only [List.cons.injEq, and_true]
    omega

/-! Padding -/

/-- What is left of a text without the padding at its end. -/
def unpadded (text : List UInt8) : List UInt8 := text.rdropWhile (· == padding)

private theorem unpadded_spell (a : Alphabet) (small : ∀ v ∈ sextets, v < 64) (pads : Nat) :
    unpadded (spell a sextets pads) = sextets.map (symbol a) := by
  induction pads with
  | zero =>
    rw [spell, List.replicate_zero, List.append_nil, unpadded, List.rdropWhile_eq_self_iff]
    intro some
    obtain ⟨v, member, same⟩ := List.mem_map.mp (List.getLast_mem some)
    rw [← same, beq_iff_eq]
    exact symbol_ne_padding a (small v member)
  | succ pads ih =>
    rw [spell, List.replicate_succ', ← List.append_assoc, unpadded,
      List.rdropWhile_concat_pos (· == padding) _ padding (beq_self_eq_true padding)]
    exact ih

/-- Symbols in front keep what is left of a text where it is. -/
private theorem unpadded_append (a : Alphabet) (small : ∀ v ∈ sextets, v < 64) (text : List UInt8) :
    unpadded (sextets.map (symbol a) ++ text) = sextets.map (symbol a) ++ unpadded text := by
  induction text using List.reverseRecOn with
  | nil =>
    have nothing : unpadded [] = [] := List.rdropWhile_nil _
    have all := unpadded_spell a small 0
    rw [spell_zero] at all
    rw [nothing, List.append_nil, all]
  | append_singleton text b ih =>
    rw [← List.append_assoc, unpadded, unpadded]
    by_cases pad : (b == padding) = true
    · rw [List.rdropWhile_concat_pos (· == padding) _ b pad, List.rdropWhile_concat_pos (· == padding) _ b pad]
      exact ih
    · rw [List.rdropWhile_concat_neg (· == padding) _ b pad, List.rdropWhile_concat_neg (· == padding) _ b pad,
        List.append_assoc]

/-! Text -/

variable {engine : Engine} {a : Alphabet} {setup : Setup}

/-- What an engine writes is read by it, whatever padding it was told to write. -/
private theorem decode_encode (lawful : engine.Lawful) (lenient : setup.Lenient) (a : Alphabet) (other : Setup)
    (bytes : List UInt8) :
    engine.decode a setup (engine.encode a other bytes) = .ok bytes := by
  fun_induction split bytes with
  | case1 x y z rest _ ih =>
    rw [lawful.encode_group, lawful.decode_group a setup _ _ _ lenient (whole_split x y z), join_split_three]
    exact ⟨rest, ih, rfl⟩
  | case2 x y =>
    obtain ⟨clear, joined⟩ := join_split_two x y
    rw [lawful.encode_two, lawful.decode_short a setup _ _ _ lenient (short_split_two x y (by split <;> decide)), joined]
    exact ⟨clear, rfl⟩
  | case3 x =>
    obtain ⟨clear, joined⟩ := join_split_one x
    rw [lawful.encode_one, lawful.decode_short a setup _ _ _ lenient (short_split_one x (by split <;> decide)), joined]
    exact ⟨clear, rfl⟩
  | case4 => rw [lawful.encode_nil, lawful.decode_nil a setup lenient]

/-- Without padding, what is written is the symbols of the values that the bytes are split into. -/
private theorem encode_eq_map_split (lawful : engine.Lawful) (plain : setup.encodePadding = false)
    (bytes : List UInt8) :
    engine.encode a setup bytes = (split bytes).map (symbol a) := by
  fun_induction split bytes with
  | case1 x y z rest _ ih =>
    rw [lawful.encode_group, ih]
    rfl
  | case2 x y =>
    rw [lawful.encode_two, plain]
    exact spell_zero ..
  | case3 x =>
    rw [lawful.encode_one, plain]
    exact spell_zero ..
  | case4 => exact lawful.encode_nil a setup

/-- What is read is written as the text without its padding. -/
private theorem unpadded_of_decode (lawful : engine.Lawful) (lenient : setup.Lenient) {text bytes : List UInt8}
    (read : engine.decode a setup text = .ok bytes) : unpadded text = (split bytes).map (symbol a) := by
  -- A group in front is taken off, so the rest of the text is shorter.
  induction size : text.length using Nat.strong_induction_on generalizing text bytes with
  | _ n ih => ?_
  subst size
  obtain rfl | ⟨group, rest, whole, rfl⟩ | ⟨group, pads, short, rfl⟩ := lawful.decode_shape a setup _ _ lenient read
  · rw [lawful.decode_nil a setup lenient] at read
    cases read
    simp [unpadded, split]
  · obtain ⟨more, behind, rfl⟩ := (lawful.decode_group a setup _ _ _ lenient whole).mp read
    obtain ⟨x, y, z, joined, parted⟩ := split_join_whole whole
    have front : split ([x, y, z] ++ more) = split [x, y, z] ++ split more := rfl
    have shorter : rest.length < (group.map (symbol a) ++ rest).length := by
      rw [List.length_append, List.length_map, whole.length]
      omega
    rw [unpadded_append a whole.small, ih rest.length shorter behind rfl, joined, front, parted, List.map_append]
  · obtain ⟨clear, rfl⟩ := (lawful.decode_short a setup _ _ _ lenient short).mp read
    rw [unpadded_spell a short.small]
    obtain ⟨x, y, joined, parted⟩ | ⟨x, joined, parted⟩ := split_join_short short clear
    · rw [joined, parted]
    · rw [joined, parted]

/-- Text that is written with one alphabet reads back with it as the bytes it was written for, padded or not. Of the
texts that read as some bytes, each is what these are written as without padding, once its own padding is taken off;
so two of them differ in nothing but padding. And the bytes are written with symbols of values that hold their bits
in their order, with fewer than six zero bits more. -/
theorem reads_back_up_to_padding (engine : Engine) (lawful : engine.Lawful) :
    (∀ (o other : Options) (bytes : List UInt8), o.urlSafe = other.urlSafe →
      fromBase64 engine (toBase64 engine bytes o) other = .ok bytes) ∧
    (∀ (o : Options) (text bytes : List UInt8), fromBase64 engine text o = .ok bytes →
      unpadded text = toBase64 engine bytes o.bare) ∧
    (∀ (o : Options) (text text' bytes : List UInt8), fromBase64 engine text o = .ok bytes →
      fromBase64 engine text' o = .ok bytes → unpadded text = unpadded text') ∧
    ∀ (o : Options) (bytes : List UInt8), ∃ sextets, Regroups bytes sextets ∧
      toBase64 engine bytes o.bare = sextets.map (symbol o.alphabet) := by
  have canonical (o : Options) {text bytes : List UInt8} (read : fromBase64 engine text o = .ok bytes) :
      unpadded text = (split bytes).map (symbol o.alphabet) := unpadded_of_decode lawful o.lenient read
  have plain (o : Options) (bytes : List UInt8) :
      toBase64 engine bytes o.bare = (split bytes).map (symbol o.alphabet) := encode_eq_map_split lawful rfl bytes
  refine ⟨fun o other bytes same => ?_, fun o text bytes read => (canonical o read).trans (plain o bytes).symm,
    fun o text text' bytes read read' => (canonical o read).trans (canonical o read').symm,
    fun o bytes => ⟨split bytes, regroups_split bytes, plain o bytes⟩⟩
  have alphabet : o.alphabet = other.alphabet := by rw [Options.alphabet, same, Options.alphabet]
  rw [fromBase64, toBase64, alphabet]
  exact decode_encode lawful other.lenient _ _ bytes

/-- Two bytes whose symbols are the last two of the alphabet and one that is filled up, with and without padding. -/
theorem reads_back_up_to_padding_ragged :
    let engine := Engine.reference
    let o : Options := ⟨true, false⟩
    engine.Lawful ∧ o.urlSafe = o.bare.urlSafe ∧
      fromBase64 engine (toBase64 engine [251, 255] o) o.bare = .ok [251, 255] ∧
      fromBase64 engine [45, 95, 56, 61] o = .ok [251, 255] ∧
      unpadded [45, 95, 56, 61] = toBase64 engine [251, 255] o.bare ∧
      fromBase64 engine [45, 95, 56] o = .ok [251, 255] ∧ unpadded [45, 95, 56, 61] = unpadded [45, 95, 56] := by
  intro engine o
  obtain ⟨back, canonical, alike, -⟩ := reads_back_up_to_padding engine Engine.reference_lawful
  have read : fromBase64 engine [45, 95, 56, 61] o = .ok [251, 255] := by rfl
  have readBare : fromBase64 engine [45, 95, 56] o = .ok [251, 255] := by rfl
  exact ⟨Engine.reference_lawful, rfl, back o o.bare [251, 255] rfl, read, canonical o _ _ read, readBare,
    alike o _ _ _ read readBare⟩

end ByteFlow.Codec.Base64
