import ByteFlow.Codec.Base64.Reference
import ByteFlow.Proofs.Outcome
import Mathlib.Data.List.Basic

/-! The engine that is run does what the description of one says.
It takes whole groups off a text as long as something is behind them. Where a group begins matters for its faults alone,
so what is read of a text is read of it behind another group too. -/
namespace ByteFlow.Codec.Base64
open Outcome

variable {a : Alphabet} {text bytes : List UInt8} {sextets more : List Nat} {setup : Setup}

/-! Symbols -/

private theorem value?_symbol (a : Alphabet) {v : Nat} (small : v < 64) : value? a (symbol a v) = some v := by
  revert v
  cases a <;> decide

theorem symbol_ne_padding (a : Alphabet) {v : Nat} (small : v < 64) : symbol a v ≠ padding := by
  revert v
  cases a <;> decide

private theorem symbol_inj (a : Alphabet) {v w : Nat} (small : v < 64) (small' : w < 64)
    (same : symbol a v = symbol a w) :
    v = w := by
  have value := value?_symbol a small
  rw [same, value?_symbol a small'] at value
  exact (Option.some.inj value).symm

private theorem eq_symbol_of_value? {b : UInt8} {v : Nat} (names : value? a b = some v) : v < 64 ∧ b = symbol a v := by
  have all : ∀ v ∈ value? a b, v < 64 ∧ b = symbol a v := by
    cases a
    · exact Byte.forall_of_lt b (by decide +kernel)
    · exact Byte.forall_of_lt b (by decide +kernel)
  exact all v names

private theorem values_eq_ok_iff {offset : Nat} : values a offset text = .ok more ↔
    text = more.map (symbol a) ∧ ∀ v ∈ more, v < 64 := by
  induction text generalizing offset more with
  | nil =>
    rw [values]
    constructor
    · rintro ⟨⟩
      simp
    · rintro ⟨symbols, -⟩
      rw [List.map_eq_nil_iff.mp symbols.symm]
  | cons b rest ih =>
    rw [values]
    split
    · next foreign =>
      simp only [reduceCtorEq, false_iff]
      rintro ⟨symbols, small⟩
      obtain ⟨v, vs, rfl, rfl, -⟩ := List.map_eq_cons_iff.mp symbols.symm
      rw [value?_symbol a (small v List.mem_cons_self)] at foreign
      cases foreign
    · next v named =>
      obtain ⟨below, rfl⟩ := eq_symbol_of_value? named
      rw [map_eq_ok_iff]
      constructor
      · rintro ⟨vs, read, rfl⟩
        obtain ⟨rfl, small⟩ := ih.mp read
        exact ⟨rfl, List.forall_mem_cons.mpr ⟨below, small⟩⟩
      · rintro ⟨symbols, small⟩
        obtain ⟨w, vs, rfl, same, rfl⟩ := List.map_eq_cons_iff.mp symbols.symm
        rw [List.forall_mem_cons] at small
        rw [symbol_inj a below small.1 same.symm]
        exact ⟨vs, ih.mpr ⟨rfl, small.2⟩, rfl⟩

/-! Symbols and padding -/

private theorem length_spell (a : Alphabet) (sextets : List Nat) (pads : Nat) :
    (spell a sextets pads).length = sextets.length + pads := by
  rw [spell, List.length_append, List.length_map, List.length_replicate]

/-- A value would begin the text with a symbol, which is no padding. -/
private theorem nil_of_padding_cons {pads : Nat} (small : ∀ v ∈ sextets, v < 64)
    (same : padding :: text = spell a sextets pads) :
    sextets = [] ∧ ∃ fewer, pads = fewer + 1 ∧ text = List.replicate fewer padding := by
  cases sextets with
  | nil =>
    cases pads with
    | zero => cases same
    | succ fewer => exact ⟨rfl, fewer, rfl, (List.cons.inj same).2⟩
  | cons v vs => exact absurd (List.cons.inj same).1.symm (symbol_ne_padding a (small v List.mem_cons_self))

private theorem cons_of_symbol_cons {b : UInt8} {pads : Nat} (symbolic : b ≠ padding)
    (same : b :: text = spell a sextets pads) :
    ∃ v vs, sextets = v :: vs ∧ b = symbol a v ∧ text = spell a vs pads := by
  cases sextets with
  | nil =>
    cases pads with
    | zero => cases same
    | succ fewer => exact absurd (List.cons.inj same).1 symbolic
  | cons v vs => exact ⟨v, vs, rfl, List.cons.inj same⟩

/-- Values and padding are told apart by the text. -/
private theorem spell_inj {pads fewer : Nat} (small : ∀ v ∈ sextets, v < 64) (small' : ∀ v ∈ more, v < 64)
    (same : spell a sextets pads = spell a more fewer) : sextets = more ∧ pads = fewer := by
  induction sextets generalizing more with
  | nil =>
    cases more with
    | nil =>
      have lengths := congrArg List.length same
      rw [length_spell, length_spell, Nat.add_left_cancel_iff] at lengths
      exact ⟨rfl, lengths⟩
    | cons w ws =>
      cases pads with
      | zero => cases same
      | succ pads => cases (nil_of_padding_cons small' same).1
  | cons v vs ih =>
    rw [List.forall_mem_cons] at small
    obtain ⟨w, ws, rfl, head, tail⟩ := cons_of_symbol_cons (symbol_ne_padding a small.1) same
    rw [List.forall_mem_cons] at small'
    obtain ⟨rfl, rfl⟩ := ih small.2 small'.2 tail
    rw [symbol_inj a small.1 small'.1 head]
    exact ⟨rfl, rfl⟩

theorem spell_zero (a : Alphabet) (sextets : List Nat) : spell a sextets 0 = sextets.map (symbol a) := List.append_nil _

private theorem map_symbol_inj (small : ∀ v ∈ sextets, v < 64) (small' : ∀ v ∈ more, v < 64)
    (same : sextets.map (symbol a) = more.map (symbol a)) : sextets = more := by
  rw [← spell_zero, ← spell_zero] at same
  exact (spell_inj small small' same).1

private theorem onlyPadding_eq_ok_iff {first : Nat} :
    onlyPadding first text = .ok more ↔ more = [] ∧ ∃ pads, text = List.replicate pads padding := by
  have all : text.all (· == padding) = true ↔ ∃ pads, text = List.replicate pads padding := by
    simp only [List.all_eq_true, beq_iff_eq]
    constructor
    · exact fun same => ⟨text.length, List.eq_replicate_iff.mpr ⟨rfl, same⟩⟩
    · rintro ⟨pads, rfl⟩ b member
      exact List.eq_of_mem_replicate member
  rw [onlyPadding]
  split
  · next same => simp [all.mp same, eq_comm]
  · next other =>
    rw [all] at other
    simp [other]

/-- A group is read up to its padding, which needs two symbols before it. -/
private theorem lastValues_eq_ok_iff {index offset : Nat} : lastValues a index offset text = .ok more ↔
    (∀ v ∈ more, v < 64) ∧ ∃ pads, text = spell a more pads ∧ (pads = 0 ∨ 2 ≤ index + more.length) := by
  induction text generalizing index offset more with
  | nil =>
    rw [lastValues]
    constructor
    · rintro ⟨⟩
      exact ⟨by simp, 0, rfl, .inl rfl⟩
    · rintro ⟨-, pads, nothing, -⟩
      obtain ⟨symbols, -⟩ := List.append_eq_nil_iff.mp nothing.symm
      rw [List.map_eq_nil_iff.mp symbols]
  | cons b rest ih =>
    rw [lastValues]
    split
    · next pad =>
      subst pad
      split
      · next early =>
        simp only [reduceCtorEq, false_iff]
        rintro ⟨small, pads, same, late⟩
        obtain ⟨rfl, fewer, rfl, -⟩ := nil_of_padding_cons small same
        simp only [List.length_nil] at late
        omega
      · next late =>
        rw [onlyPadding_eq_ok_iff]
        constructor
        · rintro ⟨rfl, pads, rfl⟩
          exact ⟨by simp, pads + 1, rfl, .inr (by simp only [List.length_nil]; omega)⟩
        · rintro ⟨small, pads, same, -⟩
          obtain ⟨rfl, fewer, rfl, rfl⟩ := nil_of_padding_cons small same
          exact ⟨rfl, fewer, rfl⟩
    · next symbolic =>
      split
      · next foreign =>
        simp only [reduceCtorEq, false_iff]
        rintro ⟨small, pads, same, -⟩
        obtain ⟨v, vs, rfl, rfl, -⟩ := cons_of_symbol_cons symbolic same
        rw [value?_symbol a (small v List.mem_cons_self)] at foreign
        cases foreign
      · next v named =>
        obtain ⟨below, rfl⟩ := eq_symbol_of_value? named
        rw [map_eq_ok_iff]
        constructor
        · rintro ⟨vs, read, rfl⟩
          obtain ⟨small, pads, rfl, late⟩ := ih.mp read
          refine ⟨List.forall_mem_cons.mpr ⟨below, small⟩, pads, rfl, ?_⟩
          rw [List.length_cons]
          omega
        · rintro ⟨small, pads, same, late⟩
          obtain ⟨w, vs, rfl, head, rfl⟩ := cons_of_symbol_cons symbolic same
          rw [List.forall_mem_cons] at small
          rw [List.length_cons] at late
          rw [symbol_inj a below small.1 head]
          exact ⟨vs, ih.mpr ⟨small.2, pads, rfl, by omega⟩, rfl⟩

/-! Reading -/

/-- Where a last group begins does not matter for what is read of it. -/
private theorem decodeLast_eq_ok_iff (lenient : setup.Lenient) (start : Nat) :
    decodeLast a setup start text = .ok bytes ↔
    ∃ last pads, (∀ v ∈ last, v < 64) ∧ text = spell a last pads ∧ (text ≠ [] → 2 ≤ last.length) ∧ leftover last = 0 ∧
      bytes = join last := by
  simp only [decodeLast, bind_eq_ok_iff, check_eq_ok_iff, pure_eq_ok_iff, lastValues_eq_ok_iff, lenient.padding, lenient.bits,
    PaddingMode.accepts, Nat.zero_add]
  constructor
  · rintro ⟨last, ⟨small, pads, rfl, -⟩, long, -, clear, rfl⟩
    exact ⟨last, pads, small, rfl, fun some => Nat.le_of_not_lt fun short => long ⟨some, short⟩, by simpa using clear, rfl⟩
  · rintro ⟨last, pads, small, rfl, long, clear, rfl⟩
    have late : pads = 0 ∨ 2 ≤ last.length := by
      by_cases nothing : spell a last pads = []
      · have lengths := length_spell a last pads
        rw [nothing, List.length_nil] at lengths
        omega
      · exact .inr (long nothing)
    exact ⟨last, ⟨small, pads, rfl, late⟩, fun short => Nat.not_lt.mpr (long short.1) short.2, by simp, by simp [clear], rfl⟩

private theorem decodeGroups_of_length_le (few : text.length ≤ 4) (start : Nat) :
    decodeGroups a setup start text = decodeLast a setup start text := by
  rw [decodeGroups]
  rintro w x y z next rest rfl
  simp only [List.length_cons] at few
  omega

/-- A group with something behind it is taken off. -/
private theorem decodeGroups_cons_eq_ok_iff {w x y z next : UInt8} (start : Nat) :
    decodeGroups a setup start (w :: x :: y :: z :: next :: text) = .ok bytes ↔
      ∃ group, Whole group ∧ [w, x, y, z] = group.map (symbol a) ∧
        ∃ rest, decodeGroups a setup (start + 4) (next :: text) = .ok rest ∧ bytes = join group ++ rest := by
  simp only [decodeGroups, bind_eq_ok_iff, pure_eq_ok_iff, values_eq_ok_iff]
  constructor
  · rintro ⟨group, ⟨symbols, small⟩, rest, read, rfl⟩
    have length : group.length = 4 := by rw [← List.length_map (symbol a), ← symbols]; rfl
    exact ⟨group, ⟨length, small⟩, symbols, rest, read, rfl⟩
  · rintro ⟨group, whole, symbols, rest, read, rfl⟩
    exact ⟨group, ⟨symbols, whole.small⟩, rest, read, rfl⟩

private theorem decodeGroups_start (lenient : setup.Lenient) (start other : Nat) (text bytes : List UInt8) :
    decodeGroups a setup start text = .ok bytes ↔ decodeGroups a setup other text = .ok bytes := by
  match text with
  | w :: x :: y :: z :: next :: rest =>
    simp only [decodeGroups_cons_eq_ok_iff, decodeGroups_start lenient (start + 4) (other + 4) (next :: rest)]
  | [] | [_] | [_, _] | [_, _, _] | [_, _, _, _] =>
    rw [decodeGroups_of_length_le (by simp), decodeGroups_of_length_le (by simp), decodeLast_eq_ok_iff lenient,
      decodeLast_eq_ok_iff lenient]

private theorem checkStray_eq_ok (whole : text.length % 4 ≠ 1) : checkStray a text = .ok () := by
  rw [checkStray]
  split
  · exact if_neg fun stray => whole stray.1
  · rfl

/-- A group before others does not make their last byte a stray one, or keep it from being one. -/
private theorem checkStray_append (group : List UInt8) (whole : group.length = 4) (some : text ≠ []) :
    checkStray a (group ++ text) = .ok () ↔ checkStray a text = .ok () := by
  have last : (group ++ text).getLast? = text.getLast? := List.getLast?_append_of_ne_nil group some
  have lengths : (group ++ text).length % 4 = text.length % 4 := by
    rw [List.length_append]
    omega
  rw [checkStray, checkStray, last]
  cases text.getLast? with
  | none => rfl
  | some b =>
    dsimp only
    rw [lengths]
    split <;> simp

private theorem decode_eq_ok_iff : decode a setup text = .ok bytes ↔
    checkStray a text = .ok () ∧ decodeGroups a setup 0 text = .ok bytes := by
  simp only [decode, bind_eq_ok_iff]
  exact ⟨fun ⟨_, checked, read⟩ => ⟨checked, read⟩, fun ⟨checked, read⟩ => ⟨(), checked, read⟩⟩

/-- A text of at most four bytes is one last group. -/
private theorem decode_last_eq_ok_iff {group : List Nat} {pads : Nat} (lenient : setup.Lenient)
    (small : ∀ v ∈ group, v < 64)
    (long : 2 ≤ group.length) (fits : group.length + pads ≤ 4) :
    decode a setup (spell a group pads) = .ok bytes ↔ leftover group = 0 ∧ bytes = join group := by
  have length := length_spell a group pads
  rw [decode_eq_ok_iff, checkStray_eq_ok (by omega), decodeGroups_of_length_le (by omega), decodeLast_eq_ok_iff lenient]
  constructor
  · rintro ⟨-, last, fewer, small', same, -, clear, rfl⟩
    obtain ⟨rfl, -⟩ := spell_inj small small' same
    exact ⟨clear, rfl⟩
  · rintro ⟨clear, rfl⟩
    exact ⟨rfl, group, pads, small, rfl, fun _ => long, clear, rfl⟩

private theorem leftover_of_whole {group : List Nat} (whole : Whole group) : leftover group = 0 := by
  obtain ⟨w, x, y, z, rfl⟩ := List.length_eq_four.mp whole.length
  rfl

private theorem decode_nil (lenient : setup.Lenient) : decode a setup [] = .ok [] := by
  rw [decode_eq_ok_iff, checkStray_eq_ok (by decide), decodeGroups_of_length_le (by decide), decodeLast_eq_ok_iff lenient]
  exact ⟨rfl, [], 0, by simp, rfl, fun some => absurd rfl some, rfl, rfl⟩

private theorem decode_whole {group : List Nat} (lenient : setup.Lenient) (whole : Whole group) :
    decode a setup (group.map (symbol a) ++ text) = .ok bytes ↔
      ∃ more, decode a setup text = .ok more ∧ bytes = join group ++ more := by
  cases text with
  | nil =>
    have length := whole.length
    have last := @decode_last_eq_ok_iff a bytes setup group 0 lenient whole.small (by omega) (by omega)
    rw [List.append_nil, ← spell_zero, last, decode_nil lenient]
    simp [leftover_of_whole whole]
  | cons next rest =>
    have stray := @checkStray_append a (next :: rest) (group.map (symbol a)) (by rw [List.length_map, whole.length]) (by simp)
    simp only [decode_eq_ok_iff, stray]
    have start (bytes : List UInt8) := @decodeGroups_start a setup lenient 4 0 (next :: rest) bytes
    obtain ⟨w, x, y, z, same⟩ := List.length_eq_four.mp whole.length
    subst same
    rw [show [w, x, y, z].map (symbol a) ++ next :: rest =
      symbol a w :: symbol a x :: symbol a y :: symbol a z :: next :: rest from rfl, decodeGroups_cons_eq_ok_iff]
    simp only [Nat.zero_add, start]
    constructor
    · rintro ⟨checked, group, whole', symbols, rest, read, rfl⟩
      have same := map_symbol_inj whole.small whole'.small symbols
      subst same
      exact ⟨rest, ⟨checked, read⟩, rfl⟩
    · rintro ⟨rest, ⟨checked, read⟩, rfl⟩
      exact ⟨checked, [w, x, y, z], whole, rfl, rest, read, rfl⟩

private theorem decode_shape (lenient : setup.Lenient) (read : decode a setup text = .ok bytes) :
    text = [] ∨ (∃ group rest, Whole group ∧ text = group.map (symbol a) ++ rest) ∨
      ∃ group pads, Short group pads ∧ text = spell a group pads := by
  have read := (decode_eq_ok_iff.mp read).2
  by_cases few : text.length ≤ 4
  · rw [decodeGroups_of_length_le few, decodeLast_eq_ok_iff lenient] at read
    obtain ⟨last, pads, small, rfl, long, -⟩ := read
    by_cases nothing : spell a last pads = []
    · exact .inl nothing
    · have long := long nothing
      rw [length_spell] at few
      by_cases whole : last.length = 4
      · have none : pads = 0 := by omega
        exact .inr (.inl ⟨last, [], ⟨whole, small⟩, by rw [none, spell_zero, List.append_nil]⟩)
      · exact .inr (.inr ⟨last, pads, ⟨by omega, small, few⟩, rfl⟩)
  · match text, few with
    | w :: x :: y :: z :: next :: rest, _ =>
      obtain ⟨group, whole, symbols, -⟩ := (decodeGroups_cons_eq_ok_iff 0).mp read
      refine .inr (.inl ⟨group, next :: rest, whole, ?_⟩)
      rw [← symbols]
      rfl
    | [], few | [_], few | [_, _], few | [_, _, _], few | [_, _, _, _], few =>
      simp only [List.length_cons, List.length_nil] at few
      omega

/-! Writing -/

private theorem encode_whole (x y z : UInt8) (bytes : List UInt8) :
    encode a setup (x :: y :: z :: bytes) = (split [x, y, z]).map (symbol a) ++ encode a setup bytes := by
  have front : split (x :: y :: z :: bytes) = split [x, y, z] ++ split bytes := rfl
  have same : padFor setup (split (x :: y :: z :: bytes)).length = padFor setup (split bytes).length := by
    have four : (split [x, y, z]).length = 4 := rfl
    rw [front, List.length_append, four, padFor, padFor, Nat.add_mod_left]
  rw [encode, encode, same, spell, spell, front, List.map_append, List.append_assoc]

theorem Engine.reference_lawful : reference.Lawful where
  encode_nil a setup := by
    obtain ⟨pads, _, _⟩ := setup
    cases pads <;> rfl
  encode_group a setup x y z bytes := encode_whole x y z bytes
  encode_two a setup x y := by
    obtain ⟨pads, _, _⟩ := setup
    cases pads <;> rfl
  encode_one a setup x := by
    obtain ⟨pads, _, _⟩ := setup
    cases pads <;> rfl
  decode_nil a setup lenient := decode_nil lenient
  decode_group a setup group text bytes lenient whole := decode_whole lenient whole
  decode_short a setup group pads bytes lenient short :=
    decode_last_eq_ok_iff lenient short.small (by have := short.length; omega) short.fits
  decode_shape a setup text bytes lenient read := decode_shape lenient read

end ByteFlow.Codec.Base64
