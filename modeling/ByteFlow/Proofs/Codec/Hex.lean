import ByteFlow.Codec.Hex
import ByteFlow.Proofs.Number.Digits

/-! Hexadecimal text and the bytes that it writes, whatever coder does as its description says.
A text that is read has two digits for each byte and is written anew with small letters. One that is refused has an odd
length, or else a first byte that is no digit, and that one is named. -/
namespace ByteFlow.Codec.Hex
open Number.Integer (IsDigit digitIn?_eq_some_iff getElem?_smallDigits)

variable {coder : Coder} {text bytes : List UInt8} {b : UInt8} {place : Nat}

/-- A digit of base 16, in either case. -/
def Digit (b : UInt8) : Prop := ∃ value, IsDigit 16 b value

/-- Each byte is written as two digits in either case, that of its high half first. -/
inductive Spells : List UInt8 → List UInt8 → Prop
  | nil : Spells [] []
  | cons {high low b : UInt8} {text bytes : List UInt8} (first : IsDigit 16 high (b.toNat / 16))
      (second : IsDigit 16 low (b.toNat % 16)) (others : Spells text bytes) : Spells (high :: low :: text) (b :: bytes)

/-- The first byte of a text that is no digit, and its place. -/
structure FirstBad (text : List UInt8) (b : UInt8) (place : Nat) : Prop where
  here : text[place]? = some b
  bad : ¬ Digit b
  before : ∀ c ∈ text.take place, Digit c

/-! Digits -/

private theorem digitIn?_eq_none_iff : Byte.digitIn? 16 b = none ↔ ¬ Digit b := by
  rw [Option.eq_none_iff_forall_ne_some, Digit, not_exists]
  simp only [ne_eq, digitIn?_eq_some_iff]

private theorem isDigit_digit {value : Nat} (small : value < 16) : IsDigit 16 (Byte.digit value) value :=
  ⟨small, .inl (getElem?_smallDigits (by omega))⟩

/-- A digit with the value of another is that one with a small letter. -/
private theorem digit_eq_toLower {value : Nat} (digit : IsDigit 16 b value) : Byte.digit value = Byte.toLower b := by
  have all : ∀ value ∈ Byte.digitIn? 16 b, Byte.digit value = Byte.toLower b := Byte.forall_of_lt b (by decide +kernel)
  exact all value (digitIn?_eq_some_iff.mpr digit)

/-- The two halves of the byte that two digits stand for. -/
private theorem halves_ofNat {high low : Nat} (first : high < 16) (second : low < 16) :
    (UInt8.ofNat (16 * high + low)).toNat / 16 = high ∧ (UInt8.ofNat (16 * high + low)).toNat % 16 = low := by
  have byte : 16 * high + low < 256 := by omega
  rw [UInt8.toNat_ofNat_of_lt' byte]
  omega

/-! Writing -/

private theorem spells_encode (lawful : coder.Lawful) (bytes : List UInt8) : Spells (coder.encode bytes) bytes := by
  induction bytes with
  | nil =>
    rw [lawful.encode_nil]
    exact .nil
  | cons b rest ih =>
    have byte := b.toNat_lt
    rw [lawful.encode_cons]
    exact .cons (isDigit_digit (by omega)) (isDigit_digit (by omega)) ih

/-- Written anew, a text has small letters. -/
private theorem Spells.encode_eq (lawful : coder.Lawful) (spells : Spells text bytes) :
    coder.encode bytes = text.map Byte.toLower := by
  induction spells with
  | nil => exact lawful.encode_nil
  | cons first second _ ih =>
    rw [lawful.encode_cons, ih, digit_eq_toLower first, digit_eq_toLower second, List.map_cons, List.map_cons]

private theorem Spells.length_eq (spells : Spells text bytes) : text.length = 2 * bytes.length := by
  induction spells with
  | nil => rfl
  | cons _ _ _ ih =>
    simp only [List.length_cons]
    omega

private theorem Spells.digit (spells : Spells text bytes) : ∀ c ∈ text, Digit c := by
  induction spells with
  | nil => simp
  | cons first second _ ih =>
    rw [List.forall_mem_cons, List.forall_mem_cons]
    exact ⟨⟨_, first⟩, ⟨_, second⟩, ih⟩

/-! Reading -/

/-- Two digits stand for the byte whose halves they are. -/
private theorem pair_of_isDigit {high low : UInt8} (first : IsDigit 16 high (b.toNat / 16))
    (second : IsDigit 16 low (b.toNat % 16)) : pair high low = .ok b := by
  have halves : 16 * (b.toNat / 16) + b.toNat % 16 = b.toNat := Nat.div_add_mod ..
  rw [pair, digitIn?_eq_some_iff.mpr first, digitIn?_eq_some_iff.mpr second]
  dsimp only
  rw [halves, UInt8.ofNat_toNat]

/-- Of two bytes both are digits, or the first that is none is named. -/
private theorem pair_cases (high low : UInt8) :
    (∃ b, pair high low = .ok b ∧ IsDigit 16 high (b.toNat / 16) ∧ IsDigit 16 low (b.toNat % 16)) ∨
      (pair high low = .error (.badDigit high 0) ∧ ¬ Digit high) ∨
        pair high low = .error (.badDigit low 1) ∧ Digit high ∧ ¬ Digit low := by
  rw [pair]
  cases first : Byte.digitIn? 16 high with
  | none => exact .inr (.inl ⟨rfl, digitIn?_eq_none_iff.mp first⟩)
  | some h =>
    have first := digitIn?_eq_some_iff.mp first
    cases second : Byte.digitIn? 16 low with
    | none => exact .inr (.inr ⟨rfl, ⟨h, first⟩, digitIn?_eq_none_iff.mp second⟩)
    | some l =>
      have second := digitIn?_eq_some_iff.mp second
      obtain ⟨upper, lower⟩ := halves_ofNat first.below second.below
      exact .inl ⟨_, rfl, by rwa [upper], by rwa [lower]⟩

private theorem Spells.decode_eq (lawful : coder.Lawful) (spells : Spells text bytes) :
    coder.decode text = .ok bytes := by
  induction spells with
  | nil => exact lawful.decode_nil
  | cons first second _ ih =>
    rw [lawful.decode_pair, ih, pairBefore, pair_of_isDigit first second]
    rfl

/-- Two bytes further on, the first byte that is no digit is the same. -/
private theorem FirstBad.cons_cons {high low : UInt8} (first : Digit high) (second : Digit low)
    (bad : FirstBad text b place) :
    FirstBad (high :: low :: text) b (place + 2) := by
  obtain ⟨here, bad, before⟩ := bad
  refine ⟨here, bad, ?_⟩
  rw [List.take_succ_cons, List.take_succ_cons, List.forall_mem_cons, List.forall_mem_cons]
  exact ⟨first, second, before⟩

/-- A text has one first byte that is no digit at most. -/
private theorem FirstBad.unique {c : UInt8} {other : Nat} (bad : FirstBad text b place) (bad' : FirstBad text c other) :
    b = c ∧ place = other := by
  have ordered {b c : UInt8} {place other : Nat} (bad : FirstBad text b place) (bad' : FirstBad text c other) :
      other ≤ place := by
    by_contra early
    have inside : b ∈ text.take other :=
      List.mem_of_getElem? ((List.getElem?_take_of_lt (by omega)).trans bad.here)
    exact bad.bad (bad'.before b inside)
  have same : place = other := Nat.le_antisymm (ordered bad' bad) (ordered bad bad')
  refine ⟨Option.some.inj ?_, same⟩
  rw [← bad.here, ← bad'.here, same]

private theorem FirstBad.not_digits (bad : FirstBad text b place) : ¬ ∀ c ∈ text, Digit c :=
  fun digits => bad.bad (digits b (List.mem_of_getElem? bad.here))

/-- What becomes of a text: the bytes that it spells, an odd length, or its first byte that is no digit. -/
inductive Reading : List UInt8 → Except Malformed (List UInt8) → Prop
  | spelled {text bytes : List UInt8} (spells : Spells text bytes) : Reading text (.ok bytes)
  | odd {text : List UInt8} (odd : text.length % 2 = 1) : Reading text (.error .oddLength)
  | bad {text : List UInt8} {b : UInt8} {place : Nat} (even : text.length % 2 = 0) (bad : FirstBad text b place) :
      Reading text (.error (.badDigit b place))

private theorem Spells.length_mod (spells : Spells text bytes) : text.length % 2 = 0 := by
  rw [spells.length_eq]
  omega

/-- A pair before a text of even length that has a byte which is no digit is told before any fault of that text. -/
private theorem reading_of_pair_error {high low : UInt8} (even : text.length % 2 = 0) {m : Malformed}
    (failed : pair high low = .error m) : Reading (high :: low :: text) (.error m) := by
  have even : (high :: low :: text).length % 2 = 0 := by
    rw [List.length_cons, List.length_cons]
    omega
  obtain ⟨b, made, -⟩ | ⟨failed', none⟩ | ⟨failed', some, none⟩ := pair_cases high low
  · cases failed.symm.trans made
  · cases failed.symm.trans failed'
    exact .bad even ⟨rfl, none, by simp⟩
  · cases failed.symm.trans failed'
    exact .bad even ⟨rfl, none, by simpa using some⟩

/-- Two more bytes in front. -/
private theorem reading_pairBefore (high low : UInt8) {result : Except Malformed (List UInt8)}
    (reading : Reading text result) :
    Reading (high :: low :: text) (pairBefore high low result) := by
  cases reading with
  | odd odd =>
    refine .odd ?_
    rw [List.length_cons, List.length_cons]
    omega
  | spelled spells =>
    rw [pairBefore]
    cases made : pair high low with
    | error m => exact reading_of_pair_error spells.length_mod made
    | ok b =>
      obtain ⟨c, made', first, second⟩ | ⟨failed, -⟩ | ⟨failed, -⟩ := pair_cases high low
      · cases made.symm.trans made'
        exact .spelled (.cons first second spells)
      · cases made.symm.trans failed
      · cases made.symm.trans failed
  | bad even bad =>
    rw [pairBefore]
    cases made : pair high low with
    | error m => exact reading_of_pair_error even made
    | ok c =>
      obtain ⟨c', made', first, second⟩ | ⟨failed, -⟩ | ⟨failed, -⟩ := pair_cases high low
      · refine .bad ?_ (bad.cons_cons ⟨_, first⟩ ⟨_, second⟩)
        rw [List.length_cons, List.length_cons]
        omega
      · cases made.symm.trans failed
      · cases made.symm.trans failed

private theorem reading (lawful : coder.Lawful) : ∀ text : List UInt8, Reading text (coder.decode text)
  | [] => by
    rw [lawful.decode_nil]
    exact .spelled .nil
  | [b] => by
    rw [lawful.decode_single]
    exact .odd rfl
  | high :: low :: text => by
    rw [lawful.decode_pair]
    exact reading_pairBefore high low (reading lawful text)

/-- Exactly the texts that spell bytes are read, and as these. -/
private theorem decode_eq_ok_iff (lawful : coder.Lawful) : coder.decode text = .ok bytes ↔ Spells text bytes := by
  refine ⟨fun read => ?_, Spells.decode_eq lawful⟩
  have reading := reading lawful text
  rw [read] at reading
  cases reading with
  | spelled spells => exact spells

/-- An odd length is named whatever bytes there are. -/
private theorem decode_eq_oddLength_iff (lawful : coder.Lawful) :
    coder.decode text = .error .oddLength ↔ text.length % 2 = 1 := by
  have reading := reading lawful text
  constructor
  · intro failed
    rw [failed] at reading
    cases reading with
    | odd odd => exact odd
  · intro odd
    generalize coder.decode text = result at reading
    cases reading with
    | odd => rfl
    | spelled spells => cases odd.symm.trans spells.length_mod
    | bad even => cases odd.symm.trans even

/-- The byte that is named is the first that is no digit, at its place, and then the length is even. -/
private theorem decode_eq_badDigit_iff (lawful : coder.Lawful) :
    coder.decode text = .error (.badDigit b place) ↔ text.length % 2 = 0 ∧ FirstBad text b place := by
  have reading := reading lawful text
  constructor
  · intro failed
    rw [failed] at reading
    cases reading with
    | bad even bad => exact ⟨even, bad⟩
  · rintro ⟨even, bad⟩
    generalize coder.decode text = result at reading
    cases reading with
    | odd odd => cases odd.symm.trans even
    | spelled spells => exact absurd spells.digit bad.not_digits
    | bad _ bad' =>
      obtain ⟨rfl, rfl⟩ := bad.unique bad'
      rfl

private theorem exists_decode_eq_ok_iff (lawful : coder.Lawful) :
    (∃ bytes, coder.decode text = .ok bytes) ↔ text.length % 2 = 0 ∧ ∀ c ∈ text, Digit c := by
  simp only [decode_eq_ok_iff lawful]
  refine ⟨fun ⟨_, spells⟩ => ⟨spells.length_mod, spells.digit⟩, fun ⟨even, digits⟩ => ?_⟩
  have reading := reading lawful text
  generalize coder.decode text = result at reading
  cases reading with
  | spelled spells => exact ⟨_, spells⟩
  | odd odd => cases odd.symm.trans even
  | bad _ bad => exact absurd digits bad.not_digits

/-! Separators -/

/-- A text without its third byte, its sixth, and so on. -/
def withoutThirds : List UInt8 → List UInt8
  | a :: b :: _ :: rest => a :: b :: withoutThirds rest
  | text => text

private theorem encode_singleton (lawful : coder.Lawful) (b : UInt8) :
    coder.encode [b] = [Byte.digit (b.toNat / 16), Byte.digit (b.toNat % 16)] := by
  rw [lawful.encode_cons, lawful.encode_nil]

private theorem withoutThirds_toHexSeparated (lawful : coder.Lawful) (separator : UInt8) (bytes : List UInt8) :
    withoutThirds (toHexSeparated coder separator bytes) = coder.encode bytes := by
  fun_induction toHexSeparated coder separator bytes with
  | case1 => exact lawful.encode_nil.symm
  | case2 b =>
    rw [encode_singleton lawful]
    rfl
  | case3 b next rest ih =>
    rw [lawful.encode_cons b (next :: rest), ← ih, encode_singleton lawful]
    rfl

private theorem length_toHexSeparated (lawful : coder.Lawful) (separator : UInt8) {bytes : List UInt8}
    (some : bytes ≠ []) :
    (toHexSeparated coder separator bytes).length = 3 * bytes.length - 1 := by
  fun_induction toHexSeparated coder separator bytes with
  | case1 => exact absurd rfl some
  | case2 b =>
    rw [encode_singleton lawful]
    rfl
  | case3 b next rest ih =>
    rw [List.length_append, List.length_cons, ih (by simp), encode_singleton lawful]
    simp only [List.length_cons, List.length_nil]
    omega

/-- After each byte but the last stands the separator. -/
private theorem getElem?_toHexSeparated (lawful : coder.Lawful) (separator : UInt8) {bytes : List UInt8} {i : Nat}
    (inside : i + 1 < bytes.length) : (toHexSeparated coder separator bytes)[3 * i + 2]? = some separator := by
  fun_induction toHexSeparated coder separator bytes generalizing i with
  | case1 => cases inside
  | case2 b => simp at inside
  | case3 b next rest ih =>
    rw [encode_singleton lawful]
    cases i with
    | zero => rfl
    | succ i => exact ih (by simpa using inside)

/-- Bytes that are written in base 16 read back. A text reads exactly if its length is even and all its bytes are
digits, small or capital; it reads as the bytes whose halves the digits stand for, and these are written as that text
with small letters. Of any other text the fault is an odd length, if it has one, or else the first byte that is no
digit, with its place. With separators, whatever byte separates, there are three bytes for each but the last, and
without each third of them they are the plain text. -/
theorem hex_reads_back (coder : Coder) (lawful : coder.Lawful) :
    (∀ bytes, fromHex coder (toHex coder bytes) = .ok bytes) ∧
    (∀ text, (∃ bytes, fromHex coder text = .ok bytes) ↔ text.length % 2 = 0 ∧ ∀ c ∈ text, Digit c) ∧
    (∀ text bytes, fromHex coder text = .ok bytes ↔ Spells text bytes) ∧
    (∀ text bytes, fromHex coder text = .ok bytes → toHex coder bytes = text.map Byte.toLower) ∧
    (∀ text, fromHex coder text = .error .oddLength ↔ text.length % 2 = 1) ∧
    (∀ text b place,
      fromHex coder text = .error (.badDigit b place) ↔ text.length % 2 = 0 ∧ FirstBad text b place) ∧
    ∀ separator bytes, withoutThirds (toHexSeparated coder separator bytes) = toHex coder bytes ∧
      (bytes ≠ [] → (toHexSeparated coder separator bytes).length = 3 * bytes.length - 1) ∧
      ∀ i, i + 1 < bytes.length → (toHexSeparated coder separator bytes)[3 * i + 2]? = some separator :=
  ⟨fun bytes => (spells_encode lawful bytes).decode_eq lawful, fun _ => exists_decode_eq_ok_iff lawful,
    fun _ _ => decode_eq_ok_iff lawful, fun _ _ read => ((decode_eq_ok_iff lawful).mp read).encode_eq lawful,
    fun _ => decode_eq_oddLength_iff lawful, fun _ _ _ => decode_eq_badDigit_iff lawful,
    fun separator bytes => ⟨withoutThirds_toHexSeparated lawful separator bytes, length_toHexSeparated lawful separator,
      fun _ => getElem?_toHexSeparated lawful separator⟩⟩

/-- Letters in both cases, faults that come together, and a separator that is a digit itself. -/
theorem hex_reads_back_mixed :
    let coder := Coder.reference
    coder.Lawful ∧ fromHex coder [0x41, 0x66, 0x30, 0x39] = .ok [0xaf, 0x09] ∧
      toHex coder [0xaf, 0x09] = [0x61, 0x66, 0x30, 0x39] ∧ fromHex coder [0x67, 0x30, 0x21] = .error .oddLength ∧
      fromHex coder [0x30, 0x67, 0x21, 0x41] = .error (.badDigit 0x67 1) ∧ ([0xaf, 0x09] : List UInt8) ≠ [] ∧
      (toHexSeparated coder 0x61 [0xaf, 0x09]).length = 5 ∧ 0 + 1 < [0xaf, 0x09].length ∧
      (toHexSeparated coder 0x61 [0xaf, 0x09])[2]? = some 0x61 := by
  intro coder
  obtain ⟨-, -, -, anew, odd, bad, separated⟩ := hex_reads_back coder Coder.reference_lawful
  obtain ⟨-, length, between⟩ := separated 0x61 [0xaf, 0x09]
  have read : fromHex coder [0x41, 0x66, 0x30, 0x39] = .ok [0xaf, 0x09] := by rfl
  have zero : Digit 0x30 := ⟨0, digitIn?_eq_some_iff.mp rfl⟩
  have first : FirstBad [0x30, 0x67, 0x21, 0x41] 0x67 1 := ⟨rfl, digitIn?_eq_none_iff.mp rfl, by simpa using zero⟩
  exact ⟨Coder.reference_lawful, read, anew _ _ read, (odd _).mpr rfl, (bad _ _ _).mpr ⟨rfl, first⟩, by simp,
    length (by simp), by simp, between 0 (by simp)⟩

end ByteFlow.Codec.Hex
