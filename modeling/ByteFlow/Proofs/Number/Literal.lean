import ByteFlow.Proofs.Number.Digits
import ByteFlow.Proofs.Outcome
import ByteFlow.Proofs.Text.Trimming
import ByteFlow.Proofs.Text.Utf8

/-! The texts that are integers, and what they are read as.
A literal has a sign, a mark of its base and digits. Reading accepts the literals whose values fit, with blanks around
them, and names an overflow exactly where it is the value that fails. -/
namespace ByteFlow.Number.Integer
open Outcome Text.Spacing

/-! Literals -/

/-- What may stand before a number, and whether it is a minus sign, which takes a signed kind. -/
inductive Sign (signed : Bool) : List UInt8 → Bool → Prop
  | none : Sign signed [] false
  | plus : Sign signed [Byte.plus] false
  | minus (allowed : signed = true) : Sign signed [Byte.minus] true

/-- The radix that a base and the mark before the digits choose. In base 16 a mark changes nothing; in base 0 it alone
decides, and a zero before other digits is one. -/
inductive Marked : (base radix : Nat) → (text digits : List UInt8) → Prop
  | plain {base : Nat} {digits : List UInt8} (least : 2 ≤ base) (most : base ≤ 36) : Marked base base digits digits
  | sixteen {x : UInt8} {digits : List UInt8} (mark : x = 0x78 ∨ x = 0x58) : Marked 16 16 (0x30 :: x :: digits) digits
  | hexadecimal {x : UInt8} {digits : List UInt8} (mark : x = 0x78 ∨ x = 0x58) : Marked 0 16 (0x30 :: x :: digits) digits
  | binary {x : UInt8} {digits : List UInt8} (mark : x = 0x62 ∨ x = 0x42) : Marked 0 2 (0x30 :: x :: digits) digits
  | octal {b : UInt8} {rest : List UInt8} : Marked 0 8 (0x30 :: b :: rest) (b :: rest)
  | decimal {digits : List UInt8} (bare : ∀ b rest, digits ≠ 0x30 :: b :: rest) : Marked 0 10 digits digits

def withSign (negative : Bool) (n : Nat) : Int := if negative then -(n : Int) else n

/-- The text of a sign, a mark and at least one digit, with the value it has. -/
inductive Literal (signed : Bool) (base : Nat) : List UInt8 → Int → Prop
  | intro {lead text digits : List UInt8} {negative : Bool} {radix : Nat} {values : List Nat}
      (sign : Sign signed lead negative) (marked : Marked base radix text digits) (some : digits ≠ [])
      (reads : List.Forall₂ (IsDigit radix) digits values) :
      Literal signed base (lead ++ text) (withSign negative (Nat.ofDigits radix values.reverse))

variable {k : Kind} {base radix : Nat} {negative : Bool} {text digits : List UInt8} {values : List Nat}

private theorem Marked.valid (marked : Marked base radix text digits) : base = 0 ∨ 2 ≤ base ∧ base ≤ 36 := by
  cases marked <;> omega

private theorem Literal.valid {signed : Bool} {value : Int} (literal : Literal signed base text value) :
    base = 0 ∨ 2 ≤ base ∧ base ≤ 36 := by
  obtain ⟨-, marked, -, -⟩ := literal
  exact marked.valid

/-! Digits -/

private theorem IsDigit.plain {b : UInt8} {d : Nat} (digit : IsDigit radix b d) :
    isSign b = false ∧ b < 128 ∧ ¬ Blank b := by
  have byte : Byte.digitValue? b ≠ none → isSign b = false ∧ b < 128 ∧ ¬ Blank b :=
    Byte.forall_of_lt b (by decide +kernel)
  rw [digitValue?_eq_some_iff.mpr digit.listed] at byte
  exact byte (Option.some_ne_none d)

/-- Each digit of a run has a property that all digits have. -/
private theorem forall_digits {p : UInt8 → Prop} (each : ∀ {b d}, IsDigit radix b d → p b)
    (reads : List.Forall₂ (IsDigit radix) digits values) : ∀ b ∈ digits, p b := by
  induction reads with
  | nil => simp
  | cons digit _ ih => exact List.forall_mem_cons.mpr ⟨each digit, ih⟩

private theorem least_le_zero (k : Kind) : k.least ≤ 0 := by
  have : (0 : Int) < Nat.pow 2 (k.bits - 1) := by exact_mod_cast Nat.two_pow_pos _
  rw [Kind.least]
  split <;> omega

private theorem zero_le_greatest (k : Kind) : 0 ≤ k.greatest := by
  have : (0 : Int) < Nat.pow 2 (if k.signed then k.bits - 1 else k.bits) := by exact_mod_cast Nat.two_pow_pos _
  rw [Kind.greatest]
  omega

theorem holds_iff {value : Int} : k.holds value = true ↔ k.least ≤ value ∧ value ≤ k.greatest := decide_eq_true_iff

/-- A kind holds every value between one that it holds and zero. -/
private theorem holds_of_le {m n : Nat} (le : m ≤ n) (holds : k.holds (withSign negative n) = true) :
    k.holds (withSign negative m) = true := by
  have := least_le_zero k
  have := zero_le_greatest k
  rw [holds_iff] at holds ⊢
  cases negative <;> simp only [withSign, Bool.false_eq_true, if_false, if_true] at holds ⊢ <;> omega

/-! Adding digits -/

private theorem le_foldl (some : 0 < radix) (m : Nat) (values : List Nat) :
    m ≤ values.foldl (fun n d => n * radix + d) m := by
  induction values generalizing m with
  | nil => exact Nat.le_refl m
  | cons d rest ih =>
    have : m ≤ m * radix := Nat.le_mul_of_pos_right m some
    exact Nat.le_trans (by omega) (ih (m * radix + d))

private theorem foldl_eq_ofDigits (radix : Nat) (values : List Nat) :
    values.foldl (fun n d => n * radix + d) 0 = Nat.ofDigits radix values.reverse := by
  rw [Nat.ofDigits_eq_foldr, List.foldr_reverse]
  simp only [Nat.cast_id, Nat.add_comm, Nat.mul_comm]

private theorem withSign_step (negative : Bool) (m d : Nat) :
    withSign negative m * radix + (if negative then -(d : Int) else d) = withSign negative (m * radix + d) := by
  cases negative <;> simp only [withSign, Bool.false_eq_true, if_false, if_true] <;> push_cast <;> ring

/-- Digits are added up to their value if that fits; the sum leaves the kind as soon as it would not come back. -/
private theorem accumulate_of_digits (reads : List.Forall₂ (IsDigit radix) digits values) {m : Nat}
    (holds : k.holds (withSign negative m) = true) :
    accumulate k radix negative (withSign negative m) digits =
      if k.holds (withSign negative (values.foldl (fun n d => n * radix + d) m)) then
        .ok (withSign negative (values.foldl (fun n d => n * radix + d) m))
      else .error .overflow := by
  induction reads generalizing m with
  | nil => rw [accumulate, List.foldl_nil, if_pos holds]
  | @cons b d digits values digit _ ih =>
    rw [accumulate, digitIn?_eq_some_iff.mpr digit, List.foldl_cons]
    dsimp only
    rw [withSign_step]
    split
    · next fits => exact ih fits
    · next beyond =>
      have grows := le_foldl (Nat.zero_lt_of_lt digit.below) (m * radix + d) values
      rw [if_neg fun fits => beyond (holds_of_le grows fits)]

private theorem digits_of_accumulate {start value : Int} (sum : accumulate k radix negative start digits = .ok value) :
    ∃ values, List.Forall₂ (IsDigit radix) digits values := by
  induction digits generalizing start with
  | nil => exact ⟨[], .nil⟩
  | cons b rest ih =>
    rw [accumulate] at sum
    split at sum
    · cases sum
    · next d reads =>
      dsimp only at sum
      generalize start * (radix : Int) + (if negative then -(d : Int) else (d : Int)) = next at sum
      split at sum
      · obtain ⟨values, rest⟩ := ih sum
        exact ⟨d :: values, .cons (digitIn?_eq_some_iff.mp reads) rest⟩
      · cases sum

private theorem ofDigits_of_digits (some : digits ≠ []) (reads : List.Forall₂ (IsDigit radix) digits values)
    (allowed : negative = true → k.signed = true) :
    ofDigits k radix negative digits =
      if k.holds (withSign negative (Nat.ofDigits radix values.reverse)) then
        .ok (withSign negative (Nat.ofDigits radix values.reverse))
      else .error .overflow := by
  have text : Text.Utf8.isValid digits = true :=
    Text.Utf8.isValid_of_forall_lt (forall_digits (fun digit => digit.plain.2.1) reads)
  have unsigned := forall_digits (fun digit => digit.plain.1) reads
  have head : digits.head?.any isSign = false := by
    obtain ⟨b, rest, rfl⟩ := List.exists_cons_of_ne_nil some
    exact unsigned b List.mem_cons_self
  have start : withSign negative 0 = 0 := by cases negative <;> rfl
  have zero : k.holds (withSign negative 0) = true := by
    rw [start, holds_iff]
    exact ⟨least_le_zero k, zero_le_greatest k⟩
  rw [ofDigits, if_neg (by simp [some, head, text]), if_neg (by simpa using allowed), ← foldl_eq_ofDigits]
  have sum := accumulate_of_digits reads zero
  rwa [start] at sum

private theorem digits_of_ofDigits {value : Int} (read : ofDigits k radix negative digits = .ok value) :
    digits ≠ [] ∧ (negative = true → k.signed = true) ∧ ∃ values, List.Forall₂ (IsDigit radix) digits values := by
  rw [ofDigits] at read
  split at read
  · cases read
  · next proper =>
    split at read
    · cases read
    · next allowed =>
      refine ⟨fun none => proper (by simp [none]), by simpa using allowed, digits_of_accumulate read⟩

/-! Signs and marks -/

/-- Behind a sign the digits or their mark begin, which is a byte that is no sign. -/
private theorem Marked.unsigned (marked : Marked base radix text digits)
    (reads : List.Forall₂ (IsDigit radix) digits values) :
    ∀ b ∈ text.head?, isSign b = false := by
  have plain : ∀ b ∈ digits.head?, isSign b = false :=
    fun b begins => forall_digits (fun digit => digit.plain.1) reads b (List.mem_of_mem_head? begins)
  cases marked with
  | plain | decimal => exact plain
  | sixteen | hexadecimal | binary | octal =>
    rintro b ⟨⟩
    decide

theorem splitSign_append {signed : Bool} {lead : List UInt8} (sign : Sign signed lead negative)
    (unsigned : ∀ b ∈ text.head?, isSign b = false) : splitSign (lead ++ text) = (negative, text) := by
  cases sign with
  | plus | minus => rfl
  | none =>
    cases text with
    | nil => rfl
    | cons b rest =>
      have plain := unsigned b rfl
      rw [isSign, Bool.or_eq_false_iff, beq_eq_false_iff_ne, beq_eq_false_iff_ne] at plain
      rw [List.nil_append, splitSign, if_neg plain.1, if_neg plain.2]

private theorem sign_of_splitSign {signed : Bool} (split : splitSign text = (negative, digits))
    (allowed : negative = true → signed = true) : ∃ lead, Sign signed lead negative ∧ text = lead ++ digits := by
  cases text with
  | nil =>
    cases split
    exact ⟨[], .none, rfl⟩
  | cons b rest =>
    rw [splitSign] at split
    split at split
    · next minus =>
      cases split
      exact ⟨[Byte.minus], .minus (allowed rfl), by rw [minus]; rfl⟩
    · split at split
      · next plus =>
        cases split
        exact ⟨[Byte.plus], .plus, by rw [plus]; rfl⟩
      · cases split
        exact ⟨[], .none, rfl⟩

private theorem isHexMark_iff (b : UInt8) : isHexMark b = true ↔ b = 0x78 ∨ b = 0x58 :=
  Byte.forall_of_lt b (by decide +kernel)

private theorem isBinaryMark_iff (b : UInt8) : isBinaryMark b = true ↔ b = 0x62 ∨ b = 0x42 :=
  Byte.forall_of_lt b (by decide +kernel)

private theorem marked_of_splitMark (split : splitMark text = (radix, digits)) : Marked 0 radix text digits := by
  match text with
  | [] =>
    cases split
    exact .decimal nofun
  | [b] =>
    cases split
    exact .decimal nofun
  | zero :: mark :: rest =>
    rw [splitMark] at split
    split at split
    · next other =>
      cases split
      exact .decimal fun b rest same => other (List.cons.inj same).1
    · next zero =>
      rw [not_not.mp zero]
      split at split
      · next hex =>
        cases split
        exact .hexadecimal ((isHexMark_iff mark).mp hex)
      · split at split
        · next binary =>
          cases split
          exact .binary ((isBinaryMark_iff mark).mp binary)
        · cases split
          exact .octal

private theorem marked_of_dropHexMark (text : List UInt8) : Marked 16 16 text (dropHexMark text) := by
  have plain : Marked 16 16 text text := .plain (by decide) (by decide)
  match text with
  | [] | [_] => exact plain
  | zero :: mark :: rest =>
    rw [dropHexMark]
    split
    · next hex =>
      rw [hex.1]
      exact .sixteen ((isHexMark_iff mark).mp hex.2)
    · exact plain

private theorem marked_of_splitBase (split : splitBase base text = .ok (radix, digits)) :
    Marked base radix text digits := by
  rw [splitBase] at split
  split at split
  · next zero =>
    rw [zero]
    exact marked_of_splitMark (Except.ok.inj split)
  · split at split
    · next sixteen =>
      cases split
      rw [sixteen]
      exact marked_of_dropHexMark text
    · split at split
      · next valid =>
        cases split
        exact .plain valid.1 valid.2
      · cases split

/-- A digit is a mark only in a radix that it belongs to. -/
private theorem IsDigit.not_mark {b : UInt8} {d : Nat} (digit : IsDigit radix b d) :
    (radix ≤ 16 → isHexMark b = false) ∧ (radix ≤ 8 → isBinaryMark b = false) := by
  have byte : ∀ d ∈ Byte.digitValue? b, (d < 16 → isHexMark b = false) ∧ (d < 8 → isBinaryMark b = false) :=
    Byte.forall_of_lt b (by decide +kernel)
  have := byte d (digitValue?_eq_some_iff.mpr digit.listed)
  have below := digit.below
  exact ⟨fun few => this.1 (by omega), fun few => this.2 (by omega)⟩

/-- In base 16 a second byte that is a digit is no mark. -/
private theorem dropHexMark_of_digits (reads : List.Forall₂ (IsDigit 16) digits values) :
    dropHexMark digits = digits := by
  match digits, reads with
  | [], _ | [_], _ => rfl
  | zero :: b :: rest, .cons _ (.cons digit _) =>
    rw [dropHexMark, if_neg (by simp [digit.not_mark.1 (by decide)])]

private theorem splitMark_of_bare (bare : ∀ b rest, digits ≠ 0x30 :: b :: rest) : splitMark digits = (10, digits) := by
  match digits with
  | [] | [_] => rfl
  | zero :: mark :: rest => rw [splitMark, if_pos fun same => bare mark rest (by rw [same])]

private theorem splitBase_of_marked (marked : Marked base radix text digits)
    (reads : List.Forall₂ (IsDigit radix) digits values) :
    splitBase base text = .ok (radix, digits) := by
  cases marked with
  | plain least most =>
    rw [splitBase, if_neg (by omega)]
    split
    · next sixteen =>
      subst sixteen
      rw [dropHexMark_of_digits reads]
    · rw [if_pos ⟨least, most⟩]
  | sixteen mark => simp [splitBase, dropHexMark, isHexMark_iff, mark]
  | hexadecimal mark => simp [splitBase, splitMark, isHexMark_iff, mark]
  | @binary x _ mark =>
    have other : isHexMark x = false := by rcases mark with rfl | rfl <;> decide
    simp [splitBase, splitMark, other, isBinaryMark_iff, mark]
  | octal =>
    cases reads with
    | cons digit _ => simp [splitBase, splitMark, digit.not_mark.1 (by decide), digit.not_mark.2 (by decide)]
  | decimal bare => rw [splitBase, if_pos rfl, splitMark_of_bare bare]

/-! Reading -/

private theorem read_eq (k : Kind) (base : Nat) (some : trim text ≠ []) : read k base text =
    splitBase base (splitSign (trim text)).2 >>= fun p => ofDigits k p.1 (splitSign (trim text)).1 p.2 := by
  rw [read, if_neg (by simpa using some)]

/-- A literal with blanks around it is read as its value, or overflows. -/
theorem read_of_literal {body : List UInt8} {value : Int} (trims : Trims text body)
    (literal : Literal k.signed base body value) :
    read k base text = if k.holds value then .ok value else .error .overflow := by
  obtain ⟨sign, marked, some, reads⟩ := literal
  rename_i lead rest digits negative radix values
  have body := trims.trim_eq
  have nonempty : lead ++ rest ≠ [] := by
    intro none
    obtain ⟨rfl, rfl⟩ := List.append_eq_nil_iff.mp none
    cases marked <;> exact some rfl
  have allowed : negative = true → k.signed = true := by
    rintro rfl
    cases sign
    assumption
  rw [read_eq k base (by rwa [body]), body, splitSign_append sign (marked.unsigned reads)]
  dsimp only
  rw [splitBase_of_marked marked reads]
  exact ofDigits_of_digits some reads allowed

private theorem literal_of_read {value : Int} (accepted : read k base text = .ok value) :
    ∃ written, Literal k.signed base (trim text) written := by
  by_cases none : trim text = []
  · rw [read, if_pos (by simp [none])] at accepted
    cases accepted
  · rw [read_eq k base none, bind_eq_ok_iff] at accepted
    obtain ⟨⟨radix, digits⟩, split, sum⟩ := accepted
    obtain ⟨some, allowed, values, reads⟩ := digits_of_ofDigits sum
    obtain ⟨lead, sign, parts⟩ := sign_of_splitSign (Prod.mk.eta (p := splitSign (trim text))).symm allowed
    rw [parts]
    exact ⟨_, .intro sign (marked_of_splitBase split) some reads⟩

private theorem read_eq_ok_iff {value : Int} : read k base text = .ok value ↔
    Literal k.signed base (trim text) value ∧ k.holds value = true := by
  constructor
  · intro accepted
    obtain ⟨written, literal⟩ := literal_of_read accepted
    rw [read_of_literal (trims_trim text) literal] at accepted
    split at accepted
    · next fits =>
      cases accepted
      exact ⟨literal, fits⟩
    · cases accepted
  · rintro ⟨literal, fits⟩
    rw [read_of_literal (trims_trim text) literal, if_pos fits]

/-! Writing -/

private theorem forall₂_digits (base n : Nat) (least : 2 ≤ base) (most : base ≤ 36) :
    List.Forall₂ (IsDigit base) (Integer.digits base n) (places base n) := by
  rw [digits_eq_map least, List.forall₂_map_left_iff, List.forall₂_same]
  intro d member
  have below := lt_of_mem_places least member
  exact ⟨below, .inl (getElem?_smallDigits (by omega))⟩

/-- Only the text of zero begins with a zero, and it is no longer. -/
theorem digits_bare {base : Nat} (n : Nat) (least : 2 ≤ base) (most : base ≤ 36) (b : UInt8) (rest : List UInt8) :
    Integer.digits base n ≠ 0x30 :: b :: rest := by
  intro leads
  rw [digits_eq_map least] at leads
  obtain ⟨d, more, parts, zero, rest⟩ := List.map_eq_cons_iff.mp leads
  have below : d < base := lt_of_mem_places least (by rw [parts]; exact List.mem_cons_self)
  have value : Byte.digitValue? (Byte.digit d) = some d := Byte.digitValue?_digit (by omega)
  rw [zero] at value
  obtain rfl : 0 = d := Option.some.inj value
  have head : (places base n).head? = some 0 := by rw [parts]; rfl
  obtain rfl : n = 0 := eq_zero_of_head?_places head
  cases parts
  cases rest

private theorem literal_digits {signed : Bool} {lead : List UInt8} (n : Nat) (least : 2 ≤ radix) (most : radix ≤ 36)
    (sign : Sign signed lead negative) (marked : Marked base radix (Integer.digits radix n) (Integer.digits radix n)) :
    Literal signed base (lead ++ Integer.digits radix n) (withSign negative n) := by
  have literal := Literal.intro sign marked (digits_ne_nil least n) (forall₂_digits radix n least most)
  rwa [ofDigits_places] at literal

/-- The radix that numbers are written in: the base, unless it is none. -/
theorem exists_radix (base : Nat) :
    ∃ radix, 2 ≤ radix ∧ radix ≤ 36 ∧ (radix = base ∨ ¬ (2 ≤ base ∧ base ≤ 36) ∧ radix = 10) ∧
      ∀ value : Int,
        write base value = (if value < 0 then [Byte.minus] else []) ++ Integer.digits radix value.natAbs := by
  have written {radix : Nat} (chosen : (if 2 ≤ base ∧ base ≤ 36 then base else 10) = radix) (value : Int) :
      write base value = (if value < 0 then [Byte.minus] else []) ++ Integer.digits radix value.natAbs := by
    rw [write, chosen]
    split <;> rfl
  by_cases valid : 2 ≤ base ∧ base ≤ 36
  · exact ⟨base, valid.1, valid.2, .inl rfl, written (if_pos valid)⟩
  · exact ⟨10, by decide, by decide, .inr ⟨valid, rfl⟩, written (if_neg valid)⟩

/-- What a number is written as, is a literal in its base, also in base 0, in which it is written in decimal. -/
theorem literal_write {signed : Bool} {value : Int} (allowed : value < 0 → signed = true)
    (valid : base = 0 ∨ 2 ≤ base ∧ base ≤ 36) : Literal signed base (write base value) value := by
  obtain ⟨radix, least, most, choice, written⟩ := exists_radix base
  have marked : Marked base radix (Integer.digits radix value.natAbs) (Integer.digits radix value.natAbs) := by
    rcases choice with rfl | ⟨invalid, rfl⟩
    · exact .plain least most
    · obtain rfl : base = 0 := by omega
      exact .decimal (digits_bare _ least most)
  rw [written]
  split
  · next below =>
    have same : withSign true value.natAbs = value := by simp only [withSign, if_true]; omega
    have literal := literal_digits value.natAbs least most (.minus (allowed below)) marked
    rwa [same] at literal
  · next above =>
    have same : withSign false value.natAbs = value := by simp only [withSign, Bool.false_eq_true, if_false]; omega
    have literal : Literal signed base ([] ++ _) _ := literal_digits value.natAbs least most .none marked
    rwa [same] at literal

private theorem Marked.inked (marked : Marked base radix text digits) (inked : ∀ b ∈ digits, ¬ Blank b) :
    ∀ b ∈ text, ¬ Blank b := by
  have zero : ¬ Blank 0x30 := by decide
  cases marked with
  | plain | decimal => exact inked
  | octal => exact List.forall_mem_cons.mpr ⟨zero, inked⟩
  | sixteen mark | hexadecimal mark | binary mark =>
    refine List.forall_mem_cons.mpr ⟨zero, List.forall_mem_cons.mpr ⟨?_, inked⟩⟩
    rcases mark with rfl | rfl <;> decide

/-- A literal has no blank that trimming could take off. -/
theorem Literal.trims {signed : Bool} {value : Int} (literal : Literal signed base text value) : Trims text text := by
  refine trims_self ?_
  obtain ⟨sign, marked, -, reads⟩ := literal
  rw [List.forall_mem_append]
  refine ⟨?_, marked.inked (forall_digits (fun digit => digit.plain.2.2) reads)⟩
  cases sign with
  | none => nofun
  | plus | minus => exact List.forall_mem_singleton.mpr (by decide)

/-- A number that a kind holds is read back from what it is written as. -/
theorem read_write {value : Int} (fits : k.holds value = true) (valid : base = 0 ∨ 2 ≤ base ∧ base ≤ 36) :
    read k base (write base value) = .ok value := by
  have allowed : value < 0 → k.signed = true := by
    intro below
    have least := (holds_iff.mp fits).1
    by_contra unsigned
    rw [Kind.least, if_neg unsigned] at least
    omega
  have literal : Literal k.signed base (write base value) value := literal_write allowed valid
  rw [read_of_literal literal.trims literal, if_pos fits]

/-! What is read -/

/-- A text is read as a number exactly if, without the blanks around it, it is a literal of that value in the base
asked for, and the kind holds the value; both the least and the greatest value of a kind have such texts. A literal
of any other value overflows. A text of blanks alone is called empty, even if the base is none. -/
theorem read_accepts_literals (k : Kind) (base : Nat) (text : List UInt8) :
    (∀ value, read k base text = .ok value ↔ (base = 0 ∨ 2 ≤ base ∧ base ≤ 36) ∧
      ∃ body, Trims text body ∧ Literal k.signed base body value ∧ k.least ≤ value ∧ value ≤ k.greatest) ∧
    (∀ body value, Trims text body → Literal k.signed base body value → ¬ (k.least ≤ value ∧ value ≤ k.greatest) →
      read k base text = .error .overflow) ∧
    ((∀ b ∈ text, Blank b) → read k base text = .error .empty) ∧
    (base = 0 ∨ 2 ≤ base ∧ base ≤ 36 →
      (∃ low, read k base low = .ok k.least) ∧ ∃ high, read k base high = .ok k.greatest) := by
  refine ⟨fun value => ?_, fun body value trims literal beyond => ?_, fun blank => ?_, fun valid => ?_⟩
  · rw [read_eq_ok_iff, holds_iff]
    constructor
    · rintro ⟨literal, fits⟩
      exact ⟨literal.valid, trim text, trims_trim text, literal, fits⟩
    · rintro ⟨-, body, trims, literal, fits⟩
      rw [trims.trim_eq]
      exact ⟨literal, fits⟩
  · rw [read_of_literal trims literal, if_neg (by rwa [holds_iff])]
  · have nothing : trim text = [] := Trims.trim_eq ⟨⟨text, [], by simp, blank, nofun⟩, nofun, nofun⟩
    rw [read, if_pos (by rw [nothing]; rfl)]
    rfl
  · have fits := least_le_zero k
    have := zero_le_greatest k
    exact ⟨⟨_, read_write (holds_iff.mpr ⟨Int.le_refl _, by omega⟩) valid⟩,
      _, read_write (holds_iff.mpr ⟨by omega, Int.le_refl _⟩) valid⟩

/-- The two ends of a range and the number past it, a mark with a capital letter, blanks on both sides, and blanks
read in a base that is none. -/
theorem read_accepts_literals_at_ends :
    let byte : Kind := ⟨true, 8⟩
    let low : List UInt8 := [9, 45, 48, 88, 56, 48, 32]
    let past : List UInt8 := [43, 48, 88, 56, 48]
    read byte 0 low = .ok (-128) ∧
      (Trims past past ∧ Literal true 0 past 128 ∧ ¬ (byte.least ≤ 128 ∧ 128 ≤ byte.greatest) ∧
        read byte 0 past = .error .overflow) ∧
      ((∀ b ∈ ([11, 10] : List UInt8), Blank b) ∧ read byte 37 [11, 10] = .error .empty) ∧
      ∃ high, read byte 36 high = .ok 127 := by
  intro byte low past
  have reads : List.Forall₂ (IsDigit 16) [56, 48] [8, 0] :=
    .cons ⟨by decide, .inl (by decide +kernel)⟩ (.cons ⟨by decide, .inl (by decide +kernel)⟩ .nil)
  have below : Literal true 0 [45, 48, 88, 56, 48] (-128) :=
    .intro (.minus rfl) (.hexadecimal (.inr rfl)) (by decide) reads
  have above : Literal true 0 past 128 := .intro .plus (.hexadecimal (.inr rfl)) (by decide) reads
  have around : Trims low [45, 48, 88, 56, 48] :=
    ⟨⟨[9], [32], rfl, List.forall_mem_singleton.mpr (by decide), List.forall_mem_singleton.mpr (by decide)⟩,
      below.trims.first, below.trims.last⟩
  have beyond : ¬ (byte.least ≤ 128 ∧ 128 ≤ byte.greatest) := by decide
  have blank : ∀ b ∈ ([11, 10] : List UInt8), Blank b := by
    rw [List.forall_mem_cons, List.forall_mem_singleton]
    decide
  obtain ⟨accepts, -, -, -⟩ := read_accepts_literals byte 0 low
  obtain ⟨-, overflows, -, -⟩ := read_accepts_literals byte 0 past
  obtain ⟨-, -, empty, -⟩ := read_accepts_literals byte 37 [11, 10]
  obtain ⟨-, -, -, reach⟩ := read_accepts_literals byte 36 []
  exact ⟨(accepts (-128)).mpr ⟨.inl rfl, _, around, below, by decide⟩,
    ⟨above.trims, above, beyond, overflows past 128 above.trims above beyond⟩, ⟨blank, empty blank⟩,
    (reach (.inr (by decide))).2⟩

end ByteFlow.Number.Integer
