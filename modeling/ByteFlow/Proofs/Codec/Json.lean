import ByteFlow.Codec.Json
import ByteFlow.Proofs.Text.Decimal
import ByteFlow.Proofs.Text.Utf8

/-! Byte sequences read back from the documents they are written as, and from quoted text.
A string that may be text is read as the bytes of that text; reading it raw accepts more documents and gives the same
bytes for those. -/
namespace ByteFlow.Codec.Json

variable {strings : Strings}

/-! Arrays -/

private theorem skipSpace_cons {c : Char} (inked : isSpace c = false) (rest : List Char) :
    skipSpace (c :: rest) = c :: rest := by
  simp [skipSpace, inked]

/-- The digits of a byte: not empty, without a zero in front unless it is the only one, and with the byte as value. -/
private theorem toDigits_spec (b : UInt8) :
    let ds := Nat.toDigits 10 b.toNat
    ds ≠ [] ∧ (∀ c ∈ ds, c.isDigit = true) ∧ (ds.head? = some '0' → ds.length = 1) ∧
      ds.foldl (fun n c => 10 * n + (c.toNat - 0x30)) 0 = b.toNat := by
  refine ⟨by simp, fun c => Text.isDigit_of_mem_toDigits, fun zero => ?_, Nat.ofDigitChars_ten_toDigits⟩
  rw [Text.eq_zero_of_head?_toDigits zero]
  rfl

private theorem number?_digits (b : UInt8) {mark : Char} (ends : mark.isDigit = false) (rest : List Char) :
    number? (Nat.toDigits 10 b.toNat ++ mark :: rest) = some (b, mark :: rest) := by
  obtain ⟨some, digits, single, value⟩ := toDigits_spec b
  generalize Nat.toDigits 10 b.toNat = ds at *
  have taken : (ds ++ mark :: rest).takeWhile Char.isDigit = ds := by
    rw [List.takeWhile_append_of_pos digits]
    simp [ends]
  have led : (ds.head? == Option.some '0' && ds.length != 1) = false := by
    by_cases zero : ds.head? = Option.some '0'
    · simp [single zero]
    · simp [zero]
  have small : ¬ 255 < b.toNat := by have := b.toNat_lt; omega
  simp [number?, taken, value, led, some, small]

/-- The numbers between the brackets. -/
private def listed (bs : List UInt8) : List Char := [','].intercalate (bs.map fun b => Nat.toDigits 10 b.toNat)

private theorem listed_cons (b next : UInt8) (bs : List UInt8) :
    listed (b :: next :: bs) = Nat.toDigits 10 b.toNat ++ ',' :: listed (next :: bs) := by
  simp [listed, List.intercalate_cons_cons]

private theorem toList_write (bs : List UInt8) : (write bs).toList = '[' :: (listed bs ++ [']']) := by
  simp [write, listed, String.toList_intercalate, Function.comp_def]

private theorem isSpace_of_isDigit {c : Char} (digit : c.isDigit = true) : isSpace c = false :=
  Text.forall_digitChar digit (by decide)

private theorem skipSpace_digits (b : UInt8) (rest : List Char) :
    skipSpace (Nat.toDigits 10 b.toNat ++ rest) = Nat.toDigits 10 b.toNat ++ rest := by
  obtain ⟨some, digits, -, -⟩ := toDigits_spec b
  obtain ⟨d, ds, eq⟩ := List.exists_cons_of_ne_nil some
  rw [eq] at digits ⊢
  exact skipSpace_cons (isSpace_of_isDigit (digits d List.mem_cons_self)) _

private theorem numbers?_listed (b : UInt8) (bs : List UInt8) {fuel : Nat} (enough : bs.length < fuel) (rest : List Char) :
    numbers? fuel (listed (b :: bs) ++ ']' :: rest) = some (b :: bs, rest) := by
  induction bs generalizing b fuel with
  | nil =>
    obtain ⟨fuel, rfl⟩ := Nat.exists_eq_add_one_of_ne_zero (Nat.ne_of_gt enough)
    have single : listed [b] = Nat.toDigits 10 b.toNat := by simp [listed]
    rw [numbers?, single, skipSpace_digits, number?_digits b (by decide)]
    simp [skipSpace_cons (show isSpace ']' = false by decide)]
  | cons next bs ih =>
    obtain ⟨fuel, rfl⟩ := Nat.exists_eq_add_one_of_ne_zero (Nat.ne_of_gt (Nat.zero_lt_of_lt enough))
    rw [numbers?, listed_cons, List.append_assoc, skipSpace_digits, List.cons_append, number?_digits b (by decide)]
    simp [skipSpace_cons (show isSpace ',' = false by decide), ih next (Nat.lt_of_succ_lt_succ enough)]

private theorem length_le_listed (bs : List UInt8) : bs.length ≤ (listed bs).length := by
  induction bs with
  | nil => exact Nat.zero_le _
  | cons b bs ih =>
    have some : 0 < (Nat.toDigits 10 b.toNat).length := List.length_pos_of_ne_nil (toDigits_spec b).1
    cases bs with
    | nil => simpa [listed] using Nat.succ_le_of_lt some
    | cons next bs =>
      simp only [listed_cons, List.length_append, List.length_cons] at ih ⊢
      omega

private theorem listed_begins (b : UInt8) (bs : List UInt8) :
    ∃ d ds, listed (b :: bs) = d :: ds ∧ d.isDigit = true := by
  obtain ⟨some, digits, -, -⟩ := toDigits_spec b
  obtain ⟨d, ds, eq⟩ := List.exists_cons_of_ne_nil some
  rw [eq] at digits
  cases bs with
  | nil => exact ⟨d, ds, by simp [listed, eq], digits d List.mem_cons_self⟩
  | cons next bs => exact ⟨d, ds ++ ',' :: listed (next :: bs), by rw [listed_cons, eq]; rfl, digits d List.mem_cons_self⟩

/-- Written bytes read back. -/
theorem read?_write (strings : Strings) (bs : List UInt8) : read? strings (write bs) = some bs := by
  have value : value? strings ('[' :: (listed bs ++ [']'])) = some (bs, []) := by
    cases bs with
    | nil => rfl
    | cons b bs =>
      have enough : bs.length < (listed (b :: bs) ++ [']']).length + 1 := by
        have := length_le_listed (b :: bs)
        rw [List.length_cons] at this
        rw [List.length_append]
        omega
      have all := numbers?_listed b bs enough []
      -- A number begins with a digit, so that the array is not taken for an empty one.
      obtain ⟨d, ds, eq, digit⟩ := listed_begins b bs
      rw [eq, List.cons_append] at all ⊢
      rw [value?, skipSpace_cons (isSpace_of_isDigit digit)]
      split
      · next same =>
        rw [(List.cons.inj same).1] at digit
        contradiction
      · exact all
  rw [read?, toList_write, skipSpace_cons (by decide), value]
  rfl

/-! Strings -/

private theorem bind_mono {α β : Type} {o p : Option α} (less : ∀ a, o = some a → p = some a) {f : α → Option β} {b : β}
    (found : o.bind f = some b) : p.bind f = some b := by
  obtain ⟨a, first, second⟩ := Option.bind_eq_some_iff.mp found
  rw [less a first, Option.bind_some, second]

private theorem map_mono {α β : Type} {o p : Option α} (less : ∀ a, o = some a → p = some a) {f : α → β} {b : β}
    (found : o.map f = some b) : p.map f = some b := by
  rw [Option.map_eq_bind] at found ⊢
  exact bind_mono less found

private theorem pieces?_raw {cs : List Char} {result : List Piece × List Char} (read : pieces? .checked cs = some result) :
    pieces? .raw cs = some result := by
  fun_induction pieces? .checked cs generalizing result with
  | case1 => contradiction
  | case2 rest => exact read
  | case3 a b c d rest ih =>
    obtain ⟨u, unit, read⟩ := Option.bind_eq_some_iff.mp read
    rw [pieces?, unit]
    exact bind_mono (fun _ => ih) read
  | case4 e rest apart ih =>
    obtain ⟨c, letter, read⟩ := Option.bind_eq_some_iff.mp read
    rw [pieces?, letter]
    · exact bind_mono (fun _ => ih) read
    · exact apart
  | case5 => contradiction
  | case6 c rest closed numbered escaped shown ih =>
    rw [pieces?, if_neg (fun both => Strings.noConfusion both.1)]
    · exact bind_mono (fun _ => ih) read
    · exact closed
    · exact numbered
    · exact escaped

private theorem bytes?_raw {ps : List Piece} {bs : List UInt8} (read : bytes? .checked ps = some bs) :
    bytes? .raw ps = some bs := by
  fun_induction bytes? .checked ps generalizing bs with
  | case1 => exact read
  | case2 c rest ih =>
    rw [bytes?]
    exact map_mono (fun _ => ih) read
  | case3 u v rest paired ih =>
    rw [bytes?, if_pos paired]
    exact map_mono (fun _ => ih) read
  | case4 | case7 => contradiction
  | case5 _ _ _ _ _ checked | case8 _ _ _ _ checked => exact absurd rfl checked
  | case6 u v rest unpaired single ih =>
    rw [bytes?, if_neg unpaired, if_neg single]
    exact map_mono (fun _ => ih) read
  | case9 u rest last single ih =>
    rw [bytes?, if_neg single]
    · exact map_mono (fun _ => ih) read
    · exact last

private theorem value?_raw {cs : List Char} {result : List UInt8 × List Char} (read : value? .checked cs = some result) :
    value? .raw cs = some result := by
  unfold value? at read ⊢
  split at read
  · next rest =>
    obtain ⟨pair, pieces, read⟩ := Option.bind_eq_some_iff.mp read
    rw [pieces?_raw pieces]
    exact bind_mono (fun _ => bytes?_raw) read
  · exact read
  · contradiction

/-- What is read where strings must be text is read the same where they are byte carriers. -/
theorem read?_raw_of_checked {document : String} {bs : List UInt8} (read : read? .checked document = some bs) :
    read? .raw document = some bs := by
  unfold read? at read ⊢
  split at read
  · next value => rwa [value?_raw value]
  · contradiction

private theorem character_append (c : Char) (s : String) :
    character c ++ Text.Utf8.encode s = Text.Utf8.encode (String.singleton c ++ s) := by
  simp [character, Text.Utf8.encode_eq]

/-- The pieces of a string that must be text are the encoding of a text. -/
private theorem exists_encode {ps : List Piece} {bs : List UInt8} (read : bytes? .checked ps = some bs) :
    ∃ text, Text.Utf8.encode text = bs := by
  fun_induction bytes? .checked ps generalizing bs with
  | case1 => exact ⟨"", by simpa [Text.Utf8.encode_eq] using read⟩
  | case4 | case7 => contradiction
  | case5 _ _ _ _ _ checked | case8 _ _ _ _ checked => exact absurd rfl checked
  | case2 | case3 | case6 | case9 => 
    rename_i ih
    obtain ⟨inner, found, rfl⟩ := Option.map_eq_some_iff.mp read
    obtain ⟨text, rfl⟩ := ih found
    exact ⟨_, (character_append _ text).symm⟩

/-- A string that must be text has the bytes of one. -/
theorem isValid_of_read? {document : String} {bs : List UInt8} (read : read? .checked document = some bs)
    (string : (skipSpace document.toList).head? = some '"') : Text.Utf8.isValid bs = true := by
  obtain ⟨rest, eq⟩ := List.head?_eq_some_iff.mp string
  unfold read? at read
  split at read
  · next result after value =>
    rw [eq, value?] at value
    obtain ⟨pair, -, value⟩ := Option.bind_eq_some_iff.mp value
    obtain ⟨inner, found, same⟩ := Option.bind_eq_some_iff.mp value
    obtain ⟨text, encodes⟩ := exists_encode found
    obtain rfl : inner = bs := by
      split at read
      · exact (Prod.mk.inj (Option.some.inj same)).1.trans (Option.some.inj read)
      · contradiction
    rw [Text.Utf8.isValid, Text.Utf8.decode?_eq_some_iff.mpr encodes, Option.isSome_some]
  · contradiction

private theorem pieces?_text {cs : List Char} (plain : ∀ c ∈ cs, c ≠ '"' ∧ c ≠ '\\' ∧ 0x20 ≤ c.toNat) :
    pieces? strings (cs ++ ['"']) = some (cs.map .plain, []) := by
  induction cs with
  | nil => rfl
  | cons c cs ih =>
    obtain ⟨quote, back, shown⟩ := plain c List.mem_cons_self
    have rest := ih fun d member => plain d (List.mem_cons_of_mem c member)
    simp [pieces?, back, Nat.not_lt.mpr shown, rest]

private theorem bytes?_text (cs : List Char) : bytes? strings (cs.map .plain) = some (Text.Utf8.encode (String.ofList cs)) := by
  induction cs with
  | nil => simp [bytes?, Text.Utf8.encode_eq]
  | cons c cs ih => simp [bytes?, ih, character, Text.Utf8.encode_eq]

/-- A text without quotes, backslashes and controls stands for its bytes as it is. -/
theorem read?_text (strings : Strings) {s : String} (plain : ∀ c ∈ s.toList, c ≠ '"' ∧ c ≠ '\\' ∧ 0x20 ≤ c.toNat) :
    read? strings ("\"" ++ s ++ "\"") = some (Text.Utf8.encode s) := by
  have quoted : ("\"" ++ s ++ "\"").toList = '"' :: (s.toList ++ ['"']) := by simp
  have value : value? strings ('"' :: (s.toList ++ ['"'])) = some (Text.Utf8.encode s, []) := by
    simp [value?, pieces?_text plain, bytes?_text]
  rw [read?, quoted, skipSpace_cons (by decide), value]
  rfl

end ByteFlow.Codec.Json
