import ByteFlow.Proofs.Number.Digits
import ByteFlow.Text.Quoted

/-! Quoted forms can be shown and are read in one way.
No character of a quoted form is one that a display could hide, and between the quotes each escape is known from its
beginning on, so that the form tells what was quoted and where it ends. -/
namespace ByteFlow.Text

namespace Unprintable

/-- The ranges come in increasing order, with a gap between any two of them. -/
theorem ranges_apart : (∀ r ∈ ranges.toList, r.1 ≤ r.2) ∧ ranges.toList.IsChain fun r s => r.2 + 1 < s.1 := by
  decide +kernel

theorem holds_iff {code : Nat} : holds code = true ↔ ∃ r ∈ ranges.toList, r.1 ≤ code ∧ code ≤ r.2 := by
  simp [holds, ← Array.any_toList]

private theorem ranges_around {r : Nat × Nat} (member : r ∈ ranges.toList) :
    r.2 < 0x20 ∨ 0x7f ≤ r.1 ∧ r.2 ≤ 0x10ffff := by
  have all : ∀ r ∈ ranges.toList, r.2 < 0x20 ∨ 0x7f ≤ r.1 ∧ r.2 ≤ 0x10ffff := by decide +kernel
  exact all r member

/-- Of the ASCII characters only the controls are shown by number. -/
theorem holds_ascii_iff {code : Nat} (ascii : code < 0x80) : holds code = true ↔ code < 0x20 ∨ code = 0x7f := by
  rw [holds_iff]
  constructor
  · rintro ⟨r, member, low, high⟩
    have around := ranges_around member
    omega
  · have listed : (0x0, 0x1f) ∈ ranges.toList ∧ (0x7f, 0xa0) ∈ ranges.toList := by decide +kernel
    rintro (control | rfl)
    · exact ⟨_, listed.1, Nat.zero_le code, Nat.le_of_lt_succ control⟩
    · exact ⟨_, listed.2, by decide, by decide⟩

end Unprintable

namespace Quoted
open Number.Integer

/-- ASCII without the controls. -/
def IsPlain (c : Char) : Prop := 0x20 ≤ c.toNat ∧ c.toNat ≤ 0x7e

instance (c : Char) : Decidable (IsPlain c) := inferInstanceAs (Decidable (_ ∧ _))

private theorem IsPlain.printable {c : Char} (plain : IsPlain c) : Unprintable.holds c.toNat = false := by
  obtain ⟨low, high⟩ := plain
  have ascii : c.toNat < 0x80 := by omega
  rw [Bool.eq_false_iff, Ne, Unprintable.holds_ascii_iff ascii]
  omega

/-- The value of a digit below 16. -/
def digitOf (c : Char) : Nat := (Byte.digitValue? (UInt8.ofNat c.toNat)).getD 0

/-- The number that hexadecimal digits write. -/
def valueOf (cs : List Char) : Nat := Nat.ofDigits 16 (cs.map digitOf).reverse

/-- What a letter after a backslash stands for; other characters stand for themselves. -/
def letterOf (c : Char) : Char :=
  ([('0', '\x00'), ('t', '\t'), ('n', '\n'), ('r', '\r')].lookup c).getD c

/-- The code of the character or byte that stands first between quotes, and what follows it. -/
def first? : List Char → Option (Nat × List Char)
  | [] => none
  | '\\' :: 'u' :: rest =>
    let number := (rest.drop 1).takeWhile (· != '\x7d')
    some (valueOf number, rest.drop (number.length + 2))
  | '\\' :: 'x' :: rest => some (valueOf (rest.take 2), rest.drop 2)
  | '\\' :: c :: rest => some ((letterOf c).toNat, rest)
  | c :: rest => some (c.toNat, rest)

/-! The digits of an escape -/

/-- The digit of a value below 16 is a plain character and tells the value. -/
private theorem digit_spec {d : Nat} (small : d < 16) :
    let c := Char.ofNat (Byte.digit d).toNat
    digitOf c = d ∧ IsPlain c ∧ c ≠ '\x7d' := by
  revert d
  decide +kernel

private theorem hexadecimal_eq (n : Nat) :
    hexadecimal n = (places 16 n).map fun d => Char.ofNat (Byte.digit d).toNat := by
  rw [hexadecimal, digits_eq_map (by decide), List.map_map]
  rfl

private theorem mem_hexadecimal {n : Nat} {c : Char} (member : c ∈ hexadecimal n) : IsPlain c ∧ c ≠ '\x7d' := by
  rw [hexadecimal_eq] at member
  obtain ⟨d, digit, rfl⟩ := List.mem_map.mp member
  exact (digit_spec (lt_of_mem_places (by decide) digit)).2

private theorem valueOf_hexadecimal (n : Nat) : valueOf (hexadecimal n) = n := by
  have same : (hexadecimal n).map digitOf = places 16 n := by
    rw [hexadecimal_eq, List.map_map]
    refine (List.map_congr_left fun d digit => ?_).trans (List.map_id (places 16 n))
    exact (digit_spec (lt_of_mem_places (by decide) digit)).1
  rw [valueOf, same, ofDigits_places]

/-! One escape -/

/-- `cs` is how the character or byte of a code stands between quotes, where `Shown` characters may stand for
themselves. -/
inductive Stands (quote : Char) (Shown : Char → Prop) : Nat → List Char → Prop
  | letter (c letter : Char) (plain : IsPlain letter) (apart : letter ≠ 'u' ∧ letter ≠ 'x')
      (names : letterOf letter = c) : Stands quote Shown c.toNat ['\\', letter]
  | numbered (c : Char) : Stands quote Shown c.toNat (numbered c)
  | paired {high low : Nat} (first : high < 16) (second : low < 16) :
      Stands quote Shown (16 * high + low)
        ['\\', 'x', Char.ofNat (Byte.digit high).toNat, Char.ofNat (Byte.digit low).toNat]
  | itself {c : Char} (unescaped : c ≠ '\\' ∧ c ≠ quote) (shown : Shown c) : Stands quote Shown c.toNat [c]

namespace Stands

variable {quote : Char} {Shown : Char → Prop} {code : Nat} {cs : List Char}

/-- An escape is known from its beginning on. -/
private theorem first?_eq (stands : Stands quote Shown code cs) (rest : List Char) : first? (cs ++ rest) = some (code, rest) := by
  cases stands with
  | letter c letter plain apart names => simp [first?, apart, names]
  | numbered c =>
    have digits : (hexadecimal c.toNat ++ '\x7d' :: rest).takeWhile (· != '\x7d') = hexadecimal c.toNat := by
      rw [List.takeWhile_append_of_pos fun c member => by simp [(mem_hexadecimal member).2]]
      simp
    simp only [Quoted.numbered, List.cons_append, List.append_assoc, List.nil_append, first?, List.drop_succ_cons,
      List.drop_zero, digits, valueOf_hexadecimal]
    simp
  | paired first second =>
    simp [first?, valueOf, (digit_spec first).1, (digit_spec second).1, Nat.ofDigits_cons]
    omega
  | itself unescaped shown => simp [first?, unescaped.1]

private theorem shown (stands : Stands quote Shown code cs) (plain : ∀ c, IsPlain c → Shown c) : ∀ c ∈ cs, Shown c := by
  have mark : Shown '\\' := plain _ (by decide)
  cases stands with
  | letter c letter shown => simp [mark, plain _ shown]
  | numbered c =>
    have opening : Shown 'u' ∧ Shown '\x7b' ∧ Shown '\x7d' := ⟨plain _ (by decide), plain _ (by decide), plain _ (by decide)⟩
    have digits : ∀ d ∈ hexadecimal c.toNat, Shown d := fun d member => plain d (mem_hexadecimal member).1
    simpa [Quoted.numbered, mark, opening, or_imp, forall_and] using digits
  | paired first second =>
    simp [mark, plain 'x' (by decide), plain _ (digit_spec first).2.1, plain _ (digit_spec second).2.1]
  | itself _ shown => simpa using shown

/-- No escape begins with the closing quote. -/
private theorem ne_quote (stands : Stands quote Shown code cs) (other : quote ≠ '\\') (rest after : List Char) :
    cs ++ rest ≠ quote :: after := by
  cases stands with
  | letter => simp [other.symm]
  | numbered c => simp [Quoted.numbered, other.symm]
  | paired => simp [other.symm]
  | itself unescaped => simp [unescaped.2]

end Stands

/-- The two kinds of quotes. -/
def IsQuote (quote : Char) : Prop := quote = '"' ∨ quote = '\''

private theorem stands_escape {quote : Char} (kind : IsQuote quote) (c : Char) :
    Stands quote (fun c => Unprintable.holds c.toNat = false) c.toNat (escape quote c) := by
  unfold escape
  split_ifs with zero tab feed back mark hidden
  · exact .letter c '0' (by decide) (by decide) zero.symm
  · exact .letter c 't' (by decide) (by decide) tab.symm
  · exact .letter c 'n' (by decide) (by decide) feed.symm
  · exact .letter c 'r' (by decide) (by decide) back.symm
  · -- The backslash and the quotes are no letters, so that each stands for itself.
    have self : letterOf c = c ∧ IsPlain c ∧ c ≠ 'u' ∧ c ≠ 'x' := by
      rcases mark with rfl | rfl
      · decide
      · rcases kind with rfl | rfl <;> decide
    exact .letter c c self.2.1 self.2.2 self.1
  · exact .numbered c
  · exact .itself (not_or.mp mark) (Bool.eq_false_iff.mpr hidden)

private theorem toNat_ofNat_byte (b : UInt8) : (Char.ofNat b.toNat).toNat = b.toNat := by
  have valid : b.toNat.isValidChar := .inl (by have := b.toNat_lt; omega)
  rw [Char.ofNat, dif_pos valid]
  rfl

private theorem stands_escapeByte (b : UInt8) : Stands '"' IsPlain b.toNat (escapeByte b) := by
  have code := toNat_ofNat_byte b
  unfold escapeByte
  dsimp only
  split_ifs with tab feed back mark plain
  · exact code ▸ .letter _ 't' (by decide) (by decide) tab.symm
  · exact code ▸ .letter _ 'n' (by decide) (by decide) feed.symm
  · exact code ▸ .letter _ 'r' (by decide) (by decide) back.symm
  · have self : letterOf (Char.ofNat b.toNat) = Char.ofNat b.toNat ∧ IsPlain (Char.ofNat b.toNat) ∧
        Char.ofNat b.toNat ≠ 'u' ∧ Char.ofNat b.toNat ≠ 'x' := by
      rcases mark with mark | mark | mark <;> rw [mark] <;> decide
    have stands : Stands '"' IsPlain _ _ := .letter _ _ self.2.1 self.2.2 self.1
    rwa [code] at stands
  · have shown : IsPlain (Char.ofNat b.toNat) := by
      unfold IsPlain
      rwa [code]
    have stands : Stands '"' IsPlain _ _ := .itself ⟨fun same => mark (.inl same), fun same => mark (.inr (.inr same))⟩ shown
    rwa [code] at stands
  · have high : b.toNat / 16 < 16 := Nat.div_lt_of_lt_mul b.toNat_lt
    have stands : Stands '"' IsPlain _ _ := .paired high (Nat.mod_lt b.toNat (by decide))
    rwa [Nat.div_add_mod] at stands

/-! Whole forms -/

private theorem forall_mem_flatMap {α : Type} {quote : Char} {Shown : Char → Prop} {key : α → Nat} {escape : α → List Char}
    (stands : ∀ a, Stands quote Shown (key a) (escape a)) (plain : ∀ c, IsPlain c → Shown c) (s : List α) :
    ∀ c ∈ s.flatMap escape, Shown c := by
  intro c member
  obtain ⟨a, -, inside⟩ := List.mem_flatMap.mp member
  exact (stands a).shown plain c inside

/-- What stands between quotes, and where the closing one is, can be read in one way. -/
private theorem flatMap_inj {α : Type} {quote : Char} {Shown : Char → Prop} {key : α → Nat} {escape : α → List Char}
    (stands : ∀ a, Stands quote Shown (key a) (escape a)) (told : Function.Injective key) (other : quote ≠ '\\')
    {s t : List α} {rest after : List Char}
    (same : s.flatMap escape ++ quote :: rest = t.flatMap escape ++ quote :: after) : s = t ∧ rest = after := by
  induction s generalizing t with
  | nil =>
    cases t with
    | nil => exact ⟨rfl, (List.cons.inj same).2⟩
    | cons b t =>
      rw [List.flatMap_cons, List.append_assoc] at same
      exact absurd same.symm ((stands b).ne_quote other _ _)
  | cons a s ih =>
    cases t with
    | nil =>
      rw [List.flatMap_cons, List.append_assoc] at same
      exact absurd same ((stands a).ne_quote other _ _)
    | cons b t =>
      -- The first escapes tell the same code and leave the same.
      rw [List.flatMap_cons, List.flatMap_cons, List.append_assoc, List.append_assoc] at same
      have read := congrArg first? same
      rw [(stands a).first?_eq, (stands b).first?_eq] at read
      obtain ⟨codes, inner⟩ := Prod.mk.inj (Option.some.inj read)
      obtain ⟨rfl, ends⟩ := ih inner
      exact ⟨congrArg (· :: s) (told codes), ends⟩

private theorem printable_between {quote : Char} (kind : IsQuote quote) {inner : List Char}
    (inside : ∀ c ∈ inner, Unprintable.holds c.toNat = false) :
    ∀ c ∈ quote :: inner ++ [quote], Unprintable.holds c.toNat = false := by
  have mark : Unprintable.holds quote.toNat = false := by rcases kind with rfl | rfl <;> exact IsPlain.printable (by decide)
  intro c member
  rcases List.mem_append.mp member with front | last
  · exact (List.mem_cons.mp front).elim (fun first => first ▸ mark) (inside c)
  · exact List.mem_singleton.mp last ▸ mark

/-- A display shows every character of a quoted text. -/
theorem text_printable (s : String) : ∀ c ∈ (text s).toList, Unprintable.holds c.toNat = false := by
  rw [text, String.toList_ofList]
  exact printable_between (.inl rfl) (forall_mem_flatMap (stands_escape (.inl rfl)) (fun c => IsPlain.printable) s.toList)

theorem character_printable (c : Char) : ∀ shown ∈ (character c).toList, Unprintable.holds shown.toNat = false := by
  rw [character, String.toList_ofList]
  exact printable_between (.inr rfl) ((stands_escape (.inr rfl) c).shown fun c => IsPlain.printable)

/-- Quoted bytes are ASCII without controls. -/
theorem bytes_plain (bs : List UInt8) : ∀ c ∈ (bytes bs).toList, IsPlain c := by
  have marks : IsPlain 'b' ∧ IsPlain '"' := by decide
  have inside := forall_mem_flatMap stands_escapeByte (fun _ plain => plain) bs
  simpa [bytes, or_imp, forall_and, marks] using inside

/-- A quoted text tells the text and where it ends, whatever follows. -/
theorem text_append_inj {s t rest after : String} (same : text s ++ rest = text t ++ after) : s = t ∧ rest = after := by
  have told : Function.Injective Char.toNat := fun _ _ => Char.toNat_inj.mp
  have inner := congrArg String.toList same
  simp only [text, String.toList_append, String.toList_ofList, List.cons_append, List.append_assoc, List.cons.injEq,
    List.nil_append, true_and] at inner
  obtain ⟨chars, ends⟩ := flatMap_inj (stands_escape (.inl rfl)) told (by decide) inner
  exact ⟨String.toList_inj.mp chars, String.toList_inj.mp ends⟩

/-- So do quoted bytes. -/
theorem bytes_append_inj {s t : List UInt8} {rest after : String} (same : bytes s ++ rest = bytes t ++ after) :
    s = t ∧ rest = after := by
  have told : Function.Injective UInt8.toNat := fun _ _ => UInt8.toNat_inj.mp
  have inner := congrArg String.toList same
  simp only [bytes, String.toList_append, String.toList_ofList, List.cons_append, List.append_assoc, List.cons.injEq,
    List.nil_append, true_and] at inner
  obtain ⟨codes, ends⟩ := flatMap_inj stands_escapeByte told (by decide) inner
  exact ⟨codes, String.toList_inj.mp ends⟩

theorem character_injective : Function.Injective character := by
  intro c d same
  have read := congrArg (fun s => first? (s.toList.drop 1)) same
  simp only [character, String.toList_ofList, List.cons_append, List.drop_succ_cons, List.drop_zero,
    (stands_escape (.inr rfl) _).first?_eq] at read
  exact Char.toNat_inj.mp (Prod.mk.inj (Option.some.inj read)).1

end Quoted
end ByteFlow.Text
