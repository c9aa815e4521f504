import ByteFlow.Config.Toml
import ByteFlow.Proofs.Config.Toml.Tree
import ByteFlow.Proofs.Text.Decimal
import Mathlib.Data.List.Nodup

/-! Texts of the plainest form are read as what they say.
A table whose entries stand one on a line, each a bare key with a number or a truth value, is read as those entries; so
parameters that are written to a text come back from it. -/
namespace ByteFlow.Config.Toml

/-- A number of 63 bits or a truth value. -/
def Value.IsSimple : Value → Prop
  | .integer n => 0 ≤ n ∧ n < 0x8000000000000000
  | .boolean _ => True
  | _ => False

/-- The token of such a value. -/
def Value.token : Value → List Char
  | .integer n => Nat.toDigits 10 n.toNat
  | .boolean b => if b then "true".toList else "false".toList
  | _ => []

/-- Letters, digits, underscores and hyphens. -/
def IsBareKey (key : String) : Prop := key.toList ≠ [] ∧ ∀ c ∈ key.toList, isBare c = true

instance (key : String) : Decidable (IsBareKey key) :=
  decidable_of_iff (key.toList.isEmpty = false ∧ key.toList.all isBare = true) (by simp [IsBareKey])

/-- The line of an entry. -/
def line (e : String × Value) : List Char := e.1.toList ++ ' ' :: '=' :: ' ' :: e.2.token ++ ['\n']

variable {rest : List Char}

/-! Tokens -/

/-- Two digits that are read leave digits up to the end of the line. -/
private theorem pair?_digits {ds : List Char} (digits : ∀ d ∈ ds, d.isDigit = true) (low high : Nat) {found : Nat × List Char}
    (read : pair? low high (ds ++ '\n' :: rest) = some found) :
    ∃ more, (∀ d ∈ more, d.isDigit = true) ∧ found.2 = more ++ '\n' :: rest := by
  match ds with
  | [] =>
    cases rest with
    | nil => simp [pair?] at read
    | cons c rest => simp [pair?, show '\n'.isDigit = false by decide] at read
  | [d] => simp [pair?, show '\n'.isDigit = false by decide] at read
  | d :: e :: more =>
    rw [List.cons_append, List.cons_append, pair?] at read
    obtain ⟨-, read⟩ := Option.ite_none_right_eq_some.mp read
    cases read
    exact ⟨more, fun d member => digits d (by simp [member]), rfl⟩

private theorem after?_digits {ds : List Char} (digits : ∀ d ∈ ds, d.isDigit = true) {mark : Char}
    (other : mark.isDigit = false ∧ mark ≠ '\n') : after? mark (ds ++ '\n' :: rest) = none := by
  cases ds with
  | nil => simp [after?, other.2.symm]
  | cons d ds =>
    have ne : d ≠ mark := by
      rintro rfl
      exact absurd (digits d List.mem_cons_self) (by simp [other.1])
    simp [after?, ne]

/-- Digits up to the end of the line are neither a day nor a time of day. -/
private theorem date?_digits {ds : List Char} (digits : ∀ d ∈ ds, d.isDigit = true) : date? (ds ++ '\n' :: rest) = none := by
  have time : time? (ds ++ '\n' :: rest) = none := by
    rw [time?, Option.bind_eq_bind, Option.bind_eq_none_iff]
    rintro ⟨n, r⟩ read
    obtain ⟨more, digits, rfl⟩ := pair?_digits digits _ _ read
    simp [after?_digits digits (show ':'.isDigit = false ∧ ':' ≠ '\n' by decide)]
  have day : day? (ds ++ '\n' :: rest) = none := by
    rw [day?, Option.bind_eq_bind, Option.bind_eq_none_iff]
    rintro ⟨century, r⟩ read
    obtain ⟨more, digits, rfl⟩ := pair?_digits digits _ _ read
    rw [Option.bind_eq_bind, Option.bind_eq_none_iff]
    rintro ⟨year, r⟩ read
    obtain ⟨more, digits, rfl⟩ := pair?_digits digits _ _ read
    simp [after?_digits digits (show '-'.isDigit = false ∧ '-' ≠ '\n' by decide)]
  rw [date?, day]
  exact time

private theorem ofDigits_eq {ds : List Char} (digits : ∀ d ∈ ds, d.isDigit = true) :
    ofDigits 10 ds = Nat.ofDigitChars 10 ds 0 := by
  refine List.foldl_ext _ _ 0 fun n d member => ?_
  have value : (Byte.digitValue? (UInt8.ofNat d.toNat)).getD 0 = d.toNat - '0'.toNat :=
    Text.forall_digitChar (digits d member) (by decide)
  rw [value]

private theorem decimal?_digits (n : Nat) : decimal? (Nat.toDigits 10 n) = some n := by
  have digits : ∀ d ∈ Nat.toDigits 10 n, d.isDigit = true := fun _ => Text.isDigit_of_mem_toDigits
  have unbroken : '_' ∉ Nat.toDigits 10 n := fun member => absurd (digits '_' member) (by decide)
  have all : digits? Char.isDigit (Nat.toDigits 10 n) = some (Nat.toDigits 10 n) := by
    simp [digits?, List.splitOn_eq_singleton unbroken, List.all_eq_true.mpr digits]
  have led : ¬ ((Nat.toDigits 10 n).head? = some '0' ∧ (Nat.toDigits 10 n).length ≠ 1) := by
    rintro ⟨zero, long⟩
    rw [Text.eq_zero_of_head?_toDigits zero] at long
    exact long rfl
  rw [decimal?, all, Option.bind_eq_bind, Option.bind_some, if_neg led, ofDigits_eq digits, Nat.ofDigitChars_ten_toDigits]

private theorem splitSign_digits {ds : List Char} (digits : ∀ d ∈ ds, d.isDigit = true) : splitSign ds = (false, ds) := by
  unfold splitSign
  split
  · exact absurd (digits '-' (by simp)) (by decide)
  · exact absurd (digits '+' (by simp)) (by decide)
  · rfl

/-- The sign and the digits of an integer come to its range check as one number, whatever the check is. -/
private theorem bind_unsigned {token : List Char} {n : Nat} (sign : splitSign token = (false, token))
    (decimal : decimal? token = some n) (check : Int → Option Int) :
    (match splitSign token with
      | (negative, rest) =>
        (do let n ← decimal? rest; pure (n : Int)).map (fun n => if negative then -n else n) >>= check) = check n := by
  simp [sign, decimal]

private theorem integer?_digits {n : Nat} (small : n < 0x8000000000000000) : integer? (Nat.toDigits 10 n) = some (n : Int) := by
  have digits : ∀ d ∈ Nat.toDigits 10 n, d.isDigit = true := fun _ => Text.isDigit_of_mem_toDigits
  have unsigned := bind_unsigned (splitSign_digits digits) (decimal?_digits n)
  have bounds : -0x8000000000000000 ≤ (n : Int) ∧ (n : Int) < 0x8000000000000000 := by omega
  unfold integer?
  split
  · next eq => exact absurd (digits 'x' (by simp [eq])) (by decide)
  · next eq => exact absurd (digits 'o' (by simp [eq])) (by decide)
  · next eq => exact absurd (digits 'b' (by simp [eq])) (by decide)
  · exact (unsigned _).trans (if_pos bounds)

private theorem scalarValue?_token {v : Value} (simple : v.IsSimple) :
    scalarValue? (v.token ++ '\n' :: rest) = some (v, '\n' :: rest) := by
  cases v with
  | integer n =>
    obtain ⟨n, rfl⟩ := Int.eq_ofNat_of_zero_le simple.1
    have digits : ∀ d ∈ Nat.toDigits 10 n, d.isDigit = true := fun _ => Text.isDigit_of_mem_toDigits
    have token : (Nat.toDigits 10 n ++ '\n' :: rest).takeWhile isToken = Nat.toDigits 10 n := by
      rw [List.takeWhile_append_of_pos fun d member => Text.forall_digitChar (digits d member) (by decide)]
      simp [show isToken '\n' = false by decide]
    have unlike : Nat.toDigits 10 n ≠ "true".toList ∧ Nat.toDigits 10 n ≠ "false".toList :=
      ⟨fun same => absurd (digits 't' (by rw [same]; decide)) (by decide),
        fun same => absurd (digits 'f' (by rw [same]; decide)) (by decide)⟩
    rw [Value.token, Int.toNat_natCast, scalarValue?, date?_digits digits]
    simp only [token, if_neg unlike.1, if_neg unlike.2, integer?_digits (Int.ofNat_lt.mp simple.2), List.drop_left]
  | boolean b =>
    cases b <;> rfl
  | _ => exact simple.elim

/-- A token begins with a letter or a digit. -/
private theorem token_begins {v : Value} (simple : v.IsSimple) : ∃ c cs, v.token = c :: cs ∧ c.isAlphanum = true := by
  cases v with
  | integer n =>
    obtain ⟨c, cs, eq⟩ := List.exists_cons_of_ne_nil (show Nat.toDigits 10 n.toNat ≠ [] by simp)
    have digit : c.isDigit = true := Text.isDigit_of_mem_toDigits (eq ▸ List.mem_cons_self)
    exact ⟨c, cs, eq, by rw [Char.isAlphanum, digit, Bool.or_true]⟩
  | boolean b => cases b <;> exact ⟨_, _, rfl, by decide⟩
  | _ => exact simple.elim

private theorem value?_token {v : Value} (simple : v.IsSimple) (fuel depth : Nat) :
    value? (fuel + 1) depth (v.token ++ '\n' :: rest) = some (v, '\n' :: rest) := by
  obtain ⟨c, cs, eq, letter⟩ := token_begins simple
  have scalar : scalarValue? (v.token ++ '\n' :: rest) = _ := scalarValue?_token simple
  rw [eq, List.cons_append] at scalar ⊢
  have other (mark : Char) (sign : mark.isAlphanum = false) : c ≠ mark := by
    rintro rfl
    rw [letter] at sign
    contradiction
  rw [value?, List.head?_cons, if_neg, if_neg, scalar]
  · exact fun same => other '\x7b' (by decide) (Option.some.inj same)
  · exact fun same => other '[' (by decide) (Option.some.inj same)
  all_goals
    intro after same
    first
      | exact other '"' (by decide) (List.cons.inj same).1
      | exact other '\'' (by decide) (List.cons.inj same).1

/-! Lines -/

private theorem isBare_ne {c mark : Char} (bare : isBare c = true) (sign : isBare mark = false) : c ≠ mark := by
  rintro rfl
  rw [bare] at sign
  contradiction

private theorem skipSpace_cons {c : Char} (inked : isSpace c = false) (rest : List Char) :
    skipSpace (c :: rest) = c :: rest := by
  simp [skipSpace, inked]

private theorem isSpace_of_isBare {c : Char} (bare : isBare c = true) : isSpace c = false := by
  rw [isSpace, Bool.or_eq_false_iff, beq_eq_false_iff_ne, beq_eq_false_iff_ne]
  exact ⟨isBare_ne bare (by decide), isBare_ne bare (by decide)⟩

/-- A bare key is read up to where it ends, blanks behind it left out. -/
private theorem path?_key {key : String} (bare : IsBareKey key) {after behind : List Char} {mark : Char}
    (ends : ∀ c ∈ after.head?, isBare c = false) (next : skipSpace after = mark :: behind) (last : mark ≠ '.') :
    path? depthLimit (key.toList ++ after) = some ([key], mark :: behind) := by
  obtain ⟨filled, all⟩ := bare
  obtain ⟨c, cs, eq⟩ := List.exists_cons_of_ne_nil filled
  have first : isBare c = true := all c (by simp [eq])
  have name : (key.toList ++ after).takeWhile isBare = key.toList := by
    rw [List.takeWhile_append_of_pos all]
    cases after with
    | nil => simp
    | cons d after => simp [ends d rfl]
  have simple : simpleKey? (key.toList ++ after) = some (key, after) := by
    rw [eq, List.cons_append] at name ⊢
    rw [simpleKey?, name]
    · rw [← List.cons_append, ← eq]
      simp [filled]
    · exact fun rest same => isBare_ne first (by decide) (List.cons.inj same).1
    · exact fun rest same => isBare_ne first (by decide) (List.cons.inj same).1
  have start : skipSpace (key.toList ++ after) = key.toList ++ after := by
    rw [eq]
    exact skipSpace_cons (isSpace_of_isBare first) _
  rw [depthLimit, path?, start, simple]
  · simp only [Option.bind_eq_bind, Option.bind_some, next]
    split
    · next same => exact absurd (List.cons.inj same).1 last
    · rfl
  · nofun

/-- A line gives its entry to the table at hand. -/
private theorem lines?_line {e : String × Value} (bare : IsBareKey e.1) (simple : e.2.IsSimple) (fuel : Nat) (here : List String)
    (root : Entries) (rest : List Char) :
    lines? (fuel + 1) here root (line e ++ rest) =
      (atTable (assign e.2 true [e.1]) here root).bind fun root => lines? fuel here root rest := by
  obtain ⟨c, cs, eq⟩ := List.exists_cons_of_ne_nil bare.1
  have first : isBare c = true := bare.2 c (by simp [eq])
  have path : path? depthLimit (e.1.toList ++ ' ' :: '=' :: (' ' :: e.2.token ++ '\n' :: rest)) =
      some ([e.1], '=' :: (' ' :: e.2.token ++ '\n' :: rest)) :=
    path?_key bare (by simp [isBare]) (by simp [skipSpace, isSpace]) (by decide)
  have value (fuel depth : Nat) : value? (fuel + 1) depth (e.2.token ++ '\n' :: rest) = _ := value?_token simple fuel depth
  have text : line e ++ rest = e.1.toList ++ ' ' :: '=' :: (' ' :: e.2.token ++ '\n' :: rest) := by simp [line]
  rw [text]
  rw [eq, List.cons_append] at path ⊢
  have unended : endLine? (c :: (cs ++ ' ' :: '=' :: (' ' :: e.2.token ++ '\n' :: rest))) = none := by
    rw [endLine?, skipSpace_cons (isSpace_of_isBare first)]
    split
    · next same => exact absurd (List.cons.inj same).1 (isBare_ne first (by decide))
    · unfold newline?
      split
      · contradiction
      · next same => exact absurd (List.cons.inj same).1 (isBare_ne first (by decide))
      · next same => exact absurd (List.cons.inj same).1 (isBare_ne first (by decide))
      · rfl
  have start : skipSpace (' ' :: e.2.token ++ '\n' :: rest) = e.2.token ++ '\n' :: rest := by
    obtain ⟨d, ds, eq, letter⟩ := token_begins simple
    have inked : isSpace d = false := isSpace_of_isBare (by rw [isBare, letter, Bool.true_or, Bool.true_or])
    rw [eq]
    simp [skipSpace, inked, show isSpace ' ' = true by decide]
  have ended : endLine? ('\n' :: rest) = some rest := rfl
  rw [lines?, skipSpace_cons (isSpace_of_isBare first)]
  split
  · contradiction
  · next same => exact absurd (List.cons.inj same).1 (isBare_ne first (by decide))
  · next same => exact absurd (List.cons.inj same).1 (isBare_ne first (by decide))
  · rw [unended, path]
    simp only [Option.bind_eq_bind, Option.bind_some, start, value, ended]

private theorem put_new {key : String} {entries : Entries} (new : key ∉ entries.map Prod.fst) (v : Value) :
    put key v entries = entries ++ [(key, v)] := by
  induction entries with
  | nil => rfl
  | cons e entries ih =>
    rw [List.map_cons, List.mem_cons, not_or] at new
    rw [put, if_neg (Ne.symm new.1), ih new.2, List.cons_append]

/-- Entries on lines of their own go to the table that the header opened, in their order. -/
private theorem lines?_written {entries : Entries} (plain : ∀ e ∈ entries, IsBareKey e.1 ∧ e.2.IsSimple) {read : Entries}
    (distinct : ((read ++ entries).map Prod.fst).Nodup) {fuel : Nat} (enough : entries.length < fuel) (name : String) :
    lines? fuel [name] [(name, .table .header read)] (entries.flatMap line) =
      some [(name, .table .header (read ++ entries))] := by
  induction entries generalizing read fuel with
  | nil =>
    obtain ⟨fuel, rfl⟩ := Nat.exists_eq_add_one_of_ne_zero (Nat.ne_of_gt enough)
    rw [List.flatMap_nil, lines?, List.append_nil]
    rfl
  | cons e entries ih =>
    obtain ⟨fuel, rfl⟩ := Nat.exists_eq_add_one_of_ne_zero (Nat.ne_of_gt (Nat.zero_lt_of_lt enough))
    obtain ⟨bare, simple⟩ := plain e List.mem_cons_self
    have new : e.1 ∉ read.map Prod.fst := by
      rw [List.map_append, List.map_cons, List.nodup_middle, List.nodup_cons, List.mem_append, not_or] at distinct
      exact distinct.1.1
    have unset : read.lookup e.1 = none := by
      rw [List.lookup_eq_none_iff]
      intro entry member
      have apart : e.1 ≠ entry.1 := fun same => new (same ▸ List.mem_map_of_mem member)
      simpa using apart
    have added : atTable (assign e.2 true [e.1]) [name] [(name, .table .header read)] =
        some [(name, .table .header (read ++ [e]))] := by
      simp [atTable, assign, unset, put_new new, put]
    rw [List.flatMap_cons, lines?_line bare simple, added, Option.bind_some,
      ih (fun entry member => plain entry (List.mem_cons_of_mem e member)) _ (Nat.lt_of_succ_lt_succ enough)]
    · simp
    · simpa using distinct

/-- A table of plain entries after its header. -/
def written (name : String) (entries : Entries) : String :=
  String.ofList ('[' :: (name.toList ++ ']' :: '\n' :: entries.flatMap line))

private theorem length_le_lines (entries : Entries) : entries.length ≤ (entries.flatMap line).length := by
  induction entries with
  | nil => exact Nat.zero_le _
  | cons e entries ih =>
    have some : 0 < (line e).length := by simp [line]
    rw [List.flatMap_cons, List.length_append, List.length_cons]
    omega

/-- A table of plain entries is read as those entries. -/
theorem parse?_written {name : String} (bare : IsBareKey name) {entries : Entries}
    (plain : ∀ e ∈ entries, IsBareKey e.1 ∧ e.2.IsSimple) (distinct : (entries.map Prod.fst).Nodup) :
    parse? (written name entries) = some [(name, .table .header entries)] := by
  obtain ⟨c, cs, eq⟩ := List.exists_cons_of_ne_nil bare.1
  have first : isBare c = true := bare.2 c (by simp [eq])
  have path : path? depthLimit (name.toList ++ ']' :: '\n' :: entries.flatMap line) =
      some ([name], ']' :: '\n' :: entries.flatMap line) :=
    path?_key bare (by simp [isBare]) (by simp [skipSpace, isSpace]) (by decide)
  have header : header? [']'] (name.toList ++ ']' :: '\n' :: entries.flatMap line) = some ([name], entries.flatMap line) := by
    rw [header?, path]
    rfl
  have opened : openTable openHeader [name] [] = some [(name, .table .header [])] := rfl
  have text : (written name entries).toList = '[' :: (name.toList ++ ']' :: '\n' :: entries.flatMap line) := String.toList_ofList
  have enough : entries.length < (written name entries).length + 1 := by
    have lines := length_le_lines entries
    rw [← String.length_toList, text, List.length_cons, List.length_append, List.length_cons, List.length_cons]
    omega
  have body := lines?_written plain (show (([] ++ entries).map Prod.fst).Nodup from distinct) enough name
  have unmarked (cs : List Char) : dropMark ('[' :: cs) = '[' :: cs := rfl
  rw [parse?, text, unmarked]
  generalize (written name entries).length = fuel at body ⊢
  rw [eq, List.cons_append] at header ⊢
  rw [lines?, skipSpace_cons (by decide)]
  split
  · next same => exact absurd same (List.cons_ne_nil _ _)
  · next same => exact absurd (List.cons.inj (List.cons.inj same).2).1 (isBare_ne first (by decide))
  · next same =>
    rw [← (List.cons.inj same).2, header]
    simp only [Option.bind_eq_bind, Option.bind_some, opened, body, List.nil_append]
  · next single => exact absurd rfl (single _)

/-! Parameters -/

/-- The entries of the parameters that are given. -/
def Given.entries (g : Given) : Entries :=
  (g.bufferSize.map fun n : Nat => ("buffer_size", Value.integer n)).toList ++
    (g.chunkSize.map fun n : Nat => ("chunk_size", Value.integer n)).toList ++
    (g.writeChunkSize.map fun n : Nat => ("write_chunk_size", Value.integer n)).toList ++
    (g.crlfOnWrite.map fun b => ("crlf_on_write", Value.boolean b)).toList

private theorem Given.entries_plain {g : Given}
    (small : ∀ size ∈ [g.bufferSize, g.chunkSize, g.writeChunkSize], ∀ n ∈ size, n < 0x8000000000000000) :
    ∀ e ∈ g.entries, IsBareKey e.1 ∧ e.2.IsSimple := by
  have simple (n : Nat) (bound : n < 0x8000000000000000) : Value.IsSimple (.integer n) := by
    rw [Value.IsSimple]
    omega
  intro e member
  simp only [entries, List.mem_append, Option.mem_toList, Option.map_eq_some_iff] at member
  rcases member with ((⟨n, size, rfl⟩ | ⟨n, size, rfl⟩) | ⟨n, size, rfl⟩) | ⟨b, -, rfl⟩
  · exact ⟨show IsBareKey "buffer_size" by decide, simple n (small g.bufferSize (by simp) n size)⟩
  · exact ⟨show IsBareKey "chunk_size" by decide, simple n (small g.chunkSize (by simp) n size)⟩
  · exact ⟨show IsBareKey "write_chunk_size" by decide, simple n (small g.writeChunkSize (by simp) n size)⟩
  · exact ⟨show IsBareKey "crlf_on_write" by decide, trivial⟩

/-- Parameters that are written to a text come back from it. -/
theorem given?_written {g : Given}
    (small : ∀ size ∈ [g.bufferSize, g.chunkSize, g.writeChunkSize], ∀ n ∈ size, n < 0x8000000000000000) :
    given? (written "device" g.entries) = some g := by
  have plain := Given.entries_plain small
  obtain ⟨a, b, c, d⟩ := g
  have distinct : ((Given.mk a b c d).entries.map Prod.fst).Nodup := by
    cases a <;> cases b <;> cases c <;> cases d <;> simp [Given.entries]
  rw [given?, parse?_written (by decide) plain distinct]
  -- What is given and what is not is the same in the entries, field by field.
  cases a <;> cases b <;> cases c <;> cases d <;>
    simp [Given.entries, Given.ofValue?, Given.ofEntries?, entry?, Value.size?, Value.flag?, List.lookup_cons]

end ByteFlow.Config.Toml
