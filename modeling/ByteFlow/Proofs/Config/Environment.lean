import ByteFlow.Config.Environment
import ByteFlow.Config.Toml
import ByteFlow.Proofs.Text.Decimal
import Mathlib.Data.List.TakeWhile

/-! Where parameters come from, and what wins.
A configuration text and the environment both lay values over parameters: which they set does not depend on what the
parameters were before, so that the later layer wins field by field. -/
namespace ByteFlow.Config

variable {env : Environment} {c : Config}

/-! A device's own parameters -/

/-- The parameters of a device are usable ones, and usable ones stay as they are. -/
theorem normalize_eq_self_iff : c.normalize = c ↔ 1 ≤ c.bufferSize := by
  obtain ⟨bufferSize, chunkSize, writeChunkSize, crlfOnWrite⟩ := c
  simp only [normalize, Config.mk.injEq, and_true]
  omega

theorem one_le_normalize (c : Config) : 1 ≤ c.normalize.bufferSize := Nat.le_max_left ..

theorem normalize_normalize (c : Config) : c.normalize.normalize = c.normalize :=
  normalize_eq_self_iff.mpr (one_le_normalize c)

/-! Sizes as text -/

/-- `text` is decimal digits after an optional plus sign, and `n` is the number they write. -/
def Writes (n : Nat) (text : List Char) : Prop :=
  ∃ digits, digits ≠ [] ∧ (∀ d ∈ digits, d.isDigit = true) ∧ Nat.ofDigitChars 10 digits 0 = n ∧
    (text = digits ∨ text = '+' :: digits)

private theorem readDigits_eq_some_iff {digits : List Char} {n : Nat} :
    (if digits.isEmpty || !digits.all Char.isDigit then none
      else
        let n := digits.foldl (fun n c => 10 * n + (c.toNat - 0x30)) 0
        if n ≤ Word.maxValue then some n else none) = some n ↔
      (digits ≠ [] ∧ (∀ d ∈ digits, d.isDigit = true) ∧ Nat.ofDigitChars 10 digits 0 = n) ∧ n ≤ Word.maxValue := by
  have value : digits.foldl (fun n c => 10 * n + (c.toNat - 0x30)) 0 = Nat.ofDigitChars 10 digits 0 := rfl
  rw [value]
  split_ifs with refused
  · have none : ¬ (digits ≠ [] ∧ ∀ d ∈ digits, d.isDigit = true) := by
      rintro ⟨filled, all⟩
      simp [filled, List.all_eq_true.mpr all] at refused
    exact ⟨nofun, fun ⟨⟨filled, all, _⟩, _⟩ => absurd ⟨filled, all⟩ none⟩
  · have digital : digits ≠ [] ∧ ∀ d ∈ digits, d.isDigit = true := by simpa using refused
    rw [Option.ite_none_right_eq_some, Option.some.injEq, and_iff_right digital.1, and_iff_right digital.2]
    exact ⟨fun ⟨small, eq⟩ => ⟨eq, eq ▸ small⟩, fun ⟨eq, small⟩ => ⟨eq ▸ small, eq⟩⟩

/-- A size is a number of 64 bits, written in decimal with blanks around. -/
theorem size?_eq_some_iff {value : String} {n : Nat} :
    size? value = some n ↔ Writes n (Text.trimChars value.toList) ∧ n ≤ Word.maxValue := by
  rw [size?]
  generalize Text.trimChars value.toList = trimmed
  dsimp only
  rw [readDigits_eq_some_iff]
  refine and_congr_left fun _ => ⟨fun ⟨filled, all, value⟩ => ⟨_, filled, all, value, ?_⟩, ?_⟩
  · split_ifs with signed
    · obtain ⟨rest, rfl⟩ := List.head?_eq_some_iff.mp signed
      exact .inr rfl
    · exact .inl rfl
  · rintro ⟨digits, filled, all, value, rfl | rfl⟩
    · have unsigned : trimmed.head? ≠ some '+' := by
        intro signed
        obtain ⟨rest, rfl⟩ := List.head?_eq_some_iff.mp signed
        exact absurd (all '+' List.mem_cons_self) (by decide)
      rw [if_neg unsigned]
      exact ⟨filled, all, value⟩
    · exact ⟨filled, all, value⟩

private theorem dropWhile_isBlank {front rest : List Char} (before : ∀ c ∈ front, Text.isBlank c = true)
    (inked : ∀ c ∈ rest.head?, Text.isBlank c = false) : (front ++ rest).dropWhile Text.isBlank = rest := by
  rw [List.dropWhile_append_of_pos before]
  cases rest with
  | nil => rfl
  | cons c rest => rw [List.dropWhile_cons_of_neg (by simp [inked c rfl])]

/-- A written size reads back, with blanks around it. -/
theorem size?_digits {n : Nat} (small : n ≤ Word.maxValue) {front back : List Char}
    (before : ∀ c ∈ front, Text.isBlank c = true) (after : ∀ c ∈ back, Text.isBlank c = true) :
    size? (String.ofList (front ++ Nat.toDigits 10 n ++ back)) = some n := by
  have filled : Nat.toDigits 10 n ≠ [] := by simp
  have digits (c : Char) (member : c ∈ Nat.toDigits 10 n) : c.isDigit = true := Text.isDigit_of_mem_toDigits member
  have inked (c : Char) (member : c ∈ Nat.toDigits 10 n) : Text.isBlank c = false :=
    Text.forall_digitChar (digits c member) (by decide)
  have trimmed : Text.trimChars (front ++ Nat.toDigits 10 n ++ back) = Nat.toDigits 10 n := by
    rw [Text.trimChars, List.append_assoc, dropWhile_isBlank before, List.reverse_append,
      dropWhile_isBlank (by simpa using after), List.reverse_reverse]
    · exact fun c last => inked c (List.mem_reverse.mp (List.mem_of_mem_head? last))
    · obtain ⟨d, ds, eq⟩ := List.exists_cons_of_ne_nil filled
      rw [eq] at inked ⊢
      rintro _ ⟨⟩
      exact inked d List.mem_cons_self
  rw [size?_eq_some_iff, String.toList_ofList, trimmed]
  exact ⟨⟨_, filled, digits, Nat.ofDigitChars_ten_toDigits, .inl rfl⟩, small⟩

/-! Layers -/

namespace Toml.Given

/-- Sets nothing. -/
def nothing : Given := ⟨none, none, none, none⟩

/-- What comes of laying `g` over `under`. -/
def atop (g under : Given) : Given :=
  ⟨g.bufferSize.or under.bufferSize, g.chunkSize.or under.chunkSize, g.writeChunkSize.or under.writeChunkSize,
    g.crlfOnWrite.or under.crlfOnWrite⟩

/-- Of two layers the upper one wins where it says something. -/
theorem apply_apply (g under : Given) (c : Config) : g.apply (under.apply c) = (g.atop under).apply c := by
  have field {α : Type} (a b : Option α) (x : α) : a.getD (b.getD x) = (a.or b).getD x := by cases a <;> rfl
  simp only [apply, atop, field]

theorem atop_self (g : Given) : g.atop g = g := by
  have field {α : Type} (a : Option α) : a.or a = a := by cases a <;> rfl
  simp only [atop, field]

/-- A layer laid twice is laid once. -/
theorem apply_idempotent (g : Given) (c : Config) : g.apply (g.apply c) = g.apply c := by
  rw [apply_apply, atop_self]

end Toml.Given

open Toml (Given)

/-! Variables -/

/-- The text that a variable is set to. -/
def Environment.text? (env : Environment) (name : String) : Option String := (env name).bind Text.Utf8.decode?

/-- A variable's value is refused whatever the parameters, or lays the same values over all of them. -/
def Variable.Lays (v : Variable) : Prop :=
  ∀ value, (∀ c, v.set? value c = none) ∨ ∃ g : Given, ∀ c, v.set? value c = some (g.apply c)

/-- What is wrong with a variable, if it is set and its value is refused. -/
def Variable.refusal? (env : Environment) (v : Variable) : Option Malformed :=
  (env.text? v.name).bind fun value =>
    if (v.set? value initial).isSome then none else some ⟨v.name, v.expected, value⟩

/-- The parameters with what one variable says. -/
def Variable.taken (env : Environment) (v : Variable) (c : Config) : Config :=
  ((env.text? v.name).bind fun value => v.set? value c).getD c

private theorem lays_allVariables : ∀ v ∈ allVariables, v.Lays := by
  have lays {α : Type} (name expected : String) (read : String → Option α) (layer : α → Given) :
      Variable.Lays ⟨name, expected, fun s c => (read s).map fun a => (layer a).apply c⟩ := by
    intro value
    cases found : read value with
    | none => exact .inl fun c => by simp [found]
    | some a => exact .inr ⟨layer a, fun c => by simp [found]⟩
  intro v member
  simp only [allVariables, List.mem_cons, List.not_mem_nil, or_false] at member
  rcases member with rfl | rfl | rfl | rfl
  · exact lays _ _ size? fun n => { Given.nothing with bufferSize := some n }
  · exact lays _ _ size? fun n => { Given.nothing with chunkSize := some n }
  · exact lays _ _ size? fun n => { Given.nothing with writeChunkSize := some n }
  · exact lays _ _ flag? fun b => { Given.nothing with crlfOnWrite := some b }

/-- One variable: it is refused and ends the run, or it lays a layer and the run goes on. -/
private theorem applyVariables_cons {v : Variable} (lays : v.Lays) (env : Environment) (vs : List Variable) :
    (∃ m, v.refusal? env = some m ∧ ∀ c, applyVariables env c (v :: vs) = (some m, c)) ∨
      v.refusal? env = none ∧ ∃ g : Given, ∀ c, v.taken env c = g.apply c ∧
        applyVariables env c (v :: vs) = applyVariables env (v.taken env c) vs := by
  cases value : env.text? v.name with
  | none =>
    refine .inr ⟨by simp [Variable.refusal?, value], .nothing, fun c => ?_⟩
    have same : v.taken env c = c := by simp [Variable.taken, value]
    rw [Environment.text?] at value
    rw [applyVariables, value, same]
    exact ⟨rfl, rfl⟩
  | some text =>
    have set := value
    rw [Environment.text?] at set
    rcases lays text with refused | ⟨g, layer⟩
    · refine .inl ⟨⟨v.name, v.expected, text⟩, by simp [Variable.refusal?, value, refused], fun c => ?_⟩
      rw [applyVariables, set]
      simp [refused]
    · have same (c : Config) : v.taken env c = g.apply c := by simp [Variable.taken, value, layer]
      refine .inr ⟨by simp [Variable.refusal?, value, layer], g, fun c => ⟨same c, ?_⟩⟩
      rw [applyVariables, set, same]
      simp [layer]

/-- The first refusal is reported, and the variables before it, no others, are taken. -/
private theorem applyVariables_eq {vs : List Variable} (lays : ∀ v ∈ vs, v.Lays) (env : Environment) (c : Config) :
    applyVariables env c vs =
      (vs.findSome? (·.refusal? env),
        (vs.takeWhile fun v => (v.refusal? env).isNone).foldl (fun c v => v.taken env c) c) := by
  induction vs generalizing c with
  | nil => rfl
  | cons v vs ih =>
    rcases applyVariables_cons (lays v List.mem_cons_self) env vs with ⟨m, refused, ends⟩ | ⟨accepted, g, goes⟩
    · rw [ends]
      simp [refused]
    · rw [(goes c).2, ih fun w member => lays w (List.mem_cons_of_mem v member)]
      simp [accepted]

/-- Variables lay one layer over the parameters, whatever these are. -/
private theorem exists_layer {vs : List Variable} (lays : ∀ v ∈ vs, v.Lays) (env : Environment) :
    ∃ m, ∃ g : Given, ∀ c, applyVariables env c vs = (m, g.apply c) := by
  induction vs with
  | nil => exact ⟨none, .nothing, fun _ => rfl⟩
  | cons v vs ih =>
    obtain ⟨m, g, rest⟩ := ih fun w member => lays w (List.mem_cons_of_mem v member)
    rcases applyVariables_cons (lays v List.mem_cons_self) env vs with ⟨m, -, ends⟩ | ⟨-, layer, goes⟩
    · exact ⟨some m, .nothing, ends⟩
    · exact ⟨m, g.atop layer, fun c => by rw [(goes c).2, rest, (goes c).1, Given.apply_apply]⟩

/-- The environment lays one layer over the parameters and is malformed or not, whatever the parameters are. -/
theorem environment_layer (env : Environment) : ∃ m, ∃ g : Given, ∀ c, applyEnvironment env c = (m, g.apply c) :=
  exists_layer lays_allVariables env

/-- It wins over a configuration text, field by field. -/
theorem environment_atop_text (env : Environment) :
    ∃ m, ∃ g : Given, ∀ (text : Given) (c : Config), applyEnvironment env (text.apply c) = (m, (g.atop text).apply c) := by
  obtain ⟨m, g, layer⟩ := environment_layer env
  exact ⟨m, g, fun text c => by rw [layer, Given.apply_apply]⟩

theorem applyEnvironment_idempotent (env : Environment) (c : Config) :
    applyEnvironment env (applyEnvironment env c).2 = applyEnvironment env c := by
  obtain ⟨m, g, layer⟩ := environment_layer env
  rw [layer, layer, Given.apply_idempotent]

/-- The first malformed variable is reported, and what came before it stays. -/
theorem applyEnvironment_eq (env : Environment) (c : Config) :
    applyEnvironment env c =
      (allVariables.findSome? (·.refusal? env),
        (allVariables.takeWhile fun v => (v.refusal? env).isNone).foldl (fun c v => v.taken env c) c) :=
  applyVariables_eq lays_allVariables env c

/-- If no variable is malformed, each field has the value that its variable gives, or the one it had. -/
theorem applyEnvironment_fields (accepted : ∀ v ∈ allVariables, v.refusal? env = none) (c : Config) :
    applyEnvironment env c =
      (none,
        ⟨((env.text? "IOCORE_BUFFER_SIZE").bind size?).getD c.bufferSize,
          ((env.text? "IOCORE_CHUNK_SIZE").bind size?).getD c.chunkSize,
          ((env.text? "IOCORE_WRITE_CHUNK_SIZE").bind size?).getD c.writeChunkSize,
          ((env.text? "IOCORE_CRLF_ON_WRITE").bind flag?).getD c.crlfOnWrite⟩) := by
  have none : allVariables.findSome? (·.refusal? env) = none := List.findSome?_eq_none_iff.mpr accepted
  have all : allVariables.takeWhile (fun v => (v.refusal? env).isNone) = allVariables :=
    List.takeWhile_eq_self_iff.mpr fun v member => by simp [accepted v member]
  have taken {α : Type} (name expected : String) (read : String → Option α) (put : α → Config → Config) (c : Config) :
      Variable.taken env ⟨name, expected, fun s c => (read s).map fun a => put a c⟩ c =
        (((env.text? name).bind read).map fun a => put a c).getD c := by
    rw [Variable.taken, Option.map_bind]
    rfl
  rw [applyEnvironment_eq, none, all]
  simp only [allVariables, List.foldl_cons, List.foldl_nil, taken]
  -- Each variable's text is read once more, to nothing or to a value for its own field.
  cases (env.text? "IOCORE_BUFFER_SIZE").bind size? <;> cases (env.text? "IOCORE_CHUNK_SIZE").bind size? <;>
    cases (env.text? "IOCORE_WRITE_CHUNK_SIZE").bind size? <;> cases (env.text? "IOCORE_CRLF_ON_WRITE").bind flag? <;> rfl

end ByteFlow.Config
