import ByteFlow.Proofs.Device.Lines
import ByteFlow.Proofs.Text.Utf8
import Mathlib.Data.List.Forall2

/-! Iterating over a text gives its lines without their line ends, each as text or as the error of a line that is
none, and then ends. Text mode takes away what an iteration takes away as well, so that two carriage returns go. -/
namespace ByteFlow.Device
open Medium Newline Text

/-- What an iteration may give for a line without its line end: its text, or that it is none. -/
def Spells (body : List UInt8) : Except IoError String → Prop
  | .ok text => Utf8.encode text = body
  | .error e => e.kind = .invalidData ∧ ∀ text, Utf8.encode text ≠ body

def itemOf (body : List UInt8) : Except IoError String :=
  match Utf8.decode? body with
  | some text => .ok text
  | none => .error notText

/-- What an iteration gives for a line of the raw text. -/
def lineItem (text : Bool) (line : List UInt8) : Except IoError String := itemOf (chomp (shown text line))

variable {σ : Type} [Medium σ]

/-- Iterating gives these items, and then ends at a position. -/
structure Iterates (d : Device σ) (items : List (Except IoError String)) (stop : Nat) : Prop where
  gives : ∀ n, (d.lines n).1 = items.take n
  ends : ∀ n, items.length ≤ n → (d.lines n).2.pos = stop ∧ (d.lines n).2.nextLine.1 = none

/-- Whatever device has these bytes to come from position 0 on, over a pipe that gives bytes when it has some or over
memory, opened for reading with text mode on or off, iterating gives these items, and it ends behind the last byte. -/
def GivesLines (text : Bool) (data : List UInt8) (items : List (Except IoError String)) : Prop :=
  ∀ unbuffered,
    (∀ (config : Config) (d : Device Pipe), config.bufferSize < Word.requestLimit → Reached config d →
      d.mode = .forReading false text unbuffered → d.medium.readLimit ≠ some 0 → d.pos = 0 → d.stream = data →
      d.Iterates items data.length) ∧
    ∀ d : Device Medium.Memory, InUse d 0 → d.mode = .forReading false text unbuffered → d.pos = 0 →
      d.medium.data.content = data → d.Iterates items data.length

/-! Items -/

variable {line body : List UInt8}

private theorem itemOf_spells (body : List UInt8) : Spells body (itemOf body) := by
  unfold itemOf
  cases decoded : Utf8.decode? body with
  | some text => exact Utf8.decode?_eq_some_iff.mp decoded
  | none => exact ⟨rfl, Utf8.decode?_eq_none_iff.mp decoded⟩

private theorem lines_shown (text : Bool) (s : List UInt8) :
    Newline.lines (shown text s) = (Newline.lines s).map (shown text) := by
  cases text with
  | false => exact (List.map_id _).symm
  | true => exact lines_normalize s

/-- Text mode costs a line the last carriage return of its body, if it stands before a line end with its own. -/
private theorem chomp_shown (one : OneLine line) :
    chomp (shown true line) = if Doubled line then (chomp line).dropLast else chomp line := one.chomp_normalize

private theorem itemOf_eq_iff {a b : List UInt8} (other : a ≠ b) :
    itemOf a = itemOf b ↔ (∀ text, Utf8.encode text ≠ a) ∧ ∀ text, Utf8.encode text ≠ b := by
  rw [← Utf8.decode?_eq_none_iff, ← Utf8.decode?_eq_none_iff, itemOf, itemOf]
  cases first : Utf8.decode? a with
  | none => cases second : Utf8.decode? b <;> simp
  | some text =>
    cases second : Utf8.decode? b with
    | none => simp
    | some text' =>
      have apart : text ≠ text' := by
        rintro rfl
        exact other ((Utf8.decode?_eq_some_iff.mp first).symm.trans (Utf8.decode?_eq_some_iff.mp second))
      simp [apart]

/-- A carriage return more or less does not show in a line that is no text. -/
private theorem lineItem_eq_iff (one : OneLine line) :
    lineItem true line = lineItem false line ↔ (Doubled line → ∀ text, Utf8.encode text ≠ line) := by
  have plain : lineItem false line = itemOf (chomp line) := rfl
  rw [plain, lineItem, chomp_shown one]
  by_cases doubled : Doubled line
  · obtain ⟨front, ended, body⟩ := doubled.split
    have other : front ≠ front ++ [Byte.carriageReturn] := by simp
    rw [if_pos doubled, body, List.dropLast_concat, itemOf_eq_iff other, ended]
    have small : Byte.carriageReturn < 128 := by decide
    have small' : Byte.lineFeed < 128 := by decide
    simp only [Utf8.forall_encode_ne_concat_iff small, Utf8.forall_encode_ne_concat_iff small', and_self]
    exact ⟨fun invalid _ => invalid, fun invalid => invalid (ended ▸ doubled)⟩
  · simp [doubled]

/-! Iterating -/

private theorem nextLine_eq {d e : Device σ} {h : Handle} (gave : d.readLine 0 = (.ok h, e)) :
    d.nextLine = (if h.isEmpty then none else some (itemOf (chomp h.content)), e) := by
  unfold nextLine itemOf
  rw [gave]
  dsimp only
  split
  · rfl
  · cases Utf8.decode? (chomp h.content) <;> rfl

variable [Source σ] {d e : Device σ} {before s : List UInt8}

namespace Gives

/-- The next line comes off what is to come, if there is any. -/
private theorem nextLine (gives : d.Gives before s) :
    ∃ raw t, s = raw ++ t ∧ d.Reads d.nextLine.2 before raw t ∧
      (s = [] ∧ d.nextLine.1 = none ∨
        d.nextLine.1 = some (itemOf (chomp (firstLine (shown d.isText s)))) ∧
          Newline.lines (shown d.isText s) = firstLine (shown d.isText s) :: Newline.lines (shown d.isText t)) := by
  obtain ⟨raw, t, line, split, left, reads⟩ := gives.readLine 0
  refine ⟨raw, t, split, ?_⟩
  cases read : d.readLine 0 with | mk result e
  rw [read] at line reads
  obtain failure | h := result
  · cases line
  · have content : h.content = firstLine (shown d.isText s) := Except.ok.inj line
    -- Even a line with an empty body has its line end, so that nothing is read only where nothing is to come.
    have empty : h.isEmpty = true ↔ s = [] := by
      rw [Handle.isEmpty, beq_iff_eq, ← Handle.content_eq_nil_iff, content, firstLine_eq_nil_iff, shown_eq_nil_iff]
    rw [nextLine_eq read]
    refine ⟨reads, ?_⟩
    by_cases none : s = []
    · left
      exact ⟨none, if_pos (empty.mpr none)⟩
    · right
      have some : shown d.isText s ≠ [] := mt (shown_eq_nil_iff d.isText s).mp none
      constructor
      · rw [if_neg (mt empty.mp none), content]
      · rw [lines_eq_cons some, left]
        rfl

private theorem lines (gives : d.Gives before s) (n : Nat) :
    ∃ raw t, s = raw ++ t ∧ d.Reads (d.lines n).2 before raw t ∧
      (d.lines n).1 = ((Newline.lines (shown d.isText s)).take n).map (itemOf ∘ chomp) ∧
      Newline.lines (shown d.isText t) = (Newline.lines (shown d.isText s)).drop n := by
  induction n generalizing d before s with
  | zero =>
    obtain ⟨queued, has⟩ := gives.ready.supplies
    exact ⟨[], s, rfl, gives.ready.stays (.refl d) has rfl d.errorString, rfl, rfl⟩
  | succ n ih =>
    obtain ⟨raw, t, rfl, reads, ⟨empty, ended⟩ | ⟨item, split⟩⟩ := gives.nextLine
    · obtain ⟨rfl, rfl⟩ := List.append_eq_nil_iff.mp empty
      cases next : d.nextLine with | mk item e
      rw [next] at ended reads
      obtain rfl : item = none := ended
      refine ⟨[], [], rfl, ?_, ?_, ?_⟩
      all_goals simp [Device.lines, next, Newline.lines, reads]
    · cases next : d.nextLine with | mk first e
      rw [next] at item reads
      obtain rfl := item
      obtain ⟨raw', u, rfl, reads', items, left⟩ := ih (gives.after reads)
      rw [reads.isText] at items left
      refine ⟨raw ++ raw', u, (List.append_assoc ..).symm, ?_, ?_, ?_⟩
      · simp only [Device.lines, next]
        exact reads.trans reads'
      · simp [Device.lines, next, split, items]
      · simp [split, left]

/-- Iterating ends where nothing is to come. -/
private theorem iterates (gives : d.Gives before s) (start : d.pos = 0) (small : s.length ≤ Word.maxValue) :
    d.Iterates ((Newline.lines s).map (lineItem d.isText)) s.length := by
  have items : (Newline.lines s).map (lineItem d.isText) = (Newline.lines (shown d.isText s)).map (itemOf ∘ chomp) := by
    rw [lines_shown, List.map_map]
    rfl
  rw [items]
  constructor
  · intro n
    obtain ⟨-, -, -, -, gave, -⟩ := gives.lines n
    rw [gave, List.map_take]
  · intro n all
    obtain ⟨raw, t, rfl, reads, -, left⟩ := gives.lines n
    rw [List.length_map] at all
    have last : Newline.lines (shown d.isText t) = [] := by rw [left, List.drop_of_length_le all]
    obtain rfl : t = [] := (shown_eq_nil_iff d.isText t).mp (lines_eq_nil_iff.mp last)
    constructor
    · have bound := Word.maxValue_lt_modulus
      rw [List.append_nil] at small ⊢
      rw [reads.pos, start, Word.addWrapped_of_lt (by omega), Nat.zero_add]
    · obtain ⟨more, u, -, -, ⟨-, none⟩ | ⟨-, line⟩⟩ := (gives.after reads).nextLine
      · exact none
      · simp [Newline.lines] at line

end Gives

omit [Medium σ] [Source σ] in
private theorem readObstacle?_forReading {d : Device σ} {text unbuffered : Bool}
    (mode : d.mode = .forReading false text unbuffered) :
    d.readObstacle? = none := by
  cases text <;> cases unbuffered <;> simp [readObstacle?, isOpen, mode] <;> decide

private theorem givesLines (text : Bool) {data : List UInt8} (small : data.length ≤ Word.maxValue) :
    GivesLines text data ((Newline.lines data).map (lineItem text)) := by
  intro unbuffered
  constructor
  · rintro config d possible reached mode unblocked start rfl
    have gives := reached.gives possible (readObstacle?_forReading mode) unblocked
    have kind : d.isText = text := by rw [isText, mode]; rfl
    rw [← kind]
    exact gives.iterates start small
  · rintro d inUse mode start rfl
    have gives := inUse.gives (readObstacle?_forReading mode)
    have kind : d.isText = text := by rw [isText, mode]; rfl
    rw [start, List.drop_zero] at gives
    rw [← kind]
    exact gives.iterates start small

private theorem forall₂_lineItem {p : List UInt8 → Except IoError String → Prop} (text : Bool) (data : List UInt8)
    (each : ∀ line, OneLine line → p line (lineItem text line)) :
    List.Forall₂ p (Newline.lines data) ((Newline.lines data).map (lineItem text)) := by
  rw [List.forall₂_map_right_iff, List.forall₂_same]
  intro line member
  exact each line (lines_mem member).2

/-- Iterating over a text that is read as it is, however it is queued, fed and cut by fills, gives one item for each
line and goes on behind a line that is no text. A carriage return goes only with its line feed. -/
theorem iterating_splits_lines (data : List UInt8) (small : data.length ≤ Word.maxValue) :
    ∃ items, GivesLines false data items ∧
      List.Forall₂ (fun line item => ∃ body, Ended line body ∧ Spells body item) (Newline.lines data) items := by
  refine ⟨_, givesLines false small, forall₂_lineItem false data ?_⟩
  intro line one
  exact ⟨chomp line, one.ended, itemOf_spells _⟩

/-- Lines that end either way, one that is no text, an empty one and one that a carriage return stands at the end of. -/
def mixedLines : List UInt8 := [97, 13, 10, 255, 10, 10, 98, 13]

def mixedPiped : List Event :=
  [.remote (.feed [] 0 (Handle.ofFixed [] (mixedLines.take 2))), .remote (.limitReads (some 1)),
    .call (.openWith (.forReading false false true)), .remote (.feed [] 0 (Handle.ofFixed [] (mixedLines.drop 2)))]

theorem iterating_splits_lines_mixed :
    ∃ d, d = (ofMedium Pipe.empty ⟨2, 1, 0, false⟩).afterAll mixedPiped ∧
      (d.lines 9).1 = [.ok "a", .error notText, .ok "", .ok "b\r"] ∧ (d.lines 9).2.pos = 8 ∧
      (d.lines 9).2.nextLine.1 = none ∧
      List.Forall₂ (fun line item => ∃ body, Ended line body ∧ Spells body item)
        [[97, 13, 10], [255, 10], [10], [98, 13]] (d.lines 9).1 := by
  obtain ⟨d, piped⟩ : ∃ d, d = (ofMedium Pipe.empty ⟨2, 1, 0, false⟩).afterAll mixedPiped := ⟨_, rfl⟩
  have started : Reached ⟨2, 1, 0, false⟩ (ofMedium Pipe.empty ⟨2, 1, 0, false⟩) := .fresh
  have reached := started.afterAll mixedPiped (by decide +kernel)
  rw [← piped] at reached
  have mode : d.mode = .forReading false false true := by rw [piped]; decide +kernel
  have unblocked : d.medium.readLimit ≠ some 0 := by rw [piped]; decide +kernel
  have start : d.pos = 0 := by rw [piped]; decide +kernel
  have stream : d.stream = mixedLines := by rw [piped]; decide +kernel
  obtain ⟨items, gives, spells⟩ := iterating_splits_lines mixedLines (by decide)
  have iterates := (gives true).1 _ d (by decide) reached mode unblocked start stream
  have few : items.length = 4 := spells.length_eq.symm
  obtain ⟨stop, ended⟩ := iterates.ends 9 (by omega)
  have all : (d.lines 9).1 = items := by rw [iterates.gives, List.take_of_length_le (by omega)]
  refine ⟨d, piped, ?_, stop, ended, ?_⟩
  · rw [piped]
    decide +kernel
  · rw [all]
    exact spells

/-- In text mode each line that two carriage returns end before its line feed loses both, so that iterating gives the
same as it does otherwise just when every such line is no text. -/
theorem iterating_text_mode (data : List UInt8) (small : data.length ≤ Word.maxValue) :
    ∃ items items', GivesLines false data items ∧ GivesLines true data items' ∧
      List.Forall₂ (fun line item => ∃ body, Ended line body ∧ Spells body item) (Newline.lines data) items ∧
      List.Forall₂ (fun line item => ∃ body, Ended line body ∧ Spells (if Doubled line then body.dropLast else body) item)
        (Newline.lines data) items' ∧
      (items' = items ↔ ∀ line ∈ Newline.lines data, Doubled line → ∀ text, Utf8.encode text ≠ line) := by
  refine ⟨_, _, givesLines false small, givesLines true small, forall₂_lineItem false data ?_,
    forall₂_lineItem true data ?_, ?_⟩
  · intro line one
    exact ⟨chomp line, one.ended, itemOf_spells _⟩
  · intro line one
    refine ⟨chomp line, one.ended, ?_⟩
    rw [← chomp_shown one]
    exact itemOf_spells _
  · rw [List.map_inj_left]
    constructor
    · intro same line member
      exact (lineItem_eq_iff (lines_mem member).2).mp (same line member)
    · intro invalid line member
      exact (lineItem_eq_iff (lines_mem member).2).mpr (invalid line member)

/-- Memory with these bytes, opened for reading with text mode on or off. -/
def heldText (text : Bool) (data : List UInt8) : Device Medium.Memory :=
  ((ofMedium (Medium.Memory.ofHandle (Handle.ofFixed [] data)) ⟨2, 1, 0, false⟩).openWith (.forReading false text false)).2

private theorem GivesLines.heldText {text : Bool} {data : List UInt8} {items : List (Except IoError String)}
    (gives : GivesLines text data items) (small : data.length ≤ Word.maxValue) :
    (heldText text data).Iterates items data.length := by
  have content : (Handle.ofFixed [] data).content = data := by simp [Handle.ofFixed, Handle.whole, Handle.content, Storage.bytes]
  obtain ⟨d, opened, -, -, mode, -, -, start, -, medium⟩ :=
    open_memory (Handle.ofFixed [] data) ⟨2, 1, 0, false⟩ false text false (content.symm ▸ small)
  have same : Device.heldText text data = d := by rw [Device.heldText, opened]
  have held : d.medium.data.content = data := by rw [medium, content]
  have possible : (⟨2, 1, 0, false⟩ : Config).normalize.bufferSize < Word.requestLimit := by decide
  have inUse : InUse d 0 := .opened _ rfl possible opened (held.symm ▸ small)
  rw [same]
  exact (gives false).2 d inUse mode start held

theorem iterating_text_mode_doubled :
    ((heldText true [97, 13, 13, 10, 98, 13]).lines 9).1 ≠ ((heldText false [97, 13, 13, 10, 98, 13]).lines 9).1 ∧
    ((heldText true [255, 13, 13, 10, 98, 13, 10]).lines 9).1 = ((heldText false [255, 13, 13, 10, 98, 13, 10]).lines 9).1 := by
  constructor
  · obtain ⟨items, items', gives, gives', spells, spells', equal⟩ := iterating_text_mode [97, 13, 13, 10, 98, 13] (by decide)
    have few : items.length = 2 := spells.length_eq.symm
    have few' : items'.length = 2 := spells'.length_eq.symm
    rw [(gives.heldText (by decide)).gives, (gives'.heldText (by decide)).gives, List.take_of_length_le (by omega),
      List.take_of_length_le (by omega)]
    intro same
    exact equal.mp same [97, 13, 13, 10] (by decide) (by decide) "a\r\r\n" (by decide)
  · obtain ⟨items, items', gives, gives', -, -, equal⟩ := iterating_text_mode [255, 13, 13, 10, 98, 13, 10] (by decide)
    rw [(gives.heldText (by decide)).gives, (gives'.heldText (by decide)).gives]
    refine congrArg (List.take 9) (equal.mpr ?_)
    have all : ∀ line ∈ Newline.lines [255, 13, 13, 10, 98, 13, 10], Doubled line → Utf8.decode? line = none := by
      decide +kernel
    intro line member doubled
    exact Utf8.decode?_eq_none_iff.mp (all line member doubled)

/-- Text mode is not without effect on an iteration. -/
theorem iterating_text_mode_differs :
    ¬ ∀ data : List UInt8, data.length ≤ Word.maxValue →
      ∃ items, GivesLines false data items ∧ GivesLines true data items := by
  intro same
  obtain ⟨items, gives, gives'⟩ := same [97, 13, 13, 10, 98] (by decide)
  have raw := (gives.heldText (by decide)).gives 9
  have text := (gives'.heldText (by decide)).gives 9
  have kept : ((heldText false [97, 13, 13, 10, 98]).lines 9).1 = [.ok "a\r", .ok "b"] := by decide +kernel
  have lost : ((heldText true [97, 13, 13, 10, 98]).lines 9).1 = [.ok "a", .ok "b"] := by decide +kernel
  rw [kept] at raw
  rw [lost, ← raw] at text
  exact absurd text (by decide)

end ByteFlow.Device
