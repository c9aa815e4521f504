import ByteFlow.Proofs.ChunkQueue.Bounds
import ByteFlow.Proofs.Search.Backward
import ByteFlow.Word

/-! The skip tables and the two scans with every index, difference, sum and turn granted or refused.
The tables are written byte by byte, each entry being a byte, and a scan has only so many turns. Nothing is
ever refused: the tables come out as they are defined, and each scan ends where it should. -/
namespace ByteFlow.Search.Matcher
open ChunkQueue (minus? minus?_of_le slice? slice?_of_le)

/-! Tables -/

/-- Writes the numbers of the first `n` bytes into a table, from the last one on, so that of equal bytes
the first one counts. Numbers that are no bytes are refused. -/
def writeTable? (bytes : List UInt8) : Nat → Array Nat → Option (Array Nat)
  | 0, table => some table
  | n + 1, table => do
    let b ← bytes[n]?
    if n < UInt8.size ∧ b.toNat < table.size then
      writeTable? bytes n (table.setIfInBounds b.toNat n)
    else none

/-- Sets a pattern by filling both tables with the longest skip and writing them anew. -/
def setPattern? (_m : Matcher) (pattern : List UInt8) : Option Matcher := do
  let limit := min pattern.length maxSkip
  let blank := Array.replicate UInt8.size limit
  return ⟨pattern, ← writeTable? pattern.reverse limit blank, ← writeTable? pattern limit blank⟩

/-! Scans -/

/-- What a turn of a scan comes to: a place found, or how far to move. -/
inductive Turn where
  | found (place : Nat)
  | move (distance : Nat)

/-- Compares backwards from `current`, of the pattern's bytes `agreed` being known to fit. -/
def agreement? (text pattern : Array UInt8) (current agreed : Nat) : Option Nat :=
  if _more : agreed < pattern.size then do
    let shown ← text[← minus? current agreed]?
    let wanted ← pattern[← minus? (pattern.size - 1) agreed]?
    if shown = wanted then agreement? text pattern current (agreed + 1) else some agreed
  else some agreed
termination_by pattern.size - agreed

def turnForward? (m : Matcher) (text : Array UInt8) (current : Nat) : Option Turn := do
  let skip ← m.forward[(← text[current]?).toNat]?
  if skip = 0 then
    let agreed ← agreement? text m.pattern.toArray current 0
    if m.pattern.length - 1 < agreed then return .found (← minus? current (m.pattern.length - 1))
    else
      let other ← m.forward[(← text[← minus? current agreed]?).toNat]?
      if other = m.pattern.length then return .move (← minus? m.pattern.length agreed)
      else return .move 1
  else return .move skip

/-- Moves forward turn by turn, in so many turns at most. -/
def forwardLoop? (m : Matcher) (text : Array UInt8) (turns current : Nat) : Option (Option Nat) :=
  if current < text.size then
    match turns with
    | 0 => none
    | turns + 1 => do
      match ← turnForward? m text current with
      | .found place => some (some place)
      | .move distance => forwardLoop? m text turns (← Word.add? current distance)
  else some none

def indexIn? (m : Matcher) (text : Array UInt8) (start : Nat) : Option (Option Nat) :=
  if m.pattern.isEmpty then some (if start ≤ text.size then some start else none)
  else if text.size < start then some none
  else do
    if (← minus? text.size start) < m.pattern.length then some none
    else forwardLoop? m text text.size (← Word.add? start (m.pattern.length - 1))

def turnBackward? (m : Matcher) (text : Array UInt8) (current : Nat) : Option Turn := do
  let skip ← m.backward[(← text[current]?).toNat]?
  if skip = 0 then
    let window ← slice? text.toList current (← Word.add? current m.pattern.length)
    if window = m.pattern then return .found current else return .move 1
  else return .move skip

/-- Moves backward turn by turn, in so many turns at most; past the beginning nothing is found. -/
def backwardLoop? (m : Matcher) (text : Array UInt8) : Nat → Nat → Option (Option Nat)
  | 0, _ => none
  | turns + 1, current => do
    match ← turnBackward? m text current with
    | .found place => some (some place)
    | .move distance =>
      match minus? current distance with
      | none => some none
      | some next => backwardLoop? m text turns next

def lastIndexIn? (m : Matcher) (text : Array UInt8) (start : Nat) : Option (Option Nat) :=
  if m.pattern.isEmpty then some (some (min start text.size))
  else if text.size < m.pattern.length then some none
  else do backwardLoop? m text (text.size + 1) (min start (← minus? text.size m.pattern.length))

variable {pattern text : List UInt8} {current : Nat}

/-! Writing the tables -/

private theorem writeTable?_spec (bytes : List UInt8) {n : Nat} (table : Array Nat) (inside : n ≤ bytes.length)
    (small : n ≤ UInt8.size) (whole : table.size = UInt8.size) :
    ∃ written, writeTable? bytes n table = some written ∧ written.size = UInt8.size ∧
      ∀ b : UInt8, written[b.toNat]? =
        if b ∈ bytes.take n then some ((bytes.take n).findIdx (· == b)) else table[b.toNat]? := by
  induction n generalizing table with
  | zero => exact ⟨table, rfl, whole, fun b => by simp⟩
  | succ n ih =>
    have there : bytes[n]? = some bytes[n] := List.getElem?_eq_getElem inside
    have room : bytes[n].toNat < table.size := whole ▸ bytes[n].toNat_lt
    obtain ⟨written, done, size, entries⟩ := ih (table.setIfInBounds bytes[n].toNat n) (Nat.le_of_lt inside)
      (Nat.le_of_lt small) (by rw [Array.size_setIfInBounds, whole])
    refine ⟨written, ?_, size, fun b => ?_⟩
    · rw [writeTable?, there]
      simp only [Option.bind_eq_bind, Option.bind_some]
      rw [if_pos ⟨small, room⟩, done]
    · have split : bytes.take n ++ [bytes[n]] = bytes.take (n + 1) := List.take_append_getElem inside
      rw [entries b, ← split, List.findIdx_append]
      by_cases earlier : b ∈ bytes.take n
      · have found : (bytes.take n).findIdx (· == b) < (bytes.take n).length :=
          List.findIdx_lt_length_of_exists ⟨b, earlier, beq_self_eq_true b⟩
        rw [if_pos earlier, if_pos (List.mem_append_left _ earlier), if_pos found]
      · have missing : ¬ (bytes.take n).findIdx (· == b) < (bytes.take n).length := by
          rw [List.findIdx_lt_length]
          rintro ⟨c, member, same⟩
          exact earlier (eq_of_beq same ▸ member)
        rw [if_neg earlier, if_neg missing]
        by_cases here : b = bytes[n]
        · subst here
          rw [if_pos (List.mem_append_right _ (List.mem_singleton_self _)), Array.getElem?_setIfInBounds_self_of_lt room]
          simp [Nat.min_eq_left (Nat.le_of_lt inside)]
        · have nowhere : b ∉ bytes.take n ++ [bytes[n]] := fun member =>
            (List.mem_append.mp member).elim earlier fun last => here (List.mem_singleton.mp last)
          rw [if_neg nowhere, Array.getElem?_setIfInBounds_ne]
          exact fun same => here (UInt8.toNat_inj.mp same).symm

/-- A byte that is not there keeps the longest skip. -/
private theorem writeTable?_eq (bytes : List UInt8) :
    writeTable? bytes (min bytes.length maxSkip) (Array.replicate UInt8.size (min bytes.length maxSkip)) =
      some (tableOf fun b => (bytes.take maxSkip).findIdx (· == b)) := by
  have taken : bytes.take (min bytes.length maxSkip) = bytes.take maxSkip := by
    rw [Nat.min_comm, ← List.take_eq_take_min]
  obtain ⟨written, done, size, entries⟩ := writeTable?_spec bytes
    (Array.replicate UInt8.size (min bytes.length maxSkip)) (Nat.min_le_left _ maxSkip)
    (Nat.le_trans (Nat.min_le_right _ _) (by decide)) Array.size_replicate
  rw [done]
  congr 1
  refine Array.ext_getElem? fun k => ?_
  rcases Nat.lt_or_ge k UInt8.size with inside | outside
  · have named : (UInt8.ofNat k).toNat = k := UInt8.toNat_ofNat_of_lt inside
    have entry := entries (UInt8.ofNat k)
    rw [named, taken] at entry
    have inside' : k < 256 := inside
    rw [entry, tableOf, Array.getElem?_map, Array.getElem?_range, if_pos inside', Option.map_some]
    split
    · rfl
    · next missing =>
      have none : (bytes.take maxSkip).findIdx (· == UInt8.ofNat k) = (bytes.take maxSkip).length := by
        rw [List.findIdx_eq_length]
        intro b member
        exact beq_false_of_ne fun same => missing (same ▸ member)
      rw [Array.getElem?_replicate, if_pos inside, none, List.length_take, Nat.min_comm]
  · rw [Array.getElem?_eq_none (size ▸ outside), Array.getElem?_eq_none (by simpa [tableOf] using outside)]

/-- Written byte by byte, the tables are those of the pattern. -/
theorem setPattern?_eq (m : Matcher) (pattern : List UInt8) : m.setPattern? pattern = some (ofPattern pattern) := by
  have forward := writeTable?_eq pattern.reverse
  rw [List.length_reverse] at forward
  rw [setPattern?, forward, writeTable?_eq pattern]
  rfl

/-- Of patterns set one after the other only the last one counts. -/
private theorem foldlM_setPattern? (m : Matcher) (earlier : List (List UInt8)) (pattern : List UInt8) :
    (earlier ++ [pattern]).foldlM setPattern? m = some (ofPattern pattern) := by
  induction earlier generalizing m with
  | nil =>
    rw [List.nil_append, List.foldlM_cons, setPattern?_eq]
    rfl
  | cons first rest ih =>
    rw [List.cons_append, List.foldlM_cons, setPattern?_eq]
    exact ih _

/-! Scanning forward -/

private theorem forward_ofPattern (pattern : List UInt8) (b : UInt8) :
    (ofPattern pattern).forward[b.toNat]? = some (forwardSkip pattern b) := by
  have small : b.toNat < 256 := b.toNat_lt
  simp [ofPattern, tableOf, small]

private theorem forwardSkip_le (pattern : List UInt8) (b : UInt8) :
    forwardSkip pattern b ≤ min maxSkip pattern.length := by
  have : forwardSkip pattern b ≤ (pattern.reverse.take maxSkip).length := List.findIdx_le_length
  rwa [List.length_take, List.length_reverse] at this

/-- The comparison looks at no byte before the text or the pattern. -/
private theorem agreement?_eq (reached : pattern.length ≤ current + 1) (here : current < text.length) (agreed : Nat) :
    agreement? text.toArray pattern.toArray current agreed =
      some (agreed + agreement text.toArray (current - agreed) (pattern.reverse.drop agreed)) := by
  induction left : pattern.length - agreed generalizing agreed with
  | zero =>
    rw [agreement?, dif_neg (by simp; omega), List.drop_eq_nil_of_le (by simp; omega)]
    rfl
  | succ n ih =>
    have inside : agreed < pattern.reverse.length := by rw [List.length_reverse]; omega
    have shown : text.toArray[current - agreed]? = some text[current - agreed] := by simp
    have wanted : pattern.toArray[pattern.length - 1 - agreed]? = some pattern.reverse[agreed] := by
      rw [List.getElem?_toArray, ← List.getElem?_reverse (by omega), List.getElem?_eq_getElem inside]
    rw [agreement?, dif_pos (by simp; omega), List.size_toArray, minus?_of_le (by omega), minus?_of_le (by omega),
      List.drop_eq_getElem_cons inside, agreement]
    simp only [Option.bind_eq_bind, Option.bind_some, shown, wanted, Option.some_inj]
    split
    · rw [ih (agreed + 1) (by omega), Nat.sub_sub, Nat.add_assoc, Nat.add_comm 1]
    · rfl

/-- A turn finds what the scan finds, or moves on to where the scan goes on. -/
private theorem turnForward?_spec (some : pattern ≠ []) (reached : pattern.length ≤ current + 1)
    (here : current < text.length) :
    (∃ place, turnForward? (ofPattern pattern) text.toArray current = .some (.found place) ∧
      scanForward (ofPattern pattern) text.toArray current = .some place) ∨
    ∃ distance, turnForward? (ofPattern pattern) text.toArray current = .some (.move distance) ∧
      0 < distance ∧ distance ≤ max maxSkip pattern.length ∧
      scanForward (ofPattern pattern) text.toArray current =
        scanForward (ofPattern pattern) text.toArray (current + distance) := by
  have long : 0 < pattern.length := List.length_pos_of_ne_nil some
  have whole : (ofPattern pattern).pattern = pattern := rfl
  have byte : text.toArray[current]? = .some text[current] := by simp
  have few := agreement_le_length text.toArray current pattern.reverse
  rw [List.length_reverse] at few
  rw [scanForward, dif_pos (by simpa using here), turnForward?, byte]
  simp only [Option.bind_eq_bind, Option.bind_some, forward_ofPattern, List.getElem_toArray, skipForward_ofPattern, whole]
  split
  · next fits =>
    rw [agreement?_eq reached here 0]
    simp only [Option.bind_some, Nat.zero_add, Nat.sub_zero, List.drop_zero]
    generalize agreement text.toArray current pattern.reverse = agreed at few
    split
    · next all =>
      left
      rw [if_pos (by omega), minus?_of_le (by omega)]
      exact ⟨_, rfl, rfl⟩
    · next differs =>
      have shown : text.toArray[current - agreed]? = .some text[current - agreed] := by simp
      right
      rw [if_neg (by omega), minus?_of_le (by omega), advance, shown, whole]
      simp only [Option.bind_some, shown, Option.map_some, Option.some_inj, skipForward_ofPattern]
      split
      · rw [minus?_of_le few]
        exact ⟨_, rfl, by omega, by omega, by rw [Nat.max_eq_right (by omega)]⟩
      · exact ⟨1, rfl, Nat.one_pos, by omega, rfl⟩
  · next moves =>
    have := forwardSkip_le pattern text[current]
    exact .inr ⟨_, rfl, Nat.pos_of_ne_zero moves, by omega, rfl⟩

private theorem forwardLoop?_eq (some : pattern ≠ []) (small : text.length ≤ Word.requestLimit)
    (reached : pattern.length ≤ current + 1) {turns : Nat} (enough : text.length ≤ current + turns) :
    forwardLoop? (ofPattern pattern) text.toArray turns current =
      .some (scanForward (ofPattern pattern) text.toArray current) := by
  induction turns generalizing current with
  | zero =>
    have outside : ¬ current < text.toArray.size := by simpa using enough
    rw [forwardLoop?, if_neg outside, scanForward, dif_neg outside]
  | succ turns ih =>
    rw [forwardLoop?]
    split
    · next inside =>
      have here : current < text.length := by simpa using inside
      rcases turnForward?_spec some reached here with ⟨place, turn, found⟩ | ⟨distance, turn, moves, few, onward⟩
      · rw [turn, found]
        rfl
      · have sum : Word.add? current distance = .some (current + distance) := by
          have : maxSkip ≤ Word.requestLimit := by decide
          have : Word.requestLimit + Word.requestLimit ≤ Word.maxValue := by decide
          exact if_pos (by omega)
        rw [turn, onward]
        simp only [Option.bind_eq_bind, Option.bind_some, sum]
        exact ih (by omega) (by omega)
    · next outside => rw [scanForward, dif_neg outside]

theorem indexIn?_eq (pattern : List UInt8) (small : text.length ≤ Word.requestLimit) (start : Nat) :
    indexIn? (ofPattern pattern) text.toArray start = some ((ofPattern pattern).indexIn text.toArray start) := by
  have whole : (ofPattern pattern).pattern = pattern := rfl
  have words : Word.requestLimit ≤ Word.maxValue := by decide
  rw [indexIn?, indexIn, whole, List.size_toArray]
  split
  · rfl
  · next some =>
    have some : pattern ≠ [] := by simpa using some
    have long := List.length_pos_of_ne_nil some
    split
    · next beyond => rw [if_pos (by omega)]
    · next inside =>
      rw [minus?_of_le (by omega)]
      simp only [Option.bind_eq_bind, Option.bind_some]
      split
      · next short => rw [if_pos (by omega)]
      · next roomy =>
        have sum : Word.add? start (pattern.length - 1) = .some (start + (pattern.length - 1)) := if_pos (by omega)
        rw [if_neg (by omega), sum]
        exact forwardLoop?_eq some small (by omega) (by omega)

/-! Scanning backward -/

private theorem backward_ofPattern (pattern : List UInt8) (b : UInt8) :
    (ofPattern pattern).backward[b.toNat]? = some (backwardSkip pattern b) := by
  have small : b.toNat < 256 := b.toNat_lt
  simp [ofPattern, tableOf, small]

private theorem turnBackward?_spec (some : pattern ≠ []) (small : text.length ≤ Word.requestLimit)
    (fits : current + pattern.length ≤ text.length) :
    (turnBackward? (ofPattern pattern) text.toArray current = .some (.found current) ∧
      scanBackward (ofPattern pattern) text.toArray current = .some current) ∨
    ∃ distance, turnBackward? (ofPattern pattern) text.toArray current = .some (.move distance) ∧ 0 < distance ∧
      scanBackward (ofPattern pattern) text.toArray current =
        if distance ≤ current then scanBackward (ofPattern pattern) text.toArray (current - distance) else none := by
  have long : 0 < pattern.length := List.length_pos_of_ne_nil some
  have whole : (ofPattern pattern).pattern = pattern := rfl
  have words : Word.requestLimit ≤ Word.maxValue := by decide
  have byte : text.toArray[current]? = .some text[current] := by simp
  have sum : Word.add? current pattern.length = .some (current + pattern.length) := if_pos (by omega)
  have window : (text.toArray.extract current (current + pattern.length)).toList =
      (text.take (current + pattern.length)).drop current := by
    rw [List.extract_toArray, List.extract_eq_take_drop, List.drop_take]
  rw [scanBackward, turnBackward?, byte]
  simp only [Option.bind_eq_bind, Option.bind_some, backward_ofPattern, Option.map_some, Option.getD_some,
    skipBackward_ofPattern, whole, sum, slice?_of_le (Nat.le_add_right current pattern.length) fits, window]
  split
  · next zero =>
    by_cases same : (text.take (current + pattern.length)).drop current = pattern
    · left
      rw [if_pos same, if_pos ⟨zero, same⟩]
      exact ⟨rfl, rfl⟩
    · right
      rw [if_neg same, if_neg fun found => same found.2, zero]
      exact ⟨1, rfl, Nat.one_pos, rfl⟩
  · next moves =>
    right
    rw [if_neg fun found => moves found.1, Nat.max_eq_right (Nat.pos_of_ne_zero moves)]
    exact ⟨_, rfl, Nat.pos_of_ne_zero moves, rfl⟩

private theorem backwardLoop?_eq (some : pattern ≠ []) (small : text.length ≤ Word.requestLimit)
    (fits : current + pattern.length ≤ text.length) {turns : Nat} (enough : current < turns) :
    backwardLoop? (ofPattern pattern) text.toArray turns current =
      .some (scanBackward (ofPattern pattern) text.toArray current) := by
  induction turns generalizing current with
  | zero => omega
  | succ turns ih =>
    rw [backwardLoop?]
    rcases turnBackward?_spec some small fits with ⟨turn, found⟩ | ⟨distance, turn, moves, onward⟩
    · rw [turn, found]
      rfl
    · rw [turn, onward]
      simp only [Option.bind_eq_bind, Option.bind_some]
      split
      · next past =>
        rw [minus?] at past
        split at past
        · cases past
        · next less => rw [if_neg less]
      · next next rest =>
        rw [minus?] at rest
        split at rest
        · next enough' =>
          obtain rfl := Option.some.inj rest
          rw [if_pos enough', ih (by omega) (by omega)]
        · cases rest

theorem lastIndexIn?_eq (pattern : List UInt8) (small : text.length ≤ Word.requestLimit) (start : Nat) :
    lastIndexIn? (ofPattern pattern) text.toArray start = some ((ofPattern pattern).lastIndexIn text.toArray start) := by
  have whole : (ofPattern pattern).pattern = pattern := rfl
  rw [lastIndexIn?, lastIndexIn, whole, List.size_toArray]
  split
  · rfl
  · next some =>
    split
    · rfl
    · next roomy =>
      rw [minus?_of_le (by omega)]
      simp only [Option.bind_eq_bind, Option.bind_some]
      exact backwardLoop?_eq (by simpa using some) small (by omega) (by omega)

/-! Searching -/

private theorem foldl_setPattern (m : Matcher) (earlier : List (List UInt8)) (pattern : List UInt8) :
    (earlier ++ [pattern]).foldl setPattern m = ofPattern pattern := List.foldl_concat ..

/-- Whatever patterns were set before, a search gives the first place from `start` on where the pattern set last
stands, and none if it stands nowhere there; an empty pattern stands at `start` itself, unless that lies behind
the end. The tables can be written with every entry a byte, and in a text of a size that a request can have the
search never leaves the text, the pattern or a table, and comes to its end. -/
theorem indexIn_finds_first (m : Matcher) (earlier : List (List UInt8)) (pattern text : List UInt8) (start : Nat) :
    ∃ now, (earlier ++ [pattern]).foldl setPattern m = now ∧ (earlier ++ [pattern]).foldlM setPattern? m = some now ∧
      (∀ i, now.indexIn text.toArray start = some i ↔
        start ≤ i ∧ OccursAt pattern text i ∧ ∀ j, start ≤ j → j < i → ¬ OccursAt pattern text j) ∧
      (now.indexIn text.toArray start = none ↔ ∀ i, start ≤ i → ¬ OccursAt pattern text i) ∧
      (pattern = [] → now.indexIn text.toArray start = if start ≤ text.length then some start else none) ∧
      (text.length ≤ Word.requestLimit → now.indexIn? text.toArray start = some (now.indexIn text.toArray start)) := by
  refine ⟨ofPattern pattern, foldl_setPattern m earlier pattern, foldlM_setPattern? m earlier pattern, ?_⟩
  rw [indexIn_ofPattern]
  refine ⟨fun i => firstFrom?_eq_some_iff, firstFrom?_eq_none_iff, ?_, fun small => ?_⟩
  · rintro rfl
    exact firstFrom?_nil text start
  · rw [indexIn?_eq pattern small, indexIn_ofPattern]

/-- A pattern longer than any skip, of which all but the last byte agree at each place before. -/
def longPattern : List UInt8 := List.replicate 256 97 ++ [98]

def longText : List UInt8 := List.replicate 260 97 ++ [98]

theorem indexIn_finds_first_long :
    ∃ now, [[98, 97], longPattern].foldl setPattern (ofPattern []) = now ∧
      now.indexIn? longText.toArray 1 = some (some 4) := by
  obtain ⟨now, set, -, first, -, -, granted⟩ := indexIn_finds_first (ofPattern []) [[98, 97]] longPattern longText 1
  have before : ∀ j < 4, 1 ≤ j → ¬ OccursAt longPattern longText j := by decide +kernel
  have found : now.indexIn longText.toArray 1 = some 4 :=
    (first 4).mpr ⟨by decide, by decide +kernel, fun j from_start less => before j less from_start⟩
  exact ⟨now, set, by rw [granted (by decide +kernel), found]⟩

/-- Whatever patterns were set before, a search backwards gives the last place up to `start` where the pattern set
last stands, and none if it stands nowhere there; an empty pattern stands at `start` itself, or at the end if that
comes before. In a text of a size that a request can have the search never leaves the text, the pattern or a
table, and comes to its end, from however far behind the text it is to begin. -/
theorem lastIndexIn_finds_last (m : Matcher) (earlier : List (List UInt8)) (pattern text : List UInt8) (start : Nat) :
    ∃ now, (earlier ++ [pattern]).foldl setPattern m = now ∧ (earlier ++ [pattern]).foldlM setPattern? m = some now ∧
      (∀ i, now.lastIndexIn text.toArray start = some i ↔
        i ≤ start ∧ OccursAt pattern text i ∧ ∀ j, i < j → j ≤ start → ¬ OccursAt pattern text j) ∧
      (now.lastIndexIn text.toArray start = none ↔ ∀ i, i ≤ start → ¬ OccursAt pattern text i) ∧
      (pattern = [] → now.lastIndexIn text.toArray start = some (min start text.length)) ∧
      (text.length ≤ Word.requestLimit →
        now.lastIndexIn? text.toArray start = some (now.lastIndexIn text.toArray start)) := by
  refine ⟨ofPattern pattern, foldl_setPattern m earlier pattern, foldlM_setPattern? m earlier pattern, ?_⟩
  rw [lastIndexIn_ofPattern]
  refine ⟨fun i => lastUpTo?_eq_some_iff, lastUpTo?_eq_none_iff, ?_, fun small => ?_⟩
  · rintro rfl
    exact lastUpTo?_nil text start
  · rw [lastIndexIn?_eq pattern small, lastIndexIn_ofPattern]

theorem lastIndexIn_finds_last_long :
    ∃ now, [[97, 98], longPattern.reverse].foldl setPattern (ofPattern []) = now ∧
      now.lastIndexIn? longText.reverse.toArray Word.maxValue = some (some 0) := by
  obtain ⟨now, set, -, last, -, -, granted⟩ :=
    lastIndexIn_finds_last (ofPattern []) [[97, 98]] longPattern.reverse longText.reverse Word.maxValue
  have behind : ∀ j < 5, 0 < j → ¬ OccursAt longPattern.reverse longText.reverse j := by decide +kernel
  have found : now.lastIndexIn longText.reverse.toArray Word.maxValue = some 0 := by
    refine (last 0).mpr ⟨Nat.zero_le _, by decide +kernel, fun j later _ there => behind j ?_ later there⟩
    have fits := there.1
    have : longPattern.reverse.length = 257 ∧ longText.reverse.length = 261 := by decide +kernel
    omega
  exact ⟨now, set, by rw [granted (by decide +kernel), found]⟩

end ByteFlow.Search.Matcher
