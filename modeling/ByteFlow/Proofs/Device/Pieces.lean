import ByteFlow.Proofs.Device.Ranges
import ByteFlow.Proofs.Device.Touch
import ByteFlow.Proofs.Newline.InPlace

/-! A text that comes into a buffer in pieces.
Each piece goes behind what the buffer shows, and is normalized together with what was not decided before it. However
the text is cut, the buffer shows it as if it had been normalized at once. A reading pass in text mode is such a
delivery of what its rounds gather, whatever the medium gives. -/
namespace ByteFlow.Device
open Medium Newline

namespace Pass

/-- The pass `q` is `p` with the bytes of a piece read behind, which are not judged yet. -/
structure Extends (p q : Pass) (piece : List UInt8) : Prop where
  filled : q.filled = p.filled ++ piece
  consumed : q.consumed = p.consumed + piece.length
  decided : q.decided = p.decided

/-- Drops what goes of the bytes that are not decided, if there are any. -/
def judge (p : Pass) : Pass := if p.decided < p.filled.length then p.strip else p

/-- Reads a piece and judges it. -/
def deliver (p : Pass) (piece : List UInt8) : Pass := (p.accept piece).judge

def deliverAll (p : Pass) (pieces : List (List UInt8)) : Pass := pieces.foldl deliver p

/-- The buffer shows the normalized bytes of `raw`, and which of these are decided is known. -/
structure Shows (p : Pass) (raw : List UInt8) : Prop where
  filled : p.filled = normalize raw
  consumed : p.consumed = raw.length
  decided : p.decided = Newline.decided p.filled

variable {p q r : Pass} {a b raw piece : List UInt8} {pieces : List (List UInt8)}

private theorem Extends.refl (p : Pass) : p.Extends p [] := ⟨(List.append_nil _).symm, rfl, rfl⟩

private theorem Extends.trans (first : p.Extends q a) (second : q.Extends r b) : p.Extends r (a ++ b) := by
  refine ⟨?_, ?_, second.decided.trans first.decided⟩
  · rw [second.filled, first.filled, List.append_assoc]
  · rw [second.consumed, first.consumed, List.length_append, Nat.add_assoc]

private theorem accept_extends (p : Pass) (piece : List UInt8) : p.Extends (p.accept piece) piece := ⟨rfl, rfl, rfl⟩

private theorem Shows.start (buffer : List UInt8) (offset : Nat) : (start buffer offset).Shows [] := ⟨rfl, rfl, rfl⟩

/-- Bytes that are judged behind a normalized text are normalized with it. -/
private theorem Shows.judge (shows : p.Shows raw) (further : p.Extends q piece) : q.judge.Shows (raw ++ piece) := by
  have decides := shows.decided
  have filled := further.filled
  have decided := further.decided
  have consumed : q.consumed = (raw ++ piece).length := by
    rw [further.consumed, shows.consumed, List.length_append]
  rw [Pass.judge]
  split
  · next open_ =>
    obtain ⟨-, -, decided', consumed', -⟩ := q.strip_spec (Nat.le_of_lt open_)
    exact ⟨strip_filled shows.filled decides filled decided, consumed'.trans consumed, decided'⟩
  · next closed =>
    -- All is decided only if the piece is empty.
    have none : piece = [] := by
      have := Newline.decided_le p.filled
      rw [decided, decides, filled, List.length_append] at closed
      exact List.length_eq_zero_iff.mp (by omega)
    subst none
    rw [List.append_nil] at filled consumed ⊢
    exact ⟨filled.trans shows.filled, consumed, by rw [decided, decides, filled]⟩

private theorem Shows.deliver (shows : p.Shows raw) (piece : List UInt8) : (p.deliver piece).Shows (raw ++ piece) :=
  shows.judge (accept_extends p piece)

private theorem Shows.deliverAll (shows : p.Shows raw) (pieces : List (List UInt8)) :
    (p.deliverAll pieces).Shows (raw ++ pieces.flatten) := by
  induction pieces generalizing p raw with
  | nil =>
    rw [List.flatten_nil, List.append_nil]
    exact shows
  | cons piece rest ih =>
    rw [List.flatten_cons, ← List.append_assoc]
    exact ih (shows.deliver piece)

/-! Delivery with every access granted or refused -/

def deliver? (p : Pass) (piece : List UInt8) : Option Pass := do
  let q ← p.accept? piece
  if q.decided < q.filled.length then q.strip? else return q

def deliverAll? (p : Pass) (pieces : List (List UInt8)) : Option Pass := pieces.foldlM deliver? p

/-- Behind `raw` each piece fits into the room that normalizing leaves of the buffer. -/
def Fits (room : Nat) : List UInt8 → List (List UInt8) → Prop
  | _, [] => True
  | raw, piece :: rest => (normalize raw).length + piece.length ≤ room ∧ Fits room (raw ++ piece) rest

private theorem deliver?_eq (p : Pass) (piece : List UInt8) :
    p.deliver? piece = if piece.length ≤ p.spare.length then some (p.deliver piece) else none := by
  rw [deliver?]
  split
  · next fits =>
    rw [accept?_eq fits, deliver, judge]
    simp only [Option.bind_eq_bind, Option.bind_some]
    split
    · next open_ => exact strip?_eq open_
    · rfl
  · next long =>
    have refused : p.accept? piece = none := by
      rw [accept?, ChunkQueue.slice?, if_neg fun inside => long inside.1]
      rfl
    rw [refused]
    rfl

private theorem size_deliver (fits : piece.length ≤ p.spare.length) : (p.deliver piece).size = p.size := by
  rw [deliver, judge]
  split
  · next open_ => rw [size_strip (Nat.le_of_lt open_), size_accept fits]
  · exact size_accept fits

/-- A delivery is granted just if each piece finds room. -/
private theorem deliverAll?_eq_some_iff {room : Nat} (shows : p.Shows raw) (size : p.size = room) :
    p.deliverAll? pieces = some q ↔ Fits room raw pieces ∧ q = p.deliverAll pieces := by
  induction pieces generalizing p raw with
  | nil =>
    show some p = some q ↔ True ∧ q = p
    rw [Option.some_inj, true_and, eq_comm]
  | cons piece rest ih =>
    have room_iff : piece.length ≤ p.spare.length ↔ (normalize raw).length + piece.length ≤ room := by
      rw [← shows.filled, ← size, Pass.size]
      omega
    show (p.deliver? piece).bind (·.deliverAll? rest) = some q ↔
      ((normalize raw).length + piece.length ≤ room ∧ Fits room (raw ++ piece) rest) ∧ q = (p.deliver piece).deliverAll rest
    rw [deliver?_eq, ← room_iff]
    split
    · next fits =>
      rw [Option.bind_some, ih (shows.deliver piece) ((size_deliver fits).trans size), and_iff_right fits]
    · next long =>
      exact iff_of_false (Option.some_ne_none q).symm fun granted => long granted.1.1

end Pass

variable {σ : Type} [Medium σ] {d e f : Device σ} {keep : Bool} {p q r : Pass} {piece : List UInt8}
  {pieces : List (List UInt8)}

/-! What a round of a pass gathers -/

/-- First comes what is queued, and then what the medium gives. -/
def round (d : Device σ) (keep : Bool) (p : Pass) : Except IoError Pass × Device σ :=
  let (q, d) := d.takeQueued keep p
  d.gather keep q

/-- The rounds of a pass, each of which gathers a piece and judges it before the next one comes. -/
inductive Rounds (keep : Bool) : Device σ → Pass → List (List UInt8) → Pass → Device σ → Prop where
  | last {d e : Device σ} {p q : Pass} {piece : List UInt8} (gathered : d.round keep p = (.ok q, e))
      (further : p.Extends q piece) : Rounds keep d p [piece] q.judge e
  | more {d e f : Device σ} {p q r : Pass} {piece : List UInt8} {pieces : List (List UInt8)}
      (gathered : d.round keep p = (.ok q, e)) (further : p.Extends q piece) (rest : Rounds keep e q.judge pieces r f) :
      Rounds keep d p (piece :: pieces) r f

omit [Medium σ] in
private theorem takeQueued_extends (d : Device σ) (keep : Bool) (p : Pass) :
    ∃ piece, p.Extends (d.takeQueued keep p).1 piece := by
  rw [takeQueued]
  split
  · exact ⟨_, rfl, rfl, rfl⟩
  · exact ⟨_, p.accept_extends _⟩

private theorem refill_extends {got : Nat} (came : d.refill keep p = (.ok (got, q), e)) :
    ∃ piece, p.Extends q piece := by
  rw [refill] at came
  generalize d.sync = result at came
  obtain ⟨failure | done, f⟩ := result
  · cases came
  · dsimp only at came
    split at came
    · generalize Medium.read f.heldBesideMedium f.medium p.spare.length = result at came
      obtain ⟨failure | delivery, m⟩ := result
      · cases came
      · cases came
        exact ⟨_, rfl, rfl, rfl⟩
    · generalize f.fill (if f.isBuffered then f.config.bufferSize else min p.spare.length f.config.bufferSize) = result at came
      obtain ⟨failure | some, g⟩ := result
      · cases came
      · cases came
        exact ⟨[], (List.append_nil _).symm, rfl, rfl⟩

/-- What came past the queue is read first, and then what came into it. -/
private theorem takeRefilled_extends {more next : Pass} {got : Nat} (refilled : d.refill keep p = (.ok (got, more), e))
    (taken : e.takeQueued keep more = (next, f)) : ∃ piece, p.Extends next piece := by
  obtain ⟨a, first⟩ := refill_extends refilled
  obtain ⟨b, second⟩ := takeQueued_extends e keep more
  rw [taken] at second
  exact ⟨_, first.trans second⟩

/-- Gathering puts bytes behind those read, whatever the medium does. -/
private theorem gather_extends (came : d.gather keep p = (.ok q, e)) : ∃ piece, p.Extends q piece := by
  fun_induction gather d keep p generalizing q e with
  | case1 d p done =>
    cases came
    exact ⟨[], .refl p⟩
  | case2 d p some err f failed none => cases came
  | case3 d p some err f failed some_ =>
    cases came
    exact ⟨[], (List.append_nil _).symm, rfl, rfl⟩
  | case4 d p some more f refilled =>
    cases came
    exact refill_extends refilled
  | case5 d p some got more f refilled positive next g taken shorter ih =>
    obtain ⟨a, first⟩ := takeRefilled_extends refilled taken
    obtain ⟨b, second⟩ := ih came
    exact ⟨_, first.trans second⟩
  | case6 d p some got more f refilled positive next g taken full =>
    cases came
    exact takeRefilled_extends refilled taken

private theorem round_extends (came : d.round keep p = (.ok q, e)) : ∃ piece, p.Extends q piece := by
  obtain ⟨a, first⟩ := takeQueued_extends d keep p
  obtain ⟨b, second⟩ := gather_extends came
  exact ⟨_, first.trans second⟩

private theorem round_isText (d : Device σ) (keep : Bool) (p : Pass) : (d.round keep p).2.isText = d.isText := by
  have touches : Touches keep d (d.round keep p).2 := .trans (takeQueued_touches d p) (gather_touches _ _)
  exact congrArg OpenMode.text touches.left.mode

/-! Passes as deliveries -/

private theorem collect_eq (d : Device σ) (keep : Bool) (room : Nat) (p : Pass) :
    d.collect keep room p =
      match d.round keep p with
      | (.error e, d) => (.error e, d)
      | (.ok q, d) =>
        if d.isText && q.decided < q.filled.length then
          if q.strip.filled.length < q.filled.length ∧ p.decided < q.strip.decided ∧ p.decided < room then
            d.collect keep room q.strip
          else (.ok q.strip, d)
        else (.ok q, d) := by
  rw [collect]
  rfl

/-- In text mode a pass is its rounds. -/
private theorem collect_rounds {room : Nat} (text : d.isText = true) (collected : d.collect keep room p = (.ok q, e)) :
    ∃ pieces, Rounds keep d p pieces q e := by
  induction left : room - p.decided using Nat.strongRecOn generalizing d p with
  | ind _ ih =>
    subst left
    have same := round_isText d keep p
    rw [collect_eq] at collected
    rcases gathered : d.round keep p with ⟨failure | first, f⟩
    · rw [gathered] at collected
      cases collected
    · obtain ⟨piece, further⟩ := round_extends gathered
      rw [gathered] at collected same
      have text' : f.isText = true := same.trans text
      dsimp only at collected
      rw [text', Bool.true_and] at collected
      split at collected
      · next open_ =>
        have judged : first.judge = first.strip := if_pos (of_decide_eq_true open_)
        split at collected
        · next goes =>
          obtain ⟨pieces, rest⟩ := ih _ (by omega) text' collected rfl
          rw [← judged] at rest
          exact ⟨_, .more gathered further rest⟩
        · cases collected
          rw [← judged]
          exact ⟨_, .last gathered further⟩
      · next closed =>
        have judged : first.judge = first := if_neg (by simpa using closed)
        cases collected
        rw [← judged]
        exact ⟨_, .last gathered further⟩

private theorem Rounds.shows {raw : List UInt8} (rounds : Rounds keep d p pieces q e) (shows : p.Shows raw) :
    q.Shows (raw ++ pieces.flatten) := by
  induction rounds generalizing raw with
  | last gathered further =>
    rw [List.flatten_singleton]
    exact shows.judge further
  | more gathered further rest ih =>
    rw [List.flatten_cons, ← List.append_assoc]
    exact ih (shows.judge further)

/-- A pass over some bytes of a buffer leaves those before them alone, drops of them the carriage returns directly
before line feeds, and tells where what stays ends; every access is inside the buffer. A text that is delivered in
pieces, however it is cut, comes out as in one pass over all of it, and is judged from its last carriage return on if
that is still open; this is granted just if each piece finds room. So a reading pass in text mode comes to what one
pass over all the pieces of its rounds does. -/
theorem pieces_normalize_whole :
    (∀ s, normalize s =
      (List.range s.length).filterMap fun place => if PairAt s place then none else s[place]?) ∧
    (∀ (buffer : Array UInt8) (start stop : Nat), start ≤ stop → stop ≤ buffer.size →
      let kept := normalize ((buffer.toList.take stop).drop start)
      stripInPlace? buffer start stop = some (stripInPlace buffer start stop) ∧
        stripInPlace buffer start stop =
          ((buffer.toList.take start ++ kept ++ buffer.toList.drop (start + kept.length)).toArray, start + kept.length)) ∧
    (∀ (buffer : List UInt8) (offset : Nat) (pieces : List (List UInt8)),
      let whole := stripInPlace pieces.flatten.toArray 0 pieces.flatten.length
      let p := (Pass.start buffer offset).deliverAll pieces
      p.filled = whole.1.toList.take whole.2 ∧ p.Shows pieces.flatten ∧
        ∀ q, (Pass.start buffer offset).deliverAll? pieces = some q ↔ Pass.Fits buffer.length [] pieces ∧ q = p) ∧
    ∀ {σ : Type} [Medium σ] (d e : Device σ) (keep : Bool) (buffer : List UInt8) (q : Pass), d.isText = true →
      d.collect keep buffer.length (.start buffer d.cursor) = (.ok q, e) →
      ∃ pieces, Rounds keep d (.start buffer d.cursor) pieces q e ∧ q.Shows pieces.flatten := by
  refine ⟨normalize_eq_filterMap, fun buffer start stop before inside => ?_, fun buffer offset pieces => ?_,
    fun d e keep buffer q text collected => ?_⟩
  · exact ⟨stripInPlace?_eq inside start, stripInPlace_eq before inside⟩
  · have shows := (Pass.Shows.start buffer offset).deliverAll pieces
    obtain ⟨-, -, whole⟩ := stripInPlace_spec pieces.flatten.toArray 0 pieces.flatten.length (Nat.zero_le _) (Nat.le_refl _)
    rw [List.take_zero, List.nil_append, List.drop_zero, List.toList_toArray, List.take_length] at whole
    refine ⟨shows.filled.trans whole.symm, shows, fun q => ?_⟩
    exact Pass.deliverAll?_eq_some_iff (.start buffer offset) (Nat.zero_add _)
  · obtain ⟨pieces, rounds⟩ := collect_rounds text collected
    exact ⟨pieces, rounds, rounds.shows (.start buffer d.cursor)⟩

/-- A memory whose second line end is cut by a buffer of four bytes. -/
def cutMemory : Device Medium.Memory :=
  ((ofMedium (Medium.Memory.ofHandle (Handle.ofFixed [] [97, 13, 10, 13, 13, 10, 98])) ⟨2, 1, 0, false⟩).openWith
    (.forReading false true true)).2

/-- A pass that ends between a carriage return and its line feed keeps it. Line ends that are cut by pieces go as
whole ones do, and so make room for a text that is longer than the buffer. -/
theorem pieces_normalize_whole_cut :
    stripInPlace? #[97, 13, 10, 13, 13, 10, 98] 1 5 = some (#[97, 10, 13, 13, 13, 10, 98], 4) ∧
    Pass.Fits 5 [] [[97, 13], [13], [10, 13], [10]] ∧
    (∃ p, (Pass.start [0, 0, 0, 0, 0] 0).deliverAll? [[97, 13], [13], [10, 13], [10]] = some p ∧
      p.filled = [97, 13, 10, 10]) ∧
    cutMemory.isText = true ∧
    ∃ q e pieces, cutMemory.collect false 4 (.start [0, 0, 0, 0] cutMemory.cursor) = (.ok q, e) ∧
      Rounds false cutMemory (.start [0, 0, 0, 0] cutMemory.cursor) pieces q e ∧
        normalize pieces.flatten = [97, 10, 13, 13] := by
  obtain ⟨-, strips, delivers, passes⟩ := pieces_normalize_whole
  obtain ⟨granted, stripped⟩ := strips #[97, 13, 10, 13, 13, 10, 98] 1 5 (by decide) (by decide)
  obtain ⟨-, shows, room⟩ := delivers [0, 0, 0, 0, 0] 0 [[97, 13], [13], [10, 13], [10]]
  have fits : Pass.Fits 5 [] [[97, 13], [13], [10, 13], [10]] := ⟨by decide, by decide, by decide, by decide, trivial⟩
  have text : cutMemory.isText = true := by decide
  have filled : (cutMemory.collect false 4 (.start [0, 0, 0, 0] cutMemory.cursor)).1.toOption.map Pass.filled =
      some [97, 10, 13, 13] := by
    decide +kernel
  refine ⟨granted.trans (congrArg some stripped), fits, ⟨_, (room _).mpr ⟨fits, rfl⟩, shows.filled⟩, text, ?_⟩
  rcases collected : cutMemory.collect false 4 (.start [0, 0, 0, 0] cutMemory.cursor) with ⟨failure | q, e⟩
  · rw [collected] at filled
    cases filled
  · obtain ⟨pieces, rounds, shown⟩ := passes cutMemory e false [0, 0, 0, 0] q text collected
    rw [collected] at filled
    exact ⟨q, e, pieces, rfl, rounds, shown.filled.symm.trans (Option.some.inj filled)⟩

end ByteFlow.Device
