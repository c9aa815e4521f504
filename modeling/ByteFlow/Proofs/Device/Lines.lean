import ByteFlow.Proofs.Device.Pushback
import ByteFlow.Proofs.Device.Reached
import ByteFlow.Proofs.Newline.Lines

/-! Lines are read as they stand in what is to come, wherever the pieces that it comes in begin and end. -/
namespace ByteFlow.Device
open Medium Newline

/-- The most bytes that a call for a line may give, 0 for no bound; a buffer has to have room for one byte and
the zero behind the line. -/
def Action.lineBound? : Action → Option Nat
  | .readLine n => some n
  | .readLineInto room => if 2 ≤ room then some (room - 1) else none
  | _ => none

section
variable {σ : Type} [Medium σ]

/-- Calls for lines give those of `s`, as text mode shows it: any call the first one, and calls after one another
the next ones. Into a buffer comes the line with a zero byte behind it. -/
structure ReadsLines (d : Device σ) (s : List UInt8) : Prop where
  first : ∀ n, (d.readLine n).1.map Handle.content = .ok (lineUpTo n (shown d.isText s))
  into : ∀ buffer, 2 ≤ buffer.length →
    ∃ line, line = lineUpTo (buffer.length - 1) (shown d.isText s) ∧ line.length < buffer.length ∧
      (d.readLineOver buffer).1 = .ok (line.length, line ++ 0 :: buffer.drop (line.length + 1))
  next : ∀ actions bounds, actions.map Action.lineBound? = bounds.map some →
    (d.performAll actions).1.map (Except.map Reply.content) = (linesUpTo bounds (shown d.isText s)).map .ok

/-- What is to come decides, and not what brings it. -/
private theorem ReadsLines.agree {τ : Type} [Medium τ] {d : Device σ} {e : Device τ} {s : List UInt8}
    (reads : d.ReadsLines s)
    (reads' : e.ReadsLines s) (text : d.isText = e.isText) (n : Nat) :
    (d.readLine n).1.map Handle.content = (e.readLine n).1.map Handle.content := by
  rw [reads.first, reads'.first, text]

end

variable {σ : Type} [Medium σ] [Source σ] {d e : Device σ} {room n : Nat} {before s raw t bytes : List UInt8}

/-- From a steady medium a call for a line gives all that it may of the first one, and leaves the rest. -/
private theorem Portion.eq_line (portion : d.Portion room s raw t bytes) (ends : d.EndsLine room bytes t)
    (steady : Source.Steady d.medium) :
    bytes = (firstLine (shown d.isText s)).take room ∧ shown d.isText t = (shown d.isText s).drop bytes.length := by
  obtain ⟨one, done⟩ := ends
  have shows : bytes = shown d.isText raw := portion.shows fun _ => steady
  have all : shown d.isText s = bytes ++ shown d.isText t := by
    rw [portion.split, shown_append (portion.whole steady), shows]
  constructor
  · rw [all]
    apply one.eq_take_firstLine portion.fits
    exact (done steady).imp_right (Or.imp_right (shown_eq_nil_iff d.isText t).mpr)
  · rw [all, List.drop_left]

/-- What a call for a line of up to `n` bytes gives and leaves. -/
def TakesLine (d : Device σ) (before s : List UInt8) (n : Nat) (result : Except Failure (List UInt8) × Device σ) : Prop :=
  ∃ raw t, result.1 = .ok (lineUpTo n (shown d.isText s)) ∧ s = raw ++ t ∧
    shown d.isText t = (shown d.isText s).drop (lineUpTo n (shown d.isText s)).length ∧ d.Reads result.2 before raw t

private theorem Delivers.takesLine {result : Except Failure (List UInt8) × Device σ} {bound : Nat}
    (delivers : d.Delivers before s (if n = 0 then bound else n) (d.EndsLine (if n = 0 then bound else n)) result)
    (steady : Source.Steady d.medium) (unbounded : n = 0 → s.length ≤ bound) : d.TakesLine before s n result := by
  obtain ⟨failure | bytes, e⟩ := result
  · exact absurd steady delivers.2
  · obtain ⟨raw, t, portion, ends, reads⟩ := delivers
    obtain ⟨line, rest⟩ := portion.eq_line ends steady
    rw [take_firstLine_eq fun zero => (length_shown_le _ s).trans (unbounded zero)] at line
    subst line
    exact ⟨raw, t, rfl, portion.split, rest, reads⟩

/-- A device open for reading with `s` to come, over a medium that gives bytes when it has some. -/
structure Gives (d : Device σ) (before s : List UInt8) : Prop where
  ready : d.Ready before s
  able : d.readObstacle? = none
  short : before.length + s.length ≤ Word.maxValue
  possible : d.config.bufferSize < Word.requestLimit
  steady : Source.Steady d.medium

namespace Gives

theorem after (gives : d.Gives before (raw ++ t)) (reads : d.Reads e before raw t) :
    e.Gives (stay (d.keeps false) before raw) t := by
  have config : e.config = d.config := reads.kin.config
  refine ⟨reads.ready, reads.readObstacle?.trans gives.able, ?_, config ▸ gives.possible, reads.steady_iff.mpr gives.steady⟩
  have stays := length_stay_le (d.keeps false) before raw
  have short := gives.short
  simp only [List.length_append] at short
  omega

theorem readLine (gives : d.Gives before s) (n : Nat) :
    d.TakesLine before s n ((d.readLine n).1.map Handle.content, (d.readLine n).2) := by
  have short := gives.short
  have delivers := readLine_delivers gives.ready gives.able short gives.possible n
  apply delivers.takesLine gives.steady
  omega

private theorem readLineInto (gives : d.Gives before s) (enough : 2 ≤ room) :
    d.TakesLine before s (room - 1) (d.readLineInto room) := by
  have delivers := readLineInto_delivers gives.ready gives.able gives.short gives.possible enough
  have some : room - 1 ≠ 0 := by omega
  have bounded : (if room - 1 = 0 then 0 else room - 1) = room - 1 := if_neg some
  rw [← bounded] at delivers
  apply delivers.takesLine gives.steady
  intro zero
  contradiction

private theorem perform (gives : d.Gives before s) {action : Action} (asks : action.lineBound? = some n) :
    d.TakesLine before s n ((d.perform action).1.map Reply.content, (d.perform action).2) := by
  cases action with
  | readLine m =>
    obtain rfl : m = n := by simpa [Action.lineBound?] using asks
    rw [Device.perform, answer_map]
    exact gives.readLine m
  | readLineInto room =>
    obtain ⟨enough, rfl⟩ : 2 ≤ room ∧ room - 1 = n := by simpa [Action.lineBound?] using asks
    rw [Device.perform, answer_bytes]
    exact gives.readLineInto enough
  | _ => cases asks

/-- Calls one after the other take one line each. -/
private theorem performAll (gives : d.Gives before s) (actions : List Action) (bounds : List Nat)
    (ask : actions.map Action.lineBound? = bounds.map some) :
    (d.performAll actions).1.map (Except.map Reply.content) = (linesUpTo bounds (shown d.isText s)).map .ok := by
  -- over the calls: each takes its line off and leaves a device of the same kind with the rest to come
  induction actions generalizing d before s bounds with
  | nil =>
    obtain rfl : bounds = [] := by simpa using ask.symm
    rfl
  | cons action rest ih =>
    obtain ⟨n, bounds, rfl⟩ : ∃ n more, bounds = n :: more := by
      apply List.exists_cons_of_ne_nil
      rintro rfl
      cases ask
    simp only [List.map_cons, List.cons.injEq] at ask
    obtain ⟨raw, t, line, rfl, left, reads⟩ := gives.perform ask.1
    have later := ih (gives.after reads) bounds ask.2
    rw [reads.isText, left] at later
    simp only [Device.performAll, List.map_cons, linesUpTo, later]
    exact congrArg (· :: _) line

private theorem readsLines (gives : d.Gives before s) : d.ReadsLines s := by
  refine ⟨?first, ?into, gives.performAll⟩
  case first =>
    intro n
    obtain ⟨-, -, line, -⟩ := gives.readLine n
    exact line
  case into =>
    intro buffer enough
    obtain ⟨-, -, line, -⟩ := gives.readLineInto enough
    refine ⟨_, rfl, ?_, ?_⟩
    · have some : buffer.length - 1 ≠ 0 := by omega
      have fits := length_lineUpTo_le some (shown d.isText s)
      omega
    · simp only [readLineOver]
      generalize d.readLineInto buffer.length = result at line
      obtain ⟨_, e⟩ := result
      cases line
      rfl

end Gives

theorem Reached.gives {d : Device Pipe} {config : Config} (reached : Reached config d)
    (possible : config.bufferSize < Word.requestLimit) (able : d.readObstacle? = none) (unblocked : d.medium.readLimit ≠ some 0) :
    d.Gives d.retained d.stream := by
  have orderly := reached.orderly possible
  exact ⟨orderly.ready, able, orderly.short_iff.mp reached.short, orderly.possible, unblocked⟩

theorem InUse.gives {d : Device Medium.Memory} (inUse : InUse d 0) (able : d.readObstacle? = none) :
    d.Gives [] (d.medium.data.content.drop d.pos) := by
  have grounded := inUse.grounded
  have there : d.remaining = d.medium.data.content.drop d.pos := grounded.stands grounded.random
  rw [← there]
  exact ⟨grounded.ready, able, grounded.short, grounded.possible, trivial⟩

/-- Of a device, over a pipe that gives bytes when it has some or over memory, the next line is the first one of what
is to come, however that is queued, fed and cut by fills. In text mode the line ends are those that text mode shows. -/
theorem lines_read_whole :
    (∀ (config : Config) (d : Device Pipe), config.bufferSize < Word.requestLimit → Reached config d →
      d.readObstacle? = none → d.medium.readLimit ≠ some 0 → d.ReadsLines d.stream) ∧
    ∀ d : Device Medium.Memory, InUse d 0 → d.readObstacle? = none →
      d.ReadsLines (d.medium.data.content.drop d.pos) := by
  constructor
  · intro config d possible reached able unblocked
    exact (reached.gives possible able unblocked).readsLines
  · intro d inUse able
    exact (inUse.gives able).readsLines

/-- Two lines are fed, of which the first is cut within its line end, and read on in a transaction. -/
def linesPiped : List Event :=
  [.remote (.feed [] 0 (Handle.ofFixed [] [9, 97, 98, 13])), .remote (.feed [] 0 (Handle.ofFixed [] [10, 99])),
    .remote (.limitReads (some 1)), .call (.openWith (.forReading false true true)), .call .startTransaction, .call .getByte]

/-- The lines in memory, opened to read and to write. -/
def linesHeld : Device Medium.Memory :=
  ((ofMedium (Medium.Memory.ofHandle (Handle.ofFixed [] [9, 97, 98, 13, 10, 99])) ⟨2, 1, 0, false⟩).openWith
    (.forReading true true false)).2

theorem lines_read_whole_cut :
    ∃ d e, d = (ofMedium Pipe.empty ⟨2, 1, 0, false⟩).afterAll linesPiped ∧ e = (linesHeld.performAll [.getByte]).2 ∧
      (d.readLineOver [7, 7, 7, 7, 7]).1 = .ok (3, [97, 98, 10, 0, 7]) ∧
      (d.performAll [.readLine 2, .readLine 0, .readLineInto 9, .readLine 1]).1.map (Except.map Reply.content) =
        [.ok [97, 98], .ok [10], .ok [99], .ok []] ∧
      ∀ n, (d.readLine n).1.map Handle.content = (e.readLine n).1.map Handle.content := by
  obtain ⟨d, piped⟩ : ∃ d, d = (ofMedium Pipe.empty ⟨2, 1, 0, false⟩).afterAll linesPiped := ⟨_, rfl⟩
  obtain ⟨e, held⟩ : ∃ e, e = (linesHeld.performAll [.getByte]).2 := ⟨_, rfl⟩
  have started : Reached ⟨2, 1, 0, false⟩ (ofMedium Pipe.empty ⟨2, 1, 0, false⟩) := .fresh
  have reached := started.afterAll linesPiped (by decide +kernel)
  rw [← piped] at reached
  have able : d.readObstacle? = none := by rw [piped]; decide +kernel
  have unblocked : d.medium.readLimit ≠ some 0 := by rw [piped]; decide +kernel
  have stream : d.stream = [97, 98, 13, 10, 99] := by rw [piped]; decide +kernel
  have text : d.isText = true := by rw [piped]; decide +kernel
  have reads := lines_read_whole.1 _ d (by decide) reached able unblocked
  rw [stream] at reads
  refine ⟨d, e, piped, held, ?into, ?calls, ?same⟩
  case into =>
    obtain ⟨line, same, -, into⟩ := reads.into [7, 7, 7, 7, 7] (by decide)
    obtain rfl : line = [97, 98, 10] := by rw [same, text]; decide
    exact into
  case calls =>
    have next := reads.next [.readLine 2, .readLine 0, .readLineInto 9, .readLine 1] [2, 0, 8, 1] (by decide)
    rw [text] at next
    exact next
  case same =>
    have opened : InUse linesHeld 0 :=
      .opened (d := ofMedium (Medium.Memory.ofHandle (Handle.ofFixed [] [9, 97, 98, 13, 10, 99])) ⟨2, 1, 0, false⟩)
        (.forReading true true false) rfl (by decide) rfl (by decide)
    have inUse := opened.performAll [.getByte] (by decide +kernel)
    have unread : linesHeld.pushedBackAll 0 [.getByte] = 0 := by decide +kernel
    rw [unread, ← held] at inUse
    have able' : e.readObstacle? = none := by rw [held]; decide +kernel
    have content : e.medium.data.content.drop e.pos = [97, 98, 13, 10, 99] := by rw [held]; decide +kernel
    have text' : e.isText = true := by rw [held]; decide +kernel
    have reads' := lines_read_whole.2 e inUse able'
    rw [content] at reads'
    exact reads.agree reads' (text.trans text'.symm)

end ByteFlow.Device
