import ByteFlow.Proofs.Device.Run
import Mathlib.Data.List.Forall2

/-! Reading text gives it with its line ends normalized, in whatever pieces it comes and is asked for. -/
namespace ByteFlow.Device
open Medium Newline

/-- What calls gave of a text up to a position, which never lies within a line end. The calls give
nothing any more just when they gave all. -/
structure Transcript (data : List UInt8) (actions : List Action) (results : List (List UInt8)) (pos : Nat) : Prop where
  inside : pos ≤ data.length
  given : results.flatten = normalize (data.take pos)
  left : normalize data = results.flatten ++ normalize (data.drop pos)
  whole : ¬ Parts (data.take pos) (data.drop pos)
  fits : List.Forall₂ (fun action bytes => ∃ n, action.asks = some n ∧ bytes.length ≤ n) actions results
  all : [] ∈ results → pos = data.length ∧ results.flatten = normalize data
  ends : data.length < actions.length → [] ∈ results

theorem length_le_flatten {results : List (List UInt8)} (some : [] ∉ results) :
    results.length ≤ results.flatten.length := by
  induction results with
  | nil => exact Nat.le_refl _
  | cons bytes rest ih =>
    rw [List.mem_cons, not_or] at some
    have := ih some.2
    have := List.length_pos_of_ne_nil (Ne.symm some.1)
    rw [List.flatten_cons, List.length_append, List.length_cons]
    omega

variable {σ : Type} [Medium σ] [Source σ] {d : Device σ} {room : Nat} {s raw t bytes data : List UInt8}

/-- Calls on a device that has a text in store leave a transcript of it. -/
private theorem performAll_transcript (ready : d.Ready [] data) (able : d.readObstacle? = none) (text : d.isText = true)
    (start : d.pos = 0) (idle : d.transaction = .idle) (small : data.length ≤ Word.maxValue)
    (possible : d.config.bufferSize < Word.requestLimit) (steady : Source.Steady d.medium) (actions : List Action)
    (asks : ∀ action ∈ actions, ∃ n, action.asks = some n ∧ 0 < n) :
    ∃ results, (d.performAll actions).1.map (Except.map Reply.content) = results.map .ok ∧
      Transcript data actions results (d.performAll actions).2.pos ∧
      (d.performAll actions).2.Ready [] (data.drop (d.performAll actions).2.pos) ∧
      d.Reads (d.performAll actions).2 [] (data.take (d.performAll actions).2.pos)
        (data.drop (d.performAll actions).2.pos) := by
  obtain ⟨results, raw, t, room, ok, portion, fits, last, reads⟩ :=
    performAll_delivers ready able (by rwa [List.length_nil, Nat.zero_add]) possible steady actions asks
  have pos : (d.performAll actions).2.pos = raw.length := by
    have := congrArg List.length portion.split
    have := Word.maxValue_lt_modulus
    rw [List.length_append] at *
    rw [reads.pos, start, Word.addWrapped_of_lt (by omega), Nat.zero_add]
  have shows := portion.shows fun _ => steady
  have whole := portion.whole steady text
  obtain rfl := portion.split
  rw [pos, List.take_left, List.drop_left]
  rw [text] at shows
  have shows : results.flatten = normalize raw := shows
  have all : [] ∈ results → raw.length = (raw ++ t).length ∧ results.flatten = normalize (raw ++ t) := by
    intro nothing
    rw [last nothing, List.append_nil]
    exact ⟨rfl, shows⟩
  refine ⟨results, ok, ⟨?_, ?_, ?_, ?_, fits, all, fun long => ?_⟩, ?_, reads⟩
  · rw [List.length_append]
    exact Nat.le_add_right ..
  · rw [List.take_left, shows]
  · rw [List.drop_left, shows, normalize_append raw t whole]
  · rwa [List.take_left, List.drop_left]
  · by_contra some
    have := length_le_flatten some
    have := length_normalize_le raw
    have := fits.length_eq
    rw [shows] at *
    rw [List.length_append] at long
    omega
  · have ready := reads.ready
    have goes : d.keeps false = false := by simp [Device.keeps, inTransaction, idle]
    rwa [goes] at ready

/-- A text that a pipe was fed, in any pieces and with reads capped anyhow, or that stands in memory, is
read in text mode with its line ends normalized, by any calls that ask for bytes. The position counts the
raw bytes: those behind it are what the pipe and the queue still hold. From memory, a read gives all it is
asked for. -/
theorem text_reads_normalize (data : List UInt8) (small : data.length ≤ Word.maxValue) (config : Config)
    (possible : config.bufferSize < Word.requestLimit) (unbuffered : Bool) (actions : List Action)
    (asks : ∀ action ∈ actions, ∃ n, action.asks = some n ∧ 0 < n) :
    (∀ limit pieces, limit ≠ some 0 → (pieces.flatMap fun piece => piece.2.content) = data →
      ∃ d, (ofMedium ((limited limit).feedAll pieces) config).openWith (.forReading false true unbuffered) = (.ok (), d) ∧
        ∃ results, (d.performAll actions).1.map (Except.map Reply.content) = results.map .ok ∧
          Transcript data actions results (d.performAll actions).2.pos ∧
          (d.performAll actions).2.readQueue.toList ++ (d.performAll actions).2.medium.waiting =
            data.drop (d.performAll actions).2.pos) ∧
    ∀ h, h.content = data →
      ∃ d, (ofMedium (Medium.Memory.ofHandle h) config).openWith (.forReading false true unbuffered) = (.ok (), d) ∧
        ∃ results, (d.performAll actions).1.map (Except.map Reply.content) = results.map .ok ∧
          Transcript data actions results (d.performAll actions).2.pos ∧
          ∀ n, ((d.performAll actions).2.read n).1.map Handle.content =
            .ok ((normalize (data.drop (d.performAll actions).2.pos)).take n) := by
  have normal := bufferSize_normalize possible
  refine ⟨fun limit pieces some fed => ?_, fun h content => ?_⟩
  · obtain ⟨d, opened, ready, able, mode, same, idle, start, stream, limit_eq⟩ := open_pipe limit pieces config true unbuffered
    have text : d.isText = true := by rw [isText, mode]; rfl
    have steady : Source.Steady d.medium := fun zero => some (limit_eq.symm.trans zero)
    rw [fed] at ready
    obtain ⟨results, ok, transcript, ready', reads⟩ :=
      performAll_transcript ready able text start idle small (by rwa [same]) steady actions asks
    refine ⟨d, opened, results, ok, transcript, ?_⟩
    obtain ⟨queued, has⟩ := ready'.supplies
    rw [has.bytes, List.nil_append]
    exact (has.streamed (reads.kin.sequential.trans stream)).symm
  · obtain ⟨d, opened, ready, able, mode, same, idle, start, -, -⟩ := open_memory h config false true unbuffered (content ▸ small)
    have text : d.isText = true := by rw [isText, mode]; rfl
    rw [content] at ready
    obtain ⟨results, ok, transcript, ready', reads⟩ :=
      performAll_transcript ready able text start idle small (by rwa [same]) trivial actions asks
    refine ⟨d, opened, results, ok, transcript, fun n => ?_⟩
    have config_eq : (d.performAll actions).2.config = d.config := reads.kin.config
    have delivers := read_delivers ready' (reads.readObstacle?.trans able) n (by rwa [config_eq, same])
    generalize (d.performAll actions).2.read n = result at delivers
    obtain ⟨failure | bytes, e⟩ := result
    · exact absurd trivial delivers.2
    · obtain ⟨raw, t, portion, fills, -⟩ := delivers
      have taken := portion.eq_take fills trivial
      rw [reads.isText, text] at taken
      exact congrArg Except.ok taken

/-- A text whose line ends are cut by the pieces it comes in. -/
def cutText : List (List StorageId × Handle) :=
  [([], Handle.ofFixed [] [97, 13]), ([], Handle.ofFixed [] [10, 13, 13, 10, 98])]

def mixedCalls : List Action :=
  [.read 1, .readLine 1, .getByte, .readInto [0, 0], .readLine 5, .read 3, .getByte, .read 1]

theorem text_reads_normalize_cut :
    (∃ d, (ofMedium ((limited (some 1)).feedAll cutText) ⟨2, 1, 0, false⟩).openWith (.forReading false true true) =
        (.ok (), d) ∧
      ∃ results : List (List UInt8), (d.performAll mixedCalls).1.map (Except.map Reply.content) = results.map .ok ∧
        results.flatten = [97, 10, 13, 10, 98] ∧ (d.performAll mixedCalls).2.pos = 7) ∧
    ∃ d, (ofMedium (Medium.Memory.ofHandle (Handle.ofFixed [] [97, 13, 10, 13, 13, 10, 98])) ⟨2, 1, 0, false⟩).openWith
        (.forReading false true true) = (.ok (), d) ∧
      ∃ results : List (List UInt8), (d.performAll mixedCalls).1.map (Except.map Reply.content) = results.map .ok ∧
        results.flatten = [97, 10, 13, 10, 98] ∧ (d.performAll mixedCalls).2.pos = 7 := by
  obtain ⟨fed, held⟩ := text_reads_normalize [97, 13, 10, 13, 13, 10, 98] (by decide) ⟨2, 1, 0, false⟩ (by decide) true
    mixedCalls (by simp [mixedCalls, Action.asks])
  obtain ⟨d, opened, results, ok, transcript, -⟩ := fed (some 1) cutText (by decide) rfl
  obtain ⟨e, opened', results', ok', transcript', -⟩ := held (Handle.ofFixed [] [97, 13, 10, 13, 13, 10, 98]) rfl
  obtain ⟨pos, all⟩ := transcript.all (transcript.ends (by decide))
  obtain ⟨pos', all'⟩ := transcript'.all (transcript'.ends (by decide))
  exact ⟨⟨d, opened, results, ok, all, pos⟩, e, opened', results', ok', all', pos'⟩

end ByteFlow.Device
