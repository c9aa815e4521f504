import ByteFlow.Medium.Scripted
import ByteFlow.Proofs.Device.Outgoing
import ByteFlow.Proofs.Device.Put
import ByteFlow.Proofs.Medium.Accepting

/-! What a write tells of the bytes that the medium accepted.
A write that passes its bytes on at once stops only where the medium takes none of what is left. What the
medium accepted is what goes out for the bytes that the write tells of, unless the medium took the carriage
return of a widened line end and then not its line feed: that carriage return is out, and untold. -/
namespace ByteFlow.Device
open Byte Medium Newline

variable {σ : Type} [Medium σ]

/-- The medium came to its state by taking none of some bytes that were left. -/
def Stopped (m : σ) : Prop :=
  ∃ held before left, left ≠ [] ∧ (∀ n, (Medium.write held before left).1 = .ok n → n = 0) ∧
    (Medium.write held before left).2 = m

/-- The medium came to its state by taking a carriage return alone and then not the line feed behind it. -/
def Torn (m : σ) : Prop :=
  ∃ held before between, Medium.write held before [carriageReturn, lineFeed] = (.ok 1, between) ∧
    (∀ n, (Medium.write held between [lineFeed]).1 = .ok n → n = 0) ∧ (Medium.write held between [lineFeed]).2 = m

variable [Accepting σ] {d e f : Device σ} {sent more data : List UInt8}

/-- The device `e` is `d` after its medium accepted `sent`. -/
structure PassesOn (d e : Device σ) (sent : List UInt8) : Prop where
  sound : Accepting.Sound e.medium
  accepted : Accepting.accepted e.medium = Accepting.accepted d.medium ++ sent
  pos : e.pos = if d.sequential then d.pos else Word.addWrapped d.pos sent.length
  sequential : e.sequential = d.sequential
  mode : e.mode = d.mode
  config : e.config = d.config

/-- Bytes that are written are passed on at once. -/
structure Direct (d : Device σ) : Prop where
  sound : Accepting.Sound d.medium
  word : d.pos < Word.modulus
  unqueued : d.sequential = true → d.isBuffered = false

namespace PassesOn

private theorem nothing (direct : Direct d) : PassesOn d d [] := by
  refine ⟨direct.sound, (List.append_nil _).symm, ?_, rfl, rfl, rfl⟩
  rw [List.length_nil, Word.addWrapped_zero direct.word, ite_self]

private theorem trans (first : PassesOn d e sent) (second : PassesOn e f more) : PassesOn d f (sent ++ more) := by
  refine ⟨second.sound, ?_, ?_, second.sequential.trans first.sequential, second.mode.trans first.mode,
    second.config.trans first.config⟩
  · rw [second.accepted, first.accepted, List.append_assoc]
  · rw [second.pos, first.pos, first.sequential, List.length_append, ← Word.addWrapped_addWrapped]
    split <;> rfl

private theorem outgoing (sends : PassesOn d e sent) : e.outgoing = d.outgoing := by
  funext bytes
  rw [Device.outgoing, isText, sends.mode, sends.config]
  rfl

private theorem direct (sends : PassesOn d e sent) (direct : Direct d) : Direct e := by
  refine ⟨sends.sound, ?_, fun stream => ?_⟩
  · rw [sends.pos]
    split
    · exact direct.word
    · exact Nat.mod_lt _ (by decide)
  · rw [isBuffered, sends.mode]
    exact direct.unqueued (sends.sequential ▸ stream)

end PassesOn

/-- Offering stops where the medium takes none of what is left. -/
private theorem offer_accepts (sound : Accepting.Sound d.medium) (bytes : List UInt8) :
    ∃ n stop m, d.offer bytes = (n, stop, { d with medium := m }) ∧ n ≤ bytes.length ∧ Accepting.Sound m ∧
      Accepting.accepted m = Accepting.accepted d.medium ++ bytes.take n ∧
      (n < bytes.length → Stopped m) := by
  fun_induction offer d bytes with
  | case1 d bytes empty =>
    obtain rfl := List.isEmpty_iff.mp empty
    refine ⟨0, none, d.medium, rfl, Nat.le_refl 0, sound, (List.append_nil _).symm, fun short => ?_⟩
    exact absurd short (Nat.lt_irrefl 0)
  | case2 d bytes some e m wrote =>
    obtain ⟨same, sound'⟩ := Accepting.of_error sound wrote
    refine ⟨0, _, m, rfl, Nat.zero_le _, sound', same.trans (List.append_nil _).symm, fun _ => ?_⟩
    exact ⟨d.heldBesideMedium, d.medium, bytes, by simpa using some, by rw [wrote]; rintro _ ⟨⟩, by rw [wrote]⟩
  | case3 d bytes some count m wrote n d' shorter more stop e rest ih =>
    obtain ⟨accepted, sound'⟩ := Accepting.of_ok sound wrote
    obtain ⟨n', stop', m', offered, inside, sound'', others, stopped⟩ := ih sound'
    rw [rest] at offered
    cases offered
    rw [List.length_drop] at inside
    refine ⟨n + more, stop, m', rfl, by omega, sound'', ?_, fun short => ?_⟩
    · have first : bytes.take count = bytes.take n := by
        rw [List.take_eq_take_iff]
        omega
      show Accepting.accepted m' = _
      rw [others, accepted, first, List.take_add, List.append_assoc]
    · refine stopped ?_
      rw [List.length_drop]
      omega
  | case4 d bytes some count m wrote n d' full =>
    obtain ⟨accepted, sound'⟩ := Accepting.of_ok sound wrote
    have left : bytes ≠ [] := by simpa using some
    have positive := List.length_pos_of_ne_nil left
    have zero : count = 0 := by omega
    rw [zero, List.take_zero] at accepted
    refine ⟨0, none, m, rfl, Nat.zero_le _, sound', accepted, fun _ => ?_⟩
    refine ⟨d.heldBesideMedium, d.medium, bytes, left, ?_, by rw [wrote]⟩
    rw [wrote]
    rintro _ ⟨⟩
    exact zero

omit [Accepting σ] in
/-- Where no byte is taken, the medium is left with what it was offered. -/
private theorem offer_refused {b : UInt8} {stop : Option IoError} (offered : d.offer [b] = (0, stop, e)) :
    (∀ n, (Medium.write d.heldBesideMedium d.medium [b]).1 = .ok n → n = 0) ∧
      (Medium.write d.heldBesideMedium d.medium [b]).2 = e.medium := by
  rw [offer, if_neg (by simp)] at offered
  split at offered
  · next wrote =>
    cases offered
    rw [wrote]
    exact ⟨by rintro _ ⟨⟩, rfl⟩
  · next count m wrote =>
    dsimp only at offered
    split at offered
    · next shorter =>
      have took := (Prod.mk.inj offered).1
      omega
    · next full =>
      cases offered
      rw [wrote]
      rw [List.length_singleton] at full
      refine ⟨fun n told => ?_, rfl⟩
      cases told
      omega

omit [Accepting σ] in
/-- Of a widened line end one byte is taken only if it is torn. -/
private theorem offer_torn {stop : Option IoError} (offered : d.offer [carriageReturn, lineFeed] = (1, stop, e)) :
    Torn e.medium := by
  rw [offer, if_neg (by simp)] at offered
  split at offered
  · cases offered
  · next count m wrote =>
    dsimp only at offered
    split at offered
    · next shorter =>
      rw [List.length_cons, List.length_singleton] at shorter offered
      have one : count = 1 := by
        have took := (Prod.mk.inj offered).1
        omega
      subst one
      generalize rest : offer { d with medium := m } _ = result at offered
      obtain ⟨more, stop', f⟩ := result
      obtain ⟨rfl, rfl, rfl⟩ : more = 0 ∧ stop' = stop ∧ f = e := by simpa using offered
      obtain ⟨nothing, left⟩ := offer_refused rest
      exact ⟨d.heldBesideMedium, d.medium, m, wrote, nothing, left⟩
    · cases offered

/-- A piece is taken up to where the medium stops, and its write fails only if nothing was taken. -/
private theorem writePiece_passesOn (direct : Direct d) (bytes : List UInt8) :
    (∃ n e, d.writePiece bytes = (.ok n, e) ∧ n ≤ bytes.length ∧ PassesOn d e (bytes.take n) ∧
      (n < bytes.length → Stopped e.medium) ∧ (bytes = [carriageReturn, lineFeed] → n = 1 → Torn e.medium)) ∨
    ∃ failure e, d.writePiece bytes = (.error failure, e) ∧ PassesOn d e [] ∧ Stopped e.medium := by
  rw [writePiece]
  split
  · next empty =>
    obtain rfl := List.isEmpty_iff.mp empty
    refine .inl ⟨0, d, rfl, Nat.le_refl 0, .nothing direct, fun short => ?_, fun same => by cases same⟩
    exact absurd short (Nat.lt_irrefl 0)
  · next some =>
    have passed : ¬ (d.sequential && d.isBuffered) = true := by
      cases stream : d.sequential with
      | true => simp [direct.unqueued stream]
      | false => simp
    rw [if_neg passed]
    obtain ⟨n, stop, m, offered, inside, sound, accepted, stopped⟩ := offer_accepts direct.sound bytes
    have sends (errorString : String) : PassesOn d { d with
        medium := m
        mediumPos := if d.sequential then d.mediumPos else Word.addWrapped d.mediumPos n
        pos := if d.sequential then d.pos else Word.addWrapped d.pos n
        errorString := errorString } (bytes.take n) := by
      refine ⟨sound, accepted, ?_, rfl, rfl, rfl⟩
      rw [List.length_take, Nat.min_eq_left inside]
    have torn : bytes = [carriageReturn, lineFeed] → n = 1 → Torn m := by
      rintro rfl rfl
      exact offer_torn offered
    rw [offered]
    dsimp only
    rw [follow_eq, advance_eq]
    dsimp only
    cases stop with
    | none => exact .inl ⟨n, _, rfl, inside, sends d.errorString, stopped, torn⟩
    | some e =>
      dsimp only
      split
      · next zero =>
        subst zero
        exact .inr ⟨_, _, rfl, sends _, stopped (List.length_pos_of_ne_nil (by simpa using some))⟩
      · exact .inl ⟨n, _, rfl, inside, sends _, stopped, torn⟩

/-! Lines -/

/-- The result of writing `data` tells what was accepted, where `out` is what goes out for bytes. -/
def Tells (out : List UInt8 → List UInt8) (d : Device σ) (data : List UInt8) : Except Failure Nat × Device σ → Prop
  | (.error _, e) => PassesOn d e [] ∧ Stopped e.medium
  | (.ok n, e) => n ≤ data.length ∧
    (PassesOn d e (out (data.take n)) ∧ (n < data.length → Stopped e.medium) ∨
      PassesOn d e (out (data.take n) ++ [carriageReturn]) ∧ out [lineFeed] = [carriageReturn, lineFeed] ∧
        data[n]? = some lineFeed ∧ Torn e.medium)

/-- Where bytes go out as they are, a piece tells what was accepted. -/
private theorem writePiece_tells (direct : Direct d) {out : List UInt8 → List UInt8}
    (plain : ∀ n, out (data.take n) = data.take n) : Tells out d data (d.writePiece data) := by
  rcases writePiece_passesOn direct data with ⟨n, e, wrote, inside, sends, stopped, -⟩ | ⟨failure, e, failed, sends, stopped⟩
  · rw [wrote]
    exact ⟨inside, .inl ⟨by rwa [plain n], stopped⟩⟩
  · rw [failed]
    exact ⟨sends, stopped⟩

/-- Behind a line that was taken whole comes what the rest tells. -/
private theorem Tells.behind {body rest : List UInt8} (open_ : lineFeed ∉ body)
    (sends : PassesOn d e (body ++ [carriageReturn, lineFeed])) {result : Except Failure Nat × Device σ} :
    Tells expand e rest result → Tells expand d (body ++ lineFeed :: rest) (match result with
      | (.ok more, f) => (.ok (body.length + 1 + more), f)
      | (.error _, f) => (.ok (body.length + 1), f)) := by
  intro told
  have line (n : Nat) : expand ((body ++ lineFeed :: rest).take (body.length + 1 + n)) =
      body ++ [carriageReturn, lineFeed] ++ expand (rest.take n) := by
    rw [Nat.add_assoc, List.take_length_add_append, Nat.add_comm 1, List.take_succ_cons, expand_line open_]
  have length : (body ++ lineFeed :: rest).length = body.length + 1 + rest.length := by
    rw [List.length_append, List.length_cons]
    omega
  have next (n : Nat) : (body ++ lineFeed :: rest)[body.length + 1 + n]? = rest[n]? := by
    rw [List.getElem?_append_right (by omega), show body.length + 1 + n - body.length = n + 1 by omega,
      List.getElem?_cons_succ]
  obtain ⟨failure | more, f⟩ := result
  · obtain ⟨nothing, stopped⟩ := told
    refine ⟨by omega, .inl ⟨?_, fun _ => stopped⟩⟩
    show PassesOn d f (expand ((body ++ lineFeed :: rest).take (body.length + 1 + 0)))
    rw [line]
    exact sends.trans nothing
  · obtain ⟨inside, ⟨others, stopped⟩ | ⟨others, widens, feed, torn⟩⟩ := told
    · refine ⟨by omega, .inl ⟨?_, fun short => stopped (by omega)⟩⟩
      rw [line]
      exact sends.trans others
    · refine ⟨by omega, .inr ⟨?_, widens, (next more).trans feed, torn⟩⟩
      rw [line, List.append_assoc _ (expand _)]
      exact sends.trans others

/-- Behind a body that was taken whole comes a widened line end, which is taken, or torn, or refused. -/
private theorem lineEnd_tells (direct : Direct d) {body rest : List UInt8} (open_ : lineFeed ∉ body)
    (whole : PassesOn d e body)
    (others : ∀ {f : Device σ}, Direct f → Tells expand f rest (f.writeLines (Newline.lines rest))) :
    Tells expand d (body ++ lineFeed :: rest) (match e.writePiece [carriageReturn, lineFeed] with
      | (.error failure, f) => (if body.length = 0 then .error failure else .ok body.length, f)
      | (.ok k, f) =>
        if k ≠ 2 then (.ok body.length, f)
        else match f.writeLines (Newline.lines rest) with
          | (.ok more, f) => (.ok (body.length + 1 + more), f)
          | (.error _, f) => (.ok (body.length + 1), f)) := by
  have inside : body.length ≤ (body ++ lineFeed :: rest).length := by
    rw [List.length_append]
    omega
  have all : expand ((body ++ lineFeed :: rest).take body.length) = body := by
    rw [List.take_left, expand_of_notMem open_]
  rcases writePiece_passesOn (whole.direct direct) [carriageReturn, lineFeed] with
    ⟨k, f, wrote, few, sends, stopped, torn⟩ | ⟨failure, f, failed, sends, stopped⟩
  · have sent := whole.trans sends
    rw [wrote]
    dsimp only
    split
    · next broken =>
      rw [List.length_cons, List.length_singleton] at few stopped
      refine ⟨inside, ?_⟩
      rw [all]
      cases k with
      | zero =>
        rw [List.take_zero, List.append_nil] at sent
        exact .inl ⟨sent, fun _ => stopped (by omega)⟩
      | succ k =>
        -- one of two bytes is the carriage return, and the write does not tell of it
        obtain rfl : k = 0 := by omega
        refine .inr ⟨sent, rfl, ?_, torn rfl rfl⟩
        rw [List.getElem?_append_right (Nat.le_refl _), Nat.sub_self, List.getElem?_cons_zero]
    · next both =>
      obtain rfl : k = 2 := by simpa using both
      exact (others (sent.direct direct)).behind open_ sent
  · have sent := whole.trans sends
    rw [List.append_nil] at sent
    rw [failed]
    dsimp only
    split
    · next empty =>
      obtain rfl := List.length_eq_zero_iff.mp empty
      exact ⟨sent, stopped⟩
    · exact ⟨inside, .inl ⟨by rwa [all], fun _ => stopped⟩⟩

private theorem writeLines_tells (direct : Direct d) (data : List UInt8) :
    Tells expand d data (d.writeLines (Newline.lines data)) := by
  induction data using text_induction generalizing d with
  | empty => exact ⟨Nat.le_refl 0, .inl ⟨.nothing direct, fun short => absurd short (Nat.lt_irrefl 0)⟩⟩
  | rest body open_ content =>
    have unended : (body.getLast? == Option.some lineFeed) = false := by
      rw [beq_eq_false_iff_ne]
      exact fun last => open_ (List.mem_of_getLast? last)
    rw [lines_of_notMem open_ content, writeLines, unended, if_neg Bool.false_ne_true]
    have told : Tells expand d body _ :=
      writePiece_tells direct fun n => expand_of_notMem fun member => open_ (List.mem_of_mem_take member)
    generalize d.writePiece body = result at told
    obtain ⟨failure | n, e⟩ := result
    · exact told
    · dsimp only
      rw [if_pos (by simp)]
      exact told
  | line body rest open_ ih =>
    rw [lines_append open_, writeLines, List.getLast?_concat, List.dropLast_concat, BEq.rfl, if_pos rfl]
    rcases writePiece_passesOn direct body with ⟨n, e, wrote, inside, sends, stopped, -⟩ | ⟨failure, e, failed, sends, stopped⟩
    · rw [wrote]
      dsimp only
      split
      · next short =>
        have short : n < body.length := by simpa using short
        have longer : body.length < (body ++ lineFeed :: rest).length := by simp
        have part : expand ((body ++ lineFeed :: rest).take n) = body.take n := by
          rw [List.take_append_of_le_length inside]
          exact expand_of_notMem fun member => open_ (List.mem_of_mem_take member)
        exact ⟨by omega, .inl ⟨by rwa [part], fun _ => stopped short⟩⟩
      · next whole =>
        obtain rfl : n = body.length := by
          simp only [Bool.or_eq_true, decide_eq_true_eq, not_or] at whole
          omega
        rw [List.take_length] at sends
        exact lineEnd_tells direct open_ sends ih
    · rw [failed]
      exact ⟨sends, stopped⟩

/-! Whole writes -/

/-- What follows a write touches only what was read ahead. -/
private theorem PassesOn.afterWrite (sends : PassesOn d e sent) (direct : Direct d) (place : Nat) :
    PassesOn d (e.afterWrite place) sent ∧ (e.afterWrite place).medium = e.medium := by
  rw [Device.afterWrite]
  split
  · exact ⟨{ sends with }, rfl⟩
  · next stream =>
    rw [if_neg (by simp [(sends.direct direct).unqueued (by simpa using stream)])]
    exact ⟨sends, rfl⟩

private theorem sync_passesOn (direct : Direct d) : PassesOn d d.sync.2 [] := by
  have still := PassesOn.nothing direct
  rw [sync]
  split
  · exact still
  · obtain ⟨same, sound⟩ := Accepting.seek_spec d.heldBesideMedium d.pos direct.sound
    split
    · next sought =>
      rw [sought] at same sound
      exact { still with sound := sound, accepted := same.trans (List.append_nil _).symm }
    · next sought =>
      rw [sought] at same sound
      exact { still with sound := sound, accepted := same.trans (List.append_nil _).symm }

omit [Medium σ] [Accepting σ] in
private theorem widened {d : Device σ} (widens : d.outgoing [lineFeed] = [carriageReturn, lineFeed]) :
    (d.isText && d.config.crlfOnWrite) = true := by
  by_contra plain
  rw [outgoing, if_neg plain] at widens
  cases widens

/-- What goes out tells what was accepted. -/
private theorem outgoing_tells (direct : Direct d) (data : List UInt8) :
    Tells d.outgoing d data
      (if d.isText && d.config.crlfOnWrite then d.writeLines (Newline.lines data) else d.writePiece data) := by
  split
  · next widens =>
    have expands : d.outgoing = expand := by
      funext bytes
      rw [outgoing, if_pos widens]
    rw [expands]
    exact writeLines_tells direct data
  · next plain => exact writePiece_tells direct fun n => if_neg plain

/-- A write is refused, or cannot find the place, or tells what was accepted. -/
private theorem write_tells (direct : Direct d) (data : List UInt8) :
    (∃ failure e, d.write data = (.error failure, e) ∧ PassesOn d e []) ∨ Tells d.outgoing d data (d.write data) := by
  have still := PassesOn.nothing direct
  rw [write]
  cases d.writeObstacle? with
  | some kind => exact .inl ⟨_, _, rfl, { still with }⟩
  | none =>
    dsimp only
    split
    · next empty =>
      obtain rfl := List.isEmpty_iff.mp empty
      refine .inr ⟨Nat.le_refl 0, .inl ⟨?_, fun short => absurd short (Nat.lt_irrefl 0)⟩⟩
      rwa [List.take_nil, outgoing_nil]
    · have synced := sync_passesOn direct
      generalize d.sync = found at synced
      obtain ⟨failure | _, d'⟩ := found
      · exact .inl ⟨_, _, rfl, { synced with }⟩
      · right
        have told := outgoing_tells (synced.direct direct) data
        dsimp only
        generalize (if d'.isText && d'.config.crlfOnWrite then d'.writeLines (Newline.lines data)
          else d'.writePiece data) = result at told
        rw [synced.outgoing] at told
        obtain ⟨failure | n, e⟩ := result
        · exact ⟨synced.trans told.1, told.2⟩
        · obtain ⟨inside, ⟨sends, stopped⟩ | ⟨sends, torn⟩⟩ := told
          · obtain ⟨after, there⟩ := (synced.trans sends).afterWrite direct d'.pos
            exact ⟨inside, .inl ⟨after, there ▸ stopped⟩⟩
          · obtain ⟨after, there⟩ := (synced.trans sends).afterWrite direct d'.pos
            exact ⟨inside, .inr ⟨after, there ▸ torn⟩⟩

/-! Writing on -/

omit [Accepting σ] in
/-- Writes what is left again and again, and tells how many bytes were accepted. -/
def writeOn (d : Device σ) (data : List UInt8) : Nat → Nat × Device σ
  | 0 => (0, d)
  | times + 1 =>
    let (result, e) := d.write data
    let n := result.toOption.getD 0
    let (more, f) := writeOn e (data.drop n) times
    (n + more, f)

/-- Where no line end is torn, a write tells all that was accepted. -/
private theorem write_passesOn (direct : Direct d)
    (untorn : (d.isText && d.config.crlfOnWrite) = true → ∀ m : σ, ¬ Torn m)
    (data : List UInt8) : PassesOn d (d.write data).2 (d.outgoing (data.take ((d.write data).1.toOption.getD 0))) := by
  rcases write_tells direct data with ⟨failure, e, failed, sends⟩ | told
  · rw [failed]
    exact (d.outgoing_nil).symm ▸ sends
  · generalize d.write data = result at told
    obtain ⟨failure | n, e⟩ := result
    · exact (d.outgoing_nil).symm ▸ told.1
    · obtain ⟨-, ⟨sends, -⟩ | ⟨-, widens, -, torn⟩⟩ := told
      · exact sends
      · exact absurd torn (untorn (widened widens) e.medium)

/-- What is written on is neither lost nor repeated. -/
private theorem writeOn_passesOn (direct : Direct d)
    (untorn : (d.isText && d.config.crlfOnWrite) = true → ∀ m : σ, ¬ Torn m)
    (data : List UInt8) (times : Nat) :
    PassesOn d (d.writeOn data times).2 (d.outgoing (data.take (d.writeOn data times).1)) := by
  induction times generalizing d data with
  | zero => exact (d.outgoing_nil).symm ▸ PassesOn.nothing direct
  | succ times ih =>
    have first := write_passesOn direct untorn data
    rw [writeOn]
    generalize d.write data = result at first
    obtain ⟨result, e⟩ := result
    dsimp only at first ⊢
    have text : e.isText = d.isText := by rw [isText, first.mode, isText]
    have second := ih (first.direct direct) (by rwa [text, first.config]) (data.drop (result.toOption.getD 0))
    rw [first.outgoing] at second
    generalize e.writeOn (data.drop (result.toOption.getD 0)) times = others at second
    rw [List.take_add, outgoing_append]
    exact first.trans second

/-- A write that passes its bytes on at once, over any medium that may take some of them at each call or fail, tells
how many bytes were accepted with all that goes out for them, and fails only if nothing was accepted. What was
accepted besides is at most the carriage return of a line end that the medium tore. Where none is torn, writing on
with what is left neither loses nor repeats any. -/
theorem write_tells_accepted (sound : Accepting.Sound d.medium) (word : d.pos < Word.modulus)
    (unqueued : d.sequential = true → d.isBuffered = false) (data : List UInt8) :
    (∃ sent, Accepting.accepted (d.write data).2.medium = Accepting.accepted d.medium ++ sent ∧
      (d.write data).2.pos = (if d.sequential then d.pos else Word.addWrapped d.pos sent.length) ∧
      match (d.write data).1 with
      | .error _ => sent = [] ∧ (d.write data).2.pos = d.pos
      | .ok n => n ≤ data.length ∧
        (sent = d.outgoing (data.take n) ∧ (n < data.length → Stopped (d.write data).2.medium) ∨
          sent = d.outgoing (data.take n) ++ [carriageReturn] ∧ (d.isText && d.config.crlfOnWrite) = true ∧
            data[n]? = some lineFeed ∧ Torn (d.write data).2.medium)) ∧
    ∀ times, ((d.isText && d.config.crlfOnWrite) = true → ∀ m : σ, ¬ Torn m) →
      Accepting.accepted (d.writeOn data times).2.medium =
        Accepting.accepted d.medium ++ d.outgoing (data.take (d.writeOn data times).1) := by
  have direct : Direct d := ⟨sound, word, unqueued⟩
  have failed {f : Device σ} (sends : PassesOn d f []) : f.pos = d.pos := by
    rw [sends.pos, List.length_nil, Word.addWrapped_zero word, ite_self]
  refine ⟨?_, fun times untorn => (writeOn_passesOn direct untorn data times).accepted⟩
  rcases write_tells direct data with ⟨failure, e, wrote, sends⟩ | told
  · rw [wrote]
    exact ⟨[], sends.accepted, sends.pos, rfl, failed sends⟩
  · generalize d.write data = result at told
    obtain ⟨failure | n, e⟩ := result
    · exact ⟨[], told.1.accepted, told.1.pos, rfl, failed told.1⟩
    · obtain ⟨inside, ⟨sends, stopped⟩ | ⟨sends, widens, feed, torn⟩⟩ := told
      · exact ⟨_, sends.accepted, sends.pos, inside, .inl ⟨rfl, stopped⟩⟩
      · exact ⟨_, sends.accepted, sends.pos, inside, .inr ⟨rfl, widened widens, feed, torn⟩⟩

/-- A device opened for writing alone, over a medium with a plan for its writes, with line ends widened in text mode. -/
def planned (sequential text unbuffered : Bool) (writes : List Outcome) : Device (Traced Scripted) :=
  ((ofMedium ⟨⟨sequential, [], 0, [], [], writes, [], [], [], []⟩, []⟩ ⟨16, 0, 0, true⟩).openWith
    { OpenMode.writeOnly with text := text, unbuffered := unbuffered }).2

/-- A text on a random-access medium, which fails in the second line. -/
def cutShort : Device (Traced Scripted) := planned false true false [.cap 1, .cap 2, .fail ⟨.other, "full"⟩]

/-- A stream that takes one byte, then none, then fails. -/
def fitful : Device (Traced Scripted) := planned true false true [.cap 1, .cap 0, .fail ⟨.other, "full"⟩]

theorem write_tells_accepted_cut :
    (cutShort.write [97, 10, 98, 10]).1 = .ok 2 ∧
      Accepting.accepted (cutShort.write [97, 10, 98, 10]).2.medium = [97, 13, 10] ∧
      (fitful.writeOn [97, 10, 98] 3).1 = 3 ∧
      Accepting.accepted (fitful.writeOn [97, 10, 98] 3).2.medium = [97, 10, 98] := by
  have told : (cutShort.write [97, 10, 98, 10]).1 = .ok 2 := by decide +kernel
  have all : (fitful.writeOn [97, 10, 98] 3).1 = 3 := by decide +kernel
  refine ⟨told, ?_, all, ?_⟩
  · obtain ⟨⟨sent, accepted, -, which⟩, -⟩ := write_tells_accepted (d := cutShort) trivial (by decide +kernel)
      (by decide +kernel) [97, 10, 98, 10]
    rw [told] at which
    obtain ⟨-, ⟨rfl, -⟩ | ⟨-, -, feed, -⟩⟩ := which
    · exact accepted.trans (by decide +kernel)
    · exact absurd feed (by decide)
  · obtain ⟨-, on⟩ := write_tells_accepted (d := fitful) trivial (by decide +kernel) (by decide +kernel) [97, 10, 98]
    have accepted := on 3 fun widens => absurd widens (by decide +kernel)
    rw [all] at accepted
    exact accepted.trans (by decide +kernel)

/-- A stream that takes a carriage return and then not the line feed. -/
def tearing : Device (Traced Scripted) := planned true true true [.cap 1, .cap 1, .cap 0]

/-- The write tells of one byte, and the medium accepted two; when the rest is written again, the carriage return
goes out once more. -/
theorem write_tells_torn : Accepting.accepted tearing.medium = [] ∧ (tearing.write [97, 10]).1 = .ok 1 ∧
    Accepting.accepted (tearing.write [97, 10]).2.medium = [97, 13] ∧ tearing.outgoing ([97, 10].take 1) = [97] ∧
    (tearing.writeOn [97, 10] 2).1 = 2 ∧ (tearing.writeOn [97, 10] 2).2.medium.medium.written = [97, 13, 13, 10] ∧
    tearing.outgoing [97, 10] = [97, 13, 10] := by
  decide +kernel

end ByteFlow.Device
