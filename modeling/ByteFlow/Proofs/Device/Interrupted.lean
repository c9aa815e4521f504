import ByteFlow.Proofs.Device.Bout
import ByteFlow.Proofs.Medium.Serving

/-! Reading a stream that may fail at any time.
Whatever the stream does, the calls that succeed give its bytes in order, none left out and none twice, and
the position counts them. A call that fails leaves everything to come, and so does a fill that fails within
a call. -/
namespace ByteFlow.Device
open Medium

/-- The calls that read, begin a transaction or commit one. -/
def Action.proceeds (action : Action) : Prop := action.reads ∨ action = .startTransaction ∨ action = .commit

variable {σ : Type} [Medium σ] [Serving σ] {d e f : Device σ} {before raw s t whole taken : List UInt8}

/-- What is still to come: what is queued and was not read, then what the stream has left. -/
def outstanding (d : Device σ) : List UInt8 := d.unreadQueue ++ Serving.rest d.medium

/-- Of all that the stream serves, `taken` was read and the rest is to come. -/
structure Served (d : Device σ) (whole taken : List UInt8) : Prop where
  ready : ∃ before, before <:+ taken ∧ d.Ready before d.outstanding
  split : whole = taken ++ d.outstanding
  pos : d.pos = taken.length
  sequential : d.sequential = true
  plain : d.isText = false
  possible : d.config.bufferSize < Word.requestLimit

/-- A call took a first part of what was to come and shows it; a transaction is as it was if the call failed. -/
def Took (d : Device σ) (whole taken : List UInt8) (action : Action) (result : Except Failure Reply × Device σ) : Prop :=
  ∃ raw, Shows action raw result.1 ∧ Served result.2 whole (taken ++ raw) ∧
    ∀ failure, result.1 = .error failure → result.2.transaction = d.transaction

private theorem Ready.eq_outstanding (ready : d.Ready before s) (stream : d.sequential = true) : s = d.outstanding := by
  obtain ⟨queued, has⟩ := ready.supplies
  rw [outstanding, ready.unreadQueue_eq has, ← Serving.ahead_of_sound has.sound]
  exact has.streamed stream

/-- What stays queued is what was read last. -/
private theorem Ready.stay_isSuffix (ready : d.Ready before s) (last : before <:+ taken) (raw : List UInt8) :
    stay (d.keeps false) before raw <:+ taken ++ raw := by
  cases kept : d.keeps false with
  | true =>
    obtain ⟨earlier, rfl⟩ := last
    exact ⟨earlier, (List.append_assoc ..).symm⟩
  | false =>
    rw [ready.before_eq_nil kept]
    exact List.nil_suffix

private theorem Reads.transaction_eq (reads : d.Reads e before [] whole) (ready : d.Ready before s) :
    e.transaction = d.transaction := by
  rw [reads.transaction, reads.ready.cursor, stay_nil, ← ready.cursor, upTo_cursor]

namespace Served

/-- A call that took `raw` off what was to come. -/
private theorem takes (served : Served d whole taken) (small : whole.length ≤ Word.maxValue) (ready : d.Ready before s)
    (last : before <:+ taken) (split : s = raw ++ t) (reads : d.Reads e before raw t) :
    Served e whole (taken ++ raw) := by
  have stream : e.sequential = true := reads.kin.sequential.trans served.sequential
  have left := reads.ready.eq_outstanding stream
  have here := ready.eq_outstanding served.sequential
  have all : whole = taken ++ raw ++ e.outstanding := by
    rw [served.split, ← here, split, left, List.append_assoc]
  refine ⟨⟨_, ready.stay_isSuffix last raw, left ▸ reads.ready⟩, all, ?_, stream, reads.kin.isText.trans served.plain, ?_⟩
  · have fits := congrArg List.length all
    have := Word.maxValue_lt_modulus
    rw [List.length_append, List.length_append] at fits
    rw [reads.pos, served.pos, Word.addWrapped_of_lt (by omega), List.length_append]
  · have config : e.config = d.config := reads.kin.config
    rw [config]
    exact served.possible

/-- What neither takes bytes nor drops any to come. -/
private theorem still (served : Served d whole taken) (sequential : e.sequential = d.sequential)
    (mode : e.mode = d.mode)
    (config : e.config = d.config) (pos : e.pos = d.pos) (last : before <:+ taken)
    (ready : e.Ready before d.outstanding) : Served e whole taken := by
  have stream := sequential.trans served.sequential
  have left := ready.eq_outstanding stream
  refine ⟨⟨before, last, left ▸ ready⟩, left ▸ served.split, pos.trans served.pos, stream, ?_, ?_⟩
  · rw [isText, mode]
    exact served.plain
  · rw [config]
    exact served.possible

private theorem told (served : Served d whole taken) (errorString : String) :
    Served { d with errorString := errorString } whole taken := by
  obtain ⟨before, last, ready⟩ := served.ready
  obtain ⟨queued, has⟩ := ready.supplies
  have stays := (ready.stays (.refl d) has rfl errorString).ready
  rw [stay_nil] at stays
  exact served.still rfl rfl rfl rfl last stays

private theorem startTransaction (served : Served d whole taken) : Served d.startTransaction.2 whole taken ∧
    ∀ failure, d.startTransaction.1 = .error failure → d.startTransaction.2.transaction = d.transaction := by
  rw [Device.startTransaction]
  split
  · exact ⟨served.told _, fun _ _ => rfl⟩
  · split
    · exact ⟨served.told _, fun _ _ => rfl⟩
    · next outside =>
      obtain ⟨before, last, ready⟩ := served.ready
      obtain ⟨queued, has⟩ := ready.supplies
      -- outside a transaction nothing that was read is kept, so its cursor starts where the queue does
      have idle : d.transaction = .idle := by simpa [inTransaction] using outside
      have start : d.cursor = 0 := by rw [cursor, idle]
      rw [if_pos served.sequential]
      refine ⟨served.still rfl rfl rfl rfl last ⟨⟨queued, ?_⟩, ready.cursor ▸ start.symm, served.sequential, ready.pos⟩,
        fun _ failed => by cases failed⟩
      exact ⟨has.sound, has.kind, has.wellFormed, has.bytes, has.streamed,
        fun random => absurd (served.sequential.symm.trans random) (by decide)⟩

private theorem commit (served : Served d whole taken) : Served d.commit.2 whole taken ∧
    ∀ failure, d.commit.1 = .error failure → d.commit.2.transaction = d.transaction := by
  obtain ⟨before, last, ready⟩ := served.ready
  have fits := ready.fits
  rw [Device.commit]
  cases begun : d.transaction with
  | idle => exact ⟨served.told _, fun _ _ => begun⟩
  | onStream startPos cursor =>
    obtain ⟨queued, has⟩ := ready.supplies
    obtain ⟨wf, left, -⟩ := ChunkQueue.free_spec has.wellFormed before.length
    have there : cursor = before.length := by
      rw [← ready.cursor, Device.cursor, begun]
    rw [has.bytes, List.drop_left] at left
    dsimp only
    rw [there]
    refine ⟨served.still rfl rfl rfl rfl List.nil_suffix ⟨⟨queued, ?_⟩, rfl, trivial, ready.pos⟩,
      fun _ failed => by cases failed⟩
    refine ⟨has.sound, has.kind, ?_, ?_, has.streamed,
      fun random => absurd (served.sequential.symm.trans random) (by decide)⟩
    · rwa [readQueue, Channels.queue_put]
    · rwa [readQueue, Channels.queue_put]
  | onRandomAccess startPos =>
    rw [begun, served.sequential] at fits
    cases fits

/-- A call that answers nothing takes nothing. -/
private theorem took_nothing {action : Action} {result : Except Failure Unit × Device σ}
    (shows : Shows action [] (.ok .done))
    (served : Served result.2 whole taken ∧ ∀ failure, result.1 = .error failure → result.2.transaction = d.transaction) :
    d.Took whole taken action (answer (fun _ => .done) result) := by
  obtain ⟨failure | _, e⟩ := result
  · exact ⟨[], rfl, (List.append_nil taken).symm ▸ served.1, fun _ _ => served.2 failure rfl⟩
  · exact ⟨[], shows, (List.append_nil taken).symm ▸ served.1, fun _ failed => by cases failed⟩

private theorem perform_took (served : Served d whole taken) (small : whole.length ≤ Word.maxValue) {action : Action}
    (proceeds : action.proceeds) : d.Took whole taken action (d.perform action) := by
  rcases proceeds with reads | rfl | rfl
  · obtain ⟨before, last, ready⟩ := served.ready
    have short : before.length + d.outstanding.length ≤ Word.maxValue := by
      have fits := congrArg List.length served.split
      have := last.length_le
      rw [List.length_append] at fits
      omega
    rcases perform_draws ready short served.possible reads with ⟨raw, t, split, took, shows⟩ | ⟨raw, t, looks, shows⟩
    · refine ⟨raw, shows served.plain, served.takes small ready last split took, fun failure failed => ?_⟩
      have nothing := shows served.plain
      rw [failed] at nothing
      obtain rfl : raw = [] := nothing
      exact took.transaction_eq ready
    · obtain rfl := looks.same fun random => absurd (served.sequential.symm.trans random) (by decide)
      exact ⟨[], shows, served.takes small ready last rfl looks.reads, fun _ _ => looks.reads.transaction_eq ready⟩
  · exact took_nothing rfl served.startTransaction
  · exact took_nothing rfl served.commit

/-- A run takes a first part of what was to come, piece by piece as its replies show. -/
private theorem performAll (served : Served d whole taken) (small : whole.length ≤ Word.maxValue)
    {actions : List Action}
    (proceed : ∀ action ∈ actions, action.proceeds) :
    ∃ pieces : List (List UInt8), Served (d.performAll actions).2 whole (taken ++ pieces.flatten) ∧
      List.Forall₂ (fun call raw => Shows call.1 raw call.2) (actions.zip (d.performAll actions).1) pieces := by
  -- over the calls, with one piece for each: what that call took
  induction actions generalizing d taken with
  | nil => exact ⟨[], (List.append_nil taken).symm ▸ served, .nil⟩
  | cons action rest ih =>
    obtain ⟨raw, shows, next, -⟩ := served.perform_took small (proceed action List.mem_cons_self)
    obtain ⟨pieces, last, told⟩ := ih next fun other member => proceed other (List.mem_cons_of_mem _ member)
    refine ⟨raw :: pieces, ?_, .cons shows told⟩
    rw [List.flatten_cons, ← List.append_assoc]
    exact last

/-- A call that fails takes nothing. -/
private theorem perform_error (served : Served d whole taken) (small : whole.length ≤ Word.maxValue) {action : Action}
    (proceeds : action.proceeds) {failure : Failure} (failed : d.perform action = (.error failure, e)) :
    e.pos = d.pos ∧ e.transaction = d.transaction ∧ e.outstanding = d.outstanding := by
  obtain ⟨raw, shows, next, same⟩ := served.perform_took small proceeds
  rw [failed] at shows next same
  obtain rfl : raw = [] := shows
  rw [List.append_nil] at next
  exact ⟨next.pos.trans served.pos.symm, same failure rfl,
    List.append_cancel_left (next.split.symm.trans served.split)⟩

end Served

omit [Serving σ] in
/-- A stream that opens is read from its start, with nothing queued. -/
private theorem openWith_stream {m : σ} {config : Config} {mode : OpenMode}
    (opened : (ofMedium m config).openWith mode = (.ok (), d)) (stream : Medium.isSequential m = true) :
    d.readQueue = .withChunkSize d.config.chunkSize ∧ d.transaction = .idle ∧ d.pos = 0 ∧ d.sequential = true ∧
      d.isText = mode.text ∧ d.config = config.normalize := by
  rw [openWith] at opened
  dsimp only at opened
  split at opened
  · cases congrArg Prod.fst opened
  · split at opened
    · cases congrArg Prod.fst opened
    · split at opened
      · cases congrArg Prod.fst opened
      · obtain rfl := congrArg Prod.snd opened
        refine ⟨rfl, rfl, ?_, stream, rfl, rfl⟩
        exact if_neg (by simp [ofMedium, stream])

/-- A device that was just opened has taken nothing. -/
private theorem openWith_served {m : σ} {config : Config} {mode : OpenMode}
    (opened : (ofMedium m config).openWith mode = (.ok (), d)) (stream : Medium.isSequential m = true)
    (plain : mode.text = false) (possible : config.bufferSize < Word.requestLimit)
    (sound : Serving.Sound d.medium) : Served d (Serving.rest d.medium) [] := by
  obtain ⟨queue, idle, start, sequential, text, same⟩ := openWith_stream opened stream
  have bytes : d.readQueue.toList = [] := by rw [queue, ChunkQueue.toList_withChunkSize]
  have cursor : d.cursor = 0 := by rw [Device.cursor, idle]
  have all : d.outstanding = Serving.rest d.medium := by
    rw [outstanding, unreadQueue, bytes, List.drop_nil, List.nil_append]
  refine ⟨⟨[], List.nil_suffix, ⟨⟨[], ?_⟩, cursor, by rw [idle]; trivial, ?_⟩⟩, all.symm, start, sequential,
    text.trans plain, ?_⟩
  · refine ⟨sound, (Serving.isSequential sound).trans sequential.symm, ?_, bytes, fun _ => ?_,
      fun random => absurd (sequential.symm.trans random) (by decide)⟩
    · rw [queue]
      exact ChunkQueue.wellFormed_withChunkSize _
    · rw [all]
      exact (Serving.ahead_of_sound sound).symm
  · rw [start]
    exact Nat.two_pow_pos 64
  · rw [same]
    exact bufferSize_normalize possible

/-! Within a call -/

/-- What every step of a call keeps. -/
structure Sturdy (d : Device σ) : Prop where
  sequential : d.sequential = true
  sound : Serving.Sound d.medium
  wellFormed : d.readQueue.WellFormed

private theorem Served.sturdy (served : Served d whole taken) : Sturdy d := by
  obtain ⟨before, -, ready⟩ := served.ready
  obtain ⟨queued, has⟩ := ready.supplies
  exact ⟨served.sequential, has.sound, has.wellFormed⟩

private theorem fill_sturdy (sturdy : Sturdy d) (chunk : Nat) : Sturdy (d.fill chunk).2 ∧
    ∀ e, (d.fill chunk).1 = .error e → (d.fill chunk).2.readQueue.toList = d.readQueue.toList := by
  rw [fill]
  dsimp only
  cases granted : d.readQueue.reserve? (d.heldBesideReading d.reading.current) chunk with
  | none => exact ⟨sturdy, fun _ _ => rfl⟩
  | some q =>
    rcases Serving.read_spec d.heldBesideMedium chunk sturdy.sound with
      ⟨bytes, m, read, few, -, sound⟩ | ⟨e, m, read, -, sound⟩
    · obtain ⟨wf, -⟩ := fill_chop_spec sturdy.wellFormed granted few
      rw [read]
      dsimp only
      rw [Nat.min_eq_left few, follow_eq]
      exact ⟨⟨sturdy.sequential, sound, by rwa [readQueue, Channels.queue_put]⟩, fun _ failed => by cases failed⟩
    · obtain ⟨wf, same⟩ := chop_reserve?_spec sturdy.wellFormed granted
      rw [read]
      exact ⟨⟨sturdy.sequential, sound, by rwa [readQueue, Channels.queue_put]⟩,
        fun _ _ => by rwa [readQueue, Channels.queue_put]⟩

variable {keep : Bool}

private theorem Touch.sturdy (step : Touch keep d e) (sturdy : Sturdy d) : Sturdy e := by
  cases step with
  | note pos place errorString => exact ⟨sturdy.sequential, sturdy.sound, sturdy.wellFormed⟩
  | sync =>
    rw [Device.sync, if_pos (.inl sturdy.sequential)]
    exact sturdy
  | read gone n =>
    rw [readThrough]
    rcases Serving.read_spec d.heldBesideMedium n sturdy.sound with ⟨bytes, m, read, -, -, sound⟩ | ⟨e, m, read, -, sound⟩
    · rw [read]
      dsimp only
      rw [follow_eq]
      exact ⟨sturdy.sequential, sound, sturdy.wellFormed⟩
    · rw [read]
      exact ⟨sturdy.sequential, sound, sturdy.wellFormed⟩
  | fill chunk => exact (fill_sturdy sturdy chunk).1
  | drop gone q kept remains =>
    refine ⟨sturdy.sequential, sturdy.sound, ?_⟩
    rw [Device.readQueue, Channels.queue_put]
    exact kept sturdy.wellFormed

private theorem Touches.sturdy (touches : Touches keep d e) (sturdy : Sturdy d) : Sturdy e := by
  induction touches with
  | refl => exact sturdy
  | tail _ step ih => exact step.sturdy ih

/-- On a device opened to read a stream as it is, however often the stream fails or comes short: the calls take its
bytes one after the other as their replies show, and the position counts them. A call that fails leaves the
position, the transaction and all that is to come, and a fill that fails, at any step of any call, leaves what
is queued. A stream is no longer than positions count. -/
theorem failures_lose_nothing {m : σ} {config : Config} {mode : OpenMode} (stream : Medium.isSequential m = true)
    (plain : mode.text = false) (possible : config.bufferSize < Word.requestLimit)
    (opened : (ofMedium m config).openWith mode = (.ok (), d)) (sound : Serving.Sound d.medium)
    (short : (Serving.rest d.medium).length ≤ Word.maxValue) (actions : List Action)
    (proceed : ∀ action ∈ actions, action.proceeds) (reached : (d.performAll actions).2 = e) :
    (∃ pieces : List (List UInt8),
      List.Forall₂ (fun call raw => Shows call.1 raw call.2) (actions.zip (d.performAll actions).1) pieces ∧
        Serving.rest d.medium = pieces.flatten ++ e.outstanding ∧ e.pos = pieces.flatten.length) ∧
      (∀ action failure f, action.proceeds → e.perform action = (.error failure, f) →
        f.pos = e.pos ∧ f.transaction = e.transaction ∧ f.outstanding = e.outstanding) ∧
      (∀ action : Action, action.reads → ∃ keep, Touches keep e (e.perform action).2) ∧
      ∀ keep f chunk error g, Touches keep e f → f.fill chunk = (.error error, g) →
        g.readQueue.toList = f.readQueue.toList := by
  subst reached
  have served := openWith_served opened stream plain possible sound
  obtain ⟨pieces, last, told⟩ := served.performAll short proceed
  rw [List.nil_append] at last
  refine ⟨⟨pieces, told, last.split, last.pos⟩, fun action failure f proceeds failed => ?_, fun action reads => ?_,
    fun keep f chunk error g touches failed => ?_⟩
  · exact last.perform_error short proceeds failed
  · obtain ⟨peeking, -, touches⟩ := perform_touches (d := (d.performAll actions).2) reads
    exact ⟨_, touches⟩
  · have same := (fill_sturdy (touches.sturdy last.sturdy) chunk).2 error (congrArg Prod.fst failed)
    rwa [failed] at same

/-- A stream of eight bytes that comes short or fails most of the time. -/
def faltering : Scripted :=
  { sequential := true, data := [97, 98, 10, 99, 100, 101, 102, 103], cursor := 0, written := []
    reads := [.cap 2, .fail ⟨.other, "torn"⟩, .fail ⟨.wouldBlock, "later"⟩, .cap 1, .cap 0, .cap 2,
      .fail ⟨.other, "torn"⟩]
    writes := [], seeks := [], opens := [], closes := [], flushes := [] }

/-- Reads of many kinds, some of them within a transaction. -/
def falteringCalls : List Action :=
  [.read 3, .readLine 0, .startTransaction, .peek 2, .readLine 0, .skip 2, .readInto [0, 0, 0], .commit]

theorem failures_lose_nothing_faltering : ∃ d e f failure,
    (ofMedium faltering ⟨3, 4, 0, false⟩).openWith .readOnly = (.ok (), d) ∧ (d.performAll falteringCalls).2 = e ∧
      e.perform .getByte = (.error failure, f) ∧
      (∃ pieces : List (List UInt8),
        List.Forall₂ (fun call raw => Shows call.1 raw call.2)
          (falteringCalls.zip (d.performAll falteringCalls).1) pieces ∧ pieces.flatten = [97, 98, 10, 99, 100]) ∧
      f.pos = 5 ∧ f.outstanding = [101, 102, 103] := by
  let d := ((ofMedium faltering ⟨3, 4, 0, false⟩).openWith .readOnly).2
  let e := (d.performAll falteringCalls).2
  have opened : (ofMedium faltering ⟨3, 4, 0, false⟩).openWith .readOnly = (.ok (), d) := rfl
  have honest : Scripted.Honest d.medium := ⟨rfl, show ∀ outcome ∈ faltering.reads, _ by simp [faltering]⟩
  obtain ⟨⟨pieces, shows, split, -⟩, fails, -⟩ := failures_lose_nothing rfl rfl (by decide) opened honest (by decide)
    falteringCalls (by simp [falteringCalls, Action.proceeds, Action.reads]) (e := e) rfl
  have left : e.outstanding = [101, 102, 103] := by decide +kernel
  cases failed : e.perform .getByte with
  | mk result f =>
    cases result with
    | error failure =>
      obtain ⟨pos', -, same⟩ := fails .getByte failure f (.inl trivial) failed
      refine ⟨d, e, f, failure, opened, rfl, failed, ⟨pieces, shows, ?_⟩, pos'.trans (by decide +kernel), same.trans left⟩
      rw [left] at split
      exact List.append_cancel_right split.symm
    | ok reply =>
      have fails : (e.perform .getByte).1.isOk = false := by decide +kernel
      rw [failed] at fails
      cases fails

end ByteFlow.Device
