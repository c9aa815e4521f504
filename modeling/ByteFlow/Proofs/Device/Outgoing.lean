import ByteFlow.Device.Write
import ByteFlow.Proofs.Newline

/-! What goes out for the bytes that are written.
A write in text mode goes line by line, with each line end widened. Whatever becomes of one piece, if every piece is
taken whole then all lines are, and the write tells how many bytes it was given, not how many went out. -/
namespace ByteFlow.Device
open Byte Newline

variable {σ : Type}

def outgoing (d : Device σ) (bytes : List UInt8) : List UInt8 :=
  if d.isText && d.config.crlfOnWrite then expand bytes else bytes

theorem outgoing_plain {d : Device σ} (plain : d.isText = false) (bytes : List UInt8) : d.outgoing bytes = bytes := by
  rw [outgoing, plain]
  rfl

theorem outgoing_text {d : Device σ} (text : d.isText = true) (widens : d.config.crlfOnWrite = true) (bytes : List UInt8) :
    d.outgoing bytes = expand bytes := by
  rw [outgoing, text, widens]
  rfl

@[simp] theorem outgoing_nil (d : Device σ) : d.outgoing [] = [] := by
  rw [outgoing]
  split <;> rfl

theorem outgoing_append (d : Device σ) (a b : List UInt8) : d.outgoing (a ++ b) = d.outgoing a ++ d.outgoing b := by
  rw [outgoing, outgoing, outgoing]
  split
  · exact expand_append a b
  · rfl

variable [Medium σ]

/-- Every piece of at most so many bytes is taken whole and extends what was sent. -/
def TakesAll (most : Nat) (Sent : List UInt8 → Device σ → Prop) : Prop :=
  ∀ sent d piece, piece.length ≤ most → Sent sent d →
    ∃ e, d.writePiece piece = (.ok piece.length, e) ∧ Sent (sent ++ piece) e

variable {most : Nat} {Sent : List UInt8 → Device σ → Prop} {sent : List UInt8} {d : Device σ}

/-- A line is its body and a widened line end. -/
private theorem writeLines_line (takes : TakesAll most Sent) (some : 2 ≤ most) (before : Sent sent d)
    (body : List UInt8)
    (short : body.length ≤ most) (rest : List (List UInt8)) :
    ∃ e, Sent (sent ++ body ++ [carriageReturn, lineFeed]) e ∧
      ∀ n f, e.writeLines rest = (.ok n, f) →
        d.writeLines ((body ++ [lineFeed]) :: rest) = (.ok (body.length + 1 + n), f) := by
  obtain ⟨e, first, begun⟩ := takes sent d body short before
  obtain ⟨f, second, ended⟩ := takes _ e [carriageReturn, lineFeed] some begun
  refine ⟨f, ended, fun n g others => ?_⟩
  rw [writeLines, List.getLast?_concat, List.dropLast_concat, BEq.rfl, if_pos rfl, first]
  dsimp only
  rw [if_neg (by simp), second]
  dsimp only
  rw [if_neg (by decide), others]

private theorem writeLines_expands (takes : TakesAll most Sent) (some : 2 ≤ most) (bytes : List UInt8)
    (short : bytes.length ≤ most)
    (before : Sent sent d) :
    ∃ e, d.writeLines (Newline.lines bytes) = (.ok bytes.length, e) ∧ Sent (sent ++ expand bytes) e := by
  induction bytes using text_induction generalizing sent d with
  | empty => exact ⟨d, rfl, by rwa [show expand [] = [] from rfl, List.append_nil]⟩
  | rest body open_ content =>
    obtain ⟨e, first, after⟩ := takes sent d body short before
    have unended : (body.getLast? == Option.some lineFeed) = false := by
      rw [beq_eq_false_iff_ne]
      exact fun last => open_ (List.mem_of_getLast? last)
    rw [lines_of_notMem open_ content, expand_of_notMem open_, writeLines, unended, if_neg Bool.false_ne_true, first]
    dsimp only
    rw [if_pos (by simp)]
    exact ⟨e, rfl, after⟩
  | line body rest open_ ih =>
    rw [List.length_append, List.length_cons] at short
    obtain ⟨e, begun, line⟩ := writeLines_line takes some before body (by omega) (Newline.lines rest)
    obtain ⟨f, others, after⟩ := ih (by omega) begun
    refine ⟨f, ?_, ?_⟩
    · rw [lines_append open_, line _ _ others, List.length_append, List.length_cons]
      congr 2
      omega
    · rwa [expand_line open_, ← List.append_assoc, ← List.append_assoc]

/-- All that goes out for a write goes out, and the write tells how many bytes it was given. -/
theorem outgoing_sent (takes : TakesAll most Sent) (some : 2 ≤ most) (bytes : List UInt8) (short : bytes.length ≤ most)
    (before : Sent sent d) :
    ∃ e, (if d.isText && d.config.crlfOnWrite then d.writeLines (Newline.lines bytes) else d.writePiece bytes) =
        (.ok bytes.length, e) ∧
      Sent (sent ++ d.outgoing bytes) e := by
  rw [outgoing]
  split
  · exact writeLines_expands takes some bytes short before
  · exact takes sent d bytes short before

end ByteFlow.Device
