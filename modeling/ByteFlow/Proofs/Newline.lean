import ByteFlow.Newline
import Mathlib.Data.List.Basic

/-! Line ends in pieces of a text.
Normalizing two pieces apart is normalizing them together, unless the cut parts a carriage return
from its line feed. -/
namespace ByteFlow.Newline
open Byte

/-- Up to and with the first line feed, or all bytes if there is none. -/
def firstLine : List UInt8 → List UInt8
  | [] => []
  | b :: rest => if b = lineFeed then [b] else b :: firstLine rest

/-- A cut between the two bytes of a line end. -/
def Parts (a b : List UInt8) : Prop := a.getLast? = some carriageReturn ∧ b.head? = some lineFeed

/-- Bytes without a line feed but at their end. -/
def OneLine (b : List UInt8) : Prop := lineFeed ∉ b.dropLast

/-! First lines -/

theorem firstLine_eq_take (s : List UInt8) :
    firstLine s = match s.findIdx? (· == lineFeed) with
      | some i => s.take (i + 1)
      | none => s := by
  induction s with
  | nil => rfl
  | cons b rest ih =>
    rw [firstLine, List.findIdx?_cons]
    by_cases feed : b = lineFeed
    · simp [feed]
    · rw [if_neg feed, ih]
      cases h : rest.findIdx? (· == lineFeed) <;> simp [feed]

theorem firstLine_eq_nil_iff (s : List UInt8) : firstLine s = [] ↔ s = [] := by
  cases s with
  | nil => exact Iff.rfl
  | cons b rest =>
    rw [firstLine]
    split <;> simp

theorem firstLine_prefix (s : List UInt8) : firstLine s <+: s := by
  rw [firstLine_eq_take]
  split
  · exact List.take_prefix _ _
  · exact List.prefix_rfl

theorem firstLine_take (n : Nat) (s : List UInt8) : firstLine (s.take n) = (firstLine s).take n := by
  induction s generalizing n with
  | nil => simp [firstLine]
  | cons b rest ih =>
    cases n with
    | zero => rfl
    | succ n =>
      rw [List.take_succ_cons, firstLine, firstLine]
      split
      · simp
      · rw [ih, List.take_succ_cons]

/-- A first piece that ends a line is the whole line; otherwise the line goes on behind it. -/
theorem firstLine_append (a b : List UInt8) (open_ : lineFeed ∉ a) :
    firstLine (a ++ b) = a ++ firstLine b := by
  induction a with
  | nil => rfl
  | cons x rest ih =>
    rw [List.mem_cons, not_or] at open_
    rw [List.cons_append, firstLine, if_neg (Ne.symm open_.1), ih open_.2, List.cons_append]

/-! Single lines -/

theorem OneLine.notMem {b : List UInt8} (one : OneLine b) (open_ : b.getLast? ≠ some lineFeed) : lineFeed ∉ b := by
  rcases List.eq_nil_or_concat b with rfl | ⟨front, c, rfl⟩
  · exact List.not_mem_nil
  · rw [List.concat_eq_append] at one open_ ⊢
    rw [OneLine, List.dropLast_concat] at one
    rw [List.getLast?_concat] at open_
    intro feed
    rcases List.mem_append.mp feed with inner | last
    · exact one inner
    · exact open_ (by rw [List.mem_singleton.mp last])

theorem OneLine.append {a b : List UInt8} (open_ : lineFeed ∉ a) (one : OneLine b) : OneLine (a ++ b) := by
  by_cases none : b = []
  · rw [none, List.append_nil]
    exact fun feed => open_ (a.dropLast_prefix.subset feed)
  · rw [OneLine, List.dropLast_append_of_ne_nil none, List.mem_append, not_or]
    exact ⟨open_, one⟩

theorem oneLine_firstLine (s : List UInt8) : OneLine (firstLine s) := by
  induction s with
  | nil => exact List.not_mem_nil
  | cons b rest ih =>
    rw [firstLine]
    split
    · exact List.not_mem_nil
    · next plain =>
      exact OneLine.append (a := [b]) (by simpa using Ne.symm plain) ih

theorem OneLine.take {b : List UInt8} (one : OneLine b) (n : Nat) : OneLine (b.take n) := by
  have inner : (b.take n).dropLast <+: b.dropLast := by
    rw [List.dropLast_eq_take, List.dropLast_eq_take, List.take_take, List.length_take]
    exact List.take_prefix_take_left (by omega)
  exact fun feed => one (inner.subset feed)

/-- A line that ends, or is as long as it may be, or is all there is, is the first one. -/
theorem OneLine.eq_take_firstLine {b t : List UInt8} {n : Nat} (one : OneLine b) (fits : b.length ≤ n)
    (done : b.getLast? = some lineFeed ∨ b.length = n ∨ t = []) : b = (firstLine (b ++ t)).take n := by
  by_cases ended : b.getLast? = some lineFeed
  · obtain ⟨front, rfl⟩ := List.getLast?_eq_some_iff.mp ended
    rw [OneLine, List.dropLast_concat] at one
    rw [List.append_assoc, firstLine_append _ _ one, List.singleton_append, firstLine, if_pos rfl,
      List.take_of_length_le fits]
  · have open_ := one.notMem ended
    rw [firstLine_append _ _ open_]
    rcases done.resolve_left ended with full | rfl
    · rw [← full, List.take_left]
    · rw [firstLine, List.append_nil, List.take_of_length_le fits]

/-! Normalizing -/

theorem normalize_cons (b : UInt8) (s : List UInt8) :
    normalize (b :: s) = if b = carriageReturn ∧ s.head? = some lineFeed then normalize s
      else b :: normalize s := by
  cases s with
  | nil => simp [normalize]
  | cons c rest => simp [normalize]

theorem normalize_append (a b : List UInt8) (whole : ¬ Parts a b) :
    normalize (a ++ b) = normalize a ++ normalize b := by
  induction a with
  | nil => rfl
  | cons x rest ih =>
    rw [List.cons_append, normalize_cons, normalize_cons]
    cases rest with
    | nil =>
      rw [List.nil_append, if_neg (by simpa [Parts] using whole), if_neg (by simp)]
      rfl
    | cons y more =>
      rw [ih (by simpa [Parts] using whole), List.cons_append, List.head?_cons, List.head?_cons]
      split <;> rfl

theorem normalize_concat_return (a : List UInt8) :
    normalize (a ++ [carriageReturn]) = normalize a ++ [carriageReturn] :=
  normalize_append a [carriageReturn] (by simp [Parts, carriageReturn, lineFeed])

/-- A line end is read as its line feed. -/
theorem normalize_concat_pair (a : List UInt8) :
    normalize (a ++ [carriageReturn, lineFeed]) = normalize a ++ [lineFeed] :=
  normalize_append a [carriageReturn, lineFeed] (by simp [Parts, carriageReturn, lineFeed])

theorem normalize_of_notMem {a : List UInt8} (open_ : lineFeed ∉ a) : normalize a = a := by
  induction a with
  | nil => rfl
  | cons x rest ih =>
    rw [List.mem_cons, not_or] at open_
    rw [normalize_cons, ih open_.2, if_neg]
    rintro ⟨-, head⟩
    exact open_.2 (List.mem_of_mem_head? head)

/-- A line has nothing to drop but a carriage return before its line feed. -/
theorem OneLine.normalize_eq {b : List UInt8} (one : OneLine b)
    (single : ∀ front, b ≠ front ++ [carriageReturn, lineFeed]) : normalize b = b := by
  rcases List.eq_nil_or_concat b with rfl | ⟨front, c, rfl⟩
  · rfl
  · rw [List.concat_eq_append] at one single ⊢
    rw [OneLine, List.dropLast_concat] at one
    rw [normalize_append, normalize_of_notMem one]
    · rfl
    · rintro ⟨last, head⟩
      obtain ⟨more, rfl⟩ := List.getLast?_eq_some_iff.mp last
      obtain rfl : c = lineFeed := by simpa using head
      exact single more (List.append_assoc ..)

theorem normalize_eq_nil_iff (s : List UInt8) : normalize s = [] ↔ s = [] := by
  induction s with
  | nil => simp [normalize]
  | cons b rest ih =>
    rw [normalize_cons]
    split
    · next pair =>
      rw [ih]
      cases rest with
      | nil => simp at pair
      | cons c more => simp
    · simp

theorem length_normalize_le (s : List UInt8) : (normalize s).length ≤ s.length := by
  induction s with
  | nil => exact Nat.le_refl _
  | cons b rest ih =>
    rw [normalize_cons]
    split
    · exact Nat.le_succ_of_le ih
    · exact Nat.succ_le_succ ih

theorem getLast?_normalize (s : List UInt8) : (normalize s).getLast? = s.getLast? := by
  induction s with
  | nil => rfl
  | cons b rest ih =>
    rw [normalize_cons]
    cases rest with
    | nil => simp [normalize]
    | cons c more =>
      have some : normalize (c :: more) ≠ [] := mt (normalize_eq_nil_iff _).mp (by simp)
      split
      · rw [ih, List.getLast?_cons_cons]
      · rw [List.getLast?_cons_cons, ← ih, List.getLast?_cons_of_ne_nil some]

/-- What is dropped stands before a line feed, which stays. -/
theorem lineFeed_mem_normalize {s : List UInt8} (shorter : (normalize s).length < s.length) :
    lineFeed ∈ normalize s := by
  induction s with
  | nil => cases shorter
  | cons b rest ih =>
    rw [normalize_cons] at shorter ⊢
    split at shorter
    · next pair =>
      rw [if_pos pair]
      cases rest with
      | nil => simp at pair
      | cons c more =>
        obtain rfl : c = lineFeed := by simpa using pair.2
        rw [normalize_cons, if_neg (by simp [lineFeed, carriageReturn])]
        exact List.mem_cons_self
    · next plain =>
      rw [if_neg plain]
      exact List.mem_cons_of_mem _ (ih (by simpa using shorter))

/-- How many bytes of a normalized text are final: all, but for a carriage return at the end, which a
line feed may follow. -/
def decided (shown : List UInt8) : Nat :=
  if shown.getLast? = some carriageReturn then shown.length - 1 else shown.length

theorem decided_le (shown : List UInt8) : decided shown ≤ shown.length := by
  rw [decided]
  split
  · exact Nat.sub_le ..
  · exact Nat.le_refl _

/-- Bytes up to a line feed are final. -/
theorem lt_decided (a : List UInt8) {b : List UInt8} (feed : lineFeed ∈ b) : a.length < decided (a ++ b) := by
  have some := List.length_pos_of_mem feed
  rw [decided, List.length_append]
  split
  · next open_ =>
    rw [List.getLast?_append_of_ne_nil _ (List.ne_nil_of_mem feed)] at open_
    obtain ⟨front, rfl⟩ := List.getLast?_eq_some_iff.mp open_
    have inner : lineFeed ∈ front := by simpa [lineFeed, carriageReturn] using feed
    have := List.length_pos_of_mem inner
    rw [List.length_append, List.length_singleton]
    omega
  · omega

/-- Normalizing may go on from where the bytes are decided. -/
theorem normalize_append_decided (a b : List UInt8) :
    normalize (a ++ b) = (normalize a).take (decided (normalize a)) ++
      normalize ((normalize a).drop (decided (normalize a)) ++ b) := by
  rw [decided]
  split
  · next open_ =>
    rw [getLast?_normalize] at open_
    obtain ⟨front, rfl⟩ := List.getLast?_eq_some_iff.mp open_
    have whole : ¬ Parts front ([carriageReturn] ++ b) := by simp [Parts, carriageReturn, lineFeed]
    rw [List.append_assoc, normalize_append _ _ whole, normalize_concat_return, List.length_append,
      List.length_singleton, Nat.add_sub_cancel, List.take_left, List.drop_left]
  · next closed =>
    rw [getLast?_normalize] at closed
    rw [normalize_append _ _ fun parts => closed parts.1, List.take_length, List.drop_length, List.nil_append]

/-! Normalizing in place -/

private theorem take_set_concat (s : List UInt8) (i : Nat) (b : UInt8) (inside : i < s.length) :
    (s.set i b).take (i + 1) = s.take i ++ [b] := by
  rw [List.take_add_one, List.take_set_of_le (Nat.le_refl i), List.getElem?_set_self inside]
  rfl

private theorem drop_take_cons {s : List UInt8} {stop index : Nat} {b : UInt8} (inside : index < stop)
    (here : s[index]? = some b) :
    (s.take stop).drop index = b :: (s.take stop).drop (index + 1) := by
  have there : (s.take stop)[index]? = some b := by rw [List.getElem?_take_of_lt inside, here]
  obtain ⟨lt, same⟩ := List.getElem?_eq_some_iff.mp there
  rw [List.drop_eq_getElem_cons lt, same]

/-- A pass writes the normalized bytes behind those it leaves alone; the buffer keeps its size. -/
private theorem stripFrom_spec (buffer : Array UInt8) (stop index filled : Nat) (behind : filled ≤ index)
    (reaches : index ≤ stop) (inside : stop ≤ buffer.size) :
    (stripFrom buffer stop index filled).1.size = buffer.size ∧
      (stripFrom buffer stop index filled).2 =
        filled + (normalize ((buffer.toList.take stop).drop index)).length ∧
      (stripFrom buffer stop index filled).1.toList.take (stripFrom buffer stop index filled).2 =
        buffer.toList.take filled ++ normalize ((buffer.toList.take stop).drop index) := by
  fun_induction stripFrom buffer stop index filled with
  | case1 buffer index filled more absent =>
    rw [Array.getElem?_eq_none_iff] at absent
    omega
  | case2 buffer index filled more b here pair ih =>
    have next : ((buffer.toList.take stop).drop (index + 1)).head? = some lineFeed := by
      rw [List.head?_drop, List.getElem?_take_of_lt pair.2.1, Array.getElem?_toList]
      exact pair.2.2
    rw [drop_take_cons more (by rwa [Array.getElem?_toList]), normalize_cons, if_pos ⟨pair.1, next⟩]
    exact ih (by omega) more inside
  | case3 buffer index filled more b here single ih =>
    have next : ¬ (b = carriageReturn ∧
        ((buffer.toList.take stop).drop (index + 1)).head? = some lineFeed) := by
      rintro ⟨ret, feed⟩
      rw [List.head?_drop, List.getElem?_take] at feed
      split at feed
      · next inner => exact single ⟨ret, inner, by rwa [← Array.getElem?_toList]⟩
      · cases feed
    have untouched : ((buffer.setIfInBounds filled b).toList.take stop).drop (index + 1) =
        (buffer.toList.take stop).drop (index + 1) := by
      rw [Array.toList_setIfInBounds, List.take_set, List.drop_set_of_lt (by omega)]
    obtain ⟨size, stops, bytes⟩ := ih (by omega) more (by rwa [Array.size_setIfInBounds])
    rw [untouched] at stops bytes
    rw [drop_take_cons more (by rwa [Array.getElem?_toList]), normalize_cons, if_neg next]
    refine ⟨by rw [size, Array.size_setIfInBounds], by rw [stops, List.length_cons]; omega, ?_⟩
    rw [bytes, Array.toList_setIfInBounds, take_set_concat _ _ _ (by rw [Array.length_toList]; omega),
      List.append_assoc, List.singleton_append]
  | case4 buffer index filled done =>
    rw [List.drop_eq_nil_of_le (by rw [List.length_take]; omega)]
    exact ⟨rfl, rfl, (List.append_nil _).symm⟩

theorem stripInPlace_spec (buffer : Array UInt8) (start stop : Nat) (before : start ≤ stop)
    (inside : stop ≤ buffer.size) :
    (stripInPlace buffer start stop).1.size = buffer.size ∧
      (stripInPlace buffer start stop).2 =
        start + (normalize ((buffer.toList.take stop).drop start)).length ∧
      (stripInPlace buffer start stop).1.toList.take (stripInPlace buffer start stop).2 =
        buffer.toList.take start ++ normalize ((buffer.toList.take stop).drop start) :=
  stripFrom_spec buffer stop start start (Nat.le_refl _) before inside

/-! Widening -/

theorem expand_append (a b : List UInt8) : expand (a ++ b) = expand a ++ expand b := List.flatMap_append ..

theorem expand_of_notMem {a : List UInt8} (open_ : lineFeed ∉ a) : expand a = a := by
  induction a with
  | nil => rfl
  | cons x rest ih =>
    rw [List.mem_cons, not_or] at open_
    rw [expand, List.flatMap_cons, if_neg (Ne.symm open_.1), List.singleton_append]
    exact congrArg (x :: ·) (ih open_.2)

theorem expand_line {body : List UInt8} (open_ : lineFeed ∉ body) (rest : List UInt8) :
    expand (body ++ lineFeed :: rest) = body ++ [carriageReturn, lineFeed] ++ expand rest := by
  rw [expand_append, expand_of_notMem open_, List.append_assoc]
  rfl

/-- A widened line feed has its carriage return before it. -/
private theorem head?_expand_ne (s : List UInt8) : (expand s).head? ≠ some lineFeed := by
  cases s with
  | nil => simp [expand]
  | cons b rest =>
    rw [expand, List.flatMap_cons]
    split
    · simp [carriageReturn, lineFeed]
    · next plain => simpa using plain

/-- Normalizing takes back what widening put in, and no carriage return that was there. -/
theorem normalize_expand (s : List UInt8) : normalize (expand s) = s := by
  induction s with
  | nil => rfl
  | cons b rest ih =>
    have cons : expand (b :: rest) = (if b = lineFeed then [carriageReturn, lineFeed] else [b]) ++ expand rest :=
      List.flatMap_cons ..
    rw [cons]
    split
    · next feed =>
      have own : ¬ (lineFeed = carriageReturn ∧ (expand rest).head? = some lineFeed) := fun pair => absurd pair.1 (by decide)
      rw [List.cons_append, List.singleton_append, normalize_cons, List.head?_cons, if_pos ⟨rfl, rfl⟩, normalize_cons,
        if_neg own, ih, feed]
    · rw [List.singleton_append, normalize_cons, if_neg fun pair => head?_expand_ne rest pair.2, ih]

/-! Splitting into lines -/

theorem lines_of_notMem {body : List UInt8} (open_ : lineFeed ∉ body) (some : body ≠ []) : lines body = [body] := by
  induction body with
  | nil => exact absurd rfl some
  | cons b rest ih =>
    rw [List.mem_cons, not_or] at open_
    rw [lines, if_neg (Ne.symm open_.1)]
    by_cases none : rest = []
    · rw [none]
      rfl
    · rw [ih open_.2 none]

theorem lines_append {body : List UInt8} (open_ : lineFeed ∉ body) (rest : List UInt8) :
    lines (body ++ lineFeed :: rest) = (body ++ [lineFeed]) :: lines rest := by
  induction body with
  | nil => exact if_pos rfl
  | cons b more ih =>
    rw [List.mem_cons, not_or] at open_
    rw [List.cons_append, lines, if_neg (Ne.symm open_.1), ih open_.2]
    rfl

/-- A text is empty, or has no line feed, or is a first line and a text behind it. -/
@[elab_as_elim]
theorem text_induction {motive : List UInt8 → Prop} (empty : motive [])
    (rest : ∀ body, lineFeed ∉ body → body ≠ [] → motive body)
    (line : ∀ body rest, lineFeed ∉ body → motive rest → motive (body ++ lineFeed :: rest)) (s : List UInt8) : motive s := by
  induction long : s.length using Nat.strongRecOn generalizing s with
  | ind _ ih =>
    subst long
    by_cases feed : lineFeed ∈ s
    · obtain ⟨body, more, rfl, open_⟩ := List.eq_append_cons_of_mem feed
      refine line body more open_ (ih more.length ?_ more rfl)
      rw [List.length_append, List.length_cons]
      omega
    · by_cases none : s = []
      · rwa [none]
      · exact rest s feed none

end ByteFlow.Newline
