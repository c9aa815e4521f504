import ByteFlow.Config.Toml.Document

/-! A configuration text never takes back what it said.
Each line that is accepted adds to the tree of tables: a value that stands under a path of keys stands there still when
the whole text is read, and a key cannot be given a second value. -/
namespace ByteFlow.Config.Toml

variable {entries grown sub : Entries} {key other : String} {v : Value}

/-! One table -/

theorem lookup_put_self (key : String) (v : Value) (entries : Entries) : (put key v entries).lookup key = some v := by
  induction entries with
  | nil => simp [put]
  | cons e rest ih =>
    rw [put]
    split
    · simp
    · next ne => rw [List.lookup_cons, beq_false_of_ne (Ne.symm ne), ih]

theorem lookup_put_of_ne (ne : other ≠ key) (v : Value) (entries : Entries) :
    (put key v entries).lookup other = entries.lookup other := by
  induction entries with
  | nil => simp [put, ne]
  | cons e rest ih =>
    rw [put]
    split
    · next same => rw [List.lookup_cons, List.lookup_cons, same, beq_false_of_ne ne]
    · rw [List.lookup_cons, List.lookup_cons, ih]

/-! Values under paths of keys -/

/-- The value under a path of keys, through tables of whatever origin. -/
def at? : List String → Entries → Option Value
  | [], _ => none
  | [key], entries => entries.lookup key
  | key :: path, entries =>
    match entries.lookup key with
    | some (.table _ sub) => at? path sub
    | _ => none

/-- A value that is no table, so that nothing can be added to it. -/
def Value.IsLeaf : Value → Prop
  | .table .. | .tables .. => False
  | _ => True

/-- Every such value of `entries` stands in `grown` where it stood. -/
def Keeps (entries grown : Entries) : Prop :=
  ∀ path x, x.IsLeaf → at? path entries = some x → at? path grown = some x

theorem Keeps.refl (entries : Entries) : Keeps entries entries := fun _ _ _ found => found

theorem Keeps.trans {a b c : Entries} (first : Keeps a b) (second : Keeps b c) : Keeps a c :=
  fun path x leaf found => second path x leaf (first path x leaf found)

/-- Changing what stands under one key keeps the values elsewhere. -/
private theorem keeps_put
    (here : ∀ path x, x.IsLeaf → at? (key :: path) entries = some x → at? (key :: path) (put key v entries) = some x) :
    Keeps entries (put key v entries) := by
  intro path x leaf found
  match path with
  | [] => exact found
  | first :: path =>
    by_cases same : first = key
    · subst same
      exact here path x leaf found
    · cases path with
      | nil => rwa [at?, lookup_put_of_ne same]
      | cons next path => 
        rw [at?, lookup_put_of_ne same]
        · exact found
        · nofun

private theorem keeps_put_new (new : entries.lookup key = none) (v : Value) : Keeps entries (put key v entries) := by
  refine keeps_put fun path x _ found => ?_
  cases path <;> simp [at?, new] at found

private theorem keeps_put_tables {items grownItems : List Entries} (here : entries.lookup key = some (.tables items)) :
    Keeps entries (put key (.tables grownItems) entries) := by
  refine keeps_put fun path x leaf found => ?_
  cases path with
  | nil =>
    rw [at?, here] at found
    cases found
    exact leaf.elim
  | cons next path => simp [at?, here] at found

private theorem keeps_put_table {origin after : Origin} {grownSub : Entries}
    (here : entries.lookup key = some (.table origin sub)) (keeps : Keeps sub grownSub) :
    Keeps entries (put key (.table after grownSub) entries) := by
  refine keeps_put fun path x leaf found => ?_
  cases path with
  | nil =>
    rw [at?, here] at found
    cases found
    exact leaf.elim
  | cons next path =>
    simp only [at?, here] at found
    simp only [at?, lookup_put_self]
    exact keeps _ x leaf found

/-! What a line does -/

private theorem assign_keeps {may : Bool} {path : List String} (assigned : assign v may path entries = some grown) :
    Keeps entries grown := by
  induction path generalizing may entries grown with
  | nil => contradiction
  | cons key path ih =>
    cases path with
    | nil =>
      rw [assign] at assigned
      split at assigned
      · next free =>
        cases assigned
        exact keeps_put_new (Option.isNone_iff_eq_none.mp (Bool.and_eq_true_iff.mp free).2) v
      · contradiction
    | cons next path =>
      rw [assign] at assigned
      · split at assigned
        · next new =>
          obtain ⟨sub, -, rfl⟩ := Option.map_eq_some_iff.mp assigned
          exact keeps_put_new new _
        · next sub here =>
          obtain ⟨grownSub, inner, rfl⟩ := Option.map_eq_some_iff.mp assigned
          exact keeps_put_table here (ih inner)
        · next sub here =>
          obtain ⟨grownSub, inner, rfl⟩ := Option.map_eq_some_iff.mp assigned
          exact keeps_put_table here (ih inner)
        · next items here =>
          obtain ⟨grownItems, -, rfl⟩ := Option.map_eq_some_iff.mp assigned
          exact keeps_put_tables here
        · contradiction
      · nofun

/-- A key that has a value is not given another. -/
theorem assign_eq_none {may : Bool} {path : List String} {x : Value} (found : at? path entries = some x) :
    assign v may path entries = none := by
  induction path generalizing may entries with
  | nil => rfl
  | cons key path ih =>
    cases path with
    | nil =>
      rw [at?] at found
      simp [assign, found]
    | cons next path =>
      rw [at?] at found
      · split at found
        · next origin sub here =>
          rw [assign, here]
          · cases origin <;> simp [ih found]
          · nofun
        · contradiction
      · nofun

private theorem atTable_keeps {f : Entries → Option Entries} (keeps : ∀ {a b}, f a = some b → Keeps a b)
    {path : List String} (changed : atTable f path entries = some grown) : Keeps entries grown := by
  induction path generalizing entries grown with
  | nil => exact keeps changed
  | cons key path ih =>
    rw [atTable] at changed
    split at changed
    · next origin sub here =>
      obtain ⟨grownSub, inner, rfl⟩ := Option.map_eq_some_iff.mp changed
      exact keeps_put_table here (ih inner)
    · next items here =>
      obtain ⟨grownItems, -, rfl⟩ := Option.map_eq_some_iff.mp changed
      exact keeps_put_tables here
    · contradiction

private theorem openHeader_keeps (opened : openHeader key entries = some grown) : Keeps entries grown := by
  rw [openHeader] at opened
  split at opened
  · next new =>
    cases opened
    exact keeps_put_new new _
  · next sub here =>
    cases opened
    exact keeps_put_table here (.refl sub)
  · contradiction

private theorem openItem_keeps (opened : openItem key entries = some grown) : Keeps entries grown := by
  rw [openItem] at opened
  split at opened
  · next new =>
    cases opened
    exact keeps_put_new new _
  · next items here =>
    cases opened
    exact keeps_put_tables here
  · contradiction

private theorem openTable_keeps {last : String → Entries → Option Entries}
    (keeps : ∀ {key a b}, last key a = some b → Keeps a b) {path : List String}
    (opened : openTable last path entries = some grown) : Keeps entries grown := by
  induction path generalizing entries grown with
  | nil => contradiction
  | cons key path ih =>
    cases path with
    | nil => exact keeps opened
    | cons next path =>
      rw [openTable] at opened
      · split at opened
        · next new =>
          obtain ⟨sub, -, rfl⟩ := Option.map_eq_some_iff.mp opened
          exact keeps_put_new new _
        · contradiction
        · next origin sub _ here =>
          obtain ⟨grownSub, inner, rfl⟩ := Option.map_eq_some_iff.mp opened
          exact keeps_put_table here (ih inner)
        · next items here =>
          obtain ⟨grownItems, -, rfl⟩ := Option.map_eq_some_iff.mp opened
          exact keeps_put_tables here
        · contradiction
      · nofun

/-! The whole text -/

/-- Reading on from any line keeps what the lines before it gave. -/
theorem lines?_keeps {fuel : Nat} {here : List String} {root : Entries} {cs : List Char}
    (read : lines? fuel here root cs = some grown) : Keeps root grown := by
  induction fuel generalizing here root cs with
  | zero => contradiction
  | succ fuel ih =>
    rw [lines?] at read
    split at read
    · cases read
      exact .refl _
    · obtain ⟨⟨path, rest⟩, -, read⟩ := Option.bind_eq_some_iff.mp read
      obtain ⟨opened, step, read⟩ := Option.bind_eq_some_iff.mp read
      exact (openTable_keeps openItem_keeps step).trans (ih read)
    · obtain ⟨⟨path, rest⟩, -, read⟩ := Option.bind_eq_some_iff.mp read
      obtain ⟨opened, step, read⟩ := Option.bind_eq_some_iff.mp read
      exact (openTable_keeps openHeader_keeps step).trans (ih read)
    · split at read
      · exact ih read
      · obtain ⟨⟨path, rest⟩, -, read⟩ := Option.bind_eq_some_iff.mp read
        dsimp only at read
        split at read
        · obtain ⟨⟨value, rest⟩, -, read⟩ := Option.bind_eq_some_iff.mp read
          obtain ⟨rest, -, read⟩ := Option.bind_eq_some_iff.mp read
          obtain ⟨assigned, step, read⟩ := Option.bind_eq_some_iff.mp read
          exact (atTable_keeps assign_keeps step).trans (ih read)
        · contradiction

end ByteFlow.Config.Toml
