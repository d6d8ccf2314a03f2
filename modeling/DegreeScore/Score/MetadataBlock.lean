import DegreeScore.Score.Literal

/-!
# Reading the metadata block

The block is read token by token. Its state is the table or list being read, what may come next in
it, and the tables and lists around it. The first fault ends the reading.
-/

namespace DegreeScore

/-- A table or list around the one being read, which will be its next value. -/
inductive Container
  | table (entries : Entries) (key : Bytes)
  /-- The items so far, the last one first. -/
  | list (items : List Metadata)
deriving Repr

/-- What is being read and what may come next. -/
inductive BlockPhase
  /-- The brace that opens the block. -/
  | start
  /-- An entry or the end of a table. -/
  | entry (entries : Entries)
  /-- The `=` after a key. -/
  | equals (entries : Entries) (key : Bytes)
  /-- The value under a key. -/
  | value (entries : Entries) (key : Bytes)
  /-- A comma or the end of a table. -/
  | entryEnd (entries : Entries)
  /-- An item or the end of a list, whose items are in reverse. -/
  | item (items : List Metadata)
  /-- A comma or the end of a list, whose items are in reverse. -/
  | itemEnd (items : List Metadata)
deriving Repr

/-- The state of reading a block. -/
structure Block where
  /-- The innermost first. -/
  around : List Container := []
  phase : BlockPhase := .start
deriving Repr

/-- What a token does to a block. -/
inductive BlockStep
  | more (b : Block)
  | done (t : Table)
  | fault (f : ScoreFault)
deriving Repr

namespace Block

/-- Puts a finished value into the container that waits for it. -/
def put (around : List Container) (v : Metadata) : Container → Block
  | .table entries key => ⟨around, .entryEnd (entries.insert key v)⟩
  | .list items => ⟨around, .itemEnd (v :: items)⟩

/-- Ends a list. -/
def closeList (around : List Container) (items : List Metadata) : BlockStep :=
  match around with
  | c :: rest => .more (put rest (.list items.reverse) c)
  | [] => .fault .expectedValue

/-- Ends a table; the outermost one is the block. -/
def closeTable (around : List Container) (entries : Entries) : BlockStep :=
  match around with
  | c :: rest => .more (put rest (.table entries.toList) c)
  | [] => .done entries.toList

/-- Takes the token at which a value for the container `c` begins. -/
def value (around : List Container) (c : Container) (t : Token) : BlockStep :=
  match t.kind with
  | .integer =>
    match Literal.integer t.text with
    | .ok n => .more (put around (.number n) c)
    | .error fault => .fault fault
  | .text v => .more (put around (.text v) c)
  | .mark => .more (put around (.text t.text) c)
  | .opening .chord => .more ⟨c :: around, .entry ∅⟩
  | .opening .sequence => .more ⟨c :: around, .item []⟩
  | _ => .fault .expectedValue

/-- Takes a token. -/
def step (b : Block) (t : Token) : BlockStep :=
  match b.phase, t.kind with
  | .start, .opening .chord => .more { b with phase := .entry ∅ }
  | .start, _ => .fault .expectedMetadata
  | .entry entries, .closing .chord => closeTable b.around entries
  | .entry entries, .text key => .more { b with phase := .equals entries key }
  | .entry entries, .mark => .more { b with phase := .equals entries t.text }
  | .entry _, _ => .fault .expectedEntry
  | .equals entries key, .equals => .more { b with phase := .value entries key }
  | .equals _ key, _ => .fault (.expectedEquals key)
  | .value entries key, _ => value b.around (.table entries key) t
  | .entryEnd entries, .comma => .more { b with phase := .entry entries }
  | .entryEnd entries, .closing .chord => closeTable b.around entries
  | .entryEnd _, _ => .fault .expectedEntryEnd
  | .item items, .closing .sequence => closeList b.around items
  | .item items, _ => value b.around (.list items) t
  | .itemEnd items, .comma => .more { b with phase := .item items }
  | .itemEnd items, .closing .sequence => closeList b.around items
  | .itemEnd _, _ => .fault .expectedItemEnd

end Block

end DegreeScore
