import Std.Data.TreeMap
import DegreeScore.Text.Utf8

/-!
# Positions in a source

A byte offset as a reader counts it: lines end at line feeds, columns count characters, and both
begin at one. An offset past the end means the end. `Position.ofOffsets` finds the positions of many
offsets in one pass, and `ofOffsets_eq_map` says that it finds the same positions.
-/

namespace DegreeScore

/-- A line and a column, both counted from one. -/
structure Position where
  line : Nat
  column : Nat
deriving Repr, DecidableEq

namespace Position

/-- The line feed, which ends a line. -/
def newline : UInt8 := 10

/-- The bytes after the last line feed of those left, or `line` if there is none. -/
def lastLineFrom (line : Bytes) : Bytes → Bytes
  | [] => line
  | b :: rest => lastLineFrom (if b = newline then rest else line) rest

/-- The bytes after the last line feed. -/
def lastLine (bs : Bytes) : Bytes := lastLineFrom bs bs

/-- The position just after the bytes `before`. -/
def after (before : Bytes) : Position :=
  { line := before.count newline + 1, column := Utf8.count (lastLine before) + 1 }

/-- The position of the byte at `offset`. -/
def ofOffset (src : Bytes) (offset : Nat) : Position := after (src.take offset)

/-- The position after the bytes `bs`, which stand after `p`. -/
def advance (p : Position) (bs : Bytes) : Position :=
  if newline ∈ bs then
    { line := p.line + bs.count newline, column := Utf8.count (lastLine bs) + 1 }
  else { p with column := p.column + Utf8.count bs }

theorem lastLineFrom_append (line bs rest : Bytes) :
    lastLineFrom (line ++ rest) (bs ++ rest) = lastLineFrom (lastLineFrom line bs ++ rest) rest := by
  induction bs generalizing line with
  | nil => rfl
  | cons b bs ih =>
    simp only [List.cons_append, lastLineFrom]
    split
    · exact ih bs
    · exact ih line

theorem lastLineFrom_of_notMem {bs : Bytes} (h : newline ∉ bs) (line : Bytes) :
    lastLineFrom line bs = line := by
  induction bs with
  | nil => rfl
  | cons b bs ih =>
    simp only [List.mem_cons, not_or] at h
    rw [lastLineFrom, if_neg (Ne.symm h.1), ih h.2]

theorem lastLineFrom_of_mem {bs : Bytes} (h : newline ∈ bs) (line line' : Bytes) :
    lastLineFrom line bs = lastLineFrom line' bs := by
  induction bs generalizing line line' with
  | nil => simp at h
  | cons b bs ih =>
    simp only [lastLineFrom]
    split
    · rfl
    · next hb => exact ih ((List.mem_cons.mp h).resolve_left (Ne.symm hb)) line line'

/-- The last line stands after a line feed. -/
theorem exists_append_lastLineFrom {bs : Bytes} (h : newline ∈ bs) (line : Bytes) :
    ∃ before, bs = before ++ newline :: lastLineFrom line bs := by
  induction bs generalizing line with
  | nil => cases h
  | cons b bs ih =>
    rw [lastLineFrom]
    by_cases hn : newline ∈ bs
    · obtain ⟨before, hb⟩ := ih hn (if b = newline then bs else line)
      exact ⟨b :: before, by rw [List.cons_append, ← hb]⟩
    · obtain rfl : b = newline := ((List.mem_cons.mp h).resolve_right hn).symm
      exact ⟨[], by rw [if_pos rfl, lastLineFrom_of_notMem hn, List.nil_append]⟩

theorem count_append_newline (before bs : Bytes) :
    Utf8.count (before ++ newline :: bs) = Utf8.count before + (Utf8.count bs + 1) := by
  rw [Utf8.count_append rfl]
  exact congrArg (_ + ·) (Utf8.countFrom_add 0 0 1 bs)

/-- If counting adds up, it adds up on the last line. -/
theorem count_lastLine_append {before rest : Bytes}
    (h : Utf8.count (before ++ rest) = Utf8.count before + Utf8.count rest) :
    Utf8.count (lastLine before ++ rest) = Utf8.count (lastLine before) + Utf8.count rest := by
  by_cases hn : newline ∈ before
  · obtain ⟨first, hb⟩ := exists_append_lastLineFrom hn before
    change before = first ++ newline :: lastLine before at hb
    generalize lastLine before = line at hb ⊢
    subst hb
    rw [List.append_assoc, List.cons_append, count_append_newline, count_append_newline] at h
    omega
  · rwa [lastLine, lastLineFrom_of_notMem hn]

/-- Positions are found part by part where counting adds up. -/
theorem after_append {before rest : Bytes}
    (h : Utf8.count (before ++ rest) = Utf8.count before + Utf8.count rest) :
    after (before ++ rest) = (after before).advance rest := by
  have hl : lastLine (before ++ rest) = lastLineFrom (lastLine before ++ rest) rest :=
    lastLineFrom_append before before rest
  unfold after advance
  by_cases hn : newline ∈ rest
  · rw [if_pos hn, hl, lastLineFrom_of_mem hn _ rest, List.count_append, Nat.add_right_comm]
    rfl
  · rw [if_neg hn, hl, lastLineFrom_of_notMem hn, List.count_append,
      List.count_eq_zero_of_not_mem hn, count_lastLine_append h, Nat.add_zero, Nat.add_right_comm]

/-- Whether counting adds up at `start`, whatever part of the source is counted. -/
def Divides (src : Bytes) (start : Nat) : Prop :=
  ∀ n, Utf8.count (src.take (start + n)) =
    Utf8.count (src.take start) + Utf8.count ((src.drop start).take n)

theorem divides_zero (src : Bytes) : Divides src 0 := fun n => by
  rw [Nat.zero_add]
  exact (Nat.zero_add _).symm

/-- Counting adds up where pieces end that are counted from where it adds up. -/
theorem Divides.add_whole {src : Bytes} {start : Nat} (h : Divides src start) (n : Nat) :
    Divides src (start + Utf8.whole n (src.drop start)) := fun m => by
  rw [Nat.add_assoc, h, h, Utf8.count_take_whole, List.drop_drop, Nat.add_assoc]

theorem ofOffset_add {src : Bytes} {start : Nat} (h : Divides src start) (n : Nat) :
    ofOffset src (start + n) = (ofOffset src start).advance ((src.drop start).take n) := by
  have hn := h n
  rw [List.take_add] at hn
  rw [ofOffset, List.take_add, after_append hn, ofOffset]

/-- The positions of offsets, where `p` is that of the offset `start` and `rest` follows it. The pass
rests where the last whole piece ends; an offset before it is looked up on its own. -/
def ofOffsetsFrom (src : Bytes) (start : Nat) (p : Position) (rest : Bytes) :
    List Nat → List Position
  | [] => []
  | o :: more =>
    if start ≤ o then
      let n := Utf8.whole (o - start) rest
      let q := p.advance (rest.take n)
      q.advance ((rest.drop n).take (o - start - n)) ::
        ofOffsetsFrom src (start + n) q (rest.drop n) more
    else ofOffset src o :: ofOffsetsFrom src start p rest more

theorem ofOffsetsFrom_eq_map {src : Bytes} (offsets : List Nat) (start : Nat)
    (h : Divides src start) :
    ofOffsetsFrom src start (ofOffset src start) (src.drop start) offsets =
      offsets.map (ofOffset src) := by
  induction offsets generalizing start with
  | nil => rfl
  | cons o more ih =>
    rw [ofOffsetsFrom, List.map_cons]
    split
    · next hle =>
      have hd := h.add_whole (o - start)
      have hn := Utf8.whole_le (o - start) (src.drop start)
      dsimp only
      generalize Utf8.whole (o - start) (src.drop start) = n at hd hn
      rw [← ofOffset_add h n, List.drop_drop, ← ofOffset_add hd, ih _ hd]
      congr 2
      omega
    · rw [ih start h]

/-- The positions of offsets by offset, found in one pass if the offsets ascend. -/
def table (src : Bytes) (offsets : List Nat) : Std.TreeMap Nat Position :=
  (offsets.zip (ofOffsetsFrom src 0 (after []) src offsets)).foldl
    (fun found (o, p) => found.insert o p) ∅

theorem foldl_insert_eq_some {f : Nat → Position} (os : List Nat) (found : Std.TreeMap Nat Position)
    (h : ∀ {o p}, found[o]? = some p → p = f o) {o : Nat} {p : Position}
    (hp : (os.foldl (fun found o => found.insert o (f o)) found)[o]? = some p) : p = f o := by
  induction os generalizing found with
  | nil => exact h hp
  | cons o' os ih =>
    refine ih (found.insert o' (f o')) (fun {o p} ho => ?_) hp
    rw [Std.TreeMap.getElem?_insert] at ho
    split at ho
    · next ho' =>
      rw [← Std.LawfulEqCmp.eq_of_compare ho']
      exact (Option.some.inj ho).symm
    · exact h ho

/-- What the table holds is right. -/
theorem eq_ofOffset_of_table {src : Bytes} {offsets : List Nat} {o : Nat} {p : Position}
    (h : (table src offsets)[o]? = some p) : p = ofOffset src o := by
  have hp : ofOffsetsFrom src 0 (after []) src offsets = offsets.map (ofOffset src) :=
    ofOffsetsFrom_eq_map offsets 0 (divides_zero src)
  rw [table, hp, ← List.map_prod_left_eq_zip, List.foldl_map] at h
  exact foldl_insert_eq_some offsets ∅ (fun h => by simp at h) h

/-- The positions of several offsets. -/
def ofOffsets (src : Bytes) (offsets : List Nat) : List Position :=
  let found := table src offsets.mergeSort
  offsets.map fun o =>
    match found[o]? with
    | some p => p
    | none => ofOffset src o

/-- Looking offsets up together or one by one gives the same positions. -/
theorem ofOffsets_eq_map (src : Bytes) (offsets : List Nat) :
    ofOffsets src offsets = offsets.map (ofOffset src) := by
  refine List.map_congr_left fun o _ => ?_
  split
  · next h => exact eq_ofOffset_of_table h
  · rfl

end Position

end DegreeScore
