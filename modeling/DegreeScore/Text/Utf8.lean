/-!
# Bytes and UTF-8

Sources, labels and MIDI texts are byte strings that need not be valid UTF-8. `Utf8.first` reads the
character at the front of one, and `Utf8.pieces` cuts a byte string into characters and stray bytes.
A stray byte is one that begins no complete, shortest-form encoding of a scalar value.
-/

namespace DegreeScore

/-- A string of bytes, valid UTF-8 or not. -/
abbrev Bytes := List UInt8

/-- The UTF-8 encoding of a text. -/
def Bytes.ofString (s : String) : Bytes := s.toUTF8.data.toList

namespace Utf8

/-- The six payload bits of a continuation byte `10xxxxxx`. -/
def payload? (b : UInt8) : Option Nat :=
  if 0x80 ≤ b ∧ b < 0xc0 then some (b.toNat - 0x80) else none

/-- The scalar value `n`, provided it needs an encoding longer than those below `least`. -/
def scalar? (least n : Nat) : Option Char :=
  if h : n.isValidChar then if least ≤ n then some (Char.ofNatAux n h) else none else none

/-- The character that starts at the byte `b`, which `rest` follows, and the number of bytes of
`rest` that belong to it; `none` when `b` is a stray byte. -/
def first (b : UInt8) (rest : Bytes) : Option (Char × Nat) :=
  if b < 0x80 then some (Char.ofNat b.toNat, 0)
  else if b < 0xc0 then none
  else if b < 0xe0 then
    match rest with
    | b₁ :: _ => do
      let x ← payload? b₁
      let c ← scalar? 0x80 ((b.toNat - 0xc0) * 64 + x)
      return (c, 1)
    | _ => none
  else if b < 0xf0 then
    match rest with
    | b₁ :: b₂ :: _ => do
      let x ← payload? b₁
      let y ← payload? b₂
      let c ← scalar? 0x800 (((b.toNat - 0xe0) * 64 + x) * 64 + y)
      return (c, 2)
    | _ => none
  else if b < 0xf8 then
    match rest with
    | b₁ :: b₂ :: b₃ :: _ => do
      let x ← payload? b₁
      let y ← payload? b₂
      let z ← payload? b₃
      let c ← scalar? 0x10000 ((((b.toNat - 0xf0) * 64 + x) * 64 + y) * 64 + z)
      return (c, 3)
    | _ => none
  else none

/-- A unit of a byte string: a character or a byte that belongs to none. -/
inductive Piece
  | char (c : Char)
  | stray (b : UInt8)
deriving Repr, DecidableEq

/-- The character shown for a piece; U+FFFD stands for a stray byte. -/
def Piece.shown : Piece → Char
  | .char c => c
  | .stray _ => '\uFFFD'

/-- Collects the pieces of a byte string in reverse. The first `owed` bytes belong to the character
collected last. -/
def piecesFrom : Nat → List Piece → Bytes → List Piece
  | _, acc, [] => acc
  | owed + 1, acc, _ :: rest => piecesFrom owed acc rest
  | 0, acc, b :: rest =>
    match first b rest with
    | some (c, k) => piecesFrom k (.char c :: acc) rest
    | none => piecesFrom 0 (.stray b :: acc) rest

/-- The characters and stray bytes of a byte string, in order. -/
def pieces (bs : Bytes) : List Piece := (piecesFrom 0 [] bs).reverse

/-- `n` plus the number of pieces of a byte string whose first `owed` bytes belong to a piece that has
been counted. -/
def countFrom : Nat → Nat → Bytes → Nat
  | _, n, [] => n
  | owed + 1, n, _ :: rest => countFrom owed n rest
  | 0, n, b :: rest =>
    match first b rest with
    | some (_, k) => countFrom k (n + 1) rest
    | none => countFrom 0 (n + 1) rest

/-- The number of characters of a byte string, each stray byte counting as one. -/
def count (bs : Bytes) : Nat := countFrom 0 0 bs

/-- Whether no character can reach into a byte string from what stands before it: it does not begin with
a continuation byte. -/
def startsFresh : Bytes → Bool
  | [] => true
  | b :: _ => (payload? b).isNone

theorem first_append {rest : Bytes} (h : startsFresh rest) (b : UInt8) (before : Bytes) :
    first b (before ++ rest) = first b before := by
  cases rest with
  | nil => rw [List.append_nil]
  | cons r rest =>
    have hr : payload? r = none := by simpa [startsFresh] using h
    match before with
    | [] => rcases rest with _ | ⟨_, _ | _⟩ <;> simp [first, hr]
    | [x] => cases rest <;> simp [first, hr]
    | [x, y] => simp [first, hr]
    | x :: y :: z :: more => simp only [first, List.cons_append]

theorem length_le_of_first {b : UInt8} {rest : Bytes} {c : Char} {k : Nat}
    (h : first b rest = some (c, k)) : k ≤ rest.length := by
  unfold first at h
  repeat' split at h
  all_goals simp [Option.bind_eq_some_iff] at h ⊢
  all_goals omega

theorem countFrom_add (owed n m : Nat) (bs : Bytes) :
    countFrom owed (n + m) bs = countFrom owed n bs + m := by
  induction bs generalizing owed n with
  | nil => cases owed <;> rfl
  | cons b rest ih =>
    cases owed with
    | succ owed => exact ih owed n
    | zero =>
      simp only [countFrom]
      split
      · rw [Nat.add_right_comm n m 1]; exact ih ..
      · rw [Nat.add_right_comm n m 1]; exact ih ..

theorem countFrom_append {rest : Bytes} (h : startsFresh rest) (owed n : Nat) (bs : Bytes)
    (hb : owed ≤ bs.length) : countFrom owed n (bs ++ rest) = countFrom 0 (countFrom owed n bs) rest := by
  induction bs generalizing owed n with
  | nil =>
    obtain rfl : owed = 0 := by simpa using hb
    rfl
  | cons b bs ih =>
    cases owed with
    | succ owed => exact ih owed n (by simpa using hb)
    | zero =>
      simp only [List.cons_append, countFrom, first_append h]
      split
      · next hk => exact ih _ _ (length_le_of_first hk)
      · exact ih 0 _ (Nat.zero_le _)

/-- Counting adds up where no character reaches across. -/
theorem count_append {rest : Bytes} (h : startsFresh rest) (bs : Bytes) :
    count (bs ++ rest) = count bs + count rest := by
  unfold count
  rw [countFrom_append h 0 0 bs (Nat.zero_le _), ← Nat.zero_add (countFrom 0 0 bs), countFrom_add,
    Nat.add_comm, Nat.zero_add]

/-- What stands after a character does not change how it is read. -/
theorem first_append_of_some {b : UInt8} {bs : Bytes} {x : Char × Nat} (h : first b bs = some x)
    (rest : Bytes) : first b (bs ++ rest) = some x := by
  by_cases h₁ : b < 0x80
  · simpa only [first, if_pos h₁] using h
  by_cases h₂ : b < 0xc0
  · simp [first, h₁, h₂] at h
  by_cases h₃ : b < 0xe0
  · simp only [first, if_neg h₁, if_neg h₂, if_pos h₃] at h ⊢
    match bs, h with
    | _ :: _, h => exact h
  by_cases h₄ : b < 0xf0
  · simp only [first, if_neg h₁, if_neg h₂, if_neg h₃, if_pos h₄] at h ⊢
    match bs, h with
    | _ :: _ :: _, h => exact h
  by_cases h₅ : b < 0xf8
  · simp only [first, if_neg h₁, if_neg h₂, if_neg h₃, if_neg h₄, if_pos h₅] at h ⊢
    match bs, h with
    | _ :: _ :: _ :: _, h => exact h
  · simp [first, h₁, h₂, h₃, h₄, h₅] at h

/-- A character is read from its own bytes. -/
theorem first_take_of_some {b : UInt8} {bs : Bytes} {c : Char} {k n : Nat}
    (h : first b bs = some (c, k)) (hk : k ≤ n) : first b (bs.take n) = some (c, k) := by
  by_cases h₁ : b < 0x80
  · simpa only [first, if_pos h₁] using h
  by_cases h₂ : b < 0xc0
  · simp [first, h₁, h₂] at h
  by_cases h₃ : b < 0xe0
  · simp only [first, if_neg h₁, if_neg h₂, if_pos h₃] at h ⊢
    match bs, n, h with
    | _ :: _, n + 1, h => exact h
    | _ :: _, 0, h =>
      simp only [bind, Option.bind_eq_some_iff, pure] at h
      grind
  by_cases h₄ : b < 0xf0
  · simp only [first, if_neg h₁, if_neg h₂, if_neg h₃, if_pos h₄] at h ⊢
    match bs, n, h with
    | _ :: _ :: _, n + 2, h => exact h
    | _ :: _ :: _, 0, h | _ :: _ :: _, 1, h =>
      simp only [bind, Option.bind_eq_some_iff, pure] at h
      grind
  by_cases h₅ : b < 0xf8
  · simp only [first, if_neg h₁, if_neg h₂, if_neg h₃, if_neg h₄, if_pos h₅] at h ⊢
    match bs, n, h with
    | _ :: _ :: _ :: _, n + 3, h => exact h
    | _ :: _ :: _ :: _, 0, h | _ :: _ :: _ :: _, 1, h | _ :: _ :: _ :: _, 2, h =>
      simp only [bind, Option.bind_eq_some_iff, pure] at h
      grind
  · simp [first, h₁, h₂, h₃, h₄, h₅] at h

/-- The number of bytes of `rest` that belong to the piece that starts at the byte `b` before it. -/
def size (b : UInt8) (rest : Bytes) : Nat :=
  match first b rest with
  | some (_, k) => k
  | none => 0

/-- A piece, stray or not, is read from its own bytes. -/
theorem first_take {b : UInt8} {rest : Bytes} {n : Nat} (h : size b rest ≤ n) :
    first b (rest.take n) = first b rest := by
  cases hf : first b rest with
  | some x => exact first_take_of_some hf (by simpa only [size, hf] using h)
  | none =>
    cases ht : first b (rest.take n) with
    | none => rfl
    | some x =>
      have hx := first_append_of_some ht (rest.drop n)
      rw [List.take_append_drop, hf] at hx
      cases hx

/-- `whole` plus the length of the pieces that lie within the next `left` bytes, once the first
`owed` bytes have been passed. -/
def wholeFrom : Nat → Nat → Nat → Bytes → Nat
  | _, _, whole, [] => whole
  | owed + 1, left, whole, _ :: rest => wholeFrom owed left whole rest
  | 0, left, whole, b :: rest =>
    let k := size b rest
    if k < left then wholeFrom k (left - (k + 1)) (whole + (k + 1)) rest else whole

/-- The length of the pieces that lie within the first `n` bytes. -/
def whole (n : Nat) (bs : Bytes) : Nat := wholeFrom 0 n 0 bs

theorem wholeFrom_le (owed left w : Nat) (bs : Bytes) : wholeFrom owed left w bs ≤ w + left := by
  induction bs generalizing owed left w with
  | nil => cases owed <;> exact Nat.le_add_right ..
  | cons b rest ih =>
    cases owed with
    | succ owed => exact ih ..
    | zero =>
      simp only [wholeFrom]
      split
      · have := ih (size b rest) (left - (size b rest + 1)) (w + (size b rest + 1))
        omega
      · exact Nat.le_add_right ..

theorem whole_le (n : Nat) (bs : Bytes) : whole n bs ≤ n := by
  have := wholeFrom_le 0 n 0 bs
  rwa [Nat.zero_add] at this

theorem wholeFrom_add (owed left w v : Nat) (bs : Bytes) :
    wholeFrom owed left (w + v) bs = wholeFrom owed left w bs + v := by
  induction bs generalizing owed left w with
  | nil => cases owed <;> rfl
  | cons b rest ih =>
    cases owed with
    | succ owed => exact ih ..
    | zero =>
      simp only [wholeFrom]
      split
      · rw [Nat.add_right_comm w v]; exact ih ..
      · rfl

theorem countFrom_take_wholeFrom (owed left m n : Nat) (bs : Bytes) :
    countFrom owed m (bs.take (owed + wholeFrom owed left 0 bs + n)) =
      countFrom 0 (countFrom owed m (bs.take (owed + wholeFrom owed left 0 bs)))
        ((bs.drop (owed + wholeFrom owed left 0 bs)).take n) := by
  induction bs generalizing owed left m with
  | nil => simp [countFrom]
  | cons b rest ih =>
    cases owed with
    | succ owed =>
      simp only [wholeFrom, Nat.add_right_comm _ 1, List.take_succ_cons, List.drop_succ_cons,
        countFrom]
      exact ih ..
    | zero =>
      simp only [wholeFrom]
      split
      · have ih := fun m => ih (size b rest) (left - (size b rest + 1)) m
        rw [wholeFrom_add, Nat.zero_add, Nat.add_comm _ (_ + 1), Nat.add_right_comm _ 1]
        generalize wholeFrom (size b rest) (left - (size b rest + 1)) 0 rest = w at ih ⊢
        rw [Nat.add_right_comm _ 1, List.take_succ_cons, List.take_succ_cons, List.drop_succ_cons]
        simp only [countFrom]
        rw [first_take (by omega), first_take (by omega)]
        cases hf : first b rest with
        | none => simpa only [size, hf] using ih (m + 1)
        | some x => simpa only [size, hf] using ih (m + 1)
      · simp [countFrom]

/-- Counting adds up where whole pieces end. -/
theorem count_take_whole (n m : Nat) (bs : Bytes) :
    count (bs.take (whole n bs + m)) =
      count (bs.take (whole n bs)) + count ((bs.drop (whole n bs)).take m) := by
  have h := countFrom_take_wholeFrom 0 n 0 m bs
  rw [Nat.zero_add] at h
  rw [count, whole, h, ← Nat.zero_add (countFrom 0 0 _), countFrom_add, Nat.add_comm]
  rfl

/-- The text with U+FFFD in place of each stray byte. -/
def toText (bs : Bytes) : String := String.ofList ((pieces bs).map Piece.shown)

/-- The text that a byte string encodes; `none` when it holds a stray byte. -/
def decode? (bs : Bytes) : Option String :=
  let ps := pieces bs
  if ps.all (fun | .char _ => true | .stray _ => false) then
    some (String.ofList (ps.map Piece.shown))
  else none

end Utf8

end DegreeScore
