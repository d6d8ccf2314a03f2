import DegreeScore.Proofs.Tiling

/-!
# Positions of tokens

Lines and columns tell tokens apart, and in the order in which they stand
(`Token.pairwise_position`). Columns count characters, and within one there is no counting. So what
matters is that tokens begin where counting adds up (`Position.Divides`), also behind bytes that are no
characters: a token and the gap before it are made of whole characters and stray bytes, or end at a
byte of ASCII.
-/

namespace DegreeScore

namespace Utf8

theorem startsFresh_take {bs : Bytes} (h : startsFresh bs) (n : Nat) : startsFresh (bs.take n) := by
  cases n with
  | zero => rfl
  | succ n =>
    cases bs with
    | nil => rfl
    | cons b bs => exact h

theorem count_pos {bs : Bytes} (h : bs ≠ []) : 0 < count bs := by
  obtain ⟨b, rest, rfl⟩ := List.exists_cons_of_ne_nil h
  rw [count, countFrom]
  split
  · rw [countFrom_add]
    exact Nat.succ_pos _
  · rw [countFrom_add]
    exact Nat.succ_pos _

theorem wholeFrom_zero (owed w : Nat) (bs : Bytes) : wholeFrom owed 0 w bs = w := by
  induction bs generalizing owed with
  | nil => cases owed <;> rfl
  | cons b rest ih =>
    cases owed with
    | zero => rfl
    | succ owed => exact ih owed

/-- A piece lies within as many bytes as it has. -/
theorem whole_piece (b : UInt8) (rest : Bytes) :
    whole (size b rest + 1) (b :: rest) = size b rest + 1 := by
  rw [whole, wholeFrom, if_pos (Nat.lt_succ_self _), Nat.sub_self, wholeFrom_zero, Nat.zero_add]

end Utf8

-- ════════════════════════════════════════════════════════════════════════
-- Where counting adds up
-- ════════════════════════════════════════════════════════════════════════

namespace Position

variable {src rest : Bytes} {b : UInt8} {i j n : Nat}

theorem Divides.add (hi : Divides src i) (hj : Divides (src.drop i) j) : Divides src (i + j) := by
  intro n
  rw [Nat.add_assoc, hi, hj, hi j, List.drop_drop, Nat.add_assoc]

/-- Counting adds up where no character reaches across. -/
theorem divides_of_startsFresh (h : Utf8.startsFresh (src.drop n)) : Divides src n := by
  intro m
  rw [List.take_add, Utf8.count_append (Utf8.startsFresh_take h m)]

theorem divides_piece (b : UInt8) (rest : Bytes) : Divides (b :: rest) (Utf8.size b rest + 1) := by
  intro m
  have hwhole := Utf8.count_take_whole (Utf8.size b rest + 1) m (b :: rest)
  rwa [Utf8.whole_piece] at hwhole

/-- Counting adds up after a character. -/
theorem divides_of_first {c : Char} {k : Nat} (h : Utf8.first b rest = some (c, k)) :
    Divides (b :: rest) (k + 1) := by
  have hpiece := divides_piece b rest
  rwa [Utf8.size, h] at hpiece

/-- Counting adds up after a stray byte. -/
theorem divides_of_stray (h : Utf8.first b rest = none) : Divides (b :: rest) 1 := by
  have hpiece := divides_piece b rest
  rwa [Utf8.size, h] at hpiece

/-- Counting goes on after a byte of ASCII. -/
theorem Divides.cons (h : Divides rest n) (hb : b < 0x80) : Divides (b :: rest) (n + 1) := by
  have hfirst : Utf8.first b rest = some (Char.ofNat b.toNat, 0) := by
    rw [Utf8.first.eq_def, if_pos hb]
  rw [Nat.add_comm]
  exact (divides_of_first hfirst).add h

end Position

/-- A gap ends where counting adds up. -/
theorem IsGap.divides {next gap : Bytes} (h : IsGap next gap) :
    Position.Divides (gap ++ next) gap.length := by
  induction h with
  | nil => exact Position.divides_zero _
  | @blank b cs gap c hfirst _ _ ih =>
    have hchar := Position.divides_of_first (Utf8.first_append_of_some hfirst (gap ++ next))
    rw [List.append_assoc, List.length_append]
    refine hchar.add ?_
    rwa [List.drop_succ_cons, List.drop_left]
  | @comment line gap _ hend _ ih =>
    have hfresh : Utf8.startsFresh (gap ++ next) := by
      cases hrest : gap ++ next with
      | nil => rfl
      | cons b rest =>
        obtain rfl := hend b (by rw [hrest]; rfl)
        rfl
    rw [List.append_assoc, List.length_append]
    refine (Position.divides_of_startsFresh ?_).add ?_
    · rwa [List.drop_left]
    · rwa [List.drop_left]

namespace Lexer

open Position

theorem lt_of_isDigit {b : UInt8} (h : Text.Numeral.isDigit b = true) : b < 0x80 := by
  have hle := (Bool.and_eq_true_iff.1 h).2
  exact UInt8.lt_of_le_of_lt (of_decide_eq_true hle) (by decide)

theorem divides_digits (bs : Bytes) : Divides bs (digitsLength bs) := by
  induction bs with
  | nil => exact divides_zero _
  | cons b bs ih =>
    rw [digitsLength, List.takeWhile_cons]
    split
    · next hb => exact ih.cons (lt_of_isDigit hb)
    · exact divides_zero _

theorem divides_duration (rest : Bytes) : Divides (95 :: rest) (duration rest).2 := by
  have hdigits := divides_digits rest
  rw [duration]
  split
  · next after hafter =>
    have hslash : ∀ {k}, Divides after k → Divides rest (digitsLength rest + (k + 1)) := by
      intro k hk
      exact hdigits.add (hafter ▸ hk.cons (by decide))
    split
    · have h := (hslash (divides_digits after)).cons (show (95 : UInt8) < 0x80 by decide)
      rwa [← Nat.add_assoc, Nat.add_right_comm (digitsLength rest), Nat.add_right_comm _ _ 1] at h
    · exact (hslash (divides_zero after)).cons (by decide)
  · exact hdigits.cons (by decide)

theorem divides_number {b : UInt8} (hb : b < 0x80) (rest : Bytes) :
    Divides (b :: rest) (number rest).2 := by
  have hdigits := divides_digits rest
  rw [number]
  split
  · next s after hafter =>
    split
    · next hs =>
      have hascii : s < 0x80 := by rcases hs with rfl | rfl <;> decide
      split
      · next hhead =>
        obtain ⟨more, rfl⟩ := List.head?_eq_some_iff.1 hhead
        have htwice : Divides (rest.drop (digitsLength rest)) 2 :=
          hafter ▸ ((divides_zero more).cons hascii).cons hascii
        exact (hdigits.add htwice).cons hb
      · have honce : Divides (rest.drop (digitsLength rest)) 1 :=
          hafter ▸ (divides_zero after).cons hascii
        exact (hdigits.add honce).cons hb
    · exact hdigits.cons hb
  · exact hdigits.cons hb

/-- A text ends with a quote. -/
theorem exists_quote_of_quoted? {acc bs value : Bytes} {n m : Nat}
    (h : quoted? acc n bs = some (value, m)) :
    ∃ before rest, bs = before ++ quote :: rest ∧ m = n + before.length + 1 := by
  fun_induction quoted? acc n bs with
  | case1 => cases h
  | case3 => cases h
  | case2 acc n =>
    simp only [Option.some.injEq, Prod.mk.injEq] at h
    exact ⟨[], [], rfl, h.2.symm⟩
  | case4 acc n b c rest hb ih =>
    obtain ⟨before, more, hsplit, rfl⟩ := ih h
    exact ⟨b :: before, more, by rw [hsplit, List.cons_append], by rw [List.length_cons]; omega⟩
  | case5 acc n b rest hb ih =>
    obtain ⟨before, more, rfl, rfl⟩ := ih h
    exact ⟨b :: quote :: before, more, rfl, by simp only [List.length_cons]; omega⟩
  | case6 acc n b c rest hb hc =>
    simp only [Option.some.injEq, Prod.mk.injEq] at h
    obtain rfl : b = quote := by simpa using hb
    exact ⟨[], c :: rest, rfl, h.2.symm⟩

theorem divides_text (rest : Bytes) : Divides (39 :: rest) (text rest).2 := by
  rw [text]
  split
  · next value n hquoted =>
    obtain ⟨before, more, rfl, rfl⟩ := exists_quote_of_quoted? hquoted
    have hquote : (39 :: (before ++ quote :: more)).drop (1 + before.length) = quote :: more := by
      rw [Nat.add_comm, List.drop_succ_cons, List.drop_left]
    refine Divides.add (divides_of_startsFresh ?_) ?_
    · rw [hquote]
      rfl
    · rw [hquote]
      exact (divides_zero more).cons (by decide)
  · have hend : (39 :: rest).drop (rest.length + 1) = [] := List.drop_length
    refine divides_of_startsFresh ?_
    dsimp only
    rw [hend]
    rfl

theorem exists_wordLength {owed : Nat} {bs : Bytes} (n : Nat) (h : owed ≤ bs.length) :
    ∃ j, wordLength owed n bs = n + owed + j ∧ Divides (bs.drop owed) j := by
  fun_induction wordLength owed n bs with
  | case1 owed n =>
    obtain rfl : owed = 0 := Nat.le_zero.1 h
    exact ⟨0, rfl, divides_zero _⟩
  | case2 owed n b rest ih =>
    obtain ⟨j, hj, hdivides⟩ := ih (Nat.le_of_succ_le_succ h)
    exact ⟨j, by rw [hj]; omega, hdivides⟩
  | case3 n b rest c k hfirst hword ih =>
    obtain ⟨j, hj, hdivides⟩ := ih (Utf8.length_le_of_first hfirst)
    exact ⟨k + 1 + j, by rw [hj]; omega, (divides_of_first hfirst).add hdivides⟩
  | case4 | case5 => exact ⟨0, rfl, divides_zero _⟩

theorem divides_word (b : UInt8) (rest : Bytes) : Divides (b :: rest) (word b rest).2 := by
  have h : Divides (b :: rest)
      (if b = 36 then wordLength 0 1 rest else wordLength 0 0 (b :: rest)) := by
    split
    · next hb =>
      obtain ⟨j, hj, hdivides⟩ := exists_wordLength 1 (Nat.zero_le rest.length)
      rw [hj, Nat.add_comm]
      exact hdivides.cons (by subst hb; decide)
    · obtain ⟨j, hj, hdivides⟩ := exists_wordLength 0 (Nat.zero_le (b :: rest).length)
      rwa [hj, Nat.add_zero, Nat.zero_add]
  rw [word]
  generalize (if b = 36 then wordLength 0 1 rest else wordLength 0 0 (b :: rest)) = n at h ⊢
  split_ifs <;> exact h

/-- A word ends where counting adds up. -/
theorem divides_measure (b : UInt8) (rest : Bytes) : Divides (b :: rest) (measure b rest).2 := by
  rw [measure.eq_def]
  split
  case h_7 => exact divides_duration rest
  case h_8 => exact divides_text rest
  case h_9 =>
    split
    · next hb =>
      rw [Bool.or_eq_true, Bool.and_eq_true, decide_eq_true_iff] at hb
      refine divides_number ?_ rest
      rcases hb with hdigit | ⟨rfl, -⟩
      · exact lt_of_isDigit hdigit
      · decide
    · split
      · next c k hfirst =>
        split
        · exact divides_word b rest
        · exact divides_of_first hfirst
      · next hfirst => exact divides_of_stray hfirst
  all_goals exact (divides_zero rest).cons (by decide)

end Lexer

-- ════════════════════════════════════════════════════════════════════════
-- The order of positions
-- ════════════════════════════════════════════════════════════════════════

/-- The one position is on an earlier line than the other, or before it on the same line. -/
def Position.Before (p q : Position) : Prop :=
  p.line < q.line ∨ p.line = q.line ∧ p.column < q.column

theorem Position.Before.ne {p q : Position} (h : p.Before q) : p ≠ q := by
  rintro rfl
  rcases h with hline | ⟨-, hcolumn⟩
  · exact Nat.lt_irrefl _ hline
  · exact Nat.lt_irrefl _ hcolumn

/-- A position moves on over any bytes. -/
theorem Position.before_advance (p : Position) {bs : Bytes} (h : bs ≠ []) :
    p.Before (p.advance bs) := by
  rw [advance]
  split
  · next hn => exact .inl (Nat.lt_add_of_pos_right (List.count_pos_iff.2 hn))
  · exact .inr ⟨rfl, Nat.lt_add_of_pos_right (Utf8.count_pos h)⟩

/-- Offsets that follow each other have positions that do, if counting adds up at the first. -/
theorem Position.before_of_divides {src : Bytes} {i j : Nat} (h : Divides src i) (hij : i < j)
    (hj : j ≤ src.length) : (ofOffset src i).Before (ofOffset src j) := by
  obtain ⟨k, rfl⟩ := Nat.exists_eq_add_of_lt hij
  rw [Nat.add_assoc, ofOffset_add h]
  refine before_advance _ (List.ne_nil_of_length_pos ?_)
  rw [List.length_take, List.length_drop]
  omega

namespace Token

variable {pos n : Nat} {src : Bytes} {t : Token} {ts : List Token}

theorem divides_of_next (hnext : next pos src = (t, n)) (ht : t.kind ≠ .endOfInput) :
    ∃ gap, t.offset = pos + gap ∧ Position.Divides src gap ∧ Position.Divides src n := by
  obtain ⟨gap, b, rest, rfl, hgap, hoffset, -, rfl⟩ := exists_word_of_next hnext ht
  refine ⟨gap.length, hoffset, hgap.divides, hgap.divides.add ?_⟩
  rw [List.drop_left]
  exact Lexer.divides_measure b rest

/-- Counting adds up at each word, if it does where scanning begins. -/
theorem Scans.divides (h : Scans pos (src.drop pos) ts) (hpos : Position.Divides src pos) :
    ∀ t ∈ ts, t.kind ≠ .endOfInput → Position.Divides src t.offset := by
  generalize hrest : src.drop pos = rest at h
  induction h with
  | stop _ ht =>
    intro t hmem hkind
    obtain rfl := List.mem_singleton.1 hmem
    exact absurd ht hkind
  | @word pos n rest t ts hnext ht _ ih =>
    subst hrest
    obtain ⟨gap, hoffset, hgap, hword⟩ := divides_of_next hnext ht
    refine List.forall_mem_cons.2 ⟨fun _ => hoffset ▸ hpos.add hgap, ih (hpos.add hword) ?_⟩
    rw [List.drop_drop]

/-- The positions of the tokens of a source come one after the other, so that each token has its
own, and the line of a token is counted by the line feeds before it. -/
theorem pairwise_position (src : Bytes) :
    ((scan src).map fun t => Position.ofOffset src t.offset).Pairwise Position.Before ∧
      ((scan src).map fun t => Position.ofOffset src t.offset).Nodup ∧
      ∀ t ∈ scan src, (Position.ofOffset src t.offset).line =
        (src.take t.offset).count Position.newline + 1 := by
  have hscans : Scans 0 (src.drop 0) (scan src) := scans_scan src
  obtain ⟨hstands, horder⟩ := (scans_scan src).tiles.standsIn
  have hbefore : ((scan src).map fun t => Position.ofOffset src t.offset).Pairwise
      Position.Before := by
    refine List.pairwise_map.2 (horder.imp_of_mem fun {t u} ht hu h => ?_)
    have hle := (hstands u hu).offset_le
    have hkind : t.kind ≠ .endOfInput := by
      intro hend
      have hstop := (hstands t ht).stop hend
      omega
    have hdivides := hscans.divides (Position.divides_zero src) t ht hkind
    exact Position.before_of_divides hdivides h.2 (by omega)
  exact ⟨hbefore, hbefore.imp Position.Before.ne, fun t _ => rfl⟩

end Token

end DegreeScore
