import DegreeScore.Proofs.Score.Words

/-!
# Scanning piece by piece

`Token.Scans` says what the tokens of a source are without a bound on their number, and `Token.scan`
finds just these (`scan_eq_iff`). A line break ends every token but a text whose closing quote is
missing. So the tokens of a source, a line break and another source are those of the one and then those
of the other (`Scans.append_newline`, `scan_append_newline`).
-/

namespace DegreeScore

open Text.Numeral (isDigit)

/-- The tokens of a source whose first byte stands at an offset. -/
inductive Token.Scans : Nat → Bytes → List Token → Prop
  | stop {offset n : Nat} {src : Bytes} {t : Token} (hnext : next offset src = (t, n))
      (ht : t.kind = .endOfInput) : Scans offset src [t]
  | word {offset n : Nat} {src : Bytes} {t : Token} {ts : List Token}
      (hnext : next offset src = (t, n)) (ht : t.kind ≠ .endOfInput)
      (hrest : Scans (offset + n) (src.drop n) ts) : Scans offset src (t :: ts)

namespace Token

variable {pos fuel : Nat} {src : Bytes} {ts us : List Token}

theorem Scans.unique (h : Scans pos src ts) (h' : Scans pos src us) : ts = us := by
  induction h generalizing us with
  | stop hnext ht =>
    cases h' with
    | stop hnext' ht' => rw [(Prod.mk.inj (hnext.symm.trans hnext')).1]
    | word hnext' ht' => exact absurd ((Prod.mk.inj (hnext.symm.trans hnext')).1 ▸ ht) ht'
  | word hnext ht _ ih =>
    cases h' with
    | stop hnext' ht' => exact absurd ht' ((Prod.mk.inj (hnext.symm.trans hnext')).1 ▸ ht)
    | word hnext' ht' hrest' =>
      obtain ⟨rfl, rfl⟩ := Prod.mk.inj (hnext.symm.trans hnext')
      rw [ih hrest']

/-- A word at the front, and what follows it. -/
theorem Scans.cons {w rest : Bytes} {t : Token} (hnext : next pos (w ++ rest) = (t, w.length))
    (ht : t.kind ≠ .endOfInput) (hrest : Scans (pos + w.length) rest ts) :
    Scans pos (w ++ rest) (t :: ts) := by
  refine .word hnext ht ?_
  rwa [List.drop_left]

theorem exists_scans_scanFrom (acc : List Token) (pos : Nat) (hfuel : src.length < fuel) :
    ∃ ts, Scans pos src ts ∧ scanFrom fuel acc pos src = ts.reverse ++ acc := by
  induction fuel generalizing acc pos src with
  | zero => exact absurd hfuel (Nat.not_lt_zero _)
  | succ fuel ih =>
    rw [scanFrom]
    cases hnext : next pos src with
    | mk t n =>
      dsimp only
      split
      · next hkind => exact ⟨[t], .stop hnext hkind, rfl⟩
      · next hkind =>
        have hlt := next_shortens (by rwa [hnext] : (next pos src).1.kind ≠ .endOfInput)
        rw [hnext] at hlt
        obtain ⟨ts, hts, heq⟩ := ih (t :: acc) (pos + n)
          (Nat.lt_of_lt_of_le hlt (Nat.le_of_lt_succ hfuel))
        refine ⟨t :: ts, .word hnext hkind hts, ?_⟩
        rw [heq, List.reverse_cons, List.append_assoc, List.singleton_append]

theorem scans_scan (src : Bytes) : Scans 0 src (scan src) := by
  obtain ⟨ts, hts, heq⟩ := exists_scans_scanFrom [] 0 (Nat.lt_succ_self src.length)
  rwa [scan, heq, List.append_nil, List.reverse_reverse]

theorem scan_eq_iff : scan src = ts ↔ Scans 0 src ts :=
  ⟨fun h => h ▸ scans_scan src, fun h => (scans_scan src).unique h⟩

end Token

-- ════════════════════════════════════════════════════════════════════════
-- What stands before a line break
-- ════════════════════════════════════════════════════════════════════════

namespace Lexer

/-- A line break takes no part in a character. -/
theorem first_append_newline (b : UInt8) (bs more : Bytes) :
    Utf8.first b (bs ++ Position.newline :: more) = Utf8.first b bs :=
  Utf8.first_append rfl b bs

theorem drop_append_newline (n : Nat) (bs more : Bytes) :
    (bs ++ Position.newline :: more).drop (bs.length + 1 + n) = more.drop n := by
  rw [Nat.add_assoc, List.drop_length_add_append, Nat.add_comm, List.drop_succ_cons]

theorem gapLength_add (g : Gap) (n m : Nat) (bs : Bytes) :
    gapLength g (n + m) bs = gapLength g n bs + m := by
  fun_induction gapLength g n bs with
  | case1 => simp [gapLength]
  | case2 n b rest ih => rw [gapLength, ← ih, Nat.add_right_comm]
  | case3 owed n b rest ih => rw [gapLength, ← ih, Nat.add_right_comm]
  | case4 n b rest c k hfirst hspace ih =>
    rw [gapLength, hfirst, ← ih, Nat.add_right_comm]
    exact if_pos hspace
  | case5 n b rest k hfirst hspace ih =>
    rw [gapLength, hfirst, ← ih, Nat.add_right_comm]
    rfl
  | case6 n b rest c k hfirst hspace hc =>
    rw [gapLength, hfirst]
    exact (if_neg hspace).trans (if_neg hc)
  | case7 n b rest hfirst => rw [gapLength, hfirst]

theorem gapLength_le (g : Gap) (n : Nat) (bs : Bytes) : gapLength g n bs ≤ n + bs.length := by
  fun_induction gapLength g n bs with
  | case1 => exact Nat.le_add_right ..
  | case2 n b rest ih => exact ih.trans_eq (Nat.add_right_comm n 1 rest.length)
  | case3 owed n b rest ih => exact ih.trans_eq (Nat.add_right_comm n 1 rest.length)
  | case4 n b rest c k hfirst hspace ih => exact ih.trans_eq (Nat.add_right_comm n 1 rest.length)
  | case5 n b rest k hfirst hspace ih => exact ih.trans_eq (Nat.add_right_comm n 1 rest.length)
  | case6 | case7 => exact Nat.le_add_right ..

/-- The bytes that a gap still has to take. -/
def Gap.owed : Gap → Nat
  | .blanks k => k
  | .comment => 0

/-- A gap that takes the whole of a source goes on after a line break, and any other ends where it
ended. -/
theorem gapLength_append_newline {g : Gap} {n : Nat} {bs : Bytes} (more : Bytes)
    (hg : g.owed ≤ bs.length) :
    gapLength g n (bs ++ Position.newline :: more) =
      if gapLength g n bs = n + bs.length then gapLength (.blanks 0) (n + bs.length + 1) more
      else gapLength g n bs := by
  have hlength : ∀ (n : Nat) (rest : Bytes), n + (rest.length + 1) = n + 1 + rest.length :=
    fun n rest => Nat.add_right_comm n rest.length 1
  fun_induction gapLength g n bs with
  | case1 g n =>
    rw [if_pos (by simp)]
    cases g with
    | comment => rfl
    | blanks k =>
      obtain rfl : k = 0 := Nat.le_zero.1 hg
      rfl
  | case2 n b rest ih =>
    rw [List.cons_append, gapLength, List.length_cons, hlength]
    exact ih (by split <;> exact Nat.zero_le _)
  | case3 owed n b rest ih =>
    rw [List.cons_append, gapLength, List.length_cons, hlength]
    exact ih (Nat.le_of_succ_le_succ hg)
  | case4 n b rest c k hfirst hspace ih =>
    rw [List.cons_append, gapLength, first_append_newline, hfirst, List.length_cons, hlength]
    dsimp only
    rw [if_pos hspace]
    exact ih (Utf8.length_le_of_first hfirst)
  | case5 n b rest k hfirst hspace ih =>
    rw [List.cons_append, gapLength, first_append_newline, hfirst, List.length_cons, hlength]
    exact ih (Nat.zero_le _)
  | case6 n b rest c k hfirst hspace hc =>
    rw [List.cons_append, gapLength, first_append_newline, hfirst, if_neg (by simp)]
    exact (if_neg hspace).trans (if_neg hc)
  | case7 n b rest hfirst =>
    rw [List.cons_append, gapLength, first_append_newline, hfirst, if_neg (by simp)]

theorem takeWhile_isDigit_append_newline (bs more : Bytes) :
    (bs ++ Position.newline :: more).takeWhile isDigit = bs.takeWhile isDigit := by
  induction bs with
  | nil => rfl
  | cons b bs ih => simp only [List.cons_append, List.takeWhile_cons, ih]

theorem digitsLength_append_newline (bs more : Bytes) :
    digitsLength (bs ++ Position.newline :: more) = digitsLength bs := by
  rw [digitsLength, takeWhile_isDigit_append_newline, digitsLength]

theorem startsWithDigit_append_newline (bs more : Bytes) :
    startsWithDigit (bs ++ Position.newline :: more) = startsWithDigit bs := by
  cases bs <;> rfl

theorem drop_digitsLength_append_newline (bs more : Bytes) :
    (bs ++ Position.newline :: more).drop (digitsLength bs) =
      bs.drop (digitsLength bs) ++ Position.newline :: more :=
  List.drop_append_of_le_length (List.takeWhile_sublist _).length_le

theorem duration_append_newline (bs more : Bytes) :
    duration (bs ++ Position.newline :: more) = duration bs := by
  simp only [duration, digitsLength_append_newline, drop_digitsLength_append_newline]
  cases bs.drop (digitsLength bs) with
  | nil => rfl
  | cons s after =>
    by_cases hs : s = 47
    · subst hs
      simp only [List.cons_append, startsWithDigit_append_newline, digitsLength_append_newline]
    · simp only [List.cons_append]
      split <;> simp_all

theorem number_append_newline (bs more : Bytes) :
    number (bs ++ Position.newline :: more) = number bs := by
  simp only [number, digitsLength_append_newline, drop_digitsLength_append_newline]
  cases bs.drop (digitsLength bs) with
  | nil => rfl
  | cons s after =>
    cases after with
    | nil =>
      by_cases hs : s = 43 ∨ s = 45
      · rcases hs with rfl | rfl <;> rfl
      · exact (if_neg hs).trans (if_neg hs).symm
    | cons a after => rfl

theorem quoted?_append_newline {acc bs value : Bytes} {n m : Nat}
    (h : quoted? acc n bs = some (value, m)) (more : Bytes) :
    quoted? acc n (bs ++ Position.newline :: more) = some (value, m) := by
  fun_induction quoted? acc n bs with
  | case1 => cases h
  | case2 acc n => exact h
  | case3 => cases h
  | case4 acc n b c rest hb ih =>
    rw [← ih h]
    exact if_pos hb
  | case5 acc n b rest hb ih =>
    rw [← ih h]
    exact (if_neg hb).trans (if_pos rfl)
  | case6 acc n b c rest hb hc =>
    rw [← h]
    exact (if_neg hb).trans (if_neg hc)

theorem wordLength_append_newline {owed n : Nat} {bs : Bytes} (more : Bytes)
    (h : owed ≤ bs.length) :
    wordLength owed n (bs ++ Position.newline :: more) = wordLength owed n bs := by
  fun_induction wordLength owed n bs with
  | case1 owed n =>
    obtain rfl : owed = 0 := Nat.le_zero.1 h
    rfl
  | case2 owed n b rest ih => exact ih (Nat.le_of_succ_le_succ h)
  | case3 n b rest c k hfirst hword ih =>
    rw [List.cons_append, wordLength, first_append_newline, hfirst]
    exact (if_pos hword).trans (ih (Utf8.length_le_of_first hfirst))
  | case4 n b rest c k hfirst hword =>
    rw [List.cons_append, wordLength, first_append_newline, hfirst]
    exact if_neg hword
  | case5 n b rest hfirst => rw [List.cons_append, wordLength, first_append_newline, hfirst]

theorem wordLength_le (owed n : Nat) (bs : Bytes) : wordLength owed n bs ≤ n + bs.length := by
  fun_induction wordLength owed n bs with
  | case1 => exact Nat.le_add_right ..
  | case2 owed n b rest ih => exact ih.trans_eq (Nat.add_right_comm n 1 rest.length)
  | case3 n b rest c k hfirst hword ih => exact ih.trans_eq (Nat.add_right_comm n 1 rest.length)
  | case4 | case5 => exact Nat.le_add_right ..

/-- Where a mark or a bare word ends. -/
theorem word_length_le (b : UInt8) (rest : Bytes) :
    (if b = 36 then wordLength 0 1 rest else wordLength 0 0 (b :: rest)) ≤ (b :: rest).length := by
  split
  · exact (wordLength_le 0 1 rest).trans_eq (Nat.add_comm ..)
  · exact (wordLength_le 0 0 (b :: rest)).trans_eq (Nat.zero_add _)

theorem word_append_newline (b : UInt8) (rest more : Bytes) :
    word b (rest ++ Position.newline :: more) = word b rest := by
  rw [word, ← List.cons_append, wordLength_append_newline more (Nat.zero_le _),
    wordLength_append_newline more (Nat.zero_le _),
    List.take_append_of_le_length (word_length_le b rest)]
  rfl

theorem word_le (b : UInt8) (rest : Bytes) : (word b rest).2 ≤ rest.length + 1 := by
  have hle := word_length_le b rest
  rw [word]
  generalize (if b = 36 then wordLength 0 1 rest else wordLength 0 0 (b :: rest)) = n at hle ⊢
  split_ifs <;> exact hle

theorem digitsLength_le (bs : Bytes) : digitsLength bs ≤ bs.length :=
  (List.takeWhile_sublist _).length_le

theorem duration_le (rest : Bytes) : (duration rest).2 ≤ rest.length + 1 := by
  have hle := digitsLength_le rest
  rw [duration]
  split
  · next after hafter =>
    have hlength := congrArg List.length hafter
    have hle' := digitsLength_le after
    rw [List.length_drop, List.length_cons] at hlength
    split <;> dsimp only <;> omega
  · exact Nat.succ_le_succ hle

theorem number_le (rest : Bytes) : (number rest).2 ≤ rest.length + 1 := by
  have hle := digitsLength_le rest
  rw [number]
  split
  · next s after hafter =>
    have hlength := congrArg List.length hafter
    rw [List.length_drop, List.length_cons] at hlength
    split
    · split
      · next hhead =>
        have hpos := List.length_pos_of_mem (List.mem_of_mem_head? hhead)
        dsimp only
        omega
      · dsimp only
        omega
    · exact Nat.succ_le_succ hle
  · exact Nat.succ_le_succ hle

theorem le_of_quoted? {acc bs value : Bytes} {n m : Nat}
    (h : quoted? acc n bs = some (value, m)) : m ≤ n + bs.length := by
  fun_induction quoted? acc n bs with
  | case1 => cases h
  | case3 => cases h
  | case4 acc n b c rest hb ih =>
    have := ih h
    simp only [List.length_cons] at this ⊢
    omega
  | case5 acc n b rest hb ih =>
    have := ih h
    simp only [List.length_cons] at this ⊢
    omega
  | case2 | case6 =>
    simp only [Option.some.injEq, Prod.mk.injEq] at h
    simp only [List.length_cons]
    omega

/-- A word is no longer than what is left of the source. -/
theorem measure_le (b : UInt8) (rest : Bytes) : (measure b rest).2 ≤ rest.length + 1 := by
  rw [measure.eq_def]
  split
  case h_7 => exact duration_le rest
  case h_8 =>
    rw [text]
    split
    · next hquoted =>
      have := le_of_quoted? hquoted
      dsimp only
      omega
    · exact Nat.le_refl _
  case h_9 =>
    split
    · exact number_le rest
    · split
      · next c k hfirst =>
        split
        · exact word_le b rest
        · exact Nat.succ_le_succ (Utf8.length_le_of_first hfirst)
      · exact Nat.le_add_left ..
  all_goals exact Nat.le_add_left ..

/-- A line break after a word makes no difference to it, unless it is a text that has not ended. -/
theorem measure_append_newline {b : UInt8} {rest : Bytes} (more : Bytes)
    (h : (measure b rest).1 ≠ .invalid .unterminatedText) :
    measure b (rest ++ Position.newline :: more) = measure b rest := by
  rw [measure.eq_def b rest] at h
  rw [measure.eq_def, measure.eq_def b rest]
  split at h
  case h_7 => exact duration_append_newline ..
  case h_8 =>
    rw [text] at h ⊢
    split at h
    · next hquoted => rw [quoted?_append_newline hquoted more, text, hquoted]
    · exact absurd rfl h
  case h_9 =>
    rw [startsWithDigit_append_newline, number_append_newline, first_append_newline,
      word_append_newline]
  all_goals rfl

end Lexer

namespace Token

variable {pos n : Nat} {src : Bytes} {t : Token} {ts us : List Token}

/-- A line break after a token makes no difference to it, unless it is a text that has not ended. -/
theorem next_append_newline (hnext : next pos src = (t, n)) (ht : t.kind ≠ .endOfInput)
    (hclosed : t.kind ≠ .invalid .unterminatedText) (more : Bytes) :
    next pos (src ++ Position.newline :: more) = (t, n) ∧ n ≤ src.length := by
  rw [next] at hnext ⊢
  dsimp only at hnext ⊢
  cases hdrop : src.drop (Lexer.gapLength (.blanks 0) 0 src) with
  | nil =>
    rw [hdrop] at hnext
    obtain ⟨rfl, -⟩ := Prod.mk.inj hnext
    exact absurd rfl ht
  | cons b rest =>
    rw [hdrop] at hnext
    obtain ⟨rfl, rfl⟩ := Prod.mk.inj hnext
    have hlength := congrArg List.length hdrop
    rw [List.length_drop, List.length_cons] at hlength
    have hgap := Lexer.gapLength_append_newline (g := .blanks 0) (n := 0) more
      (Nat.zero_le src.length)
    rw [if_neg (by omega)] at hgap
    have hle := Lexer.measure_le b rest
    rw [hgap, List.drop_append_of_le_length (by omega), hdrop, List.cons_append]
    dsimp only
    rw [Lexer.measure_append_newline more hclosed, ← List.cons_append,
      List.take_append_of_le_length hle]
    exact ⟨rfl, by omega⟩

/-- The end of input makes way for what stands after a line break. -/
theorem next_append_newline_of_endOfInput (hnext : next pos src = (t, n))
    (ht : t.kind = .endOfInput) (more : Bytes) :
    next pos (src ++ Position.newline :: more) =
      ((next (pos + src.length + 1) more).1,
        src.length + 1 + (next (pos + src.length + 1) more).2) := by
  rw [next] at hnext
  dsimp only at hnext
  cases hdrop : src.drop (Lexer.gapLength (.blanks 0) 0 src) with
  | cons b rest =>
    rw [hdrop] at hnext
    obtain ⟨rfl, -⟩ := Prod.mk.inj hnext
    exact absurd ht (Lexer.measure_pos b rest).2
  | nil =>
    have hle := Lexer.gapLength_le (.blanks 0) 0 src
    have hge := List.drop_eq_nil_iff.1 hdrop
    have hgap := Lexer.gapLength_append_newline (g := .blanks 0) (n := 0) more
      (Nat.zero_le src.length)
    rw [if_pos (by omega), Nat.zero_add, ← Nat.zero_add (src.length + 1), Lexer.gapLength_add,
      Nat.add_comm] at hgap
    rw [next, next, hgap]
    dsimp only
    rw [Lexer.drop_append_newline]
    cases more.drop (Lexer.gapLength (.blanks 0) 0 more) with
    | nil => simp only [Nat.add_assoc]
    | cons b rest => simp only [Nat.add_assoc]

/-- The tokens of a source, a line break and another source. -/
theorem Scans.append_newline {more : Bytes} (h : Scans pos src ts)
    (hclosed : ∀ t ∈ ts, t.kind ≠ .invalid .unterminatedText)
    (hmore : Scans (pos + src.length + 1) more us) :
    Scans pos (src ++ Position.newline :: more) (ts.dropLast ++ us) := by
  induction h with
  | @stop pos n src t hnext ht =>
    have hskip := next_append_newline_of_endOfInput hnext ht more
    cases hmore with
    | stop hnext' ht' =>
      rw [hnext'] at hskip
      exact .stop hskip ht'
    | word hnext' ht' hrest =>
      rw [hnext'] at hskip
      refine .word hskip ht' ?_
      rwa [Lexer.drop_append_newline, ← Nat.add_assoc, ← Nat.add_assoc]
  | @word pos n src t ts hnext ht hrest ih =>
    obtain ⟨hhead, htail⟩ := List.forall_mem_cons.1 hclosed
    obtain ⟨hsame, hle⟩ := next_append_newline hnext ht hhead more
    have hne : ts ≠ [] := by cases hrest <;> simp
    rw [List.dropLast_cons_of_ne_nil hne]
    refine .word hsame ht ?_
    rw [List.drop_append_of_le_length hle]
    refine ih htail ?_
    rwa [List.length_drop, Nat.add_assoc pos, Nat.add_sub_cancel' hle]

/-- The token where `k` more bytes stand before it. -/
def shift (k : Nat) (t : Token) : Token := { t with offset := t.offset + k }

theorem next_add (pos k : Nat) (src : Bytes) :
    next (pos + k) src = ((next pos src).1.shift k, (next pos src).2) := by
  rw [next, next]
  dsimp only
  split
  · rw [shift, Nat.add_right_comm]
  · rw [shift, Nat.add_right_comm]

/-- Where a source begins makes no difference but to the offsets. -/
theorem Scans.shift (h : Scans pos src ts) (k : Nat) :
    Scans (pos + k) src (ts.map (Token.shift k)) := by
  induction h with
  | stop hnext ht => exact .stop (by rw [next_add, hnext]) ht
  | word hnext ht _ ih =>
    refine .word (by rw [next_add, hnext]) ht ?_
    rwa [Nat.add_right_comm]

/-- A source can be cut at a line break outside of texts: its tokens are those of the one part
without the end of input, and those of the other part with their offsets moved up. -/
theorem scan_append_newline {a : Bytes}
    (hclosed : ∀ t ∈ scan a, t.kind ≠ .invalid .unterminatedText) (b : Bytes) :
    ∃ words stop, scan a = words ++ [stop] ∧ stop.kind = .endOfInput ∧
      (∀ t ∈ words, t.kind ≠ .endOfInput) ∧
      scan (a ++ Position.newline :: b) = words ++ (scan b).map (shift (a.length + 1)) := by
  obtain ⟨words, stop, hwords, hstop, hkinds⟩ := scan_eq a
  refine ⟨words, stop, hwords, hstop, fun t ht => (hkinds t ht).1, ?_⟩
  have hscans := (scans_scan a).append_newline hclosed ((scans_scan b).shift (a.length + 1))
  rw [hwords, List.dropLast_concat] at hscans
  exact scan_eq_iff.2 hscans

/-- A source that breaks off within a character. -/
def brokenOff : Bytes := Bytes.ofString "2+ '%''' _/" ++ [0xe2, 0x82]

/-- The byte that the character lacks makes it whole no more after a line break. -/
theorem scan_append_newline_brokenOff :
    (∀ t ∈ scan brokenOff, t.kind ≠ .invalid .unterminatedText) ∧
    ∃ words stop, scan brokenOff = words ++ [stop] ∧ stop.kind = .endOfInput ∧
      (∀ t ∈ words, t.kind ≠ .endOfInput) ∧
      scan (brokenOff ++ Position.newline :: [0xac, 39]) =
        words ++ (scan [0xac, 39]).map (shift (brokenOff.length + 1)) := by
  have hclosed : ∀ t ∈ scan brokenOff, t.kind ≠ .invalid .unterminatedText := by decide +kernel
  exact ⟨hclosed, scan_append_newline hclosed [0xac, 39]⟩

/-- A text goes on over a line break. -/
example : scan [39, 10, 39] = [⟨.text [10], 0, [39, 10, 39]⟩, ⟨.endOfInput, 3, []⟩] := by decide

end Token

end DegreeScore
