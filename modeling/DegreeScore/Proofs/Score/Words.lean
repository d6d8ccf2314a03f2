import DegreeScore.Proofs.Score.Sound

/-!
# What words say

The values of numbers and durations are given by rules on their text: `WritesInt`, `WritesDegree`
and `WritesFraction`. On texts written by these rules the readers of `Literal` accept exactly
the values within their bounds. The words of every source are written so, and the end of input stands
after them and nowhere else (`Token.scan_eq`).
-/

namespace DegreeScore

open Text.Numeral (isDigit value)

/-- A run of digits. -/
structure IsDigits (ds : Bytes) : Prop where
  ne_nil : ds ≠ []
  all : ds.all isDigit = true

/-- A run of digits stands for its value, and for the opposite after a minus sign. -/
inductive WritesInt : Bytes → Int → Prop
  | nonneg {ds : Bytes} (h : IsDigits ds) : WritesInt ds (value ds)
  | neg {ds : Bytes} (h : IsDigits ds) : WritesInt (45 :: ds) (-(value ds : Int))

/-- One or two equal signs move a degree by so many semitones. -/
inductive WritesAccidental : Bytes → Int → Prop
  | natural : WritesAccidental [] 0
  | sharp : WritesAccidental [43] 1
  | doubleSharp : WritesAccidental [43, 43] 2
  | flat : WritesAccidental [45] (-1)
  | doubleFlat : WritesAccidental [45, 45] (-2)

/-- A degree with the signs after it. -/
def WritesDegree (text : Bytes) (degree accidental : Int) : Prop :=
  ∃ body signs, text = body ++ signs ∧ WritesInt body degree ∧ WritesAccidental signs accidental

/-- A numerator or denominator, which is one if it is missing. -/
inductive WritesTerm : Bytes → Nat → Prop
  | missing : WritesTerm [] 1
  | digits {ds : Bytes} (h : IsDigits ds) : WritesTerm ds (value ds)

/-- `_n/d`; the denominator is missing together with the slash. -/
inductive WritesFraction : Bytes → Nat → Nat → Prop
  | whole {ns : Bytes} {n : Nat} (hn : WritesTerm ns n) : WritesFraction (95 :: ns) n 1
  | fraction {ns ds : Bytes} {n : Nat} (hn : WritesTerm ns n) (hd : IsDigits ds) :
      WritesFraction (95 :: (ns ++ 47 :: ds)) n (value ds)

-- ════════════════════════════════════════════════════════════════════════
-- The values that are accepted
-- ════════════════════════════════════════════════════════════════════════

namespace Text.Numeral

theorem nat?_eq_some_iff {most n : Nat} {ds : Bytes} (h : IsDigits ds) :
    nat? most ds = some n ↔ n = value ds ∧ n ≤ most := by
  have hmin := valueUpTo_eq_min most ds
  rw [nat?]
  split
  · next hle =>
    rw [Option.some.injEq]
    omega
  · next hlt =>
    have hgt : ¬valueUpTo most ds ≤ most := fun hle => hlt ⟨h.ne_nil, h.all, hle⟩
    simp only [reduceCtorEq, false_iff]
    omega

theorem ne_of_isDigits {ds rest : Bytes} {b : UInt8} (h : IsDigits ds) (hb : isDigit b = false) :
    ds ≠ b :: rest := by
  rintro rfl
  have := List.all_eq_true.1 h.all b List.mem_cons_self
  rw [hb] at this
  cases this

/-- Reading a whole number accepts its value if that is within the bound. -/
theorem int?_eq_some_iff {most : Nat} {n k : Int} {text : Bytes} (h : WritesInt text n) :
    int? most text = some k ↔ k = n ∧ -(most : Int) ≤ n ∧ n ≤ most := by
  cases h with
  | nonneg h =>
    have hread : int? most text = (nat? most text).map Int.ofNat := by
      rw [int?.eq_def]
      split
      · exact (ne_of_isDigits h (by decide) rfl).elim
      · exact (ne_of_isDigits h (by decide) rfl).elim
      · rfl
    rw [hread, Option.map_eq_some_iff]
    simp only [nat?_eq_some_iff h]
    constructor
    · rintro ⟨m, ⟨rfl, hm⟩, rfl⟩
      exact ⟨rfl, by omega, by omega⟩
    · rintro ⟨rfl, -, hle⟩
      exact ⟨value text, ⟨rfl, by omega⟩, rfl⟩
  | @neg ds h =>
    have hread : int? most (45 :: ds) = (nat? most ds).map fun n => -Int.ofNat n := rfl
    rw [hread, Option.map_eq_some_iff]
    simp only [nat?_eq_some_iff h]
    constructor
    · rintro ⟨m, ⟨rfl, hm⟩, rfl⟩
      exact ⟨rfl, by omega, by omega⟩
    · rintro ⟨rfl, hle, -⟩
      exact ⟨value ds, ⟨rfl, by omega⟩, rfl⟩

end Text.Numeral

theorem WritesInt.exists_last {text : Bytes} {n : Int} (h : WritesInt text n) :
    ∃ body d, text = body ++ [d] ∧ isDigit d = true := by
  have hlast : ∀ {ds : Bytes}, IsDigits ds → ∃ body d, ds = body ++ [d] ∧ isDigit d = true := by
    intro ds h
    obtain ⟨body, d, rfl⟩ := (List.eq_nil_or_concat' ds).resolve_left h.ne_nil
    exact ⟨body, d, rfl, List.all_eq_true.1 h.all d (by simp)⟩
  cases h with
  | nonneg h => exact hlast h
  | neg h =>
    obtain ⟨body, d, rfl, hd⟩ := hlast h
    exact ⟨45 :: body, d, rfl, hd⟩

namespace Literal

open Text.Numeral

theorem bounded?_eq_some_iff {bound : Nat} {n : Int} {k : Int64} {text : Bytes}
    (hbound : bound < 2 ^ 63) (h : WritesInt text n) :
    bounded? bound text = some k ↔ k.toInt = n ∧ -(bound : Int) ≤ n ∧ n ≤ bound := by
  rw [bounded?, Option.map_eq_some_iff]
  simp only [int?_eq_some_iff h]
  constructor
  · rintro ⟨m, ⟨rfl, hlow, hhigh⟩, rfl⟩
    exact ⟨Int64.toInt_ofInt_of_le (by omega) (by omega), hlow, hhigh⟩
  · rintro ⟨rfl, hlow, hhigh⟩
    exact ⟨_, ⟨rfl, hlow, hhigh⟩, Int64.ofInt_toInt k⟩

theorem key_eq_ok_iff {n : Int} {k : Int64} {text : Bytes} (h : WritesInt text n) :
    key text = .ok k ↔ k.toInt = n ∧ -7 ≤ n ∧ n ≤ 7 := by
  have hread : key text = .ok k ↔ bounded? 7 text = some k := by
    rw [key]
    split <;> simp_all
  rw [hread]
  exact bounded?_eq_some_iff (by decide) h

/-- A number of the metadata is accepted exactly if it has 64 bits. -/
theorem integer_eq_ok_iff {n : Int} {k : Int64} {text : Bytes} (h : WritesInt text n) :
    integer text = .ok k ↔ k.toInt = n := by
  have hread : integer text = .ok k ↔
      ∃ m, int? 0x8000000000000000 text = some m ∧ fits64 m = true ∧ Int64.ofInt m = k := by
    rw [integer, int64?]
    cases int? 0x8000000000000000 text with
    | none => simp
    | some m => by_cases hm : fits64 m = true <;> simp [hm]
  rw [hread]
  simp only [int?_eq_some_iff h, fits64, Bool.and_eq_true_iff, decide_eq_true_iff]
  constructor
  · rintro ⟨m, ⟨rfl, -⟩, ⟨hlow, hhigh⟩, rfl⟩
    exact Int64.toInt_ofInt_of_le hlow hhigh
  · rintro rfl
    have hlow := k.le_toInt
    have hhigh := k.toInt_lt
    exact ⟨_, ⟨rfl, by omega, by omega⟩, ⟨by omega, by omega⟩, Int64.ofInt_toInt k⟩

theorem withoutSigns_append {body signs : Bytes} {n a : Int} (hbody : WritesInt body n)
    (hsigns : WritesAccidental signs a) : withoutSigns (body ++ signs) = body := by
  obtain ⟨init, d, rfl, hd⟩ := hbody.exists_last
  have hdigit : ¬(d = 43 ∨ d = 45) := by
    rintro (rfl | rfl) <;> exact absurd hd (by decide)
  cases hsigns <;> simp [withoutSigns, hdigit]

theorem accidental_eq_iff {signs : Bytes} {a : Int} {k : Int64} (h : WritesAccidental signs a) :
    accidental signs = k ↔ k.toInt = a := by
  have htoInt : (accidental signs).toInt = a := by
    cases h <;> decide
  rw [← htoInt, Int64.toInt_inj, eq_comm]

theorem degree_eq_ok_iff {text : Bytes} {n a : Int} {d k : Int64} (h : WritesDegree text n a) :
    degree text = .ok (d, k) ↔ (d.toInt = n ∧ -100 ≤ n ∧ n ≤ 100) ∧ k.toInt = a := by
  obtain ⟨body, signs, rfl, hbody, hsigns⟩ := h
  have hread : degree (body ++ signs) = .ok (d, k) ↔
      bounded? 100 body = some d ∧ accidental signs = k := by
    rw [degree, withoutSigns_append hbody hsigns, List.drop_left]
    cases bounded? 100 body <;> simp
  rw [hread, accidental_eq_iff hsigns]
  exact and_congr_left' (bounded?_eq_some_iff (by decide) hbody)

theorem term?_eq_some_iff {bs : Bytes} {n k : Nat} (h : WritesTerm bs n) :
    term? bs = some k ↔ k = n ∧ n ≤ 2 ^ 31 - 1 := by
  cases h with
  | missing =>
    rw [term?, List.isEmpty_nil, if_pos rfl, Option.some.injEq]
    omega
  | digits h =>
    have hne : bs.isEmpty = false := List.isEmpty_eq_false_iff.2 h.ne_nil
    rw [term?, hne, if_neg Bool.false_ne_true, nat?_eq_some_iff h]
    omega

theorem ne_slash_of_writesTerm {bs : Bytes} {n : Nat} (h : WritesTerm bs n) :
    ∀ b ∈ bs, decide (b ≠ slash) = true := by
  intro b hb
  cases h with
  | missing => cases hb
  | digits h =>
    have hdigit := List.all_eq_true.1 h.all b hb
    rw [decide_eq_true_iff]
    rintro rfl
    exact absurd hdigit (by decide)

/-- The terms of a duration stand before and after the slash. -/
theorem terms_eq {text : Bytes} {n d : Nat} (h : WritesFraction text n d) :
    ∃ ns ds, (text.drop 1).takeWhile (· ≠ slash) = ns ∧
      ((text.drop 1).dropWhile (· ≠ slash)).drop 1 = ds ∧ WritesTerm ns n ∧ WritesTerm ds d := by
  have hsplit : ∃ ns rest ds, text.drop 1 = ns ++ rest ∧ rest.takeWhile (· ≠ slash) = [] ∧
      (rest.dropWhile (· ≠ slash)).drop 1 = ds ∧ WritesTerm ns n ∧ WritesTerm ds d := by
    cases h with
    | @whole ns n hn => exact ⟨ns, [], [], (List.append_nil ns).symm, rfl, rfl, hn, .missing⟩
    | @fraction ns ds n hn hd => exact ⟨ns, 47 :: ds, ds, rfl, rfl, rfl, hn, .digits hd⟩
  obtain ⟨ns, rest, ds, htext, hnum, hden, hn, hd⟩ := hsplit
  have hslash := ne_slash_of_writesTerm hn
  refine ⟨ns, ds, ?_, ?_, hn, hd⟩
  · rw [htext, List.takeWhile_append_of_pos hslash, hnum, List.append_nil]
  · rw [htext, List.dropWhile_append_of_pos hslash, hden]

/-- A duration is accepted exactly if its terms are positive and have 31 bits, and then it is the
fraction of its terms in lowest terms. -/
theorem duration_eq_ok_iff {text : Bytes} {n d : Nat} {r : Ratio} (h : WritesFraction text n d) :
    duration text = .ok r ↔
      (1 ≤ n ∧ n ≤ 2 ^ 31 - 1) ∧ (1 ≤ d ∧ d ≤ 2 ^ 31 - 1) ∧ r.IsTime ∧ r.value = n / d := by
  obtain ⟨ns, ds, hns, hds, hn, hd⟩ := terms_eq h
  have hread : duration text = .ok r ↔ ∃ a b, term? ns = some a ∧ term? ds = some b ∧
      0 < a ∧ 0 < b ∧ Ratio.reduce (Int64.ofNat a) (Int64.ofNat b) = r := by
    rw [duration]
    simp only [hns, hds]
    split
    · next a b ha hb =>
      simp only [ha, hb, Option.some.injEq, exists_and_left, exists_eq_left']
      split
      · next hzero =>
        simp only [reduceCtorEq, false_iff]
        omega
      · next hpos =>
        rw [Except.ok.injEq]
        exact ⟨fun hr => ⟨by omega, by omega, hr⟩, fun hr => hr.2.2⟩
    · next hnone =>
      simp only [reduceCtorEq, false_iff]
      rintro ⟨a, b, ha, hb, -⟩
      exact hnone a b ha hb
  have hreduce : 0 < n → n ≤ 2 ^ 31 - 1 → 0 < d → d ≤ 2 ^ 31 - 1 →
      (Ratio.reduce (Int64.ofNat n) (Int64.ofNat d)).IsTime ∧
        (Ratio.reduce (Int64.ofNat n) (Int64.ofNat d)).value = n / d := by
    intro hn hn' hd hd'
    have hnum : (Int64.ofNat n).toInt = n := Int64.toInt_ofNat_of_lt (by omega)
    have hden : (Int64.ofNat d).toInt = d := Int64.toInt_ofNat_of_lt (by omega)
    refine ⟨(isDuration_reduce hn hd hn' hd').toIsTime, ?_⟩
    rw [Ratio.value_reduce (by omega), hnum, hden, Int.cast_natCast, Int.cast_natCast]
  rw [hread]
  simp only [term?_eq_some_iff hn, term?_eq_some_iff hd]
  constructor
  · rintro ⟨a, b, ⟨rfl, ha'⟩, ⟨rfl, hb'⟩, ha, hb, rfl⟩
    exact ⟨⟨ha, ha'⟩, ⟨hb, hb'⟩, hreduce ha ha' hb hb'⟩
  · rintro ⟨⟨ha, ha'⟩, ⟨hb, hb'⟩, htime, hvalue⟩
    obtain ⟨htime', hvalue'⟩ := hreduce ha ha' hb hb'
    exact ⟨n, d, ⟨rfl, ha'⟩, ⟨rfl, hb'⟩, ha, hb, htime'.eq_of_value_eq htime (hvalue'.trans hvalue.symm)⟩

end Literal

-- ════════════════════════════════════════════════════════════════════════
-- The words of a source
-- ════════════════════════════════════════════════════════════════════════

/-- What the text of a word of this kind says. -/
def TokenKind.WrittenAs (text : Bytes) : TokenKind → Prop
  | .integer => ∃ n, WritesInt text n
  | .note => ∃ n a, WritesDegree text n a
  | .duration => ∃ n d, WritesFraction text n d
  | _ => True

namespace Lexer

theorem isDigits_takeWhile {bs : Bytes} (h : startsWithDigit bs = true) :
    IsDigits (bs.takeWhile isDigit) := by
  cases bs with
  | nil => cases h
  | cons b rest =>
    refine ⟨?_, List.all_takeWhile⟩
    rw [List.takeWhile_cons_of_pos (show isDigit b = true from h)]
    exact List.cons_ne_nil _ _

theorem writesTerm_takeWhile (bs : Bytes) : ∃ n, WritesTerm (bs.takeWhile isDigit) n := by
  by_cases hnil : bs.takeWhile isDigit = []
  · rw [hnil]
    exact ⟨1, .missing⟩
  · exact ⟨_, .digits ⟨hnil, List.all_takeWhile⟩⟩

/-- A first digit, or a minus sign before a digit, and the digits after it are a whole number. -/
theorem writesInt_cons_takeWhile {b : UInt8} {rest : Bytes}
    (h : (isDigit b || (b = 45 && startsWithDigit rest)) = true) :
    ∃ n, WritesInt (b :: rest.takeWhile isDigit) n := by
  rw [Bool.or_eq_true, Bool.and_eq_true, decide_eq_true_iff] at h
  rcases h with hb | ⟨rfl, hrest⟩
  · refine ⟨_, .nonneg ⟨List.cons_ne_nil _ _, ?_⟩⟩
    rw [List.all_cons, hb, Bool.true_and]
    exact List.all_takeWhile
  · exact ⟨_, .neg (isDigits_takeWhile hrest)⟩

theorem number_written {b : UInt8} {rest : Bytes}
    (h : (isDigit b || (b = 45 && startsWithDigit rest)) = true) :
    (number rest).1.WrittenAs ((b :: rest).take (number rest).2) := by
  obtain ⟨n, hn⟩ := writesInt_cons_takeWhile h
  have htake : ∀ k, (b :: rest).take (digitsLength rest + 1 + k) =
      b :: rest.takeWhile isDigit ++ (rest.drop (digitsLength rest)).take k := by
    intro k
    rw [Nat.add_right_comm, List.take_succ_cons, List.take_add, take_digitsLength]
    rfl
  rw [number]
  split
  · next s after hdrop =>
    rw [hdrop] at htake
    split
    · next hs =>
      refine ⟨n, ?_⟩
      split
      · next hhead =>
        obtain ⟨more, rfl⟩ : ∃ more, after = s :: more := by
          cases after with
          | nil => cases hhead
          | cons c more => exact ⟨more, by rw [Option.some.inj hhead]⟩
        rw [htake 2]
        rcases hs with rfl | rfl
        · exact ⟨2, _, _, rfl, hn, .doubleSharp⟩
        · exact ⟨-2, _, _, rfl, hn, .doubleFlat⟩
      · rw [htake 1]
        rcases hs with rfl | rfl
        · exact ⟨1, _, _, rfl, hn, .sharp⟩
        · exact ⟨-1, _, _, rfl, hn, .flat⟩
    · refine ⟨n, ?_⟩
      rw [htake 0, List.take_zero, List.append_nil]
      exact hn
  · refine ⟨n, ?_⟩
    rw [htake 0, List.take_zero, List.append_nil]
    exact hn

theorem duration_written (rest : Bytes) :
    (duration rest).1.WrittenAs ((95 :: rest).take (duration rest).2) := by
  obtain ⟨n, hn⟩ := writesTerm_takeWhile rest
  have htake : ∀ k, (95 :: rest).take (digitsLength rest + 1 + k) =
      95 :: (rest.takeWhile isDigit ++ (rest.drop (digitsLength rest)).take k) := by
    intro k
    rw [Nat.add_right_comm, List.take_succ_cons, List.take_add, take_digitsLength]
  rw [duration]
  split
  · next after hdrop =>
    rw [hdrop] at htake
    split
    · next hafter =>
      refine ⟨n, value (after.takeWhile isDigit), ?_⟩
      have hlength : digitsLength rest + 2 + digitsLength after =
          digitsLength rest + 1 + (digitsLength after + 1) := by omega
      rw [hlength, htake, List.take_succ_cons, take_digitsLength]
      exact .fraction hn (isDigits_takeWhile hafter)
    · trivial
  · refine ⟨n, 1, ?_⟩
    rw [htake 0, List.take_zero, List.append_nil]
    exact .whole hn

theorem measure_written (b : UInt8) (rest : Bytes) :
    (measure b rest).1.WrittenAs ((b :: rest).take (measure b rest).2) := by
  rw [measure.eq_def]
  split
  case h_7 => exact duration_written rest
  case h_8 =>
    rw [text]
    split <;> trivial
  case h_9 =>
    split
    · next h => exact number_written h
    · split
      · split
        · rw [word]
          split_ifs <;> trivial
        · trivial
      · trivial
  all_goals trivial

theorem lt_of_quoted? {acc bs value : Bytes} {n m : Nat} (h : quoted? acc n bs = some (value, m)) :
    n < m := by
  fun_induction quoted? acc n bs with
  | case1 => cases h
  | case3 => cases h
  | case4 acc n b c rest hb ih => exact Nat.lt_of_succ_lt (ih h)
  | case5 acc n b rest hb ih => exact Nat.lt_of_succ_lt (Nat.lt_of_succ_lt (ih h))
  | case2 | case6 =>
    simp only [Option.some.injEq, Prod.mk.injEq] at h
    omega

theorem le_wordLength (owed n : Nat) (bs : Bytes) : n ≤ wordLength owed n bs := by
  fun_induction wordLength owed n bs with
  | case1 | case4 | case5 => exact Nat.le_refl _
  | case2 owed n b rest ih => exact Nat.le_of_succ_le ih
  | case3 n b rest c k _ _ ih => exact Nat.le_of_succ_le ih

theorem le_of_scalar? {least n : Nat} {c : Char} (h : Utf8.scalar? least n = some c) :
    least ≤ c.toNat := by
  rw [Utf8.scalar?] at h
  obtain ⟨hvalid, h⟩ := Option.dite_none_right_eq_some.1 h
  obtain ⟨hle, h⟩ := Option.ite_none_right_eq_some.1 h
  obtain rfl := Option.some.inj h
  exact hle

/-- Only its own byte begins a character of ASCII: longer encodings are of characters beyond it. -/
theorem toNat_eq_of_first {b : UInt8} {rest : Bytes} {c : Char} {k : Nat}
    (h : Utf8.first b rest = some (c, k)) (hc : c.toNat < 0x80) : b.toNat = c.toNat := by
  have hlong : ∀ {least n : Nat}, 0x80 ≤ least → Utf8.scalar? least n ≠ some c := by
    intro least n hleast hscalar
    exact absurd (hleast.trans (le_of_scalar? hscalar)) (Nat.not_le_of_lt hc)
  by_cases hb : b < 0x80
  · rw [Utf8.first.eq_def, if_pos hb] at h
    have hlt : b.toNat < 0x80 := UInt8.lt_iff_toNat_lt.1 hb
    have hvalid : b.toNat.isValidChar := .inl (by omega)
    have hchar := (Prod.mk.inj (Option.some.inj h)).1
    rw [Char.ofNat, dif_pos hvalid] at hchar
    rw [← hchar]
    rfl
  · rw [Utf8.first.eq_def, if_neg hb] at h
    repeat' split at h
    all_goals simp [Option.bind_eq_some_iff, hlong] at h

theorem word_pos {b : UInt8} {rest : Bytes} {c : Char} {k : Nat}
    (hfirst : Utf8.first b rest = some (c, k)) (hc : (c = '$' || Text.isLetter c) = true) :
    0 < (word b rest).2 := by
  have hn : 0 < if b = 36 then wordLength 0 1 rest else wordLength 0 0 (b :: rest) := by
    split
    · exact le_wordLength 0 1 rest
    · next hb =>
      have hword : isWordChar c = true := by
        rw [Bool.or_eq_true, decide_eq_true_iff] at hc
        rcases hc with rfl | hletter
        · exact absurd (UInt8.toNat_inj.1 (toNat_eq_of_first hfirst (by decide))) hb
        · rw [isWordChar, hletter, Bool.or_true, Bool.true_or]
      rw [wordLength, hfirst]
      dsimp only
      rw [if_pos hword]
      exact le_wordLength ..
  rw [word]
  generalize (if b = 36 then wordLength 0 1 rest else wordLength 0 0 (b :: rest)) = n at hn ⊢
  split_ifs <;> exact hn

/-- A word takes at least one byte and is not the end of input. -/
theorem measure_pos (b : UInt8) (rest : Bytes) :
    0 < (measure b rest).2 ∧ (measure b rest).1 ≠ .endOfInput := by
  rw [measure.eq_def]
  split
  case h_7 =>
    rw [duration]
    split
    · split <;> exact ⟨by dsimp only; omega, by simp⟩
    · exact ⟨by dsimp only; omega, by simp⟩
  case h_8 =>
    rw [text]
    split
    · next hquoted => exact ⟨Nat.zero_lt_of_lt (lt_of_quoted? hquoted), by simp⟩
    · exact ⟨Nat.succ_pos _, by simp⟩
  case h_9 =>
    split
    · refine ⟨?_, ?_⟩
      · obtain ⟨k, -, hk⟩ := number_length rest
        omega
      · rw [number]
        split
        · split <;> simp
        · simp
    · split
      · next c k hfirst =>
        split
        · next hc =>
          refine ⟨word_pos hfirst hc, ?_⟩
          rw [word]
          split_ifs <;> simp
        · exact ⟨Nat.succ_pos k, by simp⟩
      · exact ⟨Nat.one_pos, by simp⟩
  all_goals exact ⟨Nat.one_pos, by simp⟩

end Lexer

namespace Token

theorem next_written (offset : Nat) (src : Bytes) :
    (next offset src).1.kind.WrittenAs (next offset src).1.text := by
  rw [next]
  dsimp only
  split
  · trivial
  · exact Lexer.measure_written ..

/-- A word takes bytes away, unless it is the end of input. -/
theorem next_shortens {offset : Nat} {src : Bytes}
    (h : (next offset src).1.kind ≠ .endOfInput) :
    (src.drop (next offset src).2).length < src.length := by
  rw [next] at h ⊢
  dsimp only at h ⊢
  split at h
  · exact absurd rfl h
  · next b rest hdrop =>
    have hlength := congrArg List.length hdrop
    have hpos := (Lexer.measure_pos b rest).1
    rw [List.length_drop, List.length_cons] at hlength
    rw [List.length_drop]
    dsimp only
    omega

theorem scanFrom_eq {fuel : Nat} {src : Bytes} (acc : List Token) (offset : Nat)
    (hfuel : src.length < fuel) :
    ∃ words stop, scanFrom fuel acc offset src = stop :: (words ++ acc) ∧
      stop.kind = .endOfInput ∧
      ∀ t ∈ words, t.kind ≠ .endOfInput ∧ t.kind.WrittenAs t.text := by
  induction fuel generalizing acc offset src with
  | zero => exact absurd hfuel (Nat.not_lt_zero _)
  | succ fuel ih =>
    rw [scanFrom]
    dsimp only
    split
    · next hkind => exact ⟨[], _, rfl, hkind, by simp⟩
    · next hkind =>
      have hlt := next_shortens hkind
      obtain ⟨words, stop, heq, hstop, hwords⟩ :=
        ih ((next offset src).1 :: acc) (offset + (next offset src).2)
          (Nat.lt_of_lt_of_le hlt (Nat.le_of_lt_succ hfuel))
      refine ⟨words ++ [(next offset src).1], stop, ?_, hstop, ?_⟩
      · rw [heq, List.append_assoc, List.singleton_append]
      · intro t ht
        rcases List.mem_append.1 ht with ht | ht
        · exact hwords t ht
        · obtain rfl := List.mem_singleton.1 ht
          exact ⟨hkind, next_written offset src⟩

/-- The words of a source: the end of input stands last and nowhere else, and numbers and durations
are written by the rules. -/
theorem scan_eq (src : Bytes) :
    ∃ words stop, scan src = words ++ [stop] ∧ stop.kind = .endOfInput ∧
      ∀ t ∈ words, t.kind ≠ .endOfInput ∧ t.kind.WrittenAs t.text := by
  obtain ⟨words, stop, heq, hstop, hwords⟩ :=
    scanFrom_eq [] 0 (Nat.lt_succ_self src.length)
  refine ⟨words.reverse, stop, ?_, hstop, fun t ht => hwords t (List.mem_reverse.1 ht)⟩
  rw [scan, heq, List.append_nil, List.reverse_cons]

end Token

end DegreeScore
