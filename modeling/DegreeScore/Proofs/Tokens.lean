import DegreeScore.Token.Lexer
import Mathlib.Data.List.Basic

/-!
# Tokens keep within their source

What later stages rely on about tokens, whatever the bytes of the source are: a token and the text
it stands for are no longer than the source (`Token.scan_sound`), and a number ends in a digit with
at most two signs after it (`IsNumeral`).
-/

namespace DegreeScore

open Text.Numeral (isDigit)

/-- A numeral: it ends in a digit, after which one or two signs may stand. -/
def IsNumeral (text : Bytes) : Prop :=
  ∃ body signs d, text = body ++ d :: signs ∧ isDigit d = true ∧ signs.length ≤ 2

namespace Lexer

theorem take_digitsLength (bs : Bytes) :
    bs.take (digitsLength bs) = bs.takeWhile isDigit := by
  rw [digitsLength]
  nth_rewrite 2 [← List.takeWhile_append_dropWhile (p := isDigit) (l := bs)]
  rw [List.take_left]

/-- A first digit, or a sign before a digit, and the digits after it end in a digit. -/
theorem exists_last_digit {b : UInt8} {rest : Bytes}
    (h : (isDigit b || (b = 45 && startsWithDigit rest)) = true) :
    ∃ body d, b :: rest.takeWhile isDigit = body ++ [d] ∧ isDigit d = true := by
  rcases List.eq_nil_or_concat' (rest.takeWhile isDigit) with hnil | ⟨body, d, hd⟩
  · refine ⟨[], b, by rw [hnil]; rfl, ?_⟩
    rw [Bool.or_eq_true, Bool.and_eq_true] at h
    rcases h with h | ⟨-, h⟩
    · exact h
    · -- After a sign there is a digit, so the run of digits is not empty.
      cases rest with
      | nil => cases h
      | cons c rest =>
        have hc : isDigit c = true := h
        rw [List.takeWhile_cons_of_pos hc] at hnil
        cases hnil
  · refine ⟨b :: body, d, by rw [hd]; rfl, ?_⟩
    have hmem : d ∈ rest.takeWhile isDigit := by rw [hd]; simp
    exact List.all_eq_true.1 List.all_takeWhile d hmem

theorem number_length (rest : Bytes) :
    ∃ k ≤ 2, (number rest).2 = digitsLength rest + 1 + k := by
  rw [number]
  split
  · split
    · split
      · exact ⟨2, Nat.le_refl 2, rfl⟩
      · exact ⟨1, by omega, rfl⟩
    · exact ⟨0, by omega, rfl⟩
  · exact ⟨0, by omega, rfl⟩

/-- What `number` measures is a numeral. -/
theorem isNumeral_number {b : UInt8} {rest : Bytes}
    (h : (isDigit b || (b = 45 && startsWithDigit rest)) = true) :
    IsNumeral ((b :: rest).take (number rest).2) := by
  obtain ⟨body, d, hbody, hd⟩ := exists_last_digit h
  obtain ⟨k, hk, hlen⟩ := number_length rest
  refine ⟨body, (rest.drop (digitsLength rest)).take k, d, ?_, hd, ?_⟩
  · rw [hlen, Nat.add_right_comm, List.take_succ_cons, List.take_add, take_digitsLength,
      ← List.cons_append, hbody, List.append_assoc]
    rfl
  · exact Nat.le_trans (List.length_take_le _ _) hk

/-- A quoted text says no more than what is written. -/
theorem length_of_quoted? {acc bs value : Bytes} {n m : Nat}
    (h : quoted? acc n bs = some (value, m)) : value.length ≤ acc.length + bs.length := by
  fun_induction quoted? acc n bs with
  | case1 => cases h
  | case2 acc n =>
    simp only [Option.some.injEq, Prod.mk.injEq] at h
    rw [← h.1, List.length_reverse]
    omega
  | case3 => cases h
  | case4 acc n b c rest hb ih =>
    have := ih h
    simp only [List.length_cons] at this ⊢
    omega
  | case5 acc n b rest hb ih =>
    have := ih h
    simp only [List.length_cons] at this ⊢
    omega
  | case6 acc n b c rest hb hc =>
    simp only [Option.some.injEq, Prod.mk.injEq] at h
    rw [← h.1, List.length_reverse]
    omega

/-- What is promised of the token that takes the first bytes of `src`: a text says no more than the
source holds, and a number is a numeral. -/
def Measure.Sound (src : Bytes) (m : Measure) : Prop :=
  match m.1 with
  | .text v => v.length ≤ src.length
  | .integer | .note => IsNumeral (src.take m.2)
  | _ => True

theorem duration_sound (b : UInt8) (rest : Bytes) : (duration rest).Sound (b :: rest) := by
  rw [duration]
  split
  · split <;> trivial
  · trivial

theorem number_sound {b : UInt8} {rest : Bytes}
    (h : (isDigit b || (b = 45 && startsWithDigit rest)) = true) :
    (number rest).Sound (b :: rest) := by
  have hnumeral := isNumeral_number h
  rw [Measure.Sound]
  split
  · next v hv =>
    rw [number] at hv
    split at hv
    · split at hv <;> cases hv
    · cases hv
  · exact hnumeral
  · exact hnumeral
  · trivial

theorem text_sound (b : UInt8) (rest : Bytes) : (text rest).Sound (b :: rest) := by
  rw [text]
  split
  · next value n h =>
    show value.length ≤ (b :: rest).length
    have hlen := length_of_quoted? h
    simp only [List.length_nil, List.length_cons] at hlen ⊢
    omega
  · trivial

theorem word_sound (b : UInt8) (rest : Bytes) : (word b rest).Sound (b :: rest) := by
  rw [word]
  split_ifs <;> trivial

theorem measure_sound (b : UInt8) (rest : Bytes) : (measure b rest).Sound (b :: rest) := by
  rw [measure.eq_def]
  split
  case h_7 => exact duration_sound _ rest
  case h_8 => exact text_sound _ rest
  case h_9 =>
    split
    · next h => exact number_sound h
    · split
      · split
        · exact word_sound b rest
        · trivial
      · trivial
  all_goals trivial

end Lexer

namespace Token

/-- What is promised of every token of a source of `size` bytes: it holds no more than the source,
and a number is a numeral. -/
structure Sound (size : Nat) (t : Token) : Prop where
  length_text : t.text.length ≤ size
  length_value : ∀ v, t.kind = .text v → v.length ≤ size
  numeral : t.kind = .integer ∨ t.kind = .note → IsNumeral t.text

theorem next_sound (offset : Nat) (src : Bytes) : (next offset src).1.Sound src.length := by
  rw [next]
  dsimp only
  split
  · exact ⟨Nat.zero_le _, by simp, by simp⟩
  · next b rest hsrc =>
    have hlen : (b :: rest).length ≤ src.length := by
      rw [← hsrc, List.length_drop]
      omega
    have hm := Lexer.measure_sound b rest
    rw [Lexer.Measure.Sound] at hm
    refine ⟨?_, ?_, ?_⟩
    · exact Nat.le_trans (List.length_take_le' _ _) hlen
    · intro v hv
      dsimp only at hv
      rw [hv] at hm
      exact Nat.le_trans hm hlen
    · rintro (hk | hk) <;> dsimp only at hk <;> rw [hk] at hm <;> exact hm

theorem Sound.mono {n m : Nat} {t : Token} (h : t.Sound n) (hle : n ≤ m) : t.Sound m :=
  ⟨Nat.le_trans h.length_text hle, fun v hv => Nat.le_trans (h.length_value v hv) hle, h.numeral⟩

theorem scanFrom_sound {size : Nat} {fuel : Nat} {acc : List Token} {offset : Nat} {src : Bytes}
    (hsrc : src.length ≤ size) (hacc : ∀ t ∈ acc, t.Sound size) :
    ∀ t ∈ scanFrom fuel acc offset src, t.Sound size := by
  induction fuel generalizing acc offset src with
  | zero => exact hacc
  | succ fuel ih =>
    have hnext : ∀ t ∈ (next offset src).1 :: acc, t.Sound size := by
      intro t ht
      rcases List.mem_cons.1 ht with rfl | ht
      · exact (next_sound offset src).mono hsrc
      · exact hacc t ht
    rw [scanFrom]
    dsimp only
    split
    · exact hnext
    · refine ih ?_ hnext
      rw [List.length_drop]
      omega

/-- Every token of a source keeps within it. -/
theorem scan_sound (src : Bytes) : ∀ t ∈ scan src, t.Sound src.length := by
  intro t ht
  exact scanFrom_sound (Nat.le_refl _) (by simp) t (List.mem_reverse.1 ht)

end Token

end DegreeScore
