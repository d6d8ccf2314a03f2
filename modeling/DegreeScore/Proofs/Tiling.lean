import DegreeScore.Proofs.Scanning

/-!
# Tokens and gaps

A source is cut into tokens and the gaps before them, so that no byte is lost or read twice
(`Token.scan_tiles`). A gap is made of white space and comments, whatever else the bytes are.

## Main definitions

- `IsGap` — white space and comments
- `Token.Tiles` — a source put together from gaps and tokens
- `Token.StandsIn` — a token at its place in a source
-/

namespace DegreeScore

/-- Bytes that are white space and comments, where `next` follows them. A comment goes from a
percent sign to the end of its line: the line feed after it is white space. -/
inductive IsGap (next : Bytes) : Bytes → Prop
  | nil : IsGap next []
  | blank {b : UInt8} {cs gap : Bytes} {c : Char} (hfirst : Utf8.first b cs = some (c, cs.length))
      (hc : Text.isSpace c = true) (h : IsGap next gap) : IsGap next (b :: cs ++ gap)
  | comment {line gap : Bytes} (hline : Position.newline ∉ line)
      (hend : ∀ b ∈ (gap ++ next).head?, b = Position.newline) (h : IsGap next gap) :
      IsGap next (37 :: line ++ gap)

namespace Lexer

/-- What the scan of a gap takes from inside of it. -/
def Gap.Takes (next : Bytes) : Gap → Bytes → Prop
  | .blanks owed, bs => owed ≤ bs.length ∧ IsGap next (bs.drop owed)
  | .comment, bs => ∃ line gap, bs = line ++ gap ∧ Position.newline ∉ line ∧
      (∀ b ∈ (gap ++ next).head?, b = Position.newline) ∧ IsGap next gap

/-- The length of a gap is that of a gap at the front. -/
theorem exists_takes {g : Gap} {n : Nat} {bs : Bytes} (hg : g.owed ≤ bs.length) :
    ∃ gap next, bs = gap ++ next ∧ gapLength g n bs = n + gap.length ∧ g.Takes next gap := by
  fun_induction gapLength g n bs with
  | case1 g n =>
    refine ⟨[], [], rfl, rfl, ?_⟩
    cases g with
    | blanks owed => exact ⟨hg, by rw [List.drop_nil]; exact .nil⟩
    | comment => exact ⟨[], [], rfl, List.not_mem_nil, by simp, .nil⟩
  | case2 n b rest ih =>
    by_cases hb : b = Position.newline
    · rw [if_pos hb] at ih ⊢
      obtain ⟨gap, next, rfl, hlength, -, hgap⟩ := ih (Nat.zero_le _)
      refine ⟨b :: gap, next, rfl, by rw [hlength, List.length_cons]; omega,
        [], b :: gap, rfl, List.not_mem_nil, by simpa using hb, ?_⟩
      have hfirst : Utf8.first Position.newline [] = some ('\n', 0) := rfl
      subst hb
      exact .blank hfirst (by decide) hgap
    · rw [if_neg hb] at ih ⊢
      obtain ⟨_, next, rfl, hlength, line, gap, rfl, hline, hend, hgap⟩ := ih (Nat.zero_le _)
      exact ⟨b :: (line ++ gap), next, rfl, by rw [hlength, List.length_cons]; omega,
        b :: line, gap, rfl, by simp [hline, Ne.symm hb], hend, hgap⟩
  | case3 owed n b rest ih =>
    obtain ⟨gap, next, rfl, hlength, howed, hgap⟩ := ih (Nat.le_of_succ_le_succ hg)
    exact ⟨b :: gap, next, rfl, by rw [hlength, List.length_cons]; omega,
      Nat.succ_le_succ howed, hgap⟩
  | case4 n b rest c k hfirst hspace ih =>
    obtain ⟨gap, next, rfl, hlength, hk, hgap⟩ := ih (Utf8.length_le_of_first hfirst)
    refine ⟨b :: gap, next, rfl, by rw [hlength, List.length_cons]; omega, Nat.zero_le _, ?_⟩
    have hown := Utf8.first_take_of_some hfirst le_rfl
    rw [List.take_append_of_le_length hk] at hown
    have hlen : (gap.take k).length = k := List.length_take_of_le hk
    rw [List.drop_zero, ← List.take_append_drop k gap, ← List.cons_append]
    exact .blank (by rw [hlen]; exact hown) hspace hgap
  | case5 n b rest k hfirst hspace ih =>
    obtain ⟨_, next, rfl, hlength, line, gap, rfl, hline, hend, hgap⟩ := ih (Nat.zero_le _)
    obtain rfl : b = 37 := UInt8.toNat_inj.1 (toNat_eq_of_first hfirst (by decide))
    exact ⟨37 :: (line ++ gap), next, rfl, by rw [hlength, List.length_cons]; omega,
      Nat.zero_le _, .comment hline hend hgap⟩
  | case6 | case7 => exact ⟨[], _, rfl, rfl, Nat.zero_le _, .nil⟩

/-- What the scan of a gap passes over is a gap. -/
theorem exists_gap (src : Bytes) : ∃ gap next, src = gap ++ next ∧
    gapLength (.blanks 0) 0 src = gap.length ∧ IsGap next gap := by
  obtain ⟨gap, next, hsrc, hlength, -, hgap⟩ :=
    exists_takes (g := .blanks 0) (n := 0) (Nat.zero_le src.length)
  exact ⟨gap, next, hsrc, by rw [hlength, Nat.zero_add], hgap⟩

end Lexer

namespace Token

/-- The bytes of a source, of which the first has the offset `pos`, are gaps and tokens in turn. The
last token is the end of input, and no other is. -/
inductive Tiles : Nat → Bytes → List Token → Prop
  | stop {pos : Nat} {gap : Bytes} (hgap : IsGap [] gap) :
      Tiles pos gap [⟨.endOfInput, pos + gap.length, []⟩]
  | word {pos : Nat} {gap rest : Bytes} {t : Token} {ts : List Token}
      (hgap : IsGap (t.text ++ rest) gap) (hoffset : t.offset = pos + gap.length)
      (hkind : t.kind ≠ .endOfInput) (htext : t.text ≠ [])
      (hrest : Tiles (t.offset + t.text.length) rest ts) :
      Tiles pos (gap ++ t.text ++ rest) (t :: ts)

variable {pos n : Nat} {src : Bytes} {t : Token} {ts : List Token}

/-- The next token is the end of input after a gap that takes all bytes, or what is measured after a
gap. -/
theorem next_cases (pos : Nat) (src : Bytes) :
    (IsGap [] src ∧ next pos src = (⟨.endOfInput, pos + src.length, []⟩, src.length)) ∨
      ∃ gap b rest, src = gap ++ b :: rest ∧ IsGap (b :: rest) gap ∧
        next pos src =
          (⟨(Lexer.measure b rest).1, pos + gap.length, (b :: rest).take (Lexer.measure b rest).2⟩,
            gap.length + (Lexer.measure b rest).2) := by
  obtain ⟨gap, rest, rfl, hlength, hgap⟩ := Lexer.exists_gap src
  rw [next, hlength, List.drop_left]
  cases rest with
  | nil => exact .inl ⟨by rwa [List.append_nil], by rw [List.append_nil]⟩
  | cons b rest => exact .inr ⟨gap, b, rest, rfl, hgap, rfl⟩

/-- The end of input comes after a gap that takes all bytes. -/
theorem tiles_of_endOfInput (hnext : next pos src = (t, n)) (ht : t.kind = .endOfInput) :
    Tiles pos src [t] := by
  rcases next_cases pos src with ⟨hgap, heq⟩ | ⟨gap, b, rest, -, -, heq⟩
  · obtain ⟨rfl, -⟩ := Prod.mk.inj (hnext.symm.trans heq)
    exact .stop hgap
  · obtain ⟨rfl, -⟩ := Prod.mk.inj (hnext.symm.trans heq)
    exact absurd ht (Lexer.measure_pos b rest).2

/-- A word comes after a gap and takes the bytes that are measured. -/
theorem exists_word_of_next (hnext : next pos src = (t, n)) (ht : t.kind ≠ .endOfInput) :
    ∃ gap b rest, src = gap ++ b :: rest ∧ IsGap (b :: rest) gap ∧ t.offset = pos + gap.length ∧
      t.text = (b :: rest).take (Lexer.measure b rest).2 ∧
      n = gap.length + (Lexer.measure b rest).2 := by
  rcases next_cases pos src with ⟨-, heq⟩ | ⟨gap, b, rest, hsrc, hgap, heq⟩
  · obtain ⟨rfl, -⟩ := Prod.mk.inj (hnext.symm.trans heq)
    exact absurd rfl ht
  · obtain ⟨rfl, rfl⟩ := Prod.mk.inj (hnext.symm.trans heq)
    exact ⟨gap, b, rest, hsrc, hgap, rfl, rfl, rfl⟩

/-- Scanning cuts a source into gaps and tokens. -/
theorem Scans.tiles (h : Scans pos src ts) : Tiles pos src ts := by
  induction h with
  | stop hnext ht => exact tiles_of_endOfInput hnext ht
  | @word pos n src t ts hnext ht _ ih =>
    obtain ⟨gap, b, rest, rfl, hgap, hoffset, htext, rfl⟩ := exists_word_of_next hnext ht
    have hle := Lexer.measure_le b rest
    have hlength : t.text.length = (Lexer.measure b rest).2 := by
      rw [htext, List.length_take_of_le hle]
    have hne : t.text ≠ [] := List.ne_nil_of_length_pos (hlength ▸ (Lexer.measure_pos b rest).1)
    have hsplit : b :: rest = t.text ++ (b :: rest).drop (Lexer.measure b rest).2 := by
      rw [htext, List.take_append_drop]
    rw [List.drop_length_add_append, ← Nat.add_assoc, ← hoffset, ← hlength] at ih
    rw [← hlength] at hsplit
    generalize (b :: rest).drop t.text.length = after at ih hsplit
    rw [hsplit] at hgap ⊢
    rw [← List.append_assoc]
    exact .word hgap hoffset ht hne ih

/-- The token stands in the source, whose first byte has the offset `pos`, at its own offset; the
end of input stands where the source ends. -/
structure StandsIn (pos : Nat) (src : Bytes) (t : Token) : Prop where
  le : pos ≤ t.offset
  offset_le : t.offset ≤ pos + src.length
  text : t.text <+: src.drop (t.offset - pos)
  stop : t.kind = .endOfInput → t.offset = pos + src.length

/-- Tokens stand in their source one after the other. -/
theorem Tiles.standsIn (h : Tiles pos src ts) :
    (∀ t ∈ ts, t.StandsIn pos src) ∧
      ts.Pairwise fun t u => t.offset + t.text.length ≤ u.offset ∧ t.offset < u.offset := by
  induction h with
  | stop hgap =>
    refine ⟨List.forall_mem_singleton.2 ⟨?_, le_rfl, List.nil_prefix, fun _ => rfl⟩,
      List.pairwise_singleton ..⟩
    exact Nat.le_add_right ..
  | @word pos gap rest t ts _ hoffset hkind htext _ ih =>
    obtain ⟨hin, horder⟩ := ih
    have hpos := List.length_pos_of_ne_nil htext
    have hlength : (gap ++ t.text ++ rest).length = gap.length + t.text.length + rest.length := by
      rw [List.length_append, List.length_append]
    refine ⟨List.forall_mem_cons.2
      ⟨⟨by omega, by omega, ?_, fun h => absurd h hkind⟩, fun u hu => ?_⟩,
      List.pairwise_cons.2 ⟨fun u hu => ?_, horder⟩⟩
    · rw [hoffset, Nat.add_sub_cancel_left, List.append_assoc, List.drop_left]
      exact List.prefix_append ..
    · obtain ⟨hle, hoffset', htext', hstop⟩ := hin u hu
      refine ⟨by omega, by omega, ?_, fun hend => ?_⟩
      · have hdrop : u.offset - pos =
            (gap ++ t.text).length + (u.offset - (t.offset + t.text.length)) := by
          rw [List.length_append]
          omega
        rwa [hdrop, List.drop_length_add_append]
      · have := hstop hend
        omega
    · have hle := (hin u hu).le
      exact ⟨hle, by omega⟩

theorem Tiles.exists_words (h : Tiles pos src ts) :
    ∃ words, ts = words ++ [⟨.endOfInput, pos + src.length, []⟩] ∧
      ∀ t ∈ words, t.kind ≠ .endOfInput ∧ t.text ≠ [] := by
  induction h with
  | stop => exact ⟨[], rfl, by simp⟩
  | @word pos gap rest t ts _ hoffset hkind htext _ ih =>
    obtain ⟨words, rfl, hwords⟩ := ih
    refine ⟨t :: words, ?_, List.forall_mem_cons.2 ⟨⟨hkind, htext⟩, hwords⟩⟩
    rw [hoffset, List.length_append, List.length_append, List.cons_append, Nat.add_assoc pos,
      Nat.add_assoc]

/-- Scanning comes to the end of input, and the tokens of a source and the gaps before them are all
of its bytes in order. Each word takes at least one byte and stands at its offset, and the end of
input comes last, where the source ends. -/
theorem scan_tiles (src : Bytes) :
    Scans 0 src (scan src) ∧ Tiles 0 src (scan src) ∧
      (∃ words, scan src = words ++ [⟨.endOfInput, src.length, []⟩] ∧ ∀ t ∈ words,
        t.kind ≠ .endOfInput ∧ t.text ≠ [] ∧ (src.drop t.offset).take t.text.length = t.text) ∧
      (scan src).Pairwise fun t u => t.offset + t.text.length ≤ u.offset ∧ t.offset < u.offset := by
  have hscans := scans_scan src
  have htiles := hscans.tiles
  obtain ⟨hstands, horder⟩ := htiles.standsIn
  obtain ⟨words, hscan, hwords⟩ := htiles.exists_words
  rw [Nat.zero_add] at hscan
  refine ⟨hscans, htiles, ⟨words, hscan, fun t ht => ?_⟩, horder⟩
  obtain ⟨hkind, htext⟩ := hwords t ht
  have hprefix := (hstands t (hscan ▸ List.mem_append_left _ ht)).text
  exact ⟨hkind, htext, (List.prefix_iff_eq_take.1 hprefix).symm⟩

end Token

end DegreeScore
