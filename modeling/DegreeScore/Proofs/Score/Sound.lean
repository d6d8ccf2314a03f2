import DegreeScore.Proofs.Ratio
import DegreeScore.Proofs.Tokens
import DegreeScore.Score.Literal
import Mathlib.Tactic.IntervalCases

/-!
# Sound scores

What is promised of the tree of every source, valid or not. Inserts point to sections that exist,
and those of a section to earlier ones, so that inserts cannot lead back to themselves. Durations
are positive and in lowest terms with terms of 31 bits, and keys, degrees and accidentals keep their
bounds. The second half shows that the values of tokens are of this kind.
-/

namespace DegreeScore

/-- The durations that a source can give: positive, in lowest terms, each term of 31 bits. -/
structure Ratio.IsDuration (r : Ratio) : Prop extends r.IsTime where
  pos : 0 < r.num.toInt
  num_le : r.num.toInt ≤ 2 ^ 31 - 1
  den_le : r.den.toInt ≤ 2 ^ 31 - 1

/-- Options with a valid duration and key and with labels of at most `size` bytes. -/
structure Options.Sound (size : Nat) (o : Options) : Prop where
  duration : ∀ d ∈ o.duration, d.IsDuration
  key : ∀ k ∈ o.key, -7 ≤ k.toInt ∧ k.toInt ≤ 7
  labels : ∀ l ∈ o.labels, l.length ≤ size

/-- A node whose inserts point below `sections` and whose values keep their bounds. A label that
stands on its own has no options, and there are no holes. -/
inductive Node.Sound (sections size : Nat) : Node → Prop
  | note {degree accidental : Int64} {o : Option Options}
      (hdegree : -100 ≤ degree.toInt ∧ degree.toInt ≤ 100)
      (haccidental : -2 ≤ accidental.toInt ∧ accidental.toInt ≤ 2)
      (ho : ∀ x ∈ o, x.Sound size) : Sound sections size (.note degree accidental o)
  | rest {o : Option Options} (ho : ∀ x ∈ o, x.Sound size) : Sound sections size (.rest o)
  | group {g : Grouping} {children : List Node} {o : Option Options}
      (hchildren : ∀ n ∈ children, Sound sections size n) (ho : ∀ x ∈ o, x.Sound size) :
      Sound sections size (.group g children o)
  | insert {i : Nat} (hi : i < sections) : Sound sections size (.insert i)
  | event {l : Bytes} (hl : l.length ≤ size) : Sound sections size (.event l none)
  | error {offset : Int} {message : String} : Sound sections size (.error offset message)

/-- More sections do no harm. -/
theorem Node.Sound.mono {m n size : Nat} {node : Node} (hle : m ≤ n) (h : node.Sound m size) :
    node.Sound n size := by
  induction h with
  | note hdegree haccidental ho => exact .note hdegree haccidental ho
  | rest ho => exact .rest ho
  | group _ ho ih => exact .group ih ho
  | insert hi => exact .insert (Nat.lt_of_lt_of_le hi hle)
  | event hl => exact .event hl
  | error => exact .error

/-- Sections of which each plays only earlier ones. -/
def SoundSections (size : Nat) (sections : Array Section) : Prop :=
  ∀ (i : Nat) (s : Section), sections[i]? = some s → s.node.Sound i size

theorem SoundSections.push {size : Nat} {sections : Array Section} {mark : Bytes} {n : Node}
    (h : SoundSections size sections) (hn : n.Sound sections.size size) :
    SoundSections size (sections.push ⟨mark, n⟩) := by
  intro i s hs
  rw [Array.getElem?_push] at hs
  split at hs
  · next hi =>
    obtain rfl := Option.some.inj hs
    exact hi ▸ hn
  · exact h i s hs

/-- A tree without dangling or circular inserts, all values of which keep their bounds. -/
structure Tree.Sound (size : Nat) (tree : Tree) : Prop where
  main : tree.main.Sound tree.sections.size size
  sections : SoundSections size tree.sections

-- ════════════════════════════════════════════════════════════════════════
-- The values of tokens
-- ════════════════════════════════════════════════════════════════════════

namespace Text.Numeral

theorem nat?_le {most n : Nat} {bs : Bytes} (h : nat? most bs = some n) : n ≤ most := by
  rw [nat?] at h
  split at h
  · next hbs =>
    obtain rfl := Option.some.inj h
    exact hbs.2.2
  · cases h

theorem int?_bounds {most : Nat} {n : Int} {bs : Bytes} (h : int? most bs = some n) :
    -(most : Int) ≤ n ∧ n ≤ most := by
  have key : ∀ {ds : Bytes} {f : Nat → Int}, (∀ k, f k = k ∨ f k = -k) →
      (nat? most ds).map f = some n → -(most : Int) ≤ n ∧ n ≤ most := by
    intro ds f hf hn
    obtain ⟨k, hk, rfl⟩ := Option.map_eq_some_iff.1 hn
    have := nat?_le hk
    rcases hf k with hk | hk <;> rw [hk] <;> omega
  rw [int?.eq_def] at h
  split at h
  · exact key (fun k => .inl rfl) h
  · exact key (fun k => .inr rfl) h
  · exact key (fun k => .inl rfl) h

end Text.Numeral

namespace Literal

theorem term?_le {digits : Bytes} {n : Nat} (h : term? digits = some n) : n ≤ 2 ^ 31 - 1 := by
  rw [term?] at h
  split at h
  · obtain rfl := Option.some.inj h
    decide
  · exact Text.Numeral.nat?_le h

/-- Reducing a fraction with positive terms of 31 bits keeps them so. -/
theorem isDuration_reduce {n d : Nat} (hn : 0 < n) (hd : 0 < d) (hn' : n ≤ 2 ^ 31 - 1)
    (hd' : d ≤ 2 ^ 31 - 1) :
    (Ratio.reduce (Int64.ofNat n) (Int64.ofNat d)).IsDuration := by
  have hnum : (Int64.ofNat n).toInt = n := Int64.toInt_ofNat_of_lt (by omega)
  have hden : (Int64.ofNat d).toInt = d := Int64.toInt_ofNat_of_lt (by omega)
  have hlow : -2 ^ 63 < (Int64.ofNat n).toInt := by omega
  have hpos : 0 < (Int64.ofNat d).toInt := by omega
  have htime := Ratio.isTime_reduce (by omega : 0 ≤ (Int64.ofNat n).toInt) hpos
  obtain ⟨h₁, h₂⟩ := Ratio.reduce_terms hlow hpos
  rw [hnum, hden] at h₁ h₂
  have hg : 0 < Int.gcd n d := Int.gcd_pos_of_ne_zero_left _ (by omega)
  refine ⟨htime, ?_, ?_, ?_⟩
  · rw [h₁]
    exact Int.ediv_pos_of_pos_of_dvd (by omega) (by omega) (Int.gcd_dvd_left ..)
  · rw [h₁]
    have := Int.ediv_le_self (Int.gcd n d) (a := n) (by omega)
    omega
  · rw [h₂]
    have := Int.ediv_le_self (Int.gcd n d) (a := d) (by omega)
    omega

theorem isDuration_duration {text : Bytes} {r : Ratio} (h : duration text = .ok r) :
    r.IsDuration := by
  rw [duration] at h
  split at h
  · next n d hn hd =>
    split at h
    · cases h
    · next hpos =>
      obtain rfl := Except.ok.inj h
      exact isDuration_reduce (by omega) (by omega) (term?_le hn) (term?_le hd)
  · cases h

theorem bounded?_bounds {bound : Nat} {text : Bytes} {n : Int64} (hbound : bound < 2 ^ 63)
    (h : bounded? bound text = some n) : -(bound : Int) ≤ n.toInt ∧ n.toInt ≤ bound := by
  obtain ⟨k, hk, rfl⟩ := Option.map_eq_some_iff.1 h
  have hk := Text.Numeral.int?_bounds hk
  rw [Int64.toInt_ofInt_of_le (by omega) (by omega)]
  exact hk

theorem key_bounds {text : Bytes} {k : Int64} (h : key text = .ok k) :
    -7 ≤ k.toInt ∧ k.toInt ≤ 7 := by
  rw [key] at h
  split at h
  · next hk =>
    obtain rfl := Except.ok.inj h
    exact bounded?_bounds (by decide) hk
  · cases h

/-- At most the signs at the end of a numeral are dropped. -/
theorem length_signs_le {text : Bytes} (h : IsNumeral text) :
    (text.drop (withoutSigns text).length).length ≤ 2 := by
  obtain ⟨body, signs, d, rfl, hd, hsigns⟩ := h
  have hdigit : ¬(d = 43 ∨ d = 45) := by
    rintro (rfl | rfl) <;> exact absurd hd (by decide)
  have hkept : body.length + 1 ≤ (withoutSigns (body ++ d :: signs)).length := by
    rw [withoutSigns, List.length_reverse, List.reverse_append, List.reverse_cons,
      List.append_assoc, List.dropWhile_append]
    split
    · rw [List.singleton_append, List.dropWhile_cons_of_neg (by simpa using hdigit)]
      simp
    · simp
  rw [List.length_drop, List.length_append, List.length_cons]
  omega

theorem accidental_bounds {signs : Bytes} (h : signs.length ≤ 2) :
    -2 ≤ (accidental signs).toInt ∧ (accidental signs).toInt ≤ 2 := by
  rw [accidental]
  generalize signs.length = n at h
  interval_cases n <;> split <;> decide

theorem degree_bounds {text : Bytes} {d a : Int64} (htext : IsNumeral text)
    (h : degree text = .ok (d, a)) :
    (-100 ≤ d.toInt ∧ d.toInt ≤ 100) ∧ -2 ≤ a.toInt ∧ a.toInt ≤ 2 := by
  rw [degree] at h
  split at h
  · next hd =>
    obtain ⟨rfl, rfl⟩ := Prod.mk.inj (Except.ok.inj h)
    exact ⟨bounded?_bounds (by decide) hd, accidental_bounds (length_signs_le htext)⟩
  · cases h

end Literal

end DegreeScore
