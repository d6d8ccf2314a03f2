import DegreeScore.Sorting
import Mathlib.Data.List.Sort

/-!
# Sorting by a key is stable

The sort compares elements in an order of its own. Where its test is the order of a key, the result
does not depend on that order: it is the one arrangement that is in the order of keys and keeps
elements with one key as they stood (`IsStable.unique`), so the library's stable sort gives the same
(`sort_eq_mergeSort`). The test has to agree with the keys only on the elements that are sorted.
-/

namespace DegreeScore.Sorting

variable {α β : Type} [LinearOrder β]

/-- The order of elements by a key. -/
def byKey (key : α → β) (a b : α) : Bool := key a ≤ key b

/-- `bs` holds the elements of `as` in the order of their keys, and elements with one key in the
order they have in `as`. -/
structure IsStable (key : α → β) (as bs : List α) : Prop where
  ordered : bs.Pairwise fun a b => key a ≤ key b
  kept : ∀ k, bs.filter (key · = k) = as.filter (key · = k)

variable {key : α → β} {as bs cs ds : List α}

theorem mem_iff_of_filter_eq (h : ∀ k, bs.filter (key · = k) = as.filter (key · = k)) (a : α) :
    a ∈ bs ↔ a ∈ as := by
  have hk := congrArg (a ∈ ·) (h (key a))
  simpa using hk

namespace IsStable

theorem mem_iff (h : IsStable key as bs) (a : α) : a ∈ bs ↔ a ∈ as := mem_iff_of_filter_eq h.kept a

/-- There is only one stable arrangement. -/
theorem unique (hb : IsStable key as bs) (hc : IsStable key as cs) : bs = cs := by
  have hkept : ∀ k, bs.filter (key · = k) = cs.filter (key · = k) :=
    fun k => (hb.kept k).trans (hc.kept k).symm
  have hob := hb.ordered
  have hoc := hc.ordered
  clear hb hc
  induction bs generalizing cs with
  | nil =>
    cases cs with
    | nil => rfl
    | cons c cs => exact absurd ((mem_iff_of_filter_eq hkept c).2 List.mem_cons_self) (by simp)
  | cons b bs ih =>
    cases cs with
    | nil => exact absurd ((mem_iff_of_filter_eq hkept b).1 List.mem_cons_self) (by simp)
    | cons c cs =>
      -- Both heads have the least key, so they are the first elements with that key.
      have hbc : key b ≤ key c := by
        rcases List.mem_cons.1 ((mem_iff_of_filter_eq hkept c).2 List.mem_cons_self) with rfl | h
        · exact le_rfl
        · exact List.rel_of_pairwise_cons hob h
      have hcb : key c ≤ key b := by
        rcases List.mem_cons.1 ((mem_iff_of_filter_eq hkept b).1 List.mem_cons_self) with rfl | h
        · exact le_rfl
        · exact List.rel_of_pairwise_cons hoc h
      have hhead := hkept (key b)
      rw [List.filter_cons_of_pos (by simp),
        List.filter_cons_of_pos (by simp [le_antisymm hbc hcb])] at hhead
      obtain ⟨rfl, htail⟩ := List.cons.inj hhead
      refine congrArg _ (ih ?_ hob.of_cons hoc.of_cons)
      intro k
      by_cases hk : key b = k
      · subst hk
        exact htail
      · have := hkept k
        rwa [List.filter_cons_of_neg (by simpa using hk),
          List.filter_cons_of_neg (by simpa using hk)] at this

end IsStable

/-- The library's merge sort is stable. -/
theorem isStable_mergeSort (key : α → β) (as : List α) :
    IsStable key as (as.mergeSort (byKey key)) := by
  have htrans : ∀ a b c, byKey key a b → byKey key b c → byKey key a c := by
    simp only [byKey, decide_eq_true_eq]
    exact fun a b c => le_trans
  have htotal : ∀ a b, byKey key a b || byKey key b a := by
    simp only [byKey, Bool.or_eq_true, decide_eq_true_eq]
    exact fun a b => le_total (key a) (key b)
  refine ⟨?_, fun k => ?_⟩
  · simpa [byKey] using List.pairwise_mergeSort htrans htotal as
  · have hclass : (as.filter (key · = k)).Pairwise fun a b => byKey key a b := by
      refine List.pairwise_of_forall_mem_list fun a ha b hb => ?_
      simp only [List.mem_filter, decide_eq_true_eq] at ha hb
      simp [byKey, ha.2, hb.2]
    have hsub :=
      (List.sublist_mergeSort htrans htotal hclass List.filter_sublist).filter (key · = k)
    simp only [List.filter_filter, Bool.and_self] at hsub
    refine (hsub.eq_of_length_le ?_).symm
    exact ((List.mergeSort_perm as _).filter _).length_eq.le

namespace IsStable

/-- A list in order is its own stable arrangement. -/
theorem refl (as : List α) (h : as.Pairwise fun a b => key a ≤ key b) : IsStable key as as :=
  ⟨h, fun _ => rfl⟩

/-- Two stable arrangements can be joined when all keys of the first are at most those of the
second. That the `ys₁` overtake the `xs₂` makes no difference, because their keys are smaller. -/
theorem join {xs₁ ys₁ xs₂ ys₂ : List α} (hb : IsStable key (xs₁ ++ ys₁) bs)
    (hc : IsStable key (xs₂ ++ ys₂) cs) (hle : ∀ b ∈ bs, ∀ c ∈ cs, key b ≤ key c)
    (hlt : ∀ y ∈ ys₁, ∀ x ∈ xs₂, key y < key x) :
    IsStable key ((xs₁ ++ xs₂) ++ (ys₁ ++ ys₂)) (bs ++ cs) := by
  refine ⟨List.pairwise_append.2 ⟨hb.ordered, hc.ordered, hle⟩, fun k => ?_⟩
  have hswap : ys₁.filter (key · = k) ++ xs₂.filter (key · = k) =
      xs₂.filter (key · = k) ++ ys₁.filter (key · = k) := by
    by_cases hy : ∃ y ∈ ys₁, key y = k
    · obtain ⟨y, hy, rfl⟩ := hy
      have hnone : xs₂.filter (key · = key y) = [] := by
        simpa using fun x hx => (hlt y hy x hx).ne'
      rw [hnone, List.append_nil, List.nil_append]
    · have hnone : ys₁.filter (key · = k) = [] := by simpa using hy
      rw [hnone, List.append_nil, List.nil_append]
  have hb' := hb.kept k
  have hc' := hc.kept k
  simp only [List.filter_append] at hb' hc' ⊢
  rw [hb', hc']
  simp only [List.append_assoc]
  rw [← List.append_assoc (ys₁.filter _), hswap, List.append_assoc]

end IsStable

theorem IsStable.perm (h : IsStable key as bs) : bs.Perm as := by
  rw [h.unique (isStable_mergeSort key as)]
  exact List.mergeSort_perm ..

/-- Arranging by a key of images arranges the images. -/
theorem IsStable.map {γ : Type} {f : γ → α} {xs ys : List γ}
    (h : IsStable (fun x => key (f x)) xs ys) : IsStable key (xs.map f) (ys.map f) := by
  refine ⟨List.pairwise_map.2 h.ordered, fun k => ?_⟩
  rw [List.filter_map, List.filter_map]
  exact congrArg (List.map f) (h.kept k)

/-- What stood before every `b` still does, unless its key is greater. -/
theorem IsStable.mem_before {a b : α} (h : IsStable key as bs) (ha : a ∈ as) (hab : key a ≤ key b)
    (hbefore : ∀ pre post, as = pre ++ b :: post → a ∈ pre) {pre post : List α}
    (hbs : bs = pre ++ b :: post) : a ∈ pre := by
  have hord := h.ordered
  rcases hab.lt_or_eq with hlt | heq
  · have hmem := (h.mem_iff a).2 ha
    rw [hbs] at hmem hord
    rcases List.mem_append.1 hmem with hmem | hmem
    · exact hmem
    · rcases List.mem_cons.1 hmem with rfl | hmem
      · exact absurd hlt (lt_irrefl _)
      · have hle := List.rel_of_pairwise_cons (List.pairwise_append.1 hord).2.1 hmem
        exact absurd hlt (not_lt.2 hle)
  · -- With equal keys both stand in one class, which is kept as it was.
    have hclass := h.kept (key b)
    rw [hbs, List.filter_append, List.filter_cons_of_pos (by simp)] at hclass
    obtain ⟨as₁, as₂, rfl, hpre, hcons⟩ := List.filter_eq_append_iff.1 hclass.symm
    obtain ⟨between, rest, rfl, hnone, -, -⟩ := List.filter_eq_cons_iff.1 hcons
    have hmem := hbefore (as₁ ++ between) rest (by simp)
    rcases List.mem_append.1 hmem with hmem | hmem
    · exact (List.mem_filter.1 (hpre ▸ List.mem_filter.2 ⟨hmem, by simpa using heq⟩)).1
    · exact absurd (by simpa using heq) (hnone a hmem)

-- ════════════════════════════════════════════════════════════════════════
-- Searching and cutting
-- ════════════════════════════════════════════════════════════════════════

/-- A test that holds up to some index and not from there on changes where `search` says. -/
theorem search_spec (p : Nat → Bool) (lo hi : Nat)
    (hp : ∀ i j, lo ≤ i → i ≤ j → j < hi → p j = true → p i = true) :
    (∀ i, lo ≤ i → i < search p lo hi → p i = true) ∧
      ∀ i, search p lo hi ≤ i → i < hi → p i = false := by
  fun_induction search p lo hi with
  | case1 lo hi hlt m hm ih =>
    obtain ⟨hbelow, habove⟩ := ih fun i j h₁ => hp i j (by omega)
    refine ⟨fun i h₁ h₂ => ?_, habove⟩
    rcases Nat.lt_or_ge m i with h | h
    · exact hbelow i h h₂
    · exact hp i m h₁ h (by omega) hm
  | case2 lo hi hlt m hm ih =>
    obtain ⟨hbelow, habove⟩ := ih fun i j h₁ h₂ h₃ => hp i j h₁ h₂ (by omega)
    refine ⟨hbelow, fun i h₁ h₂ => ?_⟩
    rcases Nat.lt_or_ge i m with h | h
    · exact habove i h₁ h
    · exact Bool.eq_false_iff.2 fun hi => hm (hp m i (by omega) h h₂ hi)
  | case3 lo hi hlt => exact ⟨fun i h₁ h₂ => by omega, fun i h₁ h₂ => by omega⟩

/-- In a run that is in order keys grow with the index. -/
theorem key_le_of_le {xs : Array α} (h : xs.toList.Pairwise fun a b => key a ≤ key b) {i j : Nat}
    {a b : α} (hij : i ≤ j) (ha : xs[i]? = some a) (hb : xs[j]? = some b) : key a ≤ key b := by
  obtain ⟨hi, rfl⟩ := Array.getElem?_eq_some_iff.1 ha
  obtain ⟨hj, rfl⟩ := Array.getElem?_eq_some_iff.1 hb
  rcases Nat.lt_or_eq_of_le hij with hlt | rfl
  · exact List.pairwise_iff_getElem.1 h i j hi hj hlt
  · exact le_rfl

theorem exists_getElem? {xs : Array α} {i : Nat} (h : i < xs.size) : ∃ a, xs[i]? = some a :=
  ⟨_, Array.getElem?_eq_getElem h⟩

theorem mem_take_iff {xs : Array α} {n : Nat} {a : α} :
    a ∈ (xs.take n).toList ↔ ∃ i < n, xs[i]? = some a := by
  rw [toList_take, List.mem_take_iff_getElem]
  constructor
  · rintro ⟨i, hi, rfl⟩
    exact ⟨i, by omega, Array.getElem?_eq_some_iff.2 ⟨by simp at hi; omega, rfl⟩⟩
  · rintro ⟨i, hi, ha⟩
    obtain ⟨hx, rfl⟩ := Array.getElem?_eq_some_iff.1 ha
    exact ⟨i, by simp; omega, rfl⟩

theorem mem_drop_iff {xs : Array α} {n : Nat} {a : α} :
    a ∈ (xs.drop n).toList ↔ ∃ i, n ≤ i ∧ xs[i]? = some a := by
  rw [toList_drop, List.mem_drop_iff_getElem]
  constructor
  · rintro ⟨i, hi, rfl⟩
    exact ⟨n + i, by omega, Array.getElem?_eq_some_iff.2 ⟨by simp at hi; omega, rfl⟩⟩
  · rintro ⟨i, hi, ha⟩
    obtain ⟨hx, rfl⟩ := Array.getElem?_eq_some_iff.1 ha
    refine ⟨i - n, by simp; omega, ?_⟩
    simp [Nat.add_sub_cancel' hi]

/-- The test of a sort agrees with the order of keys between two lists. -/
def Agrees (le : α → α → Bool) (key : α → β) (as bs : List α) : Prop :=
  ∀ a ∈ as, ∀ b ∈ bs, le a b = byKey key a b

theorem Agrees.mono {le : α → α → Bool} {as' bs' : List α} (h : Agrees le key as bs)
    (ha : as' ⊆ as) (hb : bs' ⊆ bs) : Agrees le key as' bs' :=
  fun a has b hbs => h a (ha has) b (hb hbs)

section Runs

variable {le : α → α → Bool} {xs ys : Array α} (hle : Agrees le key xs.toList ys.toList)
include hle

theorem inOrder_iff {i j : Nat} {a b : α} (ha : xs[i]? = some a) (hb : ys[j]? = some b) :
    inOrder le xs[i]? ys[j]? = true ↔ key a ≤ key b := by
  have hab := hle a (by simpa using Array.mem_of_getElem? ha) b
    (by simpa using Array.mem_of_getElem? hb)
  rw [ha, hb, inOrder, hab, byKey, decide_eq_true_iff]

/-- The elements that meet at the cut: what goes first from `xs` may stay before what is left of
`ys`, and what goes first from `ys` has to come before what is left of `xs`. -/
theorem cut_spec (hxs : xs.toList.Pairwise fun a b => key a ≤ key b)
    (hys : ys.toList.Pairwise fun a b => key a ≤ key b) {half : Nat}
    (hhalf : half ≤ xs.size + ys.size) :
    (∀ a ∈ (xs.take (cut le xs ys half)).toList,
      ∀ b ∈ (ys.drop (half - cut le xs ys half)).toList, key a ≤ key b) ∧
    ∀ b ∈ (ys.take (half - cut le xs ys half)).toList,
      ∀ a ∈ (xs.drop (cut le xs ys half)).toList, key b < key a := by
  have hlow := le_search (fun i => inOrder le xs[i]? ys[half - 1 - i]?) (half - ys.size)
    (min xs.size half)
  have hhigh := cut_le le xs ys half hhalf
  -- Going up in `xs` is going down in `ys`, so the test holds up to the cut and not from it on.
  obtain ⟨hbelow, habove⟩ := search_spec
    (fun i => inOrder le xs[i]? ys[half - 1 - i]?) (half - ys.size) (min xs.size half) (by
      intro i j hi hij hj htest
      obtain ⟨a, ha⟩ : ∃ x, xs[i]? = some x := exists_getElem? (by omega)
      obtain ⟨a', ha'⟩ : ∃ x, xs[j]? = some x := exists_getElem? (by omega)
      obtain ⟨b, hb⟩ : ∃ x, ys[half - 1 - i]? = some x := exists_getElem? (by omega)
      obtain ⟨b', hb'⟩ : ∃ x, ys[half - 1 - j]? = some x := exists_getElem? (by omega)
      rw [inOrder_iff hle ha' hb'] at htest
      rw [inOrder_iff hle ha hb]
      exact (key_le_of_le hxs hij ha ha').trans (htest.trans (key_le_of_le hys (by omega) hb' hb)))
  change half - ys.size ≤ cut le xs ys half at hlow
  change ∀ i, _ → i < cut le xs ys half → _ at hbelow
  change ∀ i, cut le xs ys half ≤ i → _ at habove
  generalize cut le xs ys half = c at *
  constructor
  · intro a ha b hb
    obtain ⟨i, hi, ha⟩ := mem_take_iff.1 ha
    obtain ⟨j, hj, hb⟩ := mem_drop_iff.1 hb
    have hjs := (Array.getElem?_eq_some_iff.1 hb).1
    obtain ⟨a', ha'⟩ : ∃ x, xs[c - 1]? = some x := exists_getElem? (by omega)
    obtain ⟨b', hb'⟩ : ∃ x, ys[half - 1 - (c - 1)]? = some x := exists_getElem? (by omega)
    have htest := (inOrder_iff hle ha' hb').1 (hbelow (c - 1) (by omega) (by omega))
    exact (key_le_of_le hxs (by omega) ha ha').trans
      (htest.trans (key_le_of_le hys (by omega) hb' hb))
  · intro b hb a ha
    obtain ⟨j, hj, hb⟩ := mem_take_iff.1 hb
    obtain ⟨i, hi, ha⟩ := mem_drop_iff.1 ha
    have his := (Array.getElem?_eq_some_iff.1 ha).1
    obtain ⟨a', ha'⟩ : ∃ x, xs[c]? = some x := exists_getElem? (by omega)
    obtain ⟨b', hb'⟩ : ∃ x, ys[half - 1 - c]? = some x := exists_getElem? (by omega)
    have htest : ¬key a' ≤ key b' := by
      rw [← inOrder_iff hle ha' hb', Bool.not_eq_true]
      exact habove c le_rfl (by omega)
    exact (key_le_of_le hys (by omega) hb hb').trans_lt
      ((not_le.1 htest).trans_le (key_le_of_le hxs hi ha' ha))

/-- Where a single element of `xs` goes among `ys`. -/
theorem search_left_spec (hys : ys.toList.Pairwise fun a b => key a ≤ key b) {a : α}
    (ha : xs[0]? = some a) :
    (∀ b ∈ (ys.take (search (fun i => !inOrder le xs[0]? ys[i]?) 0 ys.size)).toList,
      key b < key a) ∧
    ∀ b ∈ (ys.drop (search (fun i => !inOrder le xs[0]? ys[i]?) 0 ys.size)).toList,
      key a ≤ key b := by
  have hiff : ∀ {i : Nat} {b : α}, ys[i]? = some b →
       ((!inOrder le xs[0]? ys[i]?) = true ↔ key b < key a) := by
    intro i b hb
    rw [Bool.not_eq_true', ← Bool.not_eq_true, inOrder_iff hle ha hb, not_le]
  obtain ⟨hbelow, habove⟩ := search_spec (fun i => !inOrder le xs[0]? ys[i]?) 0
    ys.size (by
      intro i j _ hij hj htest
      obtain ⟨b, hb⟩ : ∃ x, ys[i]? = some x := exists_getElem? (by omega)
      obtain ⟨b', hb'⟩ : ∃ x, ys[j]? = some x := exists_getElem? hj
      rw [hiff hb'] at htest
      exact (hiff hb).2 ((key_le_of_le hys hij hb hb').trans_lt htest))
  constructor
  · intro b hb
    obtain ⟨j, hj, hb⟩ := mem_take_iff.1 hb
    exact (hiff hb).1 (hbelow j (Nat.zero_le _) hj)
  · intro b hb
    obtain ⟨j, hj, hb⟩ := mem_drop_iff.1 hb
    have htest := habove j hj (Array.getElem?_eq_some_iff.1 hb).1
    exact not_lt.1 fun h => Bool.eq_false_iff.1 htest ((hiff hb).2 h)

/-- Where a single element of `ys` goes among `xs`. -/
theorem search_right_spec (hxs : xs.toList.Pairwise fun a b => key a ≤ key b) {b : α}
    (hb : ys[0]? = some b) :
    (∀ a ∈ (xs.take (search (fun i => inOrder le xs[i]? ys[0]?) 0 xs.size)).toList, key a ≤ key b) ∧
    ∀ a ∈ (xs.drop (search (fun i => inOrder le xs[i]? ys[0]?) 0 xs.size)).toList,
      key b < key a := by
  obtain ⟨hbelow, habove⟩ := search_spec (fun i => inOrder le xs[i]? ys[0]?) 0
    xs.size (by
      intro i j _ hij hj htest
      obtain ⟨a, ha⟩ : ∃ x, xs[i]? = some x := exists_getElem? (by omega)
      obtain ⟨a', ha'⟩ : ∃ x, xs[j]? = some x := exists_getElem? hj
      rw [inOrder_iff hle ha' hb] at htest
      exact (inOrder_iff hle ha hb).2 ((key_le_of_le hxs hij ha ha').trans htest))
  constructor
  · intro a ha
    obtain ⟨i, hi, ha⟩ := mem_take_iff.1 ha
    exact (inOrder_iff hle ha hb).1 (hbelow i (Nat.zero_le _) hi)
  · intro a ha
    obtain ⟨i, hi, ha⟩ := mem_drop_iff.1 ha
    have htest := habove i hi (Array.getElem?_eq_some_iff.1 ha).1
    exact not_le.1 fun h => Bool.eq_false_iff.1 htest ((inOrder_iff hle ha hb).2 h)

end Runs

/-- Merging two runs that are in order is stable. -/
theorem isStable_merge {le : α → α → Bool} {xs ys : Array α}
    (hxs : xs.toList.Pairwise fun a b => key a ≤ key b)
    (hys : ys.toList.Pairwise fun a b => key a ≤ key b)
    (hle : Agrees le key xs.toList ys.toList) :
    IsStable key (xs.toList ++ ys.toList) (merge le xs ys).toList := by
  fun_induction merge le xs ys with
  | case1 xs ys h =>
    rw [Array.toList_append]
    refine .refl _ (List.pairwise_append.2 ⟨hxs, hys, fun a ha b hb => ?_⟩)
    rcases h with h | h
    · exact absurd ha (by simp [Array.size_eq_zero_iff.1 h])
    · exact absurd hb (by simp [Array.size_eq_zero_iff.1 h])
  | case2 xs ys h0 h1 i =>
    obtain ⟨a, rfl⟩ := Array.size_eq_one_iff.1 h1
    obtain ⟨hbefore, hafter⟩ := search_left_spec hle hys (a := a) rfl
    have hy := take_append_drop ys i
    obtain ⟨hy₁, hy₂, hyy⟩ := List.pairwise_append.1 (hy.symm ▸ hys)
    have hjoin := (IsStable.refl ([] ++ (ys.take i).toList) hy₁).join
      (IsStable.refl ([a] ++ (ys.drop i).toList) (List.pairwise_cons.2 ⟨hafter, hy₂⟩))
      (by
        intro b hb c hc
        rcases List.mem_cons.1 hc with rfl | hc
        · exact (hbefore b hb).le
        · exact hyy b hb c hc)
      (fun b hb c hc => List.mem_singleton.1 hc ▸ hbefore b hb)
    rw [hy] at hjoin
    rwa [Array.toList_append, Array.toList_append, List.append_assoc]
  | case3 xs ys h0 h1 h2 i =>
    obtain ⟨b, rfl⟩ := Array.size_eq_one_iff.1 h2
    obtain ⟨hbefore, hafter⟩ := search_right_spec hle hxs (b := b) rfl
    have hx := take_append_drop xs i
    obtain ⟨hx₁, hx₂, hxx⟩ := List.pairwise_append.1 (hx.symm ▸ hxs)
    have hjoin := (IsStable.refl ((xs.take i).toList ++ [b])
        (List.pairwise_append.2 ⟨hx₁, List.pairwise_singleton ..,
          fun a ha c hc => List.mem_singleton.1 hc ▸ hbefore a ha⟩)).join
      (IsStable.refl ((xs.drop i).toList ++ []) ((List.append_nil _).symm ▸ hx₂))
      (by
        intro a ha c hc
        rw [List.append_nil] at hc
        rcases List.mem_append.1 ha with ha | ha
        · exact hxx a ha c hc
        · exact List.mem_singleton.1 ha ▸ (hafter c hc).le)
      (fun c hc a ha => List.mem_singleton.1 hc ▸ hafter a ha)
    rw [hx, List.append_nil, List.append_nil] at hjoin
    rwa [Array.toList_append, Array.toList_append]
  | case4 xs ys h0 h1 h2 half i first second =>
    have hx := take_append_drop xs i
    have hy := take_append_drop ys (half - i)
    rw [← hx] at hxs
    rw [← hy] at hys
    obtain ⟨hx₁, hx₂, hxx⟩ := List.pairwise_append.1 hxs
    obtain ⟨hy₁, hy₂, hyy⟩ := List.pairwise_append.1 hys
    rw [hx] at hxs
    rw [hy] at hys
    obtain ⟨hxy, hyx⟩ := cut_spec hle hxs hys (by omega : half ≤ xs.size + ys.size)
    have hfirst := first hx₁ hy₁ (hle.mono (hx ▸ List.subset_append_left ..)
      (hy ▸ List.subset_append_left ..))
    have hsecond := second hx₂ hy₂ (hle.mono (hx ▸ List.subset_append_right ..)
      (hy ▸ List.subset_append_right ..))
    rw [← hx, ← hy, Array.toList_append]
    refine hfirst.join hsecond ?_ hyx
    intro b hb c hc
    rw [hfirst.mem_iff, List.mem_append] at hb
    rw [hsecond.mem_iff, List.mem_append] at hc
    rcases hb with hb | hb <;> rcases hc with hc | hc
    · exact hxx b hb c hc
    · exact hxy b hb c hc
    · exact (hyx b hb c hc).le
    · exact hyy b hb c hc

-- ════════════════════════════════════════════════════════════════════════
-- Runs
-- ════════════════════════════════════════════════════════════════════════

/-- Placing an element in a run, which is written last element first, puts it behind all others
that may stay before it. -/
theorem isStable_place {le : α → α → Bool} {a : α} {run : List α}
    (h : run.reverse.Pairwise fun a b => key a ≤ key b) (hle : Agrees le key run [a]) :
    IsStable key (run.reverse ++ [a]) (place le a run).reverse := by
  induction run with
  | nil => exact .refl _ (List.pairwise_singleton ..)
  | cons b run ih =>
    rw [List.reverse_cons] at h
    obtain ⟨hrun, -, hb⟩ := List.pairwise_append.1 h
    have hba : le b a = true ↔ key b ≤ key a := by
      rw [hle b List.mem_cons_self a (List.mem_singleton_self a), byKey, decide_eq_true_iff]
    rw [place, List.reverse_cons]
    split
    · next htest =>
      rw [List.reverse_cons, List.reverse_cons]
      refine .refl _ (List.pairwise_append.2 ⟨h, List.pairwise_singleton .., fun c hc d hd => ?_⟩)
      obtain rfl := List.mem_singleton.1 hd
      rcases List.mem_append.1 hc with hc | hc
      · exact (hb c hc b (List.mem_singleton_self b)).trans (hba.1 htest)
      · exact List.mem_singleton.1 hc ▸ hba.1 htest
    · next htest =>
      have hlt : key a < key b := not_le.1 fun h => htest (hba.2 h)
      have hplace := ih hrun (hle.mono (List.subset_cons_self ..) (List.Subset.refl _))
      have hjoin := hplace.join
        (IsStable.refl ([b] ++ []) (List.pairwise_singleton ..))
        (by
          intro c hc d hd
          obtain rfl : d = b := by simpa using hd
          rcases List.mem_append.1 ((hplace.mem_iff c).1 hc) with hc | hc
          · exact hb c hc d (List.mem_singleton_self d)
          · exact List.mem_singleton.1 hc ▸ hlt.le)
        (by simpa using hlt)
      rwa [List.reverse_cons]

/-- Runs that are in order and together hold the elements of `as`, those with one key in the order
they have there. -/
structure InRuns (key : α → β) (as : List α) (runs : List (Array α)) : Prop where
  ordered : ∀ run ∈ runs, run.toList.Pairwise fun a b => key a ≤ key b
  kept : ∀ k, (runs.flatMap Array.toList).filter (key · = k) = as.filter (key · = k)

theorem InRuns.subset {runs : List (Array α)} (h : InRuns key as runs) {run : Array α}
    (hrun : run ∈ runs) : run.toList ⊆ as := fun a ha =>
  (mem_iff_of_filter_eq h.kept a).1 (List.mem_flatMap.2 ⟨run, hrun, ha⟩)

section Whole

variable {le : α → α → Bool}

/-- Filling runs keeps everything: what stands in the run being filled is an arrangement of the
elements `done` before the rest. -/
theorem inRuns_runsFrom (done rest : List α) (room : Nat) (run : List α)
    (hrun : IsStable key done run.reverse) (hle : Agrees le key (done ++ rest) (done ++ rest)) :
    InRuns key (done ++ rest) (runsFrom le rest room run) := by
  induction rest generalizing done room run with
  | nil =>
    rw [runsFrom, List.append_nil]
    refine ⟨by simpa using hrun.ordered, fun k => ?_⟩
    simpa using hrun.kept k
  | cons a rest ih =>
    cases room with
    | zero =>
      have hrest := ih [a] (runLength - 1) [a] (.refl [a] (List.pairwise_singleton ..))
        (hle.mono (List.subset_append_right ..) (List.subset_append_right ..))
      rw [runsFrom]
      refine ⟨List.forall_mem_cons.2 ⟨hrun.ordered, hrest.ordered⟩, fun k => ?_⟩
      rw [List.flatMap_cons, List.filter_append, List.filter_append, hrest.kept k]
      exact congrArg (· ++ _) (hrun.kept k)
    | succ room =>
      have hmem : ∀ b ∈ run, b ∈ done := fun b hb =>
        (hrun.mem_iff b).1 (List.mem_reverse.2 hb)
      have hagrees : Agrees le key run [a] :=
        hle.mono (fun b hb => List.mem_append_left _ (hmem b hb)) (by simp)
      have hplace := isStable_place hrun.ordered hagrees
      have hnext : IsStable key (done ++ [a]) (place le a run).reverse := by
        refine ⟨hplace.ordered, fun k => ?_⟩
        rw [hplace.kept k, List.filter_append, List.filter_append, hrun.kept k]
      rw [runsFrom, List.append_cons]
      exact ih (done ++ [a]) room _ hnext (by rwa [← List.append_cons])

theorem inRuns_mergePairs {runs : List (Array α)} (h : InRuns key as runs)
    (hle : Agrees le key as as) : InRuns key as (mergePairs le runs) := by
  suffices hpairs : (∀ run ∈ mergePairs le runs, run.toList.Pairwise fun a b => key a ≤ key b) ∧
      ∀ k, ((mergePairs le runs).flatMap Array.toList).filter (key · = k) =
        (runs.flatMap Array.toList).filter (key · = k) from
    ⟨hpairs.1, fun k => (hpairs.2 k).trans (h.kept k)⟩
  have hsub := fun run (hrun : run ∈ runs) => h.subset hrun
  have hord := h.ordered
  clear h
  fun_induction mergePairs le runs with
  | case1 xs ys rest ih =>
    simp only [List.forall_mem_cons] at hsub hord
    obtain ⟨hxs, hys, hrest⟩ := hsub
    obtain ⟨hox, hoy, horest⟩ := hord
    obtain ⟨hordered, hkept⟩ := ih hrest horest
    have hmerge := isStable_merge hox hoy (hle.mono hxs hys)
    refine ⟨List.forall_mem_cons.2 ⟨hmerge.ordered, hordered⟩, fun k => ?_⟩
    simp only [List.flatMap_cons, List.filter_append]
    rw [hmerge.kept k, hkept k, List.filter_append, List.append_assoc]
  | case2 runs => exact ⟨hord, fun _ => rfl⟩

theorem isStable_mergeAll {runs : List (Array α)} (h : InRuns key as runs)
    (hle : Agrees le key as as) : IsStable key as (mergeAll le runs).toList := by
  fun_induction mergeAll le runs with
  | case1 => exact ⟨List.Pairwise.nil, h.kept⟩
  | case2 run =>
    refine ⟨h.ordered run (List.mem_singleton_self run), fun k => ?_⟩
    simpa using h.kept k
  | case3 xs ys rest ih => exact ih (inRuns_mergePairs h hle)

/-- Where the test is the order of keys, sorting is stable. -/
theorem isStable_sort (hle : Agrees le key as as) : IsStable key as (sort le as) :=
  isStable_mergeAll (inRuns_runsFrom [] as runLength [] (.refl [] List.Pairwise.nil) hle) hle

/-- Where the test is the order of keys, sorting gives what the library's stable sort gives. -/
theorem sort_eq_mergeSort (hle : Agrees le key as as) : sort le as = as.mergeSort (byKey key) :=
  (isStable_sort hle).unique (isStable_mergeSort key as)

end Whole

end DegreeScore.Sorting
