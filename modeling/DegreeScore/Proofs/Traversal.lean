import Mathlib.Data.List.Forall2

/-!
# Traversals that can fail

A traversal of a list succeeds exactly when it succeeds at every element, and its results then stand
in the places of the elements. A traversal that numbers the elements may be described by a relation
that does not mention the numbers, where these only serve to report a failure.
-/

namespace DegreeScore.Traversal

variable {ε α β : Type} {f : α → Except ε β} {r : α → β → Prop} {as : List α} {bs : List β}

theorem mapM_cons_eq_ok_iff {a : α} :
    (a :: as).mapM f = .ok bs ↔ ∃ b cs, f a = .ok b ∧ as.mapM f = .ok cs ∧ bs = b :: cs := by
  rw [List.mapM_cons]
  constructor
  · intro h
    cases ha : f a with
    | error e =>
      rw [ha] at h
      cases h
    | ok b =>
      rw [ha] at h
      cases has : as.mapM f with
      | error e =>
        rw [has] at h
        cases h
      | ok cs =>
        rw [has] at h
        exact ⟨b, cs, rfl, rfl, (Except.ok.inj h).symm⟩
  · rintro ⟨b, cs, ha, has, rfl⟩
    rw [ha, has]
    rfl

theorem mapM_eq_ok_iff : as.mapM f = .ok bs ↔ List.Forall₂ (fun a b => f a = .ok b) as bs := by
  induction as generalizing bs with
  | nil =>
    rw [List.mapM_nil, List.forall₂_nil_left_iff]
    exact ⟨fun h => (Except.ok.inj h).symm, fun h => h ▸ rfl⟩
  | cons a as ih =>
    rw [mapM_cons_eq_ok_iff, List.forall₂_cons_left_iff]
    simp only [ih]

/-- A traversal that fails fails at an element, with its error. -/
theorem exists_of_mapM_eq_error {e : ε} (h : as.mapM f = .error e) : ∃ a ∈ as, f a = .error e := by
  induction as with
  | nil => cases h
  | cons a as ih =>
    rw [List.mapM_cons] at h
    cases ha : f a with
    | error e' =>
      rw [ha] at h
      obtain rfl := Except.error.inj h
      exact ⟨a, List.mem_cons_self, ha⟩
    | ok b =>
      rw [ha] at h
      cases has : as.mapM f with
      | error e' =>
        rw [has] at h
        obtain rfl := Except.error.inj h
        obtain ⟨a', ha', hfail⟩ := ih has
        exact ⟨a', List.mem_cons_of_mem a ha', hfail⟩
      | ok cs =>
        rw [has] at h
        cases h

/-- A traversal of numbered elements whose results do not depend on the numbers. -/
theorem mapM_zipIdx_eq_ok_iff {g : Nat → α → Except ε β}
    (hg : ∀ i a b, g i a = .ok b ↔ r a b) :
    as.zipIdx.mapM (fun p => g p.2 p.1) = .ok bs ↔ List.Forall₂ r as bs := by
  have hrel : (fun (p : α × Nat) b => g p.2 p.1 = .ok b) = fun p b => r p.1 b := by
    funext p b
    exact propext (hg p.2 p.1 b)
  rw [mapM_eq_ok_iff, hrel, ← List.forall₂_map_left_iff, List.zipIdx_map_fst]

theorem exists_forall₂_iff : (∃ bs, List.Forall₂ r as bs) ↔ ∀ a ∈ as, ∃ b, r a b := by
  induction as with
  | nil => exact ⟨by simp, fun _ => ⟨[], .nil⟩⟩
  | cons a as ih =>
    rw [List.forall_mem_cons, ← ih]
    constructor
    · rintro ⟨_, _ | ⟨ha, has⟩⟩
      exact ⟨⟨_, ha⟩, _, has⟩
    · rintro ⟨⟨b, ha⟩, bs, has⟩
      exact ⟨b :: bs, .cons ha has⟩

theorem exists_of_mem_right (h : List.Forall₂ r as bs) {b : β} (hb : b ∈ bs) :
    ∃ a ∈ as, r a b := by
  induction h with
  | nil => cases hb
  | @cons a c as bs hac _ ih =>
    rcases List.mem_cons.1 hb with rfl | hb
    · exact ⟨a, List.mem_cons_self, hac⟩
    · obtain ⟨a', ha', hr⟩ := ih hb
      exact ⟨a', List.mem_cons_of_mem a ha', hr⟩

theorem map_eq_ok_iff {x : Except ε α} {g : α → β} {b : β} :
    x.map g = .ok b ↔ ∃ a, x = .ok a ∧ g a = b := by
  cases x with
  | error e => simp [Except.map]
  | ok a => simp [Except.map]

theorem bind_eq_ok_iff {x : Except ε α} {g : α → Except ε β} {b : β} :
    x >>= g = .ok b ↔ ∃ a, x = .ok a ∧ g a = .ok b := by
  cases x with
  | error e => simp [bind, Except.bind]
  | ok a => simp [bind, Except.bind]

end DegreeScore.Traversal
