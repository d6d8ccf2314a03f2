/-!
# Positional numerals

The value of a list of digits in a base, the lowest digit first. Long numerals are cut in halves, so
that the numbers that are multiplied are of like size; `value_eq_horner` says that this gives what
reading digit by digit does.
-/

namespace DegreeScore.Decimal.Digits

/-- The value of digits, read one by one. -/
def horner (base : Nat) (ds : List Nat) : Nat := ds.foldr (fun d n => d + base * n) 0

theorem horner_append (base : Nat) (xs ys : List Nat) :
    horner base (xs ++ ys) = horner base xs + base.pow xs.length * horner base ys := by
  induction xs with
  | nil => simp [horner]
  | cons d xs ih =>
    have step (ds : List Nat) : horner base (d :: ds) = d + base * horner base ds := rfl
    have power : base.pow (xs.length + 1) = base.pow xs.length * base := rfl
    rw [List.cons_append, step, step, ih, List.length_cons, Nat.mul_add, power,
      Nat.mul_comm (base.pow xs.length) base, Nat.mul_assoc, Nat.add_assoc]

/-- How many digits are read one by one. -/
def shortLength : Nat := 16

/-- The value of digits. -/
def value (base : Nat) (ds : List Nat) : Nat :=
  if ds.length ≤ shortLength then horner base ds
  else
    let half := ds.length / 2
    value base (ds.take half) + base.pow half * value base (ds.drop half)
termination_by ds.length
decreasing_by
  all_goals
    rename_i h
    simp only [shortLength] at h
    simp only [List.length_take, List.length_drop]
    omega

theorem value_eq_horner (base : Nat) (ds : List Nat) : value base ds = horner base ds := by
  fun_induction value base ds with
  | case1 => rfl
  | case2 ds h half low high =>
    have length : (ds.take half).length = half := by
      rw [List.length_take]
      exact Nat.min_eq_left (Nat.div_le_self _ _)
    have whole := horner_append base (ds.take half) (ds.drop half)
    rw [List.take_append_drop, length] at whole
    rw [low, high, whole]

end DegreeScore.Decimal.Digits
