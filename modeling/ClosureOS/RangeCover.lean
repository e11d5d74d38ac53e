import Mathlib.Algebra.Order.Floor.Div

/-!
Points at an even distance and the ranges that they lie in. All points lie in some range
when the first one does, and the first point behind the end of every range that ends
among them. So the ranges need to be asked only once for each of them, and not once for
every point.
-/
namespace ClosureOS.RangeCover

/-- The point lies in one of the half-open ranges. -/
def InRanges (ranges : List (ℕ × ℕ)) (x : ℕ) : Prop := ∃ r ∈ ranges, r.1 ≤ x ∧ x < r.2

instance (ranges : List (ℕ × ℕ)) (x : ℕ) : Decidable (InRanges ranges x) :=
  inferInstanceAs (Decidable (∃ r ∈ ranges, _))

/-- The number of the points a, a + c, a + 2 * c, ... that lie below x. -/
def pointsBelow (a c x : ℕ) : ℕ := (x - a) ⌈/⌉ c

/-- Of the n points from a on, the first one lies in a range, and so does the first point
behind the end of a range. -/
def NoGap (ranges : List (ℕ × ℕ)) (a c n : ℕ) : Prop :=
  0 < n → InRanges ranges a ∧ ∀ r ∈ ranges, a < r.2 → pointsBelow a c r.2 < n →
    InRanges ranges (a + c * pointsBelow a c r.2)

instance (ranges : List (ℕ × ℕ)) (a c n : ℕ) : Decidable (NoGap ranges a c n) :=
  inferInstanceAs (Decidable (_ → _ ∧ ∀ r ∈ ranges, _))

section Points

variable {ranges : List (ℕ × ℕ)} {a c n k x : ℕ}

theorem InRanges.append {others : List (ℕ × ℕ)} :
    InRanges (ranges ++ others) x ↔ InRanges ranges x ∨ InRanges others x := by
  simp only [InRanges, List.mem_append, or_and_right, exists_or]

theorem pointsBelow_le_iff (hc : 0 < c) : pointsBelow a c x ≤ k ↔ x ≤ a + c * k := by
  rw [pointsBelow, ceilDiv_le_iff_le_mul hc]
  omega

theorem pointsBelow_eq_succ (hc : 0 < c) (hlow : a + c * k < x) (hhigh : x ≤ a + c * (k + 1)) :
    pointsBelow a c x = k + 1 := by
  have hle := (pointsBelow_le_iff hc).mpr hhigh
  have hnot : ¬ pointsBelow a c x ≤ k := fun h =>
    absurd ((pointsBelow_le_iff hc).mp h) (by omega)
  omega

/-- The step of the induction along the points: the range of one point either has the next
one as well, or ends between the two. -/
theorem NoGap.succ (h : NoGap ranges a c n) (hc : 0 < c) (hk : k + 1 < n)
    (hin : InRanges ranges (a + c * k)) : InRanges ranges (a + c * (k + 1)) := by
  obtain ⟨r, hr, hlow, hhigh⟩ := hin
  have hnext : a + c * k ≤ a + c * (k + 1) := by
    rw [Nat.mul_succ]
    omega
  by_cases hinside : a + c * (k + 1) < r.2
  · exact ⟨r, hr, by omega, hinside⟩
  · have hindex := pointsBelow_eq_succ hc hhigh (Nat.le_of_not_lt hinside)
    have hbehind := (h (by omega)).2 r hr (by omega)
    rw [hindex] at hbehind
    exact hbehind hk

/-- No gap means that all points lie in a range. -/
theorem noGap_iff (hc : 0 < c) :
    NoGap ranges a c n ↔ ∀ k < n, InRanges ranges (a + c * k) := by
  constructor
  · intro h k
    induction k with
    | zero => exact fun hn => (h hn).1
    | succ k ih => exact fun hk => h.succ hc hk (ih (by omega))
  · intro h hn
    exact ⟨h 0 hn, fun r _ _ hlt => h _ hlt⟩

end Points

end ClosureOS.RangeCover
