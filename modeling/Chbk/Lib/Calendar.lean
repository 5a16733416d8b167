import Mathlib.Order.Monotone.Basic

/-!
# The years of an era

The Gregorian calendar repeats after 400 years, or 146097 days. Years run from
March on in here, so that the day that may be missing is the last of its year.

* `yearOfEra_spec` — the year that is computed for a day is the one the day lies
  in.
-/

namespace Lib

/-- The first day of a year, counted from the start of the era. -/
def yearStart (y : Nat) : Nat := 365 * y + y / 4 - y / 100 + y / 400

/-- The days of the era without the leap days before them. -/
def commonDays (doe : Nat) : Nat := doe - doe / 1460 + doe / 36524 - doe / 146096

/-- The year a day of the era lies in. -/
def yearOfEra (doe : Nat) : Nat := commonDays doe / 365

theorem commonDays_mono {a b : Nat} (h : a ≤ b) (hb : b < 146097) :
    commonDays a ≤ commonDays b := by
  unfold commonDays
  omega

theorem yearStart_mono : Monotone yearStart := by
  refine monotone_nat_of_le_succ fun y => ?_
  unfold yearStart
  omega

/-- A year has 366 days at most. -/
theorem yearStart_succ_le (y : Nat) : yearStart (y + 1) ≤ yearStart y + 366 := by
  unfold yearStart
  omega

/-- A day before the start of year `k` lies in some year before it. -/
theorem exists_year {d : Nat} : ∀ k, d < yearStart k → ∃ y < k, yearStart y ≤ d ∧
    d < yearStart (y + 1)
  | 0, h => absurd h (Nat.not_lt_zero d)
  | k + 1, h => by
    by_cases hk : d < yearStart k
    · obtain ⟨y, hy, hspan⟩ := exists_year k hk
      exact ⟨y, Nat.lt_succ_of_lt hy, hspan⟩
    · exact ⟨k, Nat.lt_succ_self k, Nat.not_lt.mp hk, h⟩

/-- The first and the last day of a year are both assigned to it. -/
theorem yearOfEra_ends : ∀ y < 400, yearOfEra (yearStart y) = y ∧
    yearOfEra (yearStart (y + 1) - 1) = y := by
  have hall : ((List.range 400).all fun y =>
      yearOfEra (yearStart y) == y && yearOfEra (yearStart (y + 1) - 1) == y) = true := by
    decide +kernel
  intro y hy
  have hy' := List.all_eq_true.mp hall y (List.mem_range.mpr hy)
  simpa using hy'

theorem yearOfEra_mono {a b : Nat} (h : a ≤ b) (hb : b < 146097) : yearOfEra a ≤ yearOfEra b :=
  Nat.div_le_div_right (commonDays_mono h hb)

/-- The year of a day: it begins at the day or before it, and ends behind it. -/
theorem yearOfEra_spec {doe : Nat} (h : doe < 146097) : yearOfEra doe < 400 ∧
    yearStart (yearOfEra doe) ≤ doe ∧ doe < yearStart (yearOfEra doe + 1) := by
  obtain ⟨y, hy, hlo, hhi⟩ := exists_year 400 (show doe < yearStart 400 from h)
  obtain ⟨hfirst, hlast⟩ := yearOfEra_ends y hy
  have hyear : yearOfEra doe = y := by
    have hle := yearOfEra_mono hlo h
    have hbound : yearStart (y + 1) ≤ 146097 := by
      unfold yearStart
      omega
    have hge := yearOfEra_mono (show doe ≤ yearStart (y + 1) - 1 by omega) (by omega)
    omega
  rw [hyear]
  exact ⟨hy, hlo, hhi⟩

end Lib
