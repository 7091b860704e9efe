import Mathlib

namespace Civil
set_option autoImplicit true

/-! Days of the Gregorian calendar, counted from the first of January of year 0. -/

abbrev IsLeap (y : Nat) : Prop := y % 4 = 0 ∧ (y % 100 ≠ 0 ∨ y % 400 = 0)

def monthDays (y m : Nat) : Nat :=
  if m = 2 then (if IsLeap y then 29 else 28) else if m = 4 ∨ m = 6 ∨ m = 9 ∨ m = 11 then 30 else 31

structure Valid (y m d : Nat) : Prop where
  month : 1 ≤ m ∧ m ≤ 12
  day : 1 ≤ d ∧ d ≤ monthDays y m

/-- The days of the months of a year before month `m + 1`. -/
def beforeMonth (y : Nat) : Nat → Nat
  | 0 => 0
  | m + 1 => beforeMonth y m + monthDays y (m + 1)

def beforeYear : Nat → Nat
  | 0 => 0
  | y + 1 => beforeYear y + beforeMonth y 12

def dayNumber (y m d : Nat) : Nat := beforeYear y + beforeMonth y (m - 1) + (d - 1)

variable {y y' m m' d d' : Nat}

theorem beforeMonth_mono (y : Nat) (h : m ≤ m') : beforeMonth y m ≤ beforeMonth y m' := by
  induction h with
  | refl => exact le_rfl
  | step _ ih => exact ih.trans (Nat.le_add_right _ _)

theorem beforeYear_mono (h : y ≤ y') : beforeYear y ≤ beforeYear y' := by
  induction h with
  | refl => exact le_rfl
  | step _ ih => exact ih.trans (Nat.le_add_right _ _)

/-- A date is before the months and the years after its own. -/
theorem Valid.lt_month (h : Valid y m d) : dayNumber y m d < beforeYear y + beforeMonth y m := by
  obtain ⟨k, rfl⟩ := Nat.exists_eq_add_of_le' h.month.1
  have hday := h.day
  rw [dayNumber, Nat.add_sub_cancel, beforeMonth]
  omega

theorem Valid.lt_year (h : Valid y m d) : dayNumber y m d < beforeYear (y + 1) :=
  h.lt_month.trans_le (Nat.add_le_add_left (beforeMonth_mono y h.month.2) _)

theorem Valid.small (h : Valid y m d) : m < 2 ^ 4 ∧ d < 2 ^ 5 := by
  have hmonth := h.month
  have hday := h.day
  have hlen : monthDays y m ≤ 31 := by
    rw [monthDays]
    split
    · split
      · decide
      · decide
    split
    · decide
    · decide
  omega

/-- Dates are counted in their order. -/
theorem Valid.lt_of_lt (h' : Valid y' m' d')
    (hlt : dayNumber y m d < dayNumber y' m' d') :
    y < y' ∨ (y = y' ∧ (m < m' ∨ (m = m' ∧ d < d'))) := by
  obtain hy | hy | hy := lt_trichotomy y y'
  · exact Or.inl hy
  · subst hy
    right
    refine ⟨rfl, ?_⟩
    obtain hm | hm | hm := lt_trichotomy m m'
    · exact Or.inl hm
    · subst hm
      rw [dayNumber, dayNumber] at hlt
      exact Or.inr ⟨rfl, by omega⟩
    · have hbefore := beforeMonth_mono y (Nat.le_sub_one_of_lt hm)
      have hend := h'.lt_month
      rw [dayNumber] at hlt
      omega
  · have hbefore : beforeYear (y' + 1) ≤ beforeYear y := beforeYear_mono hy
    have hend := h'.lt_year
    rw [dayNumber] at hlt
    omega

/-- From March on the months follow one rule. -/
theorem beforeMonth_eq (y : Nat) (h : 2 ≤ m) (h' : m ≤ 12) :
    beforeMonth y m = 31 + monthDays y 2 + (153 * (m - 2) + 2) / 5 := by
  interval_cases m <;> rfl

theorem monthDays_february (y : Nat) : monthDays y 2 = if IsLeap y then 29 else 28 := rfl

theorem beforeYear_eq (y : Nat) : beforeYear y + (y + 99) / 100 = 365 * y + (y + 3) / 4 + (y + 399) / 400 := by
  induction y with
  | zero => rfl
  | succ y ih =>
    rw [beforeYear, beforeMonth_eq y (by decide) le_rfl, monthDays_february]
    split
    · rename_i h
      omega
    · rename_i h
      omega

/-- The day that a leap year has more, among the counts of leap years up to the year and before it. -/
theorem leap_count (y : Nat) :
    (if IsLeap y then 29 else 28) + (y + 3) / 4 + (y + 399) / 400 + y / 100 =
      29 + (y + 99) / 100 + y / 4 + y / 400 := by
  split
  · rename_i h
    obtain ⟨h4, h100 | h400⟩ := h
    · omega
    · omega
  · rename_i h
    rw [not_and_or, not_or, not_not] at h
    obtain h4 | ⟨h100, h400⟩ := h
    · omega
    · omega

/-- Days in years that begin in March, `p` months after it. -/
def marchNumber (a p d : Nat) : Nat := 365 * a + a / 4 - a / 100 + a / 400 + (153 * p + 2) / 5 + d - 1

/-- The count by years that begin in March, from the first of March of year 0. -/
theorem Valid.march (h : Valid y m d) (hy : 1 ≤ y) :
    dayNumber y m d = marchNumber (if m ≤ 2 then y - 1 else y) (if m ≤ 2 then m + 9 else m - 3) d + 60 := by
  obtain ⟨hlow, hhigh⟩ := h.month
  have hday := h.day.1
  have hyear := beforeYear_eq y
  rw [dayNumber, marchNumber]
  by_cases hm : m ≤ 2
  · rw [if_pos hm, if_pos hm]
    have hbefore : beforeMonth y (m - 1) = 31 * (m - 1) := by
      interval_cases m
      · rfl
      · rfl
    rw [hbefore]
    omega
  · rw [if_neg hm, if_neg hm, beforeMonth_eq y (by omega) (by omega), monthDays_february]
    have hmonth : m - 1 - 2 = m - 3 := by omega
    have hleap := leap_count y
    have hsub := Nat.div_le_self y 100
    rw [hmonth]
    -- what is left is linear in the counts of leap years
    generalize (y + 3) / 4 = a at hyear hleap
    generalize (y + 99) / 100 = b at hyear hleap
    generalize (y + 399) / 400 = c at hyear hleap
    generalize y / 4 = a' at hleap ⊢
    generalize y / 100 = b' at hleap hsub ⊢
    generalize y / 400 = c' at hleap ⊢
    generalize (if IsLeap y then 29 else 28) = feb at hleap ⊢
    omega

/-- The year that begins in March among the 400 of an era, by the day in it. -/
theorem yearOfEra {e q : Nat} (h : e < 146097) (hq : q = (e - e / 1460 + e / 36524 - e / 146096) / 365) :
    q < 400 ∧ 365 * q + q / 4 - q / 100 ≤ e ∧ e < 365 * (q + 1) + (q + 1) / 4 - (q + 1) / 100 + (q + 1) / 400 := by
  have hsmall : q < 400 := by omega
  by_cases hlast : e = 146096
  · subst hlast
    subst hq
    decide
  have hk : e / 146096 = 0 := by omega
  obtain ⟨g, hg⟩ : ∃ g, g = e / 36524 := ⟨_, rfl⟩
  obtain ⟨i, hi⟩ : ∃ i, i = e / 1460 := ⟨_, rfl⟩
  rw [hk, ← hg, ← hi] at hq
  have hg3 : g ≤ 3 := by omega
  have hlow : 365 * q ≤ e - i + g := by omega
  have hhigh : e - i + g < 365 * q + 365 := by omega
  clear hq hk
  have hcentury : q / 100 = g := by
    interval_cases g
    · omega
    · omega
    · omega
    · omega
  have hquarter : q / 4 ≤ i := by
    interval_cases g
    · omega
    · omega
    · omega
    · omega
  have hquarter' : i ≤ (q + 1) / 4 := by
    interval_cases g
    · omega
    · omega
    · omega
    · omega
  refine ⟨hsmall, by omega, ?_⟩
  by_cases hend : (q + 1) / 100 = g
  · omega
  · have hq : q = 100 * g + 99 := by omega
    subst hq
    interval_cases g
    · omega
    · omega
    · omega
    · omega

/-- A year that begins in March has 366 days when the February in it has 29. -/
theorem dayOfYear (h : q < 400) (h' : e < 365 * (q + 1) + (q + 1) / 4 - (q + 1) / 100 + (q + 1) / 400) :
    e < 365 * q + q / 4 - q / 100 + (if IsLeap (q + 1) then 366 else 365) := by
  have hcount := leap_count (q + 1)
  have h4 : (q + 1 + 3) / 4 = q / 4 + 1 := by omega
  have h100 : (q + 1 + 99) / 100 = q / 100 + 1 := by omega
  have h400 : (q + 1 + 399) / 400 = q / 400 + 1 := by omega
  have hera : q / 400 = 0 := Nat.div_eq_of_lt h
  have hsub : q / 100 ≤ q := Nat.div_le_self q 100
  have hsub' : (q + 1) / 100 ≤ q + 1 := Nat.div_le_self (q + 1) 100
  rw [h4, h100, h400, hera] at hcount
  generalize (q + 1) / 4 = a at hcount h'
  generalize (q + 1) / 100 = b at hcount h' hsub'
  generalize (q + 1) / 400 = c at hcount h'
  generalize q / 4 = a' at hcount ⊢
  generalize q / 100 = b' at hcount hsub ⊢
  split
  · rename_i hleap
    rw [if_pos hleap] at hcount
    omega
  · rename_i hleap
    rw [if_neg hleap] at hcount
    omega

/-- The month and the day of a year that begins in March. -/
theorem monthOfYear (h : n < 366) (hp : p = (5 * n + 2) / 153) :
    p ≤ 11 ∧ (153 * p + 2) / 5 ≤ n ∧ n < (153 * (p + 1) + 2) / 5 := by
  omega

end Civil
