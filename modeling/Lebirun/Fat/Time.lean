import Mathlib
import Lebirun.Lib.Civil

namespace Lebirun.Fat
open Civil
set_option autoImplicit true

section Conversions

/-- `fat_unix` -/
def fatUnix (date time : Nat) : Nat :=
  let m : Int := (date / 2 ^ 5 % 2 ^ 4 : Nat)
  let y : Int := (date / 2 ^ 9 : Nat) + 1980 - if m ≤ 2 then 1 else 0
  let era := y.tdiv 400
  let yoe := y - era * 400
  let doy := (153 * (if m > 2 then m - 3 else m + 9) + 2).tdiv 5 + (date % 2 ^ 5 : Nat) - 1
  let days := era * 146097 + yoe * 365 + yoe.tdiv 4 - yoe.tdiv 100 + doy - 719468
  if m = 0 ∨ date % 2 ^ 5 = 0 ∨ days < 0 then 0
  else days.toNat * 86400 + time / 2 ^ 11 * 3600 + time / 2 ^ 5 % 2 ^ 6 * 60 + time % 2 ^ 5 * 2

/-- The year, month and day of `fat_dos_time` before they are cut to what a date can hold. -/
def dosCivil (days : Nat) : Int × Int × Int :=
  let z : Int := days + 719468
  let era := (if 0 ≤ z then z else z - 146096).tdiv 146097
  let doe := z - era * 146097
  let yoe := (doe - doe.tdiv 1460 + doe.tdiv 36524 - doe.tdiv 146096).tdiv 365
  let y := yoe + era * 400
  let doy := doe - (365 * yoe + yoe.tdiv 4 - yoe.tdiv 100)
  let mp := (5 * doy + 2).tdiv 153
  let d := doy - (153 * mp + 2).tdiv 5 + 1
  let m := mp + if mp < 10 then 3 else -9
  (y + if m ≤ 2 then 1 else 0, m, d)

/-- `fat_dos_time` -/
def fatDosTime (unix : Nat) : Nat × Nat :=
  let rem := unix % 86400
  let c := dosCivil (unix / 86400)
  let c := if c.1 < 1980 then (1980, 1, 1) else c
  let c := if 2107 < c.1 then (2107, 12, 31) else c
  let hh := rem / 3600
  let mm := rem % 3600 / 60
  let ss := rem % 60
  (((c.1 - 1980).toNat <<< 9 ||| c.2.1.toNat <<< 5 ||| c.2.2.toNat) % 2 ^ 16,
    (hh <<< 11 ||| mm <<< 5 ||| ss / 2) % 2 ^ 16)

/-! The fields of a date and a time. -/

def dateYear (date : Nat) : Nat := 1980 + date / 2 ^ 9
def dateMonth (date : Nat) : Nat := date / 2 ^ 5 % 2 ^ 4
def dateDay (date : Nat) : Nat := date % 2 ^ 5

/-- The day of a date counted from the first of January 1970. -/
def unixDay (y m d : Nat) : Nat := dayNumber y m d - dayNumber 1970 1 1

variable {t y m d days date time a q n e p : Nat}

/-! The steps of the conversion on natural numbers. -/

theorem doe_cast (z : Nat) : (z : Int) - ((z / 146097 : Nat) : Int) * 146097 = ((z % 146097 : Nat) : Int) := by
  omega

theorem yoe_cast (e : Nat) :
    (e : Int) - ((e / 1460 : Nat) : Int) + ((e / 36524 : Nat) : Int) - ((e / 146096 : Nat) : Int) =
      ((e - e / 1460 + e / 36524 - e / 146096 : Nat) : Int) := by
  omega

theorem doy_cast (h : 365 * q + q / 4 - q / 100 ≤ e) :
    (e : Int) - (365 * (q : Int) + ((q / 4 : Nat) : Int) - ((q / 100 : Nat) : Int)) =
      ((e - (365 * q + q / 4 - q / 100) : Nat) : Int) := by
  omega

theorem day_cast (h : (153 * p + 2) / 5 ≤ n) :
    (n : Int) - (((153 * p + 2) / 5 : Nat) : Int) + 1 = ((n - (153 * p + 2) / 5 + 1 : Nat) : Int) := by
  omega

/-- The month that is `p` after March. -/
def monthFrom (p : Nat) : Nat := if p < 10 then p + 3 else p - 9

theorem month_cast (p : Nat) : (p : Int) + (if (p : Int) < 10 then 3 else -9) = (monthFrom p : Int) := by
  rw [monthFrom]
  split
  · rw [if_pos (by omega)]
    omega
  · rw [if_neg (by omega)]
    omega

theorem year_cast (q a m : Nat) :
    (q : Int) + (a : Int) * 400 + (if (m : Int) ≤ 2 then 1 else 0) =
      ((q + 400 * a + if m ≤ 2 then 1 else 0 : Nat) : Int) := by
  split
  · rw [if_pos (by omega)]
    omega
  · rw [if_neg (by omega)]
    omega

/-- The date of a day by the year `400 * a + q` that begins in March, and the day `n` of it. -/
structure March (z a q n : Nat) : Prop where
  era : a = z / 146097
  year : q < 400
  day : n < 366
  leap : n = 365 → IsLeap (q + 1)
  sum : 146097 * a + (365 * q + q / 4 - q / 100) + n = z

theorem dosCivil_march (days : Nat) :
    ∃ a q n, March (days + 719468) a q n ∧
      dosCivil days = (↑(q + 400 * a + if monthFrom ((5 * n + 2) / 153) ≤ 2 then 1 else 0),
        ↑(monthFrom ((5 * n + 2) / 153)), ↑(n - (153 * ((5 * n + 2) / 153) + 2) / 5 + 1)) := by
  obtain ⟨e, he⟩ : ∃ e, e = (days + 719468) % 146097 := ⟨_, rfl⟩
  obtain ⟨q, hq⟩ : ∃ q, q = (e - e / 1460 + e / 36524 - e / 146096) / 365 := ⟨_, rfl⟩
  have hlt : e < 146097 := he ▸ Nat.mod_lt _ (by decide)
  obtain ⟨hq400, hlow, hhigh⟩ := yearOfEra hlt hq
  have hmarch : March (days + 719468) ((days + 719468) / 146097) q (e - (365 * q + q / 4 - q / 100)) := by
    have hz := Nat.div_add_mod (days + 719468) 146097
    rw [← he] at hz
    have hyear := dayOfYear hq400 hhigh
    clear hq he hhigh
    refine ⟨rfl, hq400, ?_, fun hlast => ?_, ?_⟩
    · split at hyear
      · omega
      · omega
    · by_contra hleap
      rw [if_neg hleap] at hyear
      omega
    · omega
  refine ⟨_, q, _, hmarch, ?_⟩
  have hdoy := (monthOfYear hmarch.day rfl).2.1
  unfold dosCivil
  extract_lets z era doe yoe y doy mp d m
  have hera : era = (((days + 719468) / 146097 : Nat) : Int) := by
    change (if 0 ≤ z then z else z - 146096).tdiv 146097 = _
    have hpos : 0 ≤ z := Int.natCast_nonneg (days + 719468)
    rw [if_pos hpos]
    rfl
  have hdoe : doe = (e : Int) := by
    change z - era * 146097 = _
    rw [hera, he]
    exact doe_cast (days + 719468)
  have hyoe : yoe = (q : Int) := by
    change (doe - doe.tdiv 1460 + doe.tdiv 36524 - doe.tdiv 146096).tdiv 365 = _
    rw [hdoe, hq]
    exact congrArg (Int.tdiv · 365) (yoe_cast e)
  have hdoy' : doy = ((e - (365 * q + q / 4 - q / 100) : Nat) : Int) := by
    change doe - (365 * yoe + yoe.tdiv 4 - yoe.tdiv 100) = _
    rw [hdoe, hyoe]
    exact doy_cast hlow
  have hmp : mp = (((5 * (e - (365 * q + q / 4 - q / 100)) + 2) / 153 : Nat) : Int) := by
    change (5 * doy + 2).tdiv 153 = _
    rw [hdoy']
    rfl
  have hd := day_cast hdoy
  have hm := month_cast ((5 * (e - (365 * q + q / 4 - q / 100)) + 2) / 153)
  have hy := year_cast q ((days + 719468) / 146097) (monthFrom ((5 * (e - (365 * q + q / 4 - q / 100)) + 2) / 153))
  change (yoe + era * 400 + (if mp + (if mp < 10 then 3 else -9) ≤ 2 then 1 else 0),
    mp + (if mp < 10 then 3 else -9), doy - (153 * mp + 2).tdiv 5 + 1) = _
  rw [hyoe, hera, hmp, hm, hy, hdoy', ← hd]
  rfl

theorem March.valid (h : March z a q n) (hp : p = (5 * n + 2) / 153) :
    Valid (q + 400 * a + if monthFrom p ≤ 2 then 1 else 0) (monthFrom p) (n - (153 * p + 2) / 5 + 1) := by
  obtain ⟨hp11, hlow, hhigh⟩ := monthOfYear h.day hp
  have hleap := h.leap
  have hday := h.day
  clear hp h
  refine ⟨?_, Nat.le_add_left _ _, ?_⟩
  · rw [monthFrom]
    split
    · omega
    · omega
  by_cases hlast : p = 11
  · subst hlast
    change _ ≤ monthDays (q + 400 * a + 1) 2
    rw [monthDays_february]
    split
    · omega
    · rename_i hcommon
      have hne : n ≠ 365 := by
        intro heq
        obtain ⟨h4, h⟩ := hleap heq
        apply hcommon
        rw [IsLeap]
        clear hlow hhigh
        omega
      omega
  · have hlen : (153 * (p + 1) + 2) / 5 ≤ (153 * p + 2) / 5 + monthDays 0 (monthFrom p) ∧
        ∀ y, monthDays y (monthFrom p) = monthDays 0 (monthFrom p) := by
      interval_cases p
      all_goals first | exact ⟨by decide, fun _ => rfl⟩ | exact absurd rfl hlast
    rw [hlen.2]
    omega

theorem March.number (h : March z a q n) (hz : 146097 ≤ z) (hp : p = (5 * n + 2) / 153) :
    dayNumber (q + 400 * a + if monthFrom p ≤ 2 then 1 else 0) (monthFrom p) (n - (153 * p + 2) / 5 + 1) =
      z + 60 := by
  have hera := h.era
  have hyear : 1 ≤ q + 400 * a + if monthFrom p ≤ 2 then 1 else 0 := by omega
  rw [(h.valid hp).march hyear]
  obtain ⟨hp11, hlow, -⟩ := monthOfYear h.day hp
  have hback : (if monthFrom p ≤ 2 then (q + 400 * a + if monthFrom p ≤ 2 then 1 else 0) - 1
      else q + 400 * a + if monthFrom p ≤ 2 then 1 else 0) = q + 400 * a := by
    split
    · rfl
    · rfl
  have hmonth : (if monthFrom p ≤ 2 then monthFrom p + 9 else monthFrom p - 3) = p := by
    rw [monthFrom]
    clear hp
    split
    · rw [if_neg (by omega)]
      omega
    · rw [if_pos (by omega)]
      omega
  rw [hback, hmonth, marchNumber]
  have hsum := h.sum
  have hq := h.year
  have h4 : (q + 400 * a) / 4 = q / 4 + 100 * a := by omega
  have h100 : (q + 400 * a) / 100 = q / 100 + 4 * a := by omega
  have h400 : (q + 400 * a) / 400 = a := by omega
  have hsub : q / 100 ≤ q := Nat.div_le_self q 100
  rw [h4, h100, h400]
  clear hp hera hq h4 h100 h400
  omega

theorem beforeYear_bounds :
    beforeYear 1970 = 719528 ∧ beforeYear 1980 = 719528 + 3652 ∧ beforeYear 2108 = 719528 + 50403 :=
  ⟨Nat.add_right_cancel (m := 20) (beforeYear_eq 1970), Nat.add_right_cancel (m := 20) (beforeYear_eq 1980),
    Nat.add_right_cancel (m := 22) (beforeYear_eq 2108)⟩

theorem dayNumber_first (y : Nat) : dayNumber y 1 1 = beforeYear y := rfl

theorem dayNumber_epoch : dayNumber 1970 1 1 = 719528 :=
  (dayNumber_first 1970).trans beforeYear_bounds.1

/-- The civil date of a day since 1970. -/
theorem dosCivil_valid (days : Nat) :
    ∃ y m d : Nat, dosCivil days = (↑y, ↑m, ↑d) ∧ Valid y m d ∧ dayNumber y m d = days + 719528 := by
  obtain ⟨a, q, n, hmarch, hcivil⟩ := dosCivil_march days
  exact ⟨_, _, _, hcivil, hmarch.valid rfl, hmarch.number (by omega) rfl⟩

/-- Three fields side by side. -/
theorem packed (a : Nat) (hb : b < 2 ^ k) (hc : c < 2 ^ j) :
    a <<< (j + k) ||| b <<< j ||| c = a * 2 ^ (j + k) + b * 2 ^ j + c := by
  have hmid : b <<< j < 2 ^ (j + k) := by
    rw [Nat.shiftLeft_eq, Nat.pow_add, Nat.mul_comm]
    exact Nat.mul_lt_mul_of_pos_left hb (Nat.two_pow_pos j)
  have hsum : a <<< (j + k) + b <<< j = (a * 2 ^ k + b) <<< j := by
    rw [Nat.shiftLeft_eq, Nat.shiftLeft_eq, Nat.shiftLeft_eq, Nat.pow_add, Nat.add_mul]
    ring
  rw [← Nat.shiftLeft_add_eq_or_of_lt hmid, hsum, ← Nat.shiftLeft_add_eq_or_of_lt hc, ← hsum, Nat.shiftLeft_eq,
    Nat.shiftLeft_eq]

/-- The date with these fields. -/
def dosDate (y m d : Nat) : Nat := (y - 1980) * 2 ^ 9 + m * 2 ^ 5 + d

def dosClock (rem : Nat) : Nat := rem / 3600 * 2 ^ 11 + rem % 3600 / 60 * 2 ^ 5 + rem % 60 / 2

theorem dosDate_fields (hy : 1980 ≤ y) (h : m < 2 ^ 4 ∧ d < 2 ^ 5) :
    dateYear (dosDate y m d) = y ∧ dateMonth (dosDate y m d) = m ∧ dateDay (dosDate y m d) = d := by
  rw [dateYear, dateMonth, dateDay, dosDate]
  omega

/-- The day count of `fat_unix` on natural numbers. -/
theorem march_cast (a p : Nat) (hd : 1 ≤ d) :
    ((a / 400 : Nat) : Int) * 146097 + ((a % 400 : Nat) : Int) * 365 +
        (((a % 400) / 4 : Nat) : Int) - (((a % 400) / 100 : Nat) : Int) +
        (((153 * p + 2) / 5 : Nat) + (d : Int) - 1) =
      (marchNumber a p d : Int) := by
  have h4 : a / 4 = a % 400 / 4 + 100 * (a / 400) := by omega
  have h100 : a / 100 = a % 400 / 100 + 4 * (a / 400) := by omega
  have hsplit := Nat.div_add_mod a 400
  have hsub : a / 100 ≤ a := Nat.div_le_self a 100
  rw [marchNumber]
  generalize (153 * p + 2) / 5 = n
  generalize a % 400 / 4 = b at h4 ⊢
  generalize a % 400 / 100 = c at h100 ⊢
  omega

/-- The number of seconds of a date and a time. -/
theorem fatUnix_eq (hv : Valid (dateYear date) (dateMonth date) (dateDay date)) (time : Nat) :
    fatUnix date time = unixDay (dateYear date) (dateMonth date) (dateDay date) * 86400 +
      time / 2 ^ 11 * 3600 + time / 2 ^ 5 % 2 ^ 6 * 60 + time % 2 ^ 5 * 2 := by
  have hyear : 1980 ≤ dateYear date := Nat.le_add_right _ _
  have hmarch := hv.march (by omega)
  have hstart : beforeYear 1980 ≤ dayNumber (dateYear date) (dateMonth date) (dateDay date) :=
    (beforeYear_mono hyear).trans (by rw [dayNumber, Nat.add_assoc]; exact Nat.le_add_right _ _)
  rw [beforeYear_bounds.2.1] at hstart
  obtain ⟨a, ha⟩ : ∃ a, a = if dateMonth date ≤ 2 then dateYear date - 1 else dateYear date := ⟨_, rfl⟩
  obtain ⟨p, hp⟩ : ∃ p, p = if dateMonth date ≤ 2 then dateMonth date + 9 else dateMonth date - 3 := ⟨_, rfl⟩
  rw [← ha, ← hp] at hmarch
  have hday := hv.day.1
  have hmonth := hv.month.1
  rw [unixDay, dayNumber_epoch]
  unfold fatUnix
  extract_lets m y era yoe doy days
  have hm : m = (dateMonth date : Int) := rfl
  have hy : y = (a : Int) := by
    change ((date / 2 ^ 9 : Nat) : Int) + 1980 - (if m ≤ 2 then 1 else 0) = _
    rw [hm, ha]
    rw [dateYear] at hyear ⊢
    split
    · rw [if_pos (by omega)]
      omega
    · rw [if_neg (by omega)]
      omega
  have hera : era = ((a / 400 : Nat) : Int) := by
    change y.tdiv 400 = _
    rw [hy]
    rfl
  have hyoe : yoe = ((a % 400 : Nat) : Int) := by
    change y - era * 400 = _
    rw [hy, hera]
    clear hmarch
    omega
  have hmp : (if m > 2 then m - 3 else m + 9) = (p : Int) := by
    rw [hm, hp]
    split
    · rw [if_neg (by omega)]
      omega
    · rw [if_pos (by omega)]
      omega
  have hdays : days = (marchNumber a p (dateDay date) : Int) - 719468 := by
    rw [← march_cast a p hday]
    change era * 146097 + yoe * 365 + yoe.tdiv 4 - yoe.tdiv 100 +
      ((153 * (if m > 2 then m - 3 else m + 9) + 2).tdiv 5 + (dateDay date : Int) - 1) - 719468 = _
    rw [hmp, hera, hyoe]
    rfl
  have hcond : ¬(m = 0 ∨ date % 2 ^ 5 = 0 ∨ days < 0) := by
    intro hbad
    obtain hzero | hzero | hneg := hbad
    · omega
    · exact absurd hday (by rw [dateDay, hzero]; decide)
    · omega
  have hcount : days.toNat = dayNumber (dateYear date) (dateMonth date) (dateDay date) - 719528 := by omega
  rw [if_neg hcond, hcount]

theorem dayNumber_bounds (hv : Valid y m d) :
    (1980 ≤ y ↔ 719528 + 3652 ≤ dayNumber y m d) ∧ (y ≤ 2107 ↔ dayNumber y m d < 719528 + 50403) := by
  have hstart : beforeYear y ≤ dayNumber y m d := by
    rw [dayNumber, Nat.add_assoc]
    exact Nat.le_add_right _ _
  have hend := hv.lt_year
  obtain ⟨-, h1980, h2108⟩ := beforeYear_bounds
  rw [← h1980, ← h2108]
  constructor
  · constructor
    · exact fun h => (beforeYear_mono h).trans hstart
    · intro h
      by_contra hlt
      have hbefore : beforeYear (y + 1) ≤ beforeYear 1980 := beforeYear_mono (by omega)
      omega
  · constructor
    · intro h
      have hbefore : beforeYear (y + 1) ≤ beforeYear 2108 := beforeYear_mono (by omega)
      omega
    · intro h
      by_contra hlt
      have hbefore : beforeYear 2108 ≤ beforeYear y := beforeYear_mono (by omega)
      omega

/-- A time that a date and a time of a FAT volume can hold. -/
def InDosRange (t : Nat) : Prop := unixDay 1980 1 1 * 86400 ≤ t ∧ t < (unixDay 2107 12 31 + 1) * 86400

theorem dayNumber_last (y : Nat) : dayNumber y 12 31 + 1 = beforeYear (y + 1) := by
  rw [dayNumber, beforeYear, beforeMonth, Nat.add_assoc, Nat.add_assoc]
  rfl

theorem unixDay_ends : unixDay 1980 1 1 = 3652 ∧ unixDay 2107 12 31 + 1 = 50403 := by
  have hlast : dayNumber 2107 12 31 + 1 = beforeYear 2108 := dayNumber_last 2107
  obtain ⟨-, h1980, h2108⟩ := beforeYear_bounds
  rw [unixDay, unixDay, dayNumber_epoch, dayNumber_first]
  omega

theorem dosCivil_range (hv : Valid y m d) (hnum : dayNumber y m d = t / 86400 + 719528) :
    (y < 1980 ↔ t < unixDay 1980 1 1 * 86400) ∧ (2107 < y ↔ (unixDay 2107 12 31 + 1) * 86400 ≤ t) := by
  obtain ⟨hlow, hhigh⟩ := dayNumber_bounds hv
  obtain ⟨hfirst, hlast⟩ := unixDay_ends
  rw [hfirst, hlast]
  rw [hnum] at hlow hhigh
  omega

/-- What `fat_dos_time` stores: the civil date of the day and its time, within the years of a date. -/
theorem fatDosTime_cases (hciv : dosCivil (t / 86400) = (↑y, ↑m, ↑d)) (hv : Valid y m d) :
    fatDosTime t =
      (if y < 1980 then dosDate 1980 1 1 else if 2107 < y then dosDate 2107 12 31 else dosDate y m d,
        dosClock (t % 86400)) := by
  have hrem : t % 86400 < 86400 := Nat.mod_lt _ (by decide)
  have hclock : t % 86400 % 60 / 2 < 2 ^ 5 := by omega
  have hminute : t % 86400 % 3600 / 60 < 2 ^ 6 := by omega
  have htime : ((t % 86400 / 3600) <<< 11 ||| (t % 86400 % 3600 / 60) <<< 5 ||| t % 86400 % 60 / 2) % 2 ^ 16 =
      dosClock (t % 86400) := by
    rw [packed _ hminute hclock, dosClock, Nat.mod_eq_of_lt (by omega)]
  rw [fatDosTime, hciv]
  dsimp only
  rw [htime]
  by_cases hlow : y < 1980
  · have hlow' : (y : Int) < 1980 := by omega
    rw [if_pos hlow, if_pos hlow']
    rfl
  have hlow' : ¬(y : Int) < 1980 := by omega
  rw [if_neg hlow, if_neg hlow']
  dsimp only
  by_cases hhigh : 2107 < y
  · have hhigh' : 2107 < (y : Int) := by omega
    rw [if_pos hhigh, if_pos hhigh']
    rfl
  have hhigh' : ¬2107 < (y : Int) := by omega
  have hyear : ((y : Int) - 1980).toNat = y - 1980 := by omega
  obtain ⟨hm, hd⟩ := hv.small
  rw [if_neg hhigh, if_neg hhigh']
  dsimp only
  rw [hyear, Int.toNat_natCast, Int.toNat_natCast, packed _ hm hd, dosDate, Nat.mod_eq_of_lt (by omega)]

/-- The date part of what is stored for a time in the range. -/
theorem inDosRange_civil (h : InDosRange t) :
    ∃ y m d, Valid y m d ∧ 1980 ≤ y ∧ dayNumber y m d = t / 86400 + 719528 ∧
      fatDosTime t = (dosDate y m d, dosClock (t % 86400)) := by
  obtain ⟨y, m, d, hciv, hv, hnum⟩ := dosCivil_valid (t / 86400)
  obtain ⟨hlow, hhigh⟩ := dosCivil_range hv hnum
  have hlow' : ¬y < 1980 := fun hy => absurd (hlow.1 hy) (Nat.not_lt.2 h.1)
  have hhigh' : ¬2107 < y := fun hy => absurd (hhigh.1 hy) (Nat.not_le.2 h.2)
  have hdate := fatDosTime_cases hciv hv
  rw [if_neg hlow', if_neg hhigh'] at hdate
  exact ⟨y, m, d, hv, Nat.le_of_not_lt hlow', hnum, hdate⟩

theorem dosClock_seconds (h : q < 86400) :
    dosClock q / 2 ^ 11 * 3600 + dosClock q / 2 ^ 5 % 2 ^ 6 * 60 + dosClock q % 2 ^ 5 * 2 = q - q % 2 := by
  have hminute : q % 3600 / 60 < 64 := by omega
  have hclock : q % 60 / 2 < 32 := by omega
  have hhours : dosClock q / 2 ^ 11 = q / 3600 := by
    rw [dosClock]
    omega
  have hminutes : dosClock q / 2 ^ 5 % 2 ^ 6 = q % 3600 / 60 := by
    rw [dosClock]
    omega
  have hseconds : dosClock q % 2 ^ 5 = q % 60 / 2 := by
    rw [dosClock]
    omega
  rw [hhours, hminutes, hseconds]
  clear hminute hclock hhours hminutes hseconds
  omega

theorem dosClock_mono (h : q ≤ n) : dosClock q ≤ dosClock n := by
  have hhour : q / 3600 ≤ n / 3600 := Nat.div_le_div_right h
  have hminute : q % 3600 / 60 < 64 := by omega
  have hclock : q % 60 / 2 < 32 := by omega
  rw [dosClock, dosClock]
  obtain hlt | heq := Nat.lt_or_eq_of_le hhour
  · omega
  · have hrest : q % 3600 ≤ n % 3600 := by omega
    have hminutes : q % 3600 / 60 ≤ n % 3600 / 60 := Nat.div_le_div_right hrest
    obtain hlt' | heq' := Nat.lt_or_eq_of_le hminutes
    · rw [heq]
      omega
    · have hsplit : q % 60 ≤ n % 60 := by omega
      rw [heq, heq']
      exact Nat.add_le_add_left (Nat.div_le_div_right hsplit) _

/-- An earlier date is the smaller number. -/
theorem dosDate_mono (hv : Valid y m d) (hv' : Valid y' m' d') (hy : 1980 ≤ y)
    (hlt : dayNumber y m d < dayNumber y' m' d') : dosDate y m d < dosDate y' m' d' := by
  obtain ⟨hm, hd⟩ := hv.small
  have hord := hv'.lt_of_lt hlt
  rw [dosDate, dosDate]
  obtain hyear | ⟨rfl, hmonth | ⟨rfl, hday⟩⟩ := hord
  · omega
  · omega
  · omega

theorem fatDosTime_day (h : t / 86400 = t' / 86400) : (fatDosTime t).1 = (fatDosTime t').1 := by
  rw [fatDosTime, fatDosTime, h]

/-- The fields of a date in the years that can be stored. -/
theorem dosDate_valid (hy : 1980 ≤ y) (hv : Valid y m d) :
    Valid (dateYear (dosDate y m d)) (dateMonth (dosDate y m d)) (dateDay (dosDate y m d)) := by
  obtain ⟨hyear, hmonth, hday⟩ := dosDate_fields hy hv.small
  rw [hyear, hmonth, hday]
  exact hv

theorem ends_valid : Valid 1980 1 1 ∧ Valid 2107 12 31 :=
  ⟨⟨by decide, by decide⟩, ⟨by decide, by decide⟩⟩

theorem fatDosTime_seconds (hy : 1980 ≤ y) (hv : Valid y m d) :
    fatUnix (dosDate y m d) (dosClock (t % 86400)) = unixDay y m d * 86400 + (t % 86400 - t % 86400 % 2) := by
  obtain ⟨hyear, hmonth, hday⟩ := dosDate_fields hy hv.small
  rw [fatUnix_eq (dosDate_valid hy hv), hyear, hmonth, hday, Nat.add_assoc, Nat.add_assoc,
    ← Nat.add_assoc (_ * 3600), dosClock_seconds (Nat.mod_lt t (by decide))]

/-- The date and the time of a FAT volume and the seconds since 1970. -/
theorem fatDosTime_roundTrip (t : Nat) :
    (InDosRange t →
      fatUnix (fatDosTime t).1 (fatDosTime t).2 = t - t % 2 ∧
      Valid (dateYear (fatDosTime t).1) (dateMonth (fatDosTime t).1) (dateDay (fatDosTime t).1) ∧
      unixDay (dateYear (fatDosTime t).1) (dateMonth (fatDosTime t).1) (dateDay (fatDosTime t).1) = t / 86400 ∧
      ∀ t', InDosRange t' → t ≤ t' →
        (fatDosTime t).1 < (fatDosTime t').1 ∨
          ((fatDosTime t).1 = (fatDosTime t').1 ∧ (fatDosTime t).2 ≤ (fatDosTime t').2)) ∧
    (t < unixDay 1980 1 1 * 86400 →
      dateYear (fatDosTime t).1 = 1980 ∧
        Valid (dateYear (fatDosTime t).1) (dateMonth (fatDosTime t).1) (dateDay (fatDosTime t).1)) ∧
    ((unixDay 2107 12 31 + 1) * 86400 ≤ t →
      dateYear (fatDosTime t).1 = 2107 ∧
        Valid (dateYear (fatDosTime t).1) (dateMonth (fatDosTime t).1) (dateDay (fatDosTime t).1)) := by
  refine ⟨?_, ?_, ?_⟩
  · intro hrange
    obtain ⟨y, m, d, hv, hy, hnum, hdate⟩ := inDosRange_civil hrange
    obtain ⟨hyear, hmonth, hday⟩ := dosDate_fields hy hv.small
    have hcount : unixDay y m d = t / 86400 := by
      rw [unixDay, hnum, dayNumber_epoch, Nat.add_sub_cancel]
    refine ⟨?_, ?_, ?_, ?_⟩
    · rw [hdate, fatDosTime_seconds hy hv, hcount]
      omega
    · rw [hdate]
      exact dosDate_valid hy hv
    · rw [hdate, hyear, hmonth, hday]
      exact hcount
    · intro t' hrange' hle
      obtain ⟨y', m', d', hv', hy', hnum', hdate'⟩ := inDosRange_civil hrange'
      obtain hlt | heq := Nat.lt_or_eq_of_le (@Nat.div_le_div_right t t' 86400 hle)
      · left
        rw [hdate, hdate']
        exact dosDate_mono hv hv' hy (by omega)
      · right
        refine ⟨fatDosTime_day heq, ?_⟩
        rw [hdate, hdate']
        apply dosClock_mono
        omega
  · intro hbefore
    obtain ⟨y, m, d, hciv, hv, hnum⟩ := dosCivil_valid (t / 86400)
    have hearly := (dosCivil_range hv hnum).1.2 hbefore
    rw [fatDosTime_cases hciv hv, if_pos hearly]
    exact ⟨(dosDate_fields le_rfl ends_valid.1.small).1, dosDate_valid le_rfl ends_valid.1⟩
  · intro hafter
    obtain ⟨y, m, d, hciv, hv, hnum⟩ := dosCivil_valid (t / 86400)
    have hlate := (dosCivil_range hv hnum).2.2 hafter
    rw [fatDosTime_cases hciv hv, if_neg (by omega), if_pos hlate]
    exact ⟨(dosDate_fields (by decide) ends_valid.2.small).1, dosDate_valid (by decide) ends_valid.2⟩

end Conversions

end Lebirun.Fat
