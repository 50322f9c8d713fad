/-
# `Llmenv.Auth.Timestamp` — times that sort as texts

The cache of accounts has the time of an entry as a text and sorts the texts, so
the text of a later time must be the greater one.  `rfc3339_now` of
`src/auth/mod.rs` prints seconds since the epoch by counting years and months
off.  `daysToYmd_spec` compares it with the day number of a Gregorian date in
closed form, and `rfc3339_lt_iff` is the order, until the year has five digits.
-/
import Llmenv.Lib.Padded

namespace Llmenv.Auth.Timestamp

open Llmenv.Lib.Padded

/-! ## The code -/

def isLeap (year : Nat) : Bool := year % 4 = 0 && year % 100 ≠ 0 || year % 400 = 0

def yearDays (year : Nat) : Nat := if isLeap year then 366 else 365

theorem yearDays_pos (year : Nat) : 0 < yearDays year := by
  unfold yearDays
  split <;> decide

/-- The first loop of `days_to_ymd`: the year, and the days that are left. -/
def yearLoop (days year : Nat) : Nat × Nat :=
  if days < yearDays year then (year, days) else yearLoop (days - yearDays year) (year + 1)
termination_by days
decreasing_by
  have hpos := yearDays_pos year
  omega

def months (year : Nat) : List Nat :=
  if isLeap year then [31, 29, 31, 30, 31, 30, 31, 31, 30, 31, 30, 31]
  else [31, 28, 31, 30, 31, 30, 31, 31, 30, 31, 30, 31]

/-- The second loop: the month, and the days that are left. -/
def monthLoop : List Nat → Nat → Nat → Nat × Nat
  | [], days, month => (month, days)
  | mdays :: rest, days, month =>
      if days < mdays then (month, days) else monthLoop rest (days - mdays) (month + 1)

def daysToYmd (days : Nat) : Nat × Nat × Nat :=
  let year := yearLoop days 1970
  let month := monthLoop (months year.1) year.2 1
  (year.1, month.1, month.2 + 1)

/-- `secs_to_datetime`, and the text of `rfc3339_now`. -/
def rfc3339 (secs : Nat) : List Char :=
  let sec := secs % 60
  let min := secs / 60 % 60
  let hour := secs / 3600 % 24
  let (year, month, day) := daysToYmd (secs / 86400)
  padded 4 year ++ '-' :: (padded 2 month ++ '-' :: (padded 2 day ++ 'T' ::
    (padded 2 hour ++ ':' :: (padded 2 min ++ ':' :: (padded 2 sec ++ 'Z' :: [])))))

/-! ## The calendar -/

/-- The leap days before the year. -/
def leapsBefore (year : Nat) : Nat := (year - 1) / 4 - (year - 1) / 100 + (year - 1) / 400

/-- The day number of the first of January. -/
def yearStart (year : Nat) : Nat := 365 * (year - 1970) + leapsBefore year - leapsBefore 1970

/-- The day number of a date, the first of January 1970 being 0. -/
def dayNumber (year month day : Nat) : Nat :=
  yearStart year + ((months year).take (month - 1)).sum + (day - 1)

theorem isLeap_iff (year : Nat) :
    isLeap year = true ↔ year % 4 = 0 ∧ year % 100 ≠ 0 ∨ year % 400 = 0 := by
  simp [isLeap]

theorem succ_div (n d : Nat) : (n + 1) / d = n / d + if (n + 1) % d = 0 then 1 else 0 := by
  rw [Nat.succ_div]
  simp only [Nat.dvd_iff_mod_eq_zero]

theorem leapsBefore_succ {year : Nat} (h : 0 < year) :
    leapsBefore (year + 1) = leapsBefore year + if isLeap year then 1 else 0 := by
  obtain ⟨n, rfl⟩ := Nat.exists_eq_succ_of_ne_zero (Nat.ne_of_gt h)
  have hle : n / 100 ≤ n / 4 := Nat.div_le_div_left (by decide) (by decide)
  have hhundred : (n + 1) % 100 = 0 → (n + 1) % 4 = 0 := by omega
  have hfour : (n + 1) % 400 = 0 → (n + 1) % 100 = 0 := by omega
  simp only [leapsBefore, Nat.succ_eq_add_one, Nat.add_sub_cancel, succ_div, isLeap_iff]
  generalize n / 4 = a, n / 100 = b, n / 400 = c at *
  generalize (n + 1) % 4 = x, (n + 1) % 100 = y, (n + 1) % 400 = z at *
  split <;> split <;> split <;> split <;> omega

theorem le_leapsBefore : ∀ (k : Nat), leapsBefore 1970 ≤ leapsBefore (1970 + k)
  | 0 => Nat.le_refl _
  | k + 1 => by
      have hstep := @leapsBefore_succ (1970 + k) (by omega)
      rw [← Nat.add_assoc, hstep]
      exact Nat.le_trans (le_leapsBefore k) (Nat.le_add_right _ _)

theorem yearStart_succ {year : Nat} (h : 1970 ≤ year) :
    yearStart (year + 1) = yearStart year + yearDays year := by
  have hle := le_leapsBefore (year - 1970)
  rw [Nat.add_sub_cancel' h] at hle
  rw [yearStart, yearStart, yearDays, leapsBefore_succ (by omega)]
  split <;> omega

theorem yearLoop_spec (days year : Nat) (h : 1970 ≤ year) :
    yearStart (yearLoop days year).1 + (yearLoop days year).2 = yearStart year + days ∧
      (yearLoop days year).2 < yearDays (yearLoop days year).1 ∧
      year ≤ (yearLoop days year).1 := by
  fun_induction yearLoop days year with
  | case1 days year hlt => exact ⟨rfl, hlt, Nat.le_refl _⟩
  | case2 days year hge ih =>
      obtain ⟨heq, hlt, hle⟩ := ih (by omega)
      rw [yearStart_succ h] at heq
      exact ⟨by omega, hlt, by omega⟩

theorem sum_months (year : Nat) : (months year).sum = yearDays year := by
  unfold months yearDays
  split <;> rfl

theorem length_months (year : Nat) : (months year).length = 12 := by
  unfold months
  split <;> rfl

theorem monthLoop_spec : ∀ (ms : List Nat) (days month : Nat), days < ms.sum →
    ∃ k, ∃ hk : k < ms.length, (monthLoop ms days month).1 = month + k ∧
      (ms.take k).sum + (monthLoop ms days month).2 = days ∧ (monthLoop ms days month).2 < ms[k]
  | [], _, _, h => absurd h (Nat.not_lt_zero _)
  | mdays :: rest, days, month, h => by
      unfold monthLoop
      split
      · rename_i hlt
        exact ⟨0, by simp, rfl, by simp, hlt⟩
      · obtain ⟨k, hk, hmonth, hsum, hlt⟩ := monthLoop_spec rest (days - mdays) (month + 1)
          (by rw [List.sum_cons] at h; omega)
        refine ⟨k + 1, Nat.succ_lt_succ hk, by omega, ?_, hlt⟩
        rw [List.take_succ_cons, List.sum_cons]
        omega

/-- The loops give a date of the calendar, and its day number is the one they start with. -/
theorem daysToYmd_spec (days : Nat) :
    let (year, month, day) := daysToYmd days
    dayNumber year month day = days ∧ 1970 ≤ year ∧ 1 ≤ month ∧ month ≤ 12 ∧ 1 ≤ day ∧
      ∃ mdays, (months year)[month - 1]? = some mdays ∧ day ≤ mdays := by
  obtain ⟨hyear, hrest, hge⟩ := yearLoop_spec days 1970 (Nat.le_refl _)
  obtain ⟨k, hk, hmonth, hsum, hday⟩ := monthLoop_spec (months (yearLoop days 1970).1)
    (yearLoop days 1970).2 1 (by rw [sum_months]; exact hrest)
  have hlt : k < 12 := length_months _ ▸ hk
  have hstart : yearStart 1970 = 0 := rfl
  simp only [daysToYmd, dayNumber, hmonth, Nat.add_sub_cancel_left, Nat.add_sub_cancel]
  refine ⟨by omega, hge, by omega, by omega, by omega, _, List.getElem?_eq_getElem hk, hday⟩

/-! ## The order -/

theorem le_yearLoop (days year : Nat) : year ≤ (yearLoop days year).1 := by
  fun_induction yearLoop days year with
  | case1 => exact Nat.le_refl _
  | case2 _ _ _ ih => omega

theorem yearLoop_lt (days year : Nat) : ∀ {days' : Nat}, days < days' →
    (yearLoop days year).1 < (yearLoop days' year).1 ∨
      (yearLoop days year).1 = (yearLoop days' year).1 ∧
        (yearLoop days year).2 < (yearLoop days' year).2 := by
  fun_induction yearLoop days year with
  | case1 days year hlt =>
      intro days' h
      rw [yearLoop]
      split
      · exact .inr ⟨rfl, h⟩
      · exact .inl (le_yearLoop _ (year + 1))
  | case2 days year hge ih =>
      intro days' h
      rw [yearLoop.eq_1 days' year, if_neg (by omega)]
      exact ih (by omega)

theorem le_monthLoop : ∀ (ms : List Nat) (days month : Nat), month ≤ (monthLoop ms days month).1
  | [], _, month => Nat.le_refl month
  | mdays :: rest, days, month => by
      have hle := le_monthLoop rest (days - mdays) (month + 1)
      unfold monthLoop
      split
      · exact Nat.le_refl month
      · omega

theorem monthLoop_lt : ∀ (ms : List Nat) {days days' month : Nat}, days < days' →
    (monthLoop ms days month).1 < (monthLoop ms days' month).1 ∨
      (monthLoop ms days month).1 = (monthLoop ms days' month).1 ∧
        (monthLoop ms days month).2 < (monthLoop ms days' month).2
  | [], _, _, _, h => .inr ⟨rfl, h⟩
  | mdays :: rest, days, days', month, h => by
      unfold monthLoop
      by_cases hlt : days < mdays
      · rw [if_pos hlt]
        split
        · exact .inr ⟨rfl, h⟩
        · exact .inl (le_monthLoop rest (days' - mdays) (month + 1))
      · rw [if_neg hlt, if_neg (by omega)]
        exact monthLoop_lt rest (by omega)

/-- The order of dates: the year, then the month, then the day. -/
def Before (a b : Nat × Nat × Nat) : Prop :=
  a.1 < b.1 ∨ a.1 = b.1 ∧ (a.2.1 < b.2.1 ∨ a.2.1 = b.2.1 ∧ a.2.2 < b.2.2)

theorem daysToYmd_lt {days days' : Nat} (h : days < days') :
    Before (daysToYmd days) (daysToYmd days') := by
  simp only [Before, daysToYmd]
  rcases yearLoop_lt days 1970 h with hyear | ⟨hyear, hrest⟩
  · exact .inl hyear
  · rw [← hyear]
    rcases monthLoop_lt (months (yearLoop days 1970).1) hrest with hmonth | ⟨hmonth, hday⟩
    · exact .inr ⟨rfl, .inl hmonth⟩
    · exact .inr ⟨rfl, .inr ⟨hmonth, Nat.succ_lt_succ hday⟩⟩

/-- The years of the days before the year 10000 have four digits. -/
theorem year_lt {days : Nat} (h : days < 2932897) : (daysToYmd days).1 < 10 ^ (3 + 1) := by
  obtain ⟨hsum, -, hge⟩ := yearLoop_spec days 1970 (Nat.le_refl _)
  have hstart : yearStart 1970 = 0 := rfl
  have hle : leapsBefore 10000 ≤ leapsBefore (max 10000 (yearLoop days 1970).1) := by
    unfold leapsBefore
    omega
  refine Nat.lt_of_not_le fun hbig : 10000 ≤ (yearLoop days 1970).1 => ?_
  rw [max_eq_right hbig, show leapsBefore 10000 = 2424 from rfl] at hle
  have hyear : yearStart (yearLoop days 1970).1 ≤ days := by omega
  rw [yearStart, show leapsBefore 1970 = 477 from rfl] at hyear
  omega

theorem month_lt (days : Nat) : (daysToYmd days).2.1 < 10 ^ (1 + 1) := by
  obtain ⟨-, -, -, hmonth, -⟩ := daysToYmd_spec days
  exact Nat.lt_of_le_of_lt hmonth (by decide)

theorem day_lt (days : Nat) : (daysToYmd days).2.2 < 10 ^ (1 + 1) := by
  obtain ⟨-, -, -, -, -, mdays, hmem, hle⟩ := daysToYmd_spec days
  have hall : ∀ year, ∀ mdays ∈ months year, mdays ≤ 31 := by
    intro year
    unfold months
    split <;> decide
  exact Nat.lt_of_le_of_lt (hle.trans (hall _ mdays (List.mem_of_getElem? hmem))) (by decide)

theorem parts (t : Nat) :
    t = 86400 * (t / 86400) + 3600 * (t / 3600 % 24) + 60 * (t / 60 % 60) + t % 60 := by
  omega

theorem clock_lt_iff {hour min sec hour' min' sec' : Nat} (hmin : min < 60) (hmin' : min' < 60)
    (hsec : sec < 60) (hsec' : sec' < 60) :
    (hour < hour' ∨ hour = hour' ∧ (min < min' ∨ min = min' ∧ sec < sec')) ↔
      3600 * hour + 60 * min + sec < 3600 * hour' + 60 * min' + sec' := by
  omega

/-- The texts sort like the times, until the year 10000. -/
theorem rfc3339_lt_iff {t t' : Nat} (h : t < 253402300800) (h' : t' < 253402300800) :
    rfc3339 t < rfc3339 t' ↔ t < t' := by
  have hyear : (daysToYmd (t / 86400)).1 < 10 ^ (3 + 1) := year_lt (by omega)
  have hyear' : (daysToYmd (t' / 86400)).1 < 10 ^ (3 + 1) := year_lt (by omega)
  have hhour : ∀ t, t / 3600 % 24 < 10 ^ (1 + 1) := by omega
  have hmin : ∀ t, t / 60 % 60 < 10 ^ (1 + 1) := by omega
  have hsec : ∀ t, t % 60 < 10 ^ (1 + 1) := by omega
  simp only [rfc3339]
  rw [padded_append_lt_iff hyear hyear', padded_append_lt_iff (month_lt _) (month_lt _),
    padded_append_lt_iff (day_lt _) (day_lt _), padded_append_lt_iff (hhour t) (hhour t'),
    padded_append_lt_iff (hmin t) (hmin t'), padded_append_lt_iff (hsec t) (hsec t')]
  have hnil : ¬ ([] : List Char) < [] := List.lt_irrefl _
  rcases Nat.lt_trichotomy (t / 86400) (t' / 86400) with hlt | heq | hlt
  · have hbefore := daysToYmd_lt hlt
    unfold Before at hbefore
    omega
  · have ht := parts t
    have ht' := parts t'
    have hclock := @clock_lt_iff (t / 3600 % 24) _ _ (t' / 3600 % 24) _ _
      (Nat.mod_lt (t / 60) (by decide)) (Nat.mod_lt (t' / 60) (by decide))
      (Nat.mod_lt t (by decide)) (Nat.mod_lt t' (by decide))
    rw [heq] at ht ⊢
    simp only [Nat.lt_irrefl, hnil, true_and, false_or, and_false, or_false]
    rw [hclock]
    omega
  · have hbefore := daysToYmd_lt hlt
    unfold Before at hbefore
    omega

/-- The last second of the 28th of February 2024 and the first one of the leap day. -/
example : rfc3339 1709164799 < rfc3339 1709164800 :=
  (rfc3339_lt_iff (by decide) (by decide)).mpr (by decide)

end Llmenv.Auth.Timestamp
