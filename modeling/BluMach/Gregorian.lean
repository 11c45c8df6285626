-- The Gregorian calendar from the year 1 on: the lengths of its months and years, and the number
-- of seconds from the beginning of the calendar to a moment. A moment has one number, and the next
-- number belongs to the next second, minute, hour, day, month or year.
import Mathlib.Data.Int.Notation
import Mathlib.Tactic.SplitIfs

namespace gregorian

/-! ## The lengths -/

def IsLeap (year : Int) : Prop := year % 4 = 0 ∧ (year % 100 ≠ 0 ∨ year % 400 = 0)

instance (year : Int) : Decidable (IsLeap year) := by
  unfold IsLeap
  infer_instance

def yearLength (year : Int) : Int := if IsLeap year then 366 else 365

def monthLength (year month : Int) : Int :=
  if month = 2 then if IsLeap year then 29 else 28
  else if month = 4 ∨ month = 6 ∨ month = 9 ∨ month = 11 then 30 else 31

/-- The days of the first `n` months of a year. -/
def daysOfMonths (year : Int) : Nat → Int
  | 0 => 0
  | n + 1 => daysOfMonths year n + monthLength year (n + 1 : Nat)

/-- The days of the years before a year. -/
def daysBefore (year : Int) : Int :=
  365 * (year - 1) + (year - 1) / 4 - (year - 1) / 100 + (year - 1) / 400

theorem daysBefore_next (year : Int) :
    daysBefore (year + 1) = daysBefore year + yearLength year := by
  unfold daysBefore yearLength
  by_cases h : IsLeap year
  · rw [if_pos h]
    unfold IsLeap at h
    omega
  · rw [if_neg h]
    unfold IsLeap at h
    omega

theorem monthLength_pos (year month : Int) : 28 ≤ monthLength year month := by
  unfold monthLength
  split_ifs <;> omega

theorem monthLength_le (year month : Int) : monthLength year month ≤ 31 := by
  unfold monthLength
  split_ifs <;> omega

theorem daysOfMonths_mono (year : Int) {m n : Nat} (h : m ≤ n) :
    daysOfMonths year m ≤ daysOfMonths year n := by
  induction n with
  | zero =>
    obtain rfl : m = 0 := by omega
    exact Int.le_refl _
  | succ n ih =>
    by_cases hm : m = n + 1
    · subst hm
      exact Int.le_refl _
    · have hlen := monthLength_pos year (n + 1 : Nat)
      have hrest := ih (by omega)
      rw [daysOfMonths]
      omega

theorem daysOfMonths_year (year : Int) : daysOfMonths year 12 = yearLength year := by
  unfold yearLength
  by_cases h : IsLeap year
  · simp [daysOfMonths, monthLength, h]
  · simp [daysOfMonths, monthLength, h]

/-! ## Moments -/

structure Moment where
  year : Int
  month : Int
  day : Int
  hour : Int
  minute : Int
  second : Int
deriving DecidableEq

structure Moment.Valid (t : Moment) : Prop where
  year : 1 ≤ t.year
  month : 1 ≤ t.month ∧ t.month ≤ 12
  day : 1 ≤ t.day ∧ t.day ≤ monthLength t.year t.month
  hour : 0 ≤ t.hour ∧ t.hour < 24
  minute : 0 ≤ t.minute ∧ t.minute < 60
  second : 0 ≤ t.second ∧ t.second < 60

/-- The days before the day of a moment. -/
def dayNumber (t : Moment) : Int :=
  daysBefore t.year + daysOfMonths t.year (t.month.toNat - 1) + (t.day - 1)

/-- The seconds before a moment. -/
def instant (t : Moment) : Int :=
  dayNumber t * 86400 + t.hour * 3600 + t.minute * 60 + t.second

theorem month_next {t : Moment} (h : 1 ≤ t.month) :
    daysOfMonths t.year t.month.toNat =
      daysOfMonths t.year (t.month.toNat - 1) + monthLength t.year t.month := by
  obtain ⟨n, hn⟩ : ∃ n : Nat, t.month = (n + 1 : Nat) := ⟨t.month.toNat - 1, by omega⟩
  rw [hn, Int.toNat_natCast, Nat.add_sub_cancel, daysOfMonths]

/-! ## A moment has one number -/

theorem daysBefore_mono {y y' : Int} (h : y ≤ y') : daysBefore y ≤ daysBefore y' := by
  unfold daysBefore
  omega

theorem dayNumber_bounds {t : Moment} (h : t.Valid) :
    daysBefore t.year ≤ dayNumber t ∧ dayNumber t < daysBefore (t.year + 1) := by
  have hmonth := h.month
  have hday := h.day
  have hnext := month_next hmonth.1
  have hlow := daysOfMonths_mono t.year (Nat.zero_le (t.month.toNat - 1))
  have hhigh := @daysOfMonths_mono t.year t.month.toNat 12 (by omega)
  rw [daysOfMonths_year] at hhigh
  rw [daysOfMonths] at hlow
  rw [daysBefore_next]
  unfold dayNumber
  omega

theorem dayNumber_inj {t t' : Moment} (h : t.Valid) (h' : t'.Valid)
    (heq : dayNumber t = dayNumber t') :
      t.year = t'.year ∧ t.month = t'.month ∧ t.day = t'.day := by
  have hyear : t.year = t'.year := by
    have hb := dayNumber_bounds h
    have hb' := dayNumber_bounds h'
    rcases Int.lt_trichotomy t.year t'.year with hlt | heq | hgt
    · have hmono := @daysBefore_mono (t.year + 1) t'.year (by omega)
      omega
    · exact heq
    · have hmono := @daysBefore_mono (t'.year + 1) t.year (by omega)
      omega
  have hm := h.month
  have hm' := h'.month
  have hd := h.day
  have hd' := h'.day
  have hnext := month_next hm.1
  have hnext' := month_next hm'.1
  unfold dayNumber at heq
  rw [← hyear] at heq hd' hnext'
  have hmonth : t.month = t'.month := by
    rcases Int.lt_trichotomy t.month t'.month with hlt | heq | hgt
    · have hmono := @daysOfMonths_mono t.year t.month.toNat (t'.month.toNat - 1) (by omega)
      omega
    · exact heq
    · have hmono := @daysOfMonths_mono t.year t'.month.toNat (t.month.toNat - 1) (by omega)
      omega
  rw [← hmonth] at heq
  exact ⟨hyear, hmonth, by omega⟩

theorem instant_inj {t t' : Moment} (h : t.Valid) (h' : t'.Valid)
    (heq : instant t = instant t') : t = t' := by
  have hh := h.hour
  have hh' := h'.hour
  have hm := h.minute
  have hm' := h'.minute
  have hs := h.second
  have hs' := h'.second
  unfold instant at heq
  have hday : dayNumber t = dayNumber t' := by omega
  obtain ⟨g1, g2, g3⟩ := dayNumber_inj h h' hday
  cases t
  cases t'
  simp only [Moment.mk.injEq] at *
  omega

/-! ## The next second -/

/-- The day after that of `t`, at midnight. -/
def nextDay (t : Moment) : Moment :=
  if t.day < monthLength t.year t.month then ⟨t.year, t.month, t.day + 1, 0, 0, 0⟩
  else if t.month < 12 then ⟨t.year, t.month + 1, 1, 0, 0, 0⟩
  else ⟨t.year + 1, 1, 1, 0, 0, 0⟩

def next (t : Moment) : Moment :=
  if t.second < 59 then { t with second := t.second + 1 }
  else if t.minute < 59 then { t with minute := t.minute + 1, second := 0 }
  else if t.hour < 23 then { t with hour := t.hour + 1, minute := 0, second := 0 }
  else nextDay t

theorem midnight_valid {year month day : Int} (hy : 1 ≤ year) (hm : 1 ≤ month ∧ month ≤ 12)
    (hd : 1 ≤ day ∧ day ≤ monthLength year month) : Moment.Valid ⟨year, month, day, 0, 0, 0⟩ where
  year := hy
  month := hm
  day := hd
  hour := by dsimp only; omega
  minute := by dsimp only; omega
  second := by dsimp only; omega

theorem nextDay_valid {t : Moment} (h : t.Valid) : (nextDay t).Valid := by
  have hy := h.year
  have hm := h.month
  have hd := h.day
  unfold nextDay
  split_ifs with h1 h2
  · exact midnight_valid hy hm (by omega)
  · have hlen := monthLength_pos t.year (t.month + 1)
    exact midnight_valid hy (by omega) (by omega)
  · have hlen := monthLength_pos (t.year + 1) 1
    exact midnight_valid (by omega) (by omega) (by omega)

theorem dayNumber_nextDay {t : Moment} (h : t.Valid) : dayNumber (nextDay t) = dayNumber t + 1 := by
  have hmonth := h.month
  have hday := h.day
  have hnext := month_next hmonth.1
  unfold nextDay dayNumber
  split_ifs with h1 h2
  · dsimp only
    omega
  · have hidx : (t.month + 1).toNat - 1 = t.month.toNat := by omega
    dsimp only
    rw [hidx]
    omega
  · have hlast : t.month.toNat = 12 := by omega
    have hyear := daysOfMonths_year t.year
    rw [← hlast] at hyear
    have hfirst : daysOfMonths (t.year + 1) ((1 : Int).toNat - 1) = 0 := rfl
    dsimp only
    rw [daysBefore_next, hfirst]
    omega

theorem next_valid {t : Moment} (h : t.Valid) : (next t).Valid := by
  have hv := nextDay_valid h
  obtain ⟨hy, hm, hd, hh, hmin, hs⟩ := h
  unfold next
  split_ifs with h1 h2 h3
  · exact ⟨hy, hm, hd, hh, hmin, by dsimp only; omega⟩
  · exact ⟨hy, hm, hd, hh, by dsimp only; omega, by dsimp only; omega⟩
  · exact ⟨hy, hm, hd, by dsimp only; omega, by dsimp only; omega, by dsimp only; omega⟩
  · exact hv

/-- The next moment is one second later. -/
theorem instant_next {t : Moment} (h : t.Valid) : instant (next t) = instant t + 1 := by
  have hh := h.hour
  have hm := h.minute
  have hs := h.second
  unfold next
  split_ifs with h1 h2 h3
  · unfold instant
    have hsame : dayNumber { t with second := t.second + 1 } = dayNumber t := rfl
    dsimp only
    omega
  · unfold instant
    have hsame : dayNumber { t with minute := t.minute + 1, second := 0 } = dayNumber t := rfl
    dsimp only
    omega
  · unfold instant
    have hsame :
        dayNumber { t with hour := t.hour + 1, minute := 0, second := 0 } = dayNumber t := rfl
    dsimp only
    omega
  · have hday := dayNumber_nextDay h
    have hmidnight : (nextDay t).hour = 0 ∧ (nextDay t).minute = 0 ∧ (nextDay t).second = 0 := by
      unfold nextDay
      split_ifs <;> exact ⟨rfl, rfl, rfl⟩
    unfold instant
    omega

end gregorian
