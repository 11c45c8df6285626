-- The calendar of the internal clock: every tick is one second of the Gregorian calendar, and the
-- day of the week that `nvr_time_get` computes moves on with the days inside a month, but not from
-- one month to the next.
import BluMach.Gregorian
import BluMach.Nvr

namespace blumach.nvr

open gregorian

/-- The moment that the internal clock shows. -/
def moment (intclk : Tm) : Moment :=
  ⟨intclk.tm_year, intclk.tm_mon, intclk.tm_mday, intclk.tm_hour, intclk.tm_min, intclk.tm_sec⟩

/-! ## One tick -/

theorem tmod_zero_iff (x k : Int) : x.tmod k = 0 ↔ x % k = 0 := by
  rw [← Int.dvd_iff_tmod_eq_zero, Int.dvd_iff_emod_eq_zero]

theorem is_leap_iff (year : Int) : nvr_is_leap year = true ↔ IsLeap year := by
  unfold nvr_is_leap IsLeap
  simp only [tmod_zero_iff]
  split_ifs with h1 h2 h3
  · simp only [true_iff]
    omega
  · simp only [false_iff]
    omega
  · simp only [true_iff]
    omega
  · simp only [false_iff]
    omega

theorem get_days_spec {year month : Int} (h : 1 ≤ month ∧ month ≤ 12) :
    nvr_get_days month year = some (monthLength year month) := by
  unfold nvr_get_days monthLength
  by_cases h2 : month = 2
  · rw [if_pos h2, if_pos h2]
    simp only [is_leap_iff]
  · rw [if_neg h2, if_neg h2, if_neg (by omega)]
    have hcases : month = 1 ∨ month = 3 ∨ month = 4 ∨ month = 5 ∨ month = 6 ∨ month = 7 ∨
        month = 8 ∨ month = 9 ∨ month = 10 ∨ month = 11 ∨ month = 12 := by omega
    rcases hcases with rfl | rfl | rfl | rfl | rfl | rfl | rfl | rfl | rfl | rfl | rfl <;> rfl

/-- The internal clock at a moment. -/
def clockAt (t : Moment) (tm_wday : Int) : Tm :=
  ⟨t.second, t.minute, t.hour, t.day, t.month, t.year, tm_wday⟩

/-- The tick behind the last second of a day. -/
theorem rtc_tick_day {intclk : Tm} (h : (moment intclk).Valid) (hs : intclk.tm_sec = 59)
    (hm : intclk.tm_min = 59) (hh : intclk.tm_hour = 23) (hy : intclk.tm_year ≤ INT_MAX) :
    rtc_tick intclk =
      if (nextDay (moment intclk)).year ≤ INT_MAX then
        some (clockAt (nextDay (moment intclk)) intclk.tm_wday)
      else none := by
  obtain ⟨-, hmon, hmday, -, -, -⟩ := h
  dsimp only [moment] at hmon hmday
  have hlen := monthLength_le intclk.tm_year intclk.tm_mon
  have hday : inc intclk.tm_mday = some (intclk.tm_mday + 1) := if_pos (by unfold INT_MAX; omega)
  have hnew : inc intclk.tm_mon = some (intclk.tm_mon + 1) := if_pos (by unfold INT_MAX; omega)
  have hdays := @get_days_spec intclk.tm_year _ hmon
  have hsec : inc 59 = some 60 := by decide
  have hhour : inc 23 = some 24 := by decide
  unfold rtc_tick
  simp only [hs, hm, hh, hsec, hhour, hday, hdays, hnew, Option.bind_eq_bind, Option.bind_some,
    if_true]
  unfold nextDay moment clockAt
  dsimp only
  by_cases h4 : intclk.tm_mday < monthLength intclk.tm_year intclk.tm_mon
  · rw [if_neg (by omega), if_pos h4]
    exact (if_pos hy).symm
  · rw [if_pos (by omega), if_neg h4]
    by_cases h5 : intclk.tm_mon < 12
    · rw [if_neg (by omega), if_pos h5]
      exact (if_pos hy).symm
    · rw [if_pos (by omega), if_neg h5]
      unfold inc
      by_cases h6 : intclk.tm_year < INT_MAX
      · rw [if_pos h6, if_pos (by dsimp only; omega)]
        rfl
      · rw [if_neg h6, if_neg (by dsimp only; omega)]
        rfl

/-- A tick is one second of the calendar, as long as the year fits into an `int`. -/
theorem rtc_tick_spec {intclk : Tm} (h : (moment intclk).Valid) (hy : intclk.tm_year ≤ INT_MAX) :
    rtc_tick intclk =
      if (next (moment intclk)).year ≤ INT_MAX then
        some (clockAt (next (moment intclk)) intclk.tm_wday)
      else none := by
  obtain ⟨hhour, hmin, hsec⟩ := And.intro h.hour (And.intro h.minute h.second)
  dsimp only [moment] at hhour hmin hsec
  have isec : inc intclk.tm_sec = some (intclk.tm_sec + 1) := if_pos (by unfold INT_MAX; omega)
  have imin : inc intclk.tm_min = some (intclk.tm_min + 1) := if_pos (by unfold INT_MAX; omega)
  have ihour : inc intclk.tm_hour = some (intclk.tm_hour + 1) := if_pos (by unfold INT_MAX; omega)
  by_cases h1 : intclk.tm_sec < 59
  · have hs : ¬intclk.tm_sec + 1 = 60 := by omega
    simp [rtc_tick, next, moment, clockAt, isec, hs, h1, hy]
  · have hs : intclk.tm_sec + 1 = 60 := by omega
    by_cases h2 : intclk.tm_min < 59
    · have hm : ¬intclk.tm_min + 1 = 60 := by omega
      simp [rtc_tick, next, moment, clockAt, isec, imin, hs, hm, h1, h2, hy]
    · have hm : intclk.tm_min + 1 = 60 := by omega
      by_cases h3 : intclk.tm_hour < 23
      · have hh : ¬intclk.tm_hour + 1 = 24 := by omega
        simp [rtc_tick, next, moment, clockAt, isec, imin, ihour, hs, hm, hh, h1, h2, h3, hy]
      · have hnext : next (moment intclk) = nextDay (moment intclk) :=
          (if_neg h1).trans ((if_neg h2).trans (if_neg h3))
        rw [hnext]
        exact rtc_tick_day h (by omega) (by omega) (by omega) hy

/-! ## Many ticks -/

/-- The internal clock after `n` ticks. -/
def ticks : Nat → Tm → Option Tm
  | 0, intclk => some intclk
  | n + 1, intclk => (ticks n intclk).bind rtc_tick

/-- A date and time of the calendar, in a year that an `int` holds. -/
def ValidClock (intclk : Tm) : Prop := (moment intclk).Valid ∧ intclk.tm_year ≤ INT_MAX

theorem tick_next {a b : Tm} (h : ValidClock a) (ht : rtc_tick a = some b) :
    ValidClock b ∧ moment b = next (moment a) := by
  rw [rtc_tick_spec h.1 h.2] at ht
  obtain ⟨hfits, hb⟩ := Option.ite_none_right_eq_some.mp ht
  obtain rfl := Option.some.inj hb
  exact ⟨⟨next_valid h.1, hfits⟩, rfl⟩

/-- As long as the clock runs, it shows the moment `n` seconds later. -/
theorem ticks_spec {n : Nat} {a b : Tm} (h : ValidClock a) (ht : ticks n a = some b) :
    ValidClock b ∧ instant (moment b) = instant (moment a) + n := by
  induction n generalizing b with
  | zero =>
    obtain rfl := Option.some.inj ht
    exact ⟨h, by simp⟩
  | succ n ih =>
    obtain ⟨c, hc, hb⟩ := Option.bind_eq_some_iff.mp ht
    obtain ⟨hvc, hic⟩ := ih hc
    obtain ⟨hvb, hmb⟩ := tick_next hvc hb
    refine ⟨hvb, ?_⟩
    rw [hmb, instant_next hvc.1, hic]
    omega

/-! ## The day of the week -/

def wday (intclk : Tm) : Int := (nvr_time_get intclk).tm_wday

def wdayOf (t : Moment) : Int := (t.day + t.month + t.year % 100 + t.year / 100 % 4 + 6) % 7

/-- What `nvr_time_get` computes: no sum of it leaves its byte. -/
theorem wday_eq {intclk : Tm} (h : ValidClock intclk) : wday intclk = wdayOf (moment intclk) := by
  obtain ⟨⟨hyear, hmon, hmday, -, -, -⟩, -⟩ := h
  dsimp only [moment] at hyear hmon hmday
  have hlen := monthLength_le intclk.tm_year intclk.tm_mon
  have hyr : u16 (intclk.tm_year.tmod 100) = intclk.tm_year % 100 := by
    rw [u16, Int.tmod_eq_emod_of_nonneg (by omega)]
    omega
  have hcent : u16 (((intclk.tm_year - intclk.tm_year % 100).tdiv 100).tmod 4) =
      intclk.tm_year / 100 % 4 := by
    rw [u16, Int.tdiv_eq_ediv_of_nonneg (by omega), Int.tmod_eq_emod_of_nonneg (by omega)]
    omega
  unfold wday nvr_time_get wdayOf moment
  dsimp only
  rw [hyr, hcent]
  unfold u8
  rw [Int.tmod_eq_emod_of_nonneg (by omega)]
  omega

def Midnight (t : Moment) : Prop := t.hour = 0 ∧ t.minute = 0 ∧ t.second = 0

instance (t : Moment) : Decidable (Midnight t) := by
  unfold Midnight
  infer_instance

/-- The day of the week changes at midnight only, and there to the next one. -/
def WdayMovesOn (a b : Tm) : Prop :=
  wday b = if Midnight (moment b) then (wday a + 1) % 7 else wday a

instance (a b : Tm) : Decidable (WdayMovesOn a b) := by
  unfold WdayMovesOn
  infer_instance

def BeginsMonth (t : Moment) : Prop := t.day = 1 ∧ Midnight t

/-- The months whose beginnings the sum of day, month, year and century gets right: 1 March of leap
years, and 1 January of the years that begin a century but none of four. -/
def RightByTheSum (t : Moment) : Prop :=
  (t.month = 3 ∧ IsLeap t.year) ∨ (t.month = 1 ∧ t.year % 100 = 0 ∧ t.year / 100 % 4 ≠ 0)

theorem nextDay_midnight (t : Moment) : Midnight (nextDay t) := by
  unfold nextDay
  split_ifs <;> exact ⟨rfl, rfl, rfl⟩

/-- Only at midnight does the next second have another date. -/
theorem next_same_day {t : Moment} (h : t.Valid) (hn : next t ≠ nextDay t) :
    ¬Midnight (next t) ∧ wdayOf (next t) = wdayOf t := by
  have hh := h.hour
  have hm := h.minute
  have hs := h.second
  unfold next at hn ⊢
  unfold Midnight wdayOf
  by_cases h1 : t.second < 59
  · rw [if_pos h1]
    exact ⟨by dsimp only; omega, rfl⟩
  · rw [if_neg h1] at hn ⊢
    by_cases h2 : t.minute < 59
    · rw [if_pos h2]
      exact ⟨by dsimp only; omega, rfl⟩
    · rw [if_neg h2] at hn ⊢
      by_cases h3 : t.hour < 23
      · rw [if_pos h3]
        exact ⟨by dsimp only; omega, rfl⟩
      · exact absurd (if_neg h3) hn

theorem next_mod_iff (x y : Int) : x % 7 = (y % 7 + 1) % 7 ↔ (x - y) % 7 = 1 := by
  omega

/-- The sum from one day to the next. -/
theorem wdayOf_nextDay {t : Moment} (h : t.Valid) :
    wdayOf (nextDay t) = (wdayOf t + 1) % 7 ↔
    ((nextDay t).day = 1 → RightByTheSum (nextDay t)) := by
  have hm := h.month
  have hd := h.day
  unfold nextDay wdayOf RightByTheSum
  rw [next_mod_iff]
  by_cases h1 : t.day < monthLength t.year t.month
  · rw [if_pos h1]
    dsimp only
    omega
  · have hlast : t.day = monthLength t.year t.month := by omega
    rw [if_neg h1]
    by_cases h2 : t.month < 12
    · -- The sum changes by 2 less the length of the month, which has to be 29.
      have hdiff : 1 + (t.month + 1) + t.year % 100 + t.year / 100 % 4 + 6 -
          (t.day + t.month + t.year % 100 + t.year / 100 % 4 + 6) = 2 - t.day := by omega
      rw [if_pos h2]
      dsimp only
      rw [hdiff, hlast]
      unfold monthLength
      by_cases hl : IsLeap t.year
      · simp only [hl, and_true, if_true, forall_const]
        split_ifs <;> omega
      · simp only [hl, and_false, false_or, if_false, forall_const]
        split_ifs <;> omega
    · have h12 : t.month = 12 := by omega
      have h31 : monthLength t.year 12 = 31 := rfl
      rw [if_neg h2, hlast, h12, h31]
      dsimp only
      simp only [forall_const, show ¬(1 : Int) = 3 by decide, false_and, false_or, true_and]
      have hyear : (t.year + 1) % 100 = t.year % 100 + 1 ∧ (t.year + 1) / 100 = t.year / 100 ∨
          t.year % 100 = 99 ∧ (t.year + 1) % 100 = 0 ∧ (t.year + 1) / 100 = t.year / 100 + 1 := by
        omega
      generalize (t.year + 1) % 100 = y' at hyear ⊢
      generalize (t.year + 1) / 100 = c' at hyear ⊢
      rcases hyear with ⟨hy, hc⟩ | ⟨hy, hy', hc⟩
      · rw [hy, hc]
        omega
      · have hcent : t.year / 100 % 4 < 3 ∧ (t.year / 100 + 1) % 4 = t.year / 100 % 4 + 1 ∨
            t.year / 100 % 4 = 3 ∧ (t.year / 100 + 1) % 4 = 0 := by omega
        rw [hy, hy', hc]
        rcases hcent with ⟨hlt, hq⟩ | ⟨h3, hq⟩
        · rw [hq]
          omega
        · rw [hq, h3]
          omega

theorem wday_moves_on_iff {a b : Tm} (h : ValidClock a) (ht : rtc_tick a = some b) :
    WdayMovesOn a b ↔ (BeginsMonth (moment b) → RightByTheSum (moment b)) := by
  obtain ⟨hvb, hmb⟩ := tick_next h ht
  unfold WdayMovesOn BeginsMonth
  rw [wday_eq h, wday_eq hvb, hmb]
  by_cases hn : next (moment a) = nextDay (moment a)
  · have hmid := nextDay_midnight (moment a)
    rw [hn, if_pos hmid, wdayOf_nextDay h.1]
    exact ⟨fun g hb => g hb.1, fun g hd => g ⟨hd, hmid⟩⟩
  · obtain ⟨hmid, hsame⟩ := next_same_day h.1 hn
    rw [if_neg hmid, hsame]
    exact ⟨fun _ hb => absurd hb.2 hmid, fun _ => rfl⟩

/-! ## The calendar over a run -/

/-- After `n` ticks the clock shows the moment `n` seconds later, and the day of the week has moved
on at each midnight and nowhere else. -/
def RunsCorrectly (intclk : Tm) (n : Nat) : Prop :=
  (∃ b, ticks n intclk = some b ∧ (moment b).Valid ∧
    instant (moment b) = instant (moment intclk) + n) ∧
  ∀ k < n, ∃ a b, ticks k intclk = some a ∧ rtc_tick a = some b ∧ WdayMovesOn a b

/-- Each month that begins in the `n` seconds after the moment is one that the sum gets right. -/
def OnlyRightMonths (t : Moment) (n : Nat) : Prop :=
  ∀ u : Moment, u.Valid → instant t < instant u → instant u ≤ instant t + n → BeginsMonth u →
    RightByTheSum u

/-- The year behind the last one that fits into an `int` does not begin a century. -/
theorem year_fits {a : Tm} (h : ValidClock a)
    (hright : BeginsMonth (next (moment a)) → RightByTheSum (next (moment a))) :
    (next (moment a)).year ≤ INT_MAX := by
  have hy := h.2
  by_cases hn : next (moment a) = nextDay (moment a)
  · have hmid := nextDay_midnight (moment a)
    rw [hn] at hright ⊢
    unfold BeginsMonth RightByTheSum at hright
    have hyear : (nextDay (moment a)).year = a.tm_year ∨
        (nextDay (moment a)).year = a.tm_year + 1 ∧ (nextDay (moment a)).month = 1 ∧
          (nextDay (moment a)).day = 1 := by
      unfold nextDay
      split_ifs
      · exact Or.inl rfl
      · exact Or.inl rfl
      · exact Or.inr ⟨rfl, rfl, rfl⟩
    rcases hyear with hyear | ⟨hyear, hmonth, hday⟩
    · omega
    · have hcentury := hright ⟨hday, hmid⟩
      rw [hmonth, hyear] at hcentury
      unfold INT_MAX at *
      omega
  · unfold next at hn ⊢
    split_ifs at hn ⊢ with h1 h2 h3
    · exact hy
    · exact hy
    · exact hy
    · exact absurd rfl hn

theorem runs_of_right_months {intclk : Tm} (h : ValidClock intclk) {n : Nat}
    (hn : OnlyRightMonths (moment intclk) n) : RunsCorrectly intclk n := by
  induction n with
  | zero => exact ⟨⟨intclk, rfl, h.1, by simp⟩, fun k hk => absurd hk (Nat.not_lt_zero k)⟩
  | succ n ih =>
    have hless : OnlyRightMonths (moment intclk) n :=
      fun u hu h1 h2 => hn u hu h1 (by omega)
    obtain ⟨⟨a, ha, -, -⟩, hbefore⟩ := ih hless
    obtain ⟨hva, hia⟩ := ticks_spec h ha
    have hnext := instant_next hva.1
    have hright := hn (next (moment a)) (next_valid hva.1) (by omega) (by omega)
    have hfits := year_fits hva hright
    have htick : rtc_tick a = some (clockAt (next (moment a)) a.tm_wday) := by
      rw [rtc_tick_spec hva.1 hva.2, if_pos hfits]
    have hvb := tick_next hva htick
    refine ⟨⟨clockAt (next (moment a)) a.tm_wday, ?_, hvb.1.1, ?_⟩, ?_⟩
    · rw [ticks, ha]
      exact htick
    · rw [hvb.2]
      omega
    · intro k hk
      by_cases hlast : k = n
      · subst hlast
        exact ⟨a, _, ha, htick, (wday_moves_on_iff hva htick).mpr hright⟩
      · exact hbefore k (by omega)

theorem right_months_of_runs {intclk : Tm} (h : ValidClock intclk) {n : Nat}
    (hn : RunsCorrectly intclk n) : OnlyRightMonths (moment intclk) n := by
  intro u hu h1 h2 hbegins
  obtain ⟨k, hk⟩ : ∃ k : Nat, instant u = instant (moment intclk) + k + 1 :=
    ⟨(instant u - instant (moment intclk) - 1).toNat, by omega⟩
  obtain ⟨a, b, ha, hb, hmoves⟩ := hn.2 k (by omega)
  obtain ⟨hva, hia⟩ := ticks_spec h ha
  obtain ⟨hvb, hmb⟩ := tick_next hva hb
  have hub : u = moment b := by
    apply instant_inj hu hvb.1
    rw [hmb, instant_next hva.1, hia, hk]
  rw [hub] at hbegins ⊢
  exact (wday_moves_on_iff hva hb).mp hmoves hbegins

/-- The calendar runs correctly for just as long as it begins no month but the ones that the sum
gets right. -/
theorem calendar_runs_correctly_iff (intclk : Tm) (n : Nat) (h : ValidClock intclk) :
    RunsCorrectly intclk n ↔ OnlyRightMonths (moment intclk) n :=
  ⟨right_months_of_runs h, runs_of_right_months h⟩

/-- The last second of 29 February 2024. -/
def leapDay : Tm := ⟨59, 59, 23, 29, 2, 2024, 4⟩

theorem leap_day_valid : ValidClock leapDay :=
  ⟨⟨by decide, by decide, by decide, by decide, by decide, by decide⟩, by decide⟩

theorem leap_day_runs_iff : RunsCorrectly leapDay 1 ↔ OnlyRightMonths (moment leapDay) 1 :=
  calendar_runs_correctly_iff leapDay 1 leap_day_valid

/-- From 31 January 2000 to 1 February the day of the week goes back, from 3 to 2. -/
theorem the_day_goes_back_in_february :
    ¬∀ (intclk : Tm) (n : Nat), ValidClock intclk → RunsCorrectly intclk n := by
  intro hall
  have hvalid : ValidClock ⟨59, 59, 23, 31, 1, 2000, 1⟩ :=
    ⟨⟨by decide, by decide, by decide, by decide, by decide, by decide⟩, by decide⟩
  obtain ⟨a, b, ha, hb, hmoves⟩ := (hall _ 1 hvalid).2 0 (by decide)
  obtain rfl := Option.some.inj ha
  obtain rfl := Option.some.inj hb
  exact absurd hmoves (by decide)

end blumach.nvr
