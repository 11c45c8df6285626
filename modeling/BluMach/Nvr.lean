-- The internal clock of `nvr.c`: its second, and the broken-down time that the devices read from
-- it and write to it. An `int` is an integer, and a step past the largest one is none.
import Mathlib.Data.Int.Notation

namespace blumach.nvr

/-- `struct tm`, but for the fields that no one uses. -/
structure Tm where
  tm_sec : Int
  tm_min : Int
  tm_hour : Int
  tm_mday : Int
  tm_mon : Int
  tm_year : Int
  tm_wday : Int
deriving DecidableEq

def days_in_month : List Int := [31, 28, 31, 30, 31, 30, 31, 31, 30, 31, 30, 31]

def nvr_is_leap (year : Int) : Bool :=
  if year.tmod 400 = 0 then true
  else if year.tmod 100 = 0 then false
  else if year.tmod 4 = 0 then true
  else false

/-- None where the table has no such month. -/
def nvr_get_days (month year : Int) : Option Int :=
  if month = 2 then some (if nvr_is_leap year then 29 else 28)
  else if month - 1 < 0 then none
  else days_in_month[(month - 1).toNat]?

def INT_MAX : Int := 2147483647

/-- `++x`. -/
def inc (x : Int) : Option Int := if x < INT_MAX then some (x + 1) else none

def rtc_tick (intclk : Tm) : Option Tm := do
  let intclk := { intclk with tm_sec := ← inc intclk.tm_sec }
  if intclk.tm_sec = 60 then
    let intclk := { intclk with tm_sec := 0, tm_min := ← inc intclk.tm_min }
    if intclk.tm_min = 60 then
      let intclk := { intclk with tm_min := 0, tm_hour := ← inc intclk.tm_hour }
      if intclk.tm_hour = 24 then
        let intclk := { intclk with tm_hour := 0, tm_mday := ← inc intclk.tm_mday }
        if intclk.tm_mday = (← nvr_get_days intclk.tm_mon intclk.tm_year) + 1 then
          let intclk := { intclk with tm_mday := 1, tm_mon := ← inc intclk.tm_mon }
          if intclk.tm_mon = 13 then
            some { intclk with tm_mon := 1, tm_year := ← inc intclk.tm_year }
          else some intclk
        else some intclk
      else some intclk
    else some intclk
  else some intclk

/-- Assignments to a `uint8_t` and a `uint16_t`. -/
def u8 (x : Int) : Int := x % 256

def u16 (x : Int) : Int := x % 65536

def nvr_time_get (intclk : Tm) : Tm :=
  let dom := u8 intclk.tm_mday
  let mon := u8 intclk.tm_mon
  let yr := u16 (intclk.tm_year.tmod 100)
  let cent := u16 (((intclk.tm_year - yr).tdiv 100).tmod 4)
  let sum := u8 (dom + mon + yr + cent)
  let wd := u8 ((sum + 6).tmod 7)
  { tm_sec := intclk.tm_sec
    tm_min := intclk.tm_min
    tm_hour := intclk.tm_hour
    tm_wday := wd
    tm_mday := intclk.tm_mday
    tm_mon := intclk.tm_mon - 1
    tm_year := intclk.tm_year - 1900 }

/-- The internal clock afterwards. -/
def nvr_time_set (tm : Tm) : Tm :=
  { tm with tm_mon := tm.tm_mon + 1, tm_year := tm.tm_year + 1900 }

end blumach.nvr
