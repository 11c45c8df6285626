-- The real-time clock of an AT, `nvr_at.c`: its registers, the one-second tick, the two timers and
-- what the guest writes. A delay counts microseconds or periods of the 32 KiHz oscillator. The
-- interrupt line exists, and the change of the CPU's speed is left out.
import BluMach.Nvr
import Mathlib.Logic.Function.Basic

namespace blumach.nvr_at

open nvr (Tm rtc_tick nvr_time_get nvr_time_set)

def RTC_SECONDS : Nat := 0
def RTC_MINUTES : Nat := 2
def RTC_HOURS : Nat := 4
def RTC_AMPM : BitVec 8 := 0x80
def RTC_DOW : Nat := 6
def RTC_DOM : Nat := 7
def RTC_MONTH : Nat := 8
def RTC_YEAR : Nat := 9
def RTC_REGA : Nat := 10
def REGA_UIP : BitVec 8 := 0x80
def REGA_RS : BitVec 8 := 0x0f
def RTC_REGB : Nat := 11
def REGB_SET : BitVec 8 := 0x80
def REGB_PIE : BitVec 8 := 0x40
def REGB_AIE : BitVec 8 := 0x20
def REGB_UIE : BitVec 8 := 0x10
def REGB_SQWE : BitVec 8 := 0x08
def REGB_DM : BitVec 8 := 0x04
def REGB_2412 : BitVec 8 := 0x02
def RTC_REGC : Nat := 12
def REGC_IRQF : BitVec 8 := 0x80
def REGC_PF : BitVec 8 := 0x40
def REGC_AF : BitVec 8 := 0x20
def REGC_UF : BitVec 8 := 0x10
def RTC_REGD : Nat := 13
def AL_DONTCARE : BitVec 8 := 0xc0
def RTC_ALDAY : Nat := 0x7d
def RTC_ALMONTH : Nat := 0x7e
def RTC_CENTURY_VIA : Nat := 0x7f

def FLAG_AMI_1992_HACK : BitVec 16 := 0x0080
def FLAG_AMI_1994_HACK : BitVec 16 := 0x0100
def FLAG_AMI_1995_HACK : BitVec 16 := 0x0400
def FLAG_AMI_1999_HACK : BitVec 16 := 0x0800
def FLAG_AMI_1999J_HACK : BitVec 16 := 0x1000

/-- `nvr_t` and `local_t` with the internal clock. A timer that is enabled has a delay: that of
`update_timer` is `ecount`. -/
structure Nvr where
  regs : Nat → BitVec 8
  is_new : Bool
  nvr_dosave : Bool
  intclk : Tm
  stat : BitVec 8
  cent : Nat
  irq_state : Bool
  smi_enable : Bool
  smi_status : Bool
  wp : Bool × Bool
  wp_32 : Bool
  lock : Nat → BitVec 8
  flags : BitVec 16
  /-- `machines[machine].init == machine_at_bx6_init`. -/
  bx6 : Bool
  count : Nat
  state : Nat
  ecount : Nat
  update_timer : Bool
  rtc_timer : Option Nat

def Nvr.set (reg : Nat) (val : BitVec 8) (nvr : Nvr) : Nvr :=
  { nvr with regs := Function.update nvr.regs reg val }

theorem set_self (reg : Nat) (val : BitVec 8) (nvr : Nvr) : (nvr.set reg val).regs reg = val := by
  simp [Nvr.set]

theorem set_of_ne {r reg : Nat} (h : r ≠ reg) (val : BitVec 8) (nvr : Nvr) :
    (nvr.set reg val).regs r = nvr.regs r := by
  simp [Nvr.set, h]

/-! ## The time in the registers -/

def RTC_BCD (x : Int) : BitVec 8 :=
  (BitVec.ofInt 32 (x.tmod 10) ||| BitVec.ofInt 32 (x.tdiv 10) <<< 4).setWidth 8

def RTC_DCB (x : BitVec 8) : Int := ((x &&& 0xf0) >>> 4).toNat * 10 + (x &&& 0x0f).toNat

/-- A register as binary data. -/
def binary (x : BitVec 8) : Int := x.toNat

def time_get (nvr : Nvr) : Tm :=
  let read := if nvr.regs RTC_REGB &&& REGB_DM ≠ 0 then binary else RTC_DCB
  -- `temp` is an `int8_t`, and it is an `int` again in what follows.
  let temp : BitVec 32 := (BitVec.ofInt 8 (read (nvr.regs RTC_HOURS))).signExtend 32
  { tm_sec := read (nvr.regs RTC_SECONDS)
    tm_min := read (nvr.regs RTC_MINUTES)
    tm_wday := read (nvr.regs RTC_DOW) - 1
    tm_mday := read (nvr.regs RTC_DOM)
    tm_mon := read (nvr.regs RTC_MONTH) - 1
    tm_year :=
      read (nvr.regs RTC_YEAR) +
        if nvr.cent ≠ 0xff then read (nvr.regs nvr.cent) * 100 - 1900 else 0
    tm_hour :=
      if nvr.regs RTC_REGB &&& REGB_2412 ≠ 0 then temp.toInt
      else (temp &&& ~~~0x80#32).toInt.tmod 12 + if temp &&& 0x80#32 ≠ 0 then 12 else 0 }

def time_set (tm : Tm) (nvr : Nvr) : Nvr :=
  let year := tm.tm_year + 1900
  let store := if nvr.regs RTC_REGB &&& REGB_DM ≠ 0 then BitVec.ofInt 8 else RTC_BCD
  let nvr := nvr.set RTC_SECONDS (store tm.tm_sec)
  let nvr := nvr.set RTC_MINUTES (store tm.tm_min)
  let nvr := nvr.set RTC_DOW (store (tm.tm_wday + 1))
  let nvr := nvr.set RTC_DOM (store tm.tm_mday)
  let nvr := nvr.set RTC_MONTH (store (tm.tm_mon + 1))
  let nvr := nvr.set RTC_YEAR (store (year.tmod 100))
  let nvr := if nvr.cent ≠ 0xff then nvr.set nvr.cent (store (year.tdiv 100)) else nvr
  if nvr.regs RTC_REGB &&& REGB_2412 ≠ 0 then nvr.set RTC_HOURS (store tm.tm_hour)
  else
    let nvr := nvr.set RTC_HOURS
      (if tm.tm_hour.tmod 12 ≠ 0 then store (tm.tm_hour.tmod 12) else store 12)
    if tm.tm_hour > 11 then nvr.set RTC_HOURS (nvr.regs RTC_HOURS ||| RTC_AMPM) else nvr

/-! ## Interrupts and timers -/

def check_alarm (nvr : Nvr) (addr : Nat) : Bool :=
  nvr.regs (addr + 1) = nvr.regs addr || nvr.regs (addr + 1) &&& AL_DONTCARE = AL_DONTCARE

def check_alarm_via (nvr : Nvr) (addr addr_2 : Nat) : Bool :=
  if nvr.cent = RTC_CENTURY_VIA then
    nvr.regs addr_2 = nvr.regs addr || nvr.regs addr_2 &&& AL_DONTCARE = AL_DONTCARE
  else true

/-- `picintlevel` and `picintclevel` set `irq_state`. -/
def timer_update_irq (nvr : Nvr) : Nvr :=
  let irq := nvr.regs RTC_REGB &&& nvr.regs RTC_REGC &&& (REGB_UIE ||| REGB_AIE ||| REGB_PIE)
  if irq ≠ 0 ∨ nvr.irq_state ≠ decide (irq ≠ 0) then
    if irq ≠ 0 then
      let nvr := nvr.set RTC_REGC (nvr.regs RTC_REGC ||| REGC_IRQF)
      { nvr with irq_state := true, smi_status := nvr.smi_status || nvr.smi_enable }
    else { nvr.set RTC_REGC (nvr.regs RTC_REGC &&& ~~~REGC_IRQF) with irq_state := false }
  else nvr

def raise (flag : BitVec 8) (nvr : Nvr) : Nvr :=
  timer_update_irq (nvr.set RTC_REGC (nvr.regs RTC_REGC ||| flag))

/-- None where `rtc_tick` is undefined. -/
def timer_update (nvr : Nvr) : Option Nvr :=
  if nvr.ecount = 244 then do
    let nvr := { nvr with intclk := ← rtc_tick nvr.intclk }
    let tm := nvr_time_get nvr.intclk
    let old_cent := nvr.regs nvr.cent
    let nvr := time_set tm nvr
    let nvr := if nvr.cent ≠ 0xff then nvr.set nvr.cent old_cent else nvr
    let nvr :=
      if check_alarm nvr RTC_SECONDS && check_alarm nvr RTC_MINUTES && check_alarm nvr RTC_HOURS &&
          check_alarm_via nvr RTC_DOM RTC_ALDAY && check_alarm_via nvr RTC_MONTH RTC_ALMONTH then
        raise REGC_AF nvr
      else nvr
    some { nvr with ecount := 1984, update_timer := true }
  else some { raise REGC_UF nvr with stat := 0x00, ecount := 0 }

def timer_load_count (nvr : Nvr) : Nvr :=
  let c := (nvr.regs RTC_REGA &&& REGA_RS).toNat
  let nvr : Nvr := { nvr with rtc_timer := none }
  if nvr.regs RTC_REGA &&& 0x70 ≠ 0x20 then { nvr with state := 0 }
  else
    let nvr : Nvr := { nvr with state := 1 }
    match c with
    | 0 => { nvr with state := 0 }
    | 1 | 2 => { nvr with count := 1 <<< (c + 6), rtc_timer := some (1 <<< (c + 6)) }
    | _ => { nvr with count := 1 <<< (c - 1), rtc_timer := some (1 <<< (c - 1)) }

def timer_intr (nvr : Nvr) : Nvr :=
  if nvr.state = 1 then raise REGC_PF (timer_load_count nvr) else nvr

def timer_tick (nvr : Nvr) : Nvr :=
  if nvr.regs RTC_REGA &&& 0x70 = 0x20 ∧ nvr.regs RTC_REGB &&& REGB_SET = 0 then
    { nvr with stat := REGA_UIP, ecount := 244, update_timer := true }
  else nvr

/-! ## The guest -/

/-- The writes by which a BIOS is seen to take the NVRAM over. -/
def clearsIsNew (reg : Nat) (flags : BitVec 16) : Bool :=
  (reg = 0x2c && flags &&& FLAG_AMI_1994_HACK ≠ 0) ||
    (reg = 0x2d && flags &&& FLAG_AMI_1992_HACK ≠ 0) ||
    (reg = 0x52 && flags &&& FLAG_AMI_1995_HACK ≠ 0) ||
    (reg = 0x54 && flags &&& FLAG_AMI_1999_HACK ≠ 0) ||
    (reg = 0x55 && flags &&& FLAG_AMI_1999J_HACK ≠ 0)

def nvr_reg_common_write (reg : Nat) (val : BitVec 8) (nvr : Nvr) : Nvr :=
  if nvr.lock reg ≠ 0 then nvr
  else
    let nvr : Nvr := { nvr with is_new := nvr.is_new && !clearsIsNew reg nvr.flags }
    if 0x38 ≤ reg ∧ reg ≤ 0x3f ∧ nvr.wp.1 then nvr
    else if 0xb8 ≤ reg ∧ reg ≤ 0xbf ∧ nvr.wp.2 then nvr
    else if nvr.regs reg ≠ val then
      let nvr := nvr.set reg val
      if 0x0d ≤ reg ∧ (nvr.cent = 0xff ∨ reg ≠ nvr.cent) then { nvr with nvr_dosave := true }
      else nvr
    else nvr

/-- The `switch` of `nvr_reg_write`. -/
def regSwitch (reg : Nat) (val : BitVec 8) (nvr : Nvr) : Nvr :=
  if reg = RTC_SECONDS then nvr_reg_common_write reg (val &&& 0x7f) nvr
  else if reg = RTC_REGA then
    if val &&& nvr.regs RTC_REGA &&& ~~~REGA_UIP ≠ 0 then
      timer_load_count
        (nvr.set RTC_REGA ((nvr.regs RTC_REGA &&& REGA_UIP) ||| (val &&& ~~~REGA_UIP)))
    else nvr
  else if reg = RTC_REGB then
    let set := (nvr.regs reg ^^^ val) &&& REGB_SET ≠ 0 ∧ val &&& REGB_SET ≠ 0
    let val := if set then val &&& ~~~REGB_UIE else val
    let nvr := if set then { nvr with stat := nvr.stat &&& ~~~REGA_UIP } else nvr
    timer_update_irq (nvr.set RTC_REGB val)
  else if reg = RTC_REGC then nvr
  else if reg = RTC_REGD then nvr.set RTC_REGD (val &&& 0x80)
  else if reg = 0x32 then
    if nvr.cent = RTC_CENTURY_VIA ∧ nvr.wp_32 then nvr else nvr_reg_common_write reg val nvr
  else if reg = 0x39 then nvr_reg_common_write reg (if nvr.bx6 then val ||| 0x08 else val) nvr
  else nvr_reg_common_write reg val nvr

def nvr_reg_write (reg : Nat) (val : BitVec 8) (nvr : Nvr) : Nvr :=
  let old := nvr.regs reg
  let nvr := regSwitch reg val nvr
  if (reg < RTC_REGA ∨ nvr.cent ≠ 0xff ∧ reg = nvr.cent) ∧ (reg ≠ 1 ∧ reg ≠ 3 ∧ reg ≠ 5) ∧
      old ≠ val then
    { nvr with intclk := nvr_time_set (time_get nvr) }
  else nvr

/-- `nvr_read` of register C. -/
def read_regc (nvr : Nvr) : BitVec 8 × Nvr :=
  let flags := REGC_IRQF ||| REGC_PF ||| REGC_AF ||| REGC_UF
  (nvr.regs RTC_REGC &&& flags,
    timer_update_irq (nvr.set RTC_REGC (nvr.regs RTC_REGC &&& ~~~flags)))

/-! ## Power on and runs -/

/-- `nvr_start`: `sync` is the time synchronization, `blank` that the registers are all at their
default. -/
def nvr_start (sync blank : Bool) (nvr : Nvr) : Nvr :=
  let nvr := if blank then nvr.set 0x0e 0xff else nvr
  let nvr :=
    if sync then time_set (nvr_time_get nvr.intclk) nvr
    else { nvr with intclk := nvr_time_set (time_get nvr) }
  (nvr.set RTC_REGA 0x06).set RTC_REGB REGB_2412

def nvr_at_reset (nvr : Nvr) : Nvr :=
  let nvr := nvr.set RTC_REGB
    (nvr.regs RTC_REGB &&& ~~~(REGB_PIE ||| REGB_AIE ||| REGB_UIE ||| REGB_SQWE))
  nvr.set RTC_REGC (nvr.regs RTC_REGC &&& ~~~(REGC_PF ||| REGC_AF ||| REGC_UF ||| REGC_IRQF))

/-- `nvr_at_init` from `nvr_start` on, for what `nvr_load` has left in the registers. -/
def power_on (sync blank : Bool) (nvr : Nvr) : Nvr :=
  let nvr := { nvr with
    stat := 0, irq_state := false, smi_status := false, count := 0, state := 0, ecount := 0
    update_timer := false, rtc_timer := none }
  let nvr := nvr_start sync blank nvr
  let nvr :=
    if nvr.regs RTC_REGA &&& 0x70 = 0x00 then
      nvr.set RTC_REGA ((nvr.regs RTC_REGA &&& 0x8f) ||| 0x20)
    else nvr
  timer_load_count (nvr_at_reset nvr)

inductive Event where
  | write (reg : Nat) (val : BitVec 8)
  | readC
  | tick
  | update
  | periodic
deriving DecidableEq

/-- None where the timer is not enabled. One that expires is disabled before its callback. -/
def step : Event → Nvr → Option Nvr
  | .write reg val, nvr => some (nvr_reg_write reg val nvr)
  | .readC, nvr => some (read_regc nvr).2
  | .tick, nvr => some (timer_tick nvr)
  | .update, nvr =>
    if nvr.update_timer then timer_update { nvr with update_timer := false } else none
  | .periodic, nvr =>
    if nvr.rtc_timer.isSome then some (timer_intr { nvr with rtc_timer := none }) else none

def run : List Event → Nvr → Option Nvr
  | [], nvr => some nvr
  | e :: es, nvr => (step e nvr).bind (run es)

end blumach.nvr_at
