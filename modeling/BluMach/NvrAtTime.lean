-- The time in the registers of the AT clock, and what a guest's write to one of them does to the
-- internal clock. Every register has a code of its own, so one write changes one part, but the PM
-- flag is not decoded, and without a century register the century is lost.
import BluMach.NvrAtIrq

namespace blumach.nvr_at

open nvr (Tm nvr_time_get nvr_time_set)

/-! ## One register -/

/-- Binary data mode. -/
def dm (nvr : Nvr) : Bool := nvr.regs RTC_REGB &&& REGB_DM ≠ 0

/-- 24-hour mode. -/
def full (nvr : Nvr) : Bool := nvr.regs RTC_REGB &&& REGB_2412 ≠ 0

/-- The code of a number in a register. -/
def code (dm : Bool) : Int → BitVec 8 := if dm then BitVec.ofInt 8 else RTC_BCD

def decode (dm : Bool) : BitVec 8 → Int := if dm then binary else RTC_DCB

def codeHour (dm full : Bool) (hour : Int) : BitVec 8 :=
  if full then code dm hour
  else
    let twelve := if hour.tmod 12 ≠ 0 then code dm (hour.tmod 12) else code dm 12
    if hour > 11 then twelve ||| RTC_AMPM else twelve

def decodeHour (dm full : Bool) (val : BitVec 8) : Int :=
  let temp : BitVec 32 := (BitVec.ofInt 8 (decode dm val)).signExtend 32
  if full then temp.toInt
  else (temp &&& ~~~0x80#32).toInt.tmod 12 + if temp &&& 0x80#32 ≠ 0 then 12 else 0

theorem decode_code (dm : Bool) {x : Int} (h : 0 ≤ x) (h' : x < 100) :
    decode dm (code dm x) = x := by
  have hall : ∀ n : Fin 100, ∀ dm : Bool, decode dm (code dm (n : Nat)) = (n : Nat) := by decide
  have hn := hall ⟨x.toNat, by omega⟩ dm
  rw [Int.toNat_of_nonneg h] at hn
  exact hn

/-- With the PM flag a code never gives its hour back. -/
theorem decode_code_hour_iff (dm full : Bool) {hour : Int} (h : 0 ≤ hour) (h' : hour < 24) :
    decodeHour dm full (codeHour dm full hour) = hour ↔ full = true ∨ hour < 12 := by
  have hall : ∀ n : Fin 24, ∀ dm full : Bool,
      decodeHour dm full (codeHour dm full (n : Nat)) = (n : Nat) ↔
        full = true ∨ ((n : Nat) : Int) < 12 := by decide
  have hn := hall ⟨hour.toNat, by omega⟩ dm full
  rw [Int.toNat_of_nonneg h] at hn
  exact hn

/-! ## All registers -/

/-- The registers are the codes of a time. -/
structure Shows (tm : Tm) (nvr : Nvr) : Prop where
  sec : nvr.regs RTC_SECONDS = code (dm nvr) tm.tm_sec
  min : nvr.regs RTC_MINUTES = code (dm nvr) tm.tm_min
  hour : nvr.regs RTC_HOURS = codeHour (dm nvr) (full nvr) tm.tm_hour
  wday : nvr.regs RTC_DOW = code (dm nvr) (tm.tm_wday + 1)
  mday : nvr.regs RTC_DOM = code (dm nvr) tm.tm_mday
  mon : nvr.regs RTC_MONTH = code (dm nvr) (tm.tm_mon + 1)
  year : nvr.regs RTC_YEAR = code (dm nvr) ((tm.tm_year + 1900).tmod 100)
  century : nvr.cent ≠ 0xff → nvr.regs nvr.cent = code (dm nvr) ((tm.tm_year + 1900).tdiv 100)

theorem set_set (reg : Nat) (val val' : BitVec 8) (nvr : Nvr) :
    (nvr.set reg val).set reg val' = nvr.set reg val' := by
  simp only [Nvr.set, Function.update_idem]

/-- The registers of the date, as they are set before the century. -/
def setDate (tm : Tm) (nvr : Nvr) : Nvr :=
  ((((((nvr.set RTC_SECONDS (code (dm nvr) tm.tm_sec)).set RTC_MINUTES
    (code (dm nvr) tm.tm_min)).set RTC_DOW (code (dm nvr) (tm.tm_wday + 1))).set RTC_DOM
    (code (dm nvr) tm.tm_mday)).set RTC_MONTH (code (dm nvr) (tm.tm_mon + 1))).set RTC_YEAR
    (code (dm nvr) ((tm.tm_year + 1900).tmod 100)))

def setCentury (tm : Tm) (nvr : Nvr) : Nvr :=
  if nvr.cent ≠ 0xff then
    (setDate tm nvr).set nvr.cent (code (dm nvr) ((tm.tm_year + 1900).tdiv 100))
  else setDate tm nvr

theorem set_date_of_le {r : Nat} (h : RTC_YEAR < r) (tm : Tm) (nvr : Nvr) :
    (setDate tm nvr).regs r = nvr.regs r := by
  unfold RTC_YEAR at h
  have hne : ∀ reg, reg ≤ 9 → r ≠ reg := fun reg hreg => by omega
  unfold setDate
  rw [set_of_ne (hne _ (by decide)), set_of_ne (hne _ (by decide)), set_of_ne (hne _ (by decide)),
    set_of_ne (hne _ (by decide)), set_of_ne (hne _ (by decide)), set_of_ne (hne _ (by decide))]

theorem set_century_of_ne {r : Nat} {nvr : Nvr} (h : r ≠ nvr.cent) (tm : Tm) :
    (setCentury tm nvr).regs r = (setDate tm nvr).regs r := by
  unfold setCentury
  split
  · exact set_of_ne h _ _
  · rfl

theorem time_set_eq (tm : Tm) {nvr : Nvr} (h : RTC_REGD < nvr.cent) :
    time_set tm nvr =
      (setCentury tm nvr).set RTC_HOURS (codeHour (dm nvr) (full nvr) tm.tm_hour) := by
  have hcode : (if nvr.regs RTC_REGB &&& REGB_DM ≠ 0 then BitVec.ofInt 8 else RTC_BCD) =
      code (dm nvr) := by
    unfold code dm
    simp only [decide_eq_true_eq]
  have hne : RTC_REGB ≠ nvr.cent := by
    unfold RTC_REGD at h
    unfold RTC_REGB
    omega
  have hregb : (setCentury tm nvr).regs RTC_REGB = nvr.regs RTC_REGB := by
    rw [set_century_of_ne hne, set_date_of_le (by decide)]
  have hcentury : time_set tm nvr =
      if (setCentury tm nvr).regs RTC_REGB &&& REGB_2412 ≠ 0 then
        (setCentury tm nvr).set RTC_HOURS (code (dm nvr) tm.tm_hour)
      else
        let twelve := (setCentury tm nvr).set RTC_HOURS
          (if tm.tm_hour.tmod 12 ≠ 0 then code (dm nvr) (tm.tm_hour.tmod 12) else code (dm nvr) 12)
        if tm.tm_hour > 11 then twelve.set RTC_HOURS (twelve.regs RTC_HOURS ||| RTC_AMPM)
        else twelve := by
    unfold time_set
    rw [hcode]
    rfl
  rw [hcentury, hregb, codeHour]
  unfold full
  by_cases hfull : nvr.regs RTC_REGB &&& REGB_2412 ≠ 0
  · rw [if_pos hfull, if_pos (decide_eq_true hfull)]
  · have hoff : ¬decide (nvr.regs RTC_REGB &&& REGB_2412 ≠ 0) = true := by
      rw [decide_eq_true_eq]
      exact hfull
    rw [if_neg hfull, if_neg hoff]
    dsimp only
    by_cases hpm : tm.tm_hour > 11
    · rw [if_pos hpm, if_pos hpm, set_set, set_self]
    · rw [if_neg hpm, if_neg hpm]

theorem time_set_shows (tm : Tm) {nvr : Nvr} (h : RTC_REGD < nvr.cent) :
    Shows tm (time_set tm nvr) := by
  have hquiet := quiet_of_time_set tm nvr h
  have hdm : dm (time_set tm nvr) = dm nvr := by unfold dm; rw [hquiet.regb]
  have hfull : full (time_set tm nvr) = full nvr := by unfold full; rw [hquiet.regb]
  have hcent : ∀ reg, reg ≤ 9 → reg ≠ nvr.cent := by
    intro reg hreg
    unfold RTC_REGD at h
    omega
  have hdate : ∀ reg, reg ≤ 9 → reg ≠ RTC_HOURS →
      (time_set tm nvr).regs reg = (setDate tm nvr).regs reg := by
    intro reg hreg hne
    rw [time_set_eq tm h, set_of_ne hne, set_century_of_ne (hcent reg hreg)]
  refine ⟨?_, ?_, ?_, ?_, ?_, ?_, ?_, ?_⟩
  · rw [hdm, hdate _ (by decide) (by decide), setDate, set_of_ne (by decide), set_of_ne (by decide),
      set_of_ne (by decide), set_of_ne (by decide), set_of_ne (by decide), set_self]
  · rw [hdm, hdate _ (by decide) (by decide), setDate, set_of_ne (by decide), set_of_ne (by decide),
      set_of_ne (by decide), set_of_ne (by decide), set_self]
  · rw [hdm, hfull, time_set_eq tm h, set_self]
  · rw [hdm, hdate _ (by decide) (by decide), setDate, set_of_ne (by decide), set_of_ne (by decide),
      set_of_ne (by decide), set_self]
  · rw [hdm, hdate _ (by decide) (by decide), setDate, set_of_ne (by decide), set_of_ne (by decide),
      set_self]
  · rw [hdm, hdate _ (by decide) (by decide), setDate, set_of_ne (by decide), set_self]
  · rw [hdm, hdate _ (by decide) (by decide), setDate, set_self]
  · intro hcentury
    rw [hquiet.cent] at hcentury ⊢
    rw [hdm, time_set_eq tm h, set_of_ne (Ne.symm (hcent RTC_HOURS (by decide))), setCentury,
      if_pos hcentury, set_self]

theorem time_get_eq (nvr : Nvr) : time_get nvr =
    { tm_sec := decode (dm nvr) (nvr.regs RTC_SECONDS)
      tm_min := decode (dm nvr) (nvr.regs RTC_MINUTES)
      tm_wday := decode (dm nvr) (nvr.regs RTC_DOW) - 1
      tm_mday := decode (dm nvr) (nvr.regs RTC_DOM)
      tm_mon := decode (dm nvr) (nvr.regs RTC_MONTH) - 1
      tm_year := decode (dm nvr) (nvr.regs RTC_YEAR) +
        if nvr.cent ≠ 0xff then decode (dm nvr) (nvr.regs nvr.cent) * 100 - 1900 else 0
      tm_hour := decodeHour (dm nvr) (full nvr) (nvr.regs RTC_HOURS) } := by
  unfold time_get decodeHour decode dm full
  simp only [decide_eq_true_eq]

/-! ## The parts of a time -/

inductive Part where
  | sec
  | min
  | hour
  | wday
  | mday
  | mon
  | year
deriving DecidableEq

def part (tm : Tm) : Part → Int
  | .sec => tm.tm_sec
  | .min => tm.tm_min
  | .hour => tm.tm_hour
  | .wday => tm.tm_wday
  | .mday => tm.tm_mday
  | .mon => tm.tm_mon
  | .year => tm.tm_year

theorem tm_ext {tm tm' : Tm} (h : ∀ p, part tm p = part tm' p) : tm = tm' := by
  obtain ⟨sec, min, hour, mday, mon, year, wday⟩ := tm
  rw [Tm.mk.injEq]
  exact ⟨h .sec, h .min, h .hour, h .mday, h .mon, h .year, h .wday⟩

/-- The part that a register encodes. -/
def partOf (cent reg : Nat) : Option Part :=
  if reg = RTC_SECONDS then some .sec
  else if reg = RTC_MINUTES then some .min
  else if reg = RTC_HOURS then some .hour
  else if reg = RTC_DOW then some .wday
  else if reg = RTC_DOM then some .mday
  else if reg = RTC_MONTH then some .mon
  else if reg = RTC_YEAR then some .year
  else if cent ≠ 0xff ∧ reg = cent then some .year
  else none

/-- The least and the greatest number that a register but that of the hours can hold. -/
def fieldRange (reg : Nat) : Int × Int :=
  if reg = RTC_SECONDS ∨ reg = RTC_MINUTES then (0, 59)
  else if reg = RTC_DOW then (1, 7)
  else if reg = RTC_DOM then (1, 31)
  else if reg = RTC_MONTH then (1, 12)
  else (0, 99)

/-- A value that a register can hold in the mode of register B. -/
def ValidCode (nvr : Nvr) (reg : Nat) (val : BitVec 8) : Prop :=
  if reg = RTC_HOURS then
    ∃ hour, 0 ≤ hour ∧ hour < 24 ∧ val = codeHour (dm nvr) (full nvr) hour
  else ∃ x, (fieldRange reg).1 ≤ x ∧ x ≤ (fieldRange reg).2 ∧ val = code (dm nvr) x

/-- The time read from the registers is that of the internal clock, and a write to one register
leaves the other parts of the internal clock alone. -/
structure OnlyItsPart (nvr : Nvr) : Prop where
  undone : time_get nvr = nvr_time_get nvr.intclk
  others : ∀ reg val p, partOf nvr.cent reg = some p → ValidCode nvr reg val →
    ∀ q, q ≠ p → part (nvr_reg_write reg val nvr).intclk q = part nvr.intclk q

/-- A time of the internal clock from 1980 to 2099. -/
structure ValidClock (intclk : Tm) : Prop where
  sec : 0 ≤ intclk.tm_sec ∧ intclk.tm_sec < 60
  min : 0 ≤ intclk.tm_min ∧ intclk.tm_min < 60
  hour : 0 ≤ intclk.tm_hour ∧ intclk.tm_hour < 24
  mday : 1 ≤ intclk.tm_mday ∧ intclk.tm_mday ≤ 31
  mon : 1 ≤ intclk.tm_mon ∧ intclk.tm_mon ≤ 12
  year : 1980 ≤ intclk.tm_year ∧ intclk.tm_year ≤ 2099

/-! ## The registers as the clock has set them -/

/-- The registers just updated from the internal clock. -/
def shown (nvr : Nvr) : Nvr := time_set (nvr_time_get nvr.intclk) nvr

theorem shown_intclk {nvr : Nvr} (h : RTC_REGD < nvr.cent) : (shown nvr).intclk = nvr.intclk := by
  rw [shown, time_set_eq _ h, setCentury]
  split
  · rfl
  · rfl

theorem shown_modes {nvr : Nvr} (h : RTC_REGD < nvr.cent) :
    dm (shown nvr) = dm nvr ∧ full (shown nvr) = full nvr ∧ (shown nvr).cent = nvr.cent := by
  have hquiet := quiet_of_time_set (nvr_time_get nvr.intclk) nvr h
  unfold shown dm full
  rw [hquiet.regb]
  exact ⟨rfl, rfl, hquiet.cent⟩

theorem wday_bounds (intclk : Tm) :
    0 ≤ (nvr_time_get intclk).tm_wday ∧ (nvr_time_get intclk).tm_wday ≤ 6 := by
  unfold nvr_time_get nvr.u8 nvr.u16
  dsimp only
  generalize hsum : (intclk.tm_mday % 256 + intclk.tm_mon % 256 + _ + _) % 256 = sum
  have hsum : 0 ≤ sum := by omega
  rw [Int.tmod_eq_emod_of_nonneg (by omega)]
  omega

theorem shown_code {nvr : Nvr} (hcent : RTC_REGD < nvr.cent) :
    Shows (nvr_time_get nvr.intclk) (shown nvr) :=
  time_set_shows (nvr_time_get nvr.intclk) hcent

/-- Every part but the hour and the year is read back. -/
theorem shown_parts {nvr : Nvr} (hv : ValidClock nvr.intclk) (hcent : RTC_REGD < nvr.cent)
    {p : Part} (hhour : p ≠ .hour) (hyear : p ≠ .year) :
    part (time_get (shown nvr)) p = part (nvr_time_get nvr.intclk) p := by
  have hshows := shown_code hcent
  have hwday := wday_bounds nvr.intclk
  obtain ⟨hsec, hmin, -, hmday, hmon, -⟩ := hv
  rw [time_get_eq]
  cases p with
  | sec =>
    dsimp only [part]
    rw [hshows.sec]
    exact decode_code _ hsec.1 (by show nvr.intclk.tm_sec < 100; omega)
  | min =>
    dsimp only [part]
    rw [hshows.min]
    exact decode_code _ hmin.1 (by show nvr.intclk.tm_min < 100; omega)
  | hour => exact absurd rfl hhour
  | wday =>
    dsimp only [part]
    rw [hshows.wday, decode_code _ (by omega) (by omega)]
    omega
  | mday =>
    dsimp only [part]
    rw [hshows.mday]
    have hm : (nvr_time_get nvr.intclk).tm_mday = nvr.intclk.tm_mday := rfl
    exact decode_code _ (by omega) (by omega)
  | mon =>
    dsimp only [part]
    have hm : (nvr_time_get nvr.intclk).tm_mon = nvr.intclk.tm_mon - 1 := rfl
    rw [hshows.mon, decode_code _ (by omega) (by omega)]
    omega
  | year => exact absurd rfl hyear

theorem shown_hour_iff {nvr : Nvr} (hv : ValidClock nvr.intclk) (hcent : RTC_REGD < nvr.cent) :
    (time_get (shown nvr)).tm_hour = nvr.intclk.tm_hour ↔
      full nvr = true ∨ nvr.intclk.tm_hour < 12 := by
  have hread : (time_get (shown nvr)).tm_hour =
      decodeHour (dm nvr) (full nvr) (codeHour (dm nvr) (full nvr) nvr.intclk.tm_hour) := by
    obtain ⟨hdm, hfull, -⟩ := shown_modes hcent
    rw [time_get_eq]
    dsimp only
    rw [(shown_code hcent).hour, hdm, hfull]
    rfl
  rw [hread]
  exact decode_code_hour_iff _ _ hv.hour.1 hv.hour.2

/-- Without a century register the year is one of the twentieth century. -/
theorem shown_year_iff {nvr : Nvr} (hv : ValidClock nvr.intclk) (hcent : RTC_REGD < nvr.cent) :
    (time_get (shown nvr)).tm_year = (nvr_time_get nvr.intclk).tm_year ↔
      nvr.cent ≠ 0xff ∨ nvr.intclk.tm_year < 2000 := by
  obtain ⟨hfirst, hlast⟩ := hv.year
  obtain ⟨hdm, -, hc⟩ := shown_modes hcent
  have hshows := shown_code hcent
  have hyear : (nvr_time_get nvr.intclk).tm_year = nvr.intclk.tm_year - 1900 := rfl
  have hset : (nvr_time_get nvr.intclk).tm_year + 1900 = nvr.intclk.tm_year := by omega
  have hmod : nvr.intclk.tm_year.tmod 100 = nvr.intclk.tm_year % 100 :=
    Int.tmod_eq_emod_of_nonneg (by omega)
  have hdiv : nvr.intclk.tm_year.tdiv 100 = nvr.intclk.tm_year / 100 :=
    Int.tdiv_eq_ediv_of_nonneg (by omega)
  rw [time_get_eq]
  dsimp only
  rw [hshows.year, hset, hmod, decode_code _ (by omega) (by omega)]
  by_cases hnone : nvr.cent ≠ 0xff
  · have hcentury := hshows.century (by rw [hc]; exact hnone)
    rw [if_pos (by rw [hc]; exact hnone), hcentury, hset, hdiv,
      decode_code _ (by omega) (by omega)]
    exact iff_of_true (by omega) (Or.inl hnone)
  · rw [if_neg (by rw [hc]; exact hnone), or_iff_right hnone]
    omega

theorem shown_undone_iff {nvr : Nvr} (hv : ValidClock nvr.intclk) (hcent : RTC_REGD < nvr.cent) :
    time_get (shown nvr) = nvr_time_get (shown nvr).intclk ↔
      (full nvr = true ∨ nvr.intclk.tm_hour < 12) ∧
        (nvr.cent ≠ 0xff ∨ nvr.intclk.tm_year < 2000) := by
  rw [shown_intclk hcent, ← shown_hour_iff hv hcent, ← shown_year_iff hv hcent]
  constructor
  · intro h
    rw [h]
    exact ⟨rfl, rfl⟩
  · rintro ⟨hhour, hyear⟩
    apply tm_ext
    intro p
    by_cases hp : p = .hour
    · rw [hp]
      exact hhour
    · by_cases hy : p = .year
      · rw [hy]
        exact hyear
      · exact shown_parts hv hcent hp hy

/-! ## A write -/

theorem switch_intclk (reg : Nat) (val : BitVec 8) (nvr : Nvr) :
    (regSwitch reg val nvr).intclk = nvr.intclk := by
  have hcommon : ∀ val, (nvr_reg_common_write reg val nvr).intclk = nvr.intclk := by
    intro val
    obtain ⟨v, n, d, h⟩ := common_write_eq reg val nvr
    rw [h]
  unfold regSwitch
  split
  · exact hcommon _
  · split
    · split
      · generalize hset : Nvr.set _ _ nvr = written
        obtain ⟨n, b, t, h⟩ := timer_load_count_eq written
        rw [h, ← hset]
        rfl
      · rfl
    · split
      · dsimp only
        generalize hset : Nvr.set RTC_REGB _ _ = written
        obtain ⟨c, i, s, h⟩ := timer_update_irq_eq written
        rw [h, ← hset]
        dsimp only [Nvr.set]
        split
        · rfl
        · rfl
      · split
        · rfl
        · split
          · rfl
          · split
            · split
              · rfl
              · exact hcommon _
            · split
              · exact hcommon _
              · exact hcommon _

theorem time_get_congr {nvr nvr' : Nvr} (hregs : nvr'.regs = nvr.regs) (hc : nvr'.cent = nvr.cent) :
    time_get nvr' = time_get nvr := by
  rw [time_get_eq, time_get_eq]
  unfold dm full
  rw [hregs, hc]

theorem part_of_some {cent reg : Nat} {p : Part} (h : partOf cent reg = some p) :
    IsClock reg ∨ cent ≠ 0xff ∧ reg = cent := by
  by_contra hnot
  obtain ⟨hclock, hcent⟩ := not_or.mp hnot
  unfold IsClock at hclock
  simp only [not_or] at hclock
  obtain ⟨hsec, hmin, hhour, hwday, hmday, hmon, hyear⟩ := hclock
  rw [partOf, if_neg hsec, if_neg hmin, if_neg hhour, if_neg hwday, if_neg hmday, if_neg hmon,
    if_neg hyear, if_neg hcent] at h
  cases h

theorem part_of_range {cent reg : Nat} {p : Part} (hcent : RTC_REGD < cent)
    (h : partOf cent reg = some p) :
    (reg < RTC_REGA ∨ cent ≠ 0xff ∧ reg = cent) ∧ (reg ≠ 1 ∧ reg ≠ 3 ∧ reg ≠ 5) ∧
      reg ≠ RTC_REGA ∧ reg ≠ RTC_REGB := by
  have hsome := part_of_some h
  unfold IsClock RTC_SECONDS RTC_MINUTES RTC_HOURS RTC_DOW RTC_DOM RTC_MONTH RTC_YEAR at hsome
  unfold RTC_REGD at hcent
  unfold RTC_REGA RTC_REGB
  omega

theorem write_intclk {reg : Nat} (val : BitVec 8) {nvr : Nvr} {p : Part}
    (hcent : RTC_REGD < nvr.cent) (hp : partOf nvr.cent reg = some p) :
    (nvr_reg_write reg val nvr).intclk =
      if nvr.regs reg ≠ val then nvr_time_set (time_get (nvr_reg_write reg val nvr))
      else nvr.intclk := by
  obtain ⟨hrange, hodd, ha, hb⟩ := part_of_range hcent hp
  have hc : (regSwitch reg val nvr).cent = nvr.cent := (quiet_of_switch val nvr ha hb).cent
  have hsame : time_get (nvr_reg_write reg val nvr) = time_get (regSwitch reg val nvr) :=
    time_get_congr (write_regs reg val nvr) (quiet_of_write reg val nvr).cent
  rw [hsame]
  unfold nvr_reg_write
  dsimp only
  rw [hc]
  by_cases hne : nvr.regs reg ≠ val
  · rw [if_pos ⟨hrange, hodd, hne⟩, if_pos hne]
  · rw [if_neg (fun h => hne h.2.2), if_neg hne]
    exact switch_intclk reg val nvr

/-- A part is decoded from its own registers. -/
theorem get_part_congr {nvr nvr' : Nvr} {reg : Nat} {p q : Part} (hcent : RTC_REGD < nvr.cent)
    (hp : partOf nvr.cent reg = some p) (hq : q ≠ p) (hc : nvr'.cent = nvr.cent)
    (hb : nvr'.regs RTC_REGB = nvr.regs RTC_REGB)
    (hr : ∀ r, r ≠ reg → r ≠ RTC_REGC → nvr'.regs r = nvr.regs r) :
    part (time_get nvr') q = part (time_get nvr) q := by
  have hown : ∀ r, partOf nvr.cent r = some q → nvr'.regs r = nvr.regs r := by
    intro r hrq
    apply hr
    · rintro rfl
      exact hq (Option.some.inj (hrq.symm.trans hp))
    · rintro rfl
      have hrange := (part_of_range hcent hrq).1
      unfold RTC_REGC RTC_REGA at hrange
      unfold RTC_REGD at hcent
      omega
  have hcentury : nvr.cent ≠ 0xff → partOf nvr.cent nvr.cent = some .year := by
    intro hne
    have hreg : ∀ r, r ≤ 9 → nvr.cent ≠ r := by
      intro r hr
      unfold RTC_REGD at hcent
      omega
    rw [partOf, if_neg (hreg _ (by decide)), if_neg (hreg _ (by decide)),
      if_neg (hreg _ (by decide)), if_neg (hreg _ (by decide)), if_neg (hreg _ (by decide)),
      if_neg (hreg _ (by decide)), if_neg (hreg _ (by decide)), if_pos ⟨hne, rfl⟩]
  have hdm : dm nvr' = dm nvr := by unfold dm; rw [hb]
  have hfull : full nvr' = full nvr := by unfold full; rw [hb]
  rw [time_get_eq, time_get_eq, hdm, hfull, hc]
  cases q with
  | sec =>
    dsimp only [part]
    rw [hown RTC_SECONDS rfl]
  | min =>
    dsimp only [part]
    rw [hown RTC_MINUTES rfl]
  | hour =>
    dsimp only [part]
    rw [hown RTC_HOURS rfl]
  | wday =>
    dsimp only [part]
    rw [hown RTC_DOW rfl]
  | mday =>
    dsimp only [part]
    rw [hown RTC_DOM rfl]
  | mon =>
    dsimp only [part]
    rw [hown RTC_MONTH rfl]
  | year =>
    dsimp only [part]
    rw [hown RTC_YEAR rfl]
    by_cases hnone : nvr.cent ≠ 0xff
    · rw [if_pos hnone, if_pos hnone, hown nvr.cent (hcentury hnone)]
    · rw [if_neg hnone, if_neg hnone]

/-- A write leaves the parts of the other registers as they are read. -/
theorem write_get {reg : Nat} (val : BitVec 8) {nvr : Nvr} {p q : Part}
    (hcent : RTC_REGD < nvr.cent) (hp : partOf nvr.cent reg = some p) (hq : q ≠ p) :
    part (time_get (nvr_reg_write reg val nvr)) q = part (time_get nvr) q := by
  obtain ⟨-, -, ha, hb⟩ := part_of_range hcent hp
  have hquiet := (quiet_of_switch val nvr ha hb).trans (quiet_of_write reg val nvr)
  exact get_part_congr hcent hp hq hquiet.cent hquiet.regb (write_keeps reg val nvr).regs

theorem set_of_get (intclk : Tm) (q : Part) (hq : q ≠ .wday) :
    part (nvr_time_set (nvr_time_get intclk)) q = part intclk q := by
  cases q with
  | mon => exact Int.sub_add_cancel _ _
  | year => exact Int.sub_add_cancel _ _
  | wday => exact absurd rfl hq
  | sec => rfl
  | min => rfl
  | hour => rfl
  | mday => rfl

theorem part_set_congr {tm tm' : Tm} {q : Part} (h : part tm q = part tm' q) :
    part (nvr_time_set tm) q = part (nvr_time_set tm') q := by
  cases q with
  | mon => exact congrArg (· + 1) h
  | year => exact congrArg (· + 1900) h
  | wday => exact h
  | sec => exact h
  | min => exact h
  | hour => exact h
  | mday => exact h

/-- Two numbers that a register can hold have different codes. -/
theorem code_ne (dm : Bool) {x y : Int} (hx : 0 ≤ x) (hx' : x < 100) (hy : 0 ≤ y) (hy' : y < 100)
    (h : x ≠ y) : code dm x ≠ code dm y := by
  intro heq
  apply h
  rw [← decode_code dm hx hx', heq, decode_code dm hy hy']

/-- A write changes only its own part of the clock, for every register and every value that it can
hold, just if the hour has no PM flag, the century is not lost, and the weekday that the clock holds
is the one that it shows. -/
theorem write_changes_its_part_iff {nvr : Nvr} (hv : ValidClock nvr.intclk)
    (hcent : RTC_REGD < nvr.cent) :
    OnlyItsPart (shown nvr) ↔
      (full nvr = true ∨ nvr.intclk.tm_hour < 12) ∧
        (nvr.cent ≠ 0xff ∨ nvr.intclk.tm_year < 2000) ∧
        nvr.intclk.tm_wday = (nvr_time_get nvr.intclk).tm_wday := by
  obtain ⟨hdm, hfull, hc⟩ := shown_modes hcent
  have hcent' : RTC_REGD < (shown nvr).cent := by
    rw [hc]
    exact hcent
  have hundone := shown_undone_iff hv hcent
  constructor
  · intro h
    obtain ⟨hhour, hyear⟩ := hundone.mp h.undone
    refine ⟨hhour, hyear, ?_⟩
    -- A second other than the one shown sets the clock from the registers.
    have hother : ∃ x : Int, 0 ≤ x ∧ x ≤ 59 ∧ x ≠ nvr.intclk.tm_sec := by
      by_cases h0 : nvr.intclk.tm_sec = 0
      · exact ⟨1, by omega, by omega, by omega⟩
      · exact ⟨0, by omega, by omega, Ne.symm h0⟩
    obtain ⟨x, hx, hx', hne⟩ := hother
    have hsec : 0 ≤ (nvr_time_get nvr.intclk).tm_sec := hv.sec.1
    have hsec' : (nvr_time_get nvr.intclk).tm_sec < 100 :=
      Int.lt_trans hv.sec.2 (by decide)
    have hvalid : ValidCode (shown nvr) RTC_SECONDS (code (dm (shown nvr)) x) :=
      ⟨x, hx, hx', rfl⟩
    have hold : (shown nvr).regs RTC_SECONDS ≠ code (dm (shown nvr)) x := by
      rw [(shown_code hcent).sec]
      exact code_ne _ hsec hsec' hx (by omega) (Ne.symm hne)
    have hwday := h.others RTC_SECONDS _ .sec rfl hvalid .wday (by decide)
    rw [write_intclk _ hcent' rfl, if_pos hold, shown_intclk hcent] at hwday
    have hget := write_get (code (dm (shown nvr)) x) hcent'
      (rfl : partOf (shown nvr).cent RTC_SECONDS = some .sec) (q := .wday) (by decide)
    have hread : part (time_get (shown nvr)) .wday = (nvr_time_get nvr.intclk).tm_wday := by
      rw [h.undone, shown_intclk hcent]
      rfl
    exact hwday.symm.trans (hget.trans hread)
  · rintro ⟨hhour, hyear, hwday⟩
    have hget := hundone.mpr ⟨hhour, hyear⟩
    refine ⟨hget, ?_⟩
    intro reg val p hp _ q hq
    rw [write_intclk val hcent' hp]
    split
    · rw [part_set_congr (write_get val hcent' hp hq), hget, shown_intclk hcent]
      by_cases hw : q = .wday
      · rw [hw]
        exact hwday.symm
      · exact set_of_get _ q hw
    · rfl

/-- Noon in 24-hour mode, with the weekday of the formula. -/
theorem noon_keeps_its_parts :
    OnlyItsPart (shown { noon with intclk := ⟨0, 0, 12, 1, 1, 2000, 1⟩ }) := by
  apply (write_changes_its_part_iff _ (by decide)).mpr (by decide)
  exact ⟨by decide, by decide, by decide, by decide, by decide, by decide⟩

/-- One o'clock in the afternoon in 12-hour mode: a write to the seconds makes it nine in the
morning. -/
theorem seconds_move_the_hour :
    ¬∀ nvr : Nvr, ValidClock nvr.intclk → RTC_REGD < nvr.cent → OnlyItsPart (shown nvr) := by
  intro hall
  have hpart := hall { noon.set RTC_REGB 0x00 with intclk := ⟨0, 0, 13, 1, 1, 2000, 1⟩ }
    ⟨by decide, by decide, by decide, by decide, by decide, by decide⟩ (by decide)
  have hhour := hpart.others RTC_SECONDS 0x30 .sec (by decide) ⟨30, by decide⟩ .hour (by decide)
  exact absurd hhour (by decide)

end blumach.nvr_at
