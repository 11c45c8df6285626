-- The LIM windows of the T3200, `machine/m_at_t3200.c`: four windows of 16 KiB in the frame at
-- 0xd0000, eight registers that two by two select the page in one of them, and the pages in RAM,
-- 24 that are built in and 192 of a card. The trace to the log is left out.
import BluMach.BankedMemory
import Mathlib.Data.Nat.Bitwise

namespace blumach.t3200

open banked_memory (Banked)

/-! ## The source -/

def T3200_LIM_FRAME : Nat := 0xd0000
def T3200_LIM_PAGE_SIZE : Nat := 0x4000
def T3200_LIM_PAGES : Nat := 24

/-- `exec` is an offset into `ram`. -/
structure mem_mapping_t where
  enable : Bool
  exec : Option Nat

/-- The fields of `t3200_t` for the windows, and `ram`. -/
structure t3200_t where
  lim_mapping : Nat → mem_mapping_t
  lim_regs : Nat → BitVec 8
  lim_base : Nat → Nat
  lim_card : Bool
  ram : Nat → BitVec 8

def t3200_lim_read (addr : Nat) (dev : t3200_t) : BitVec 8 :=
  if addr < T3200_LIM_FRAME ∨ addr ≥ T3200_LIM_FRAME + 0x10000 then 0xff
  else
    let base := dev.lim_base ((addr >>> 14) &&& 3)
    if base ≠ 0 then dev.ram (base + (addr &&& (T3200_LIM_PAGE_SIZE - 1))) else 0xff

def t3200_lim_write (addr : Nat) (val : BitVec 8) (dev : t3200_t) : t3200_t :=
  if addr < T3200_LIM_FRAME ∨ addr ≥ T3200_LIM_FRAME + 0x10000 then dev
  else
    let base := dev.lim_base ((addr >>> 14) &&& 3)
    if base ≠ 0 then
      { dev with ram := Function.update dev.ram (base + (addr &&& (T3200_LIM_PAGE_SIZE - 1))) val }
    else dev

/-- `reg`, in `t3200_lim_in` and `t3200_lim_out`. -/
def limReg (port : Nat) : Nat := ((port >>> 14) &&& 3) ||| ((port &&& 0x10) >>> 2)

def t3200_lim_in (port : Nat) (dev : t3200_t) : BitVec 8 := dev.lim_regs (limReg port)

def t3200_lim_out (port : Nat) (val : BitVec 8) (dev : t3200_t) : t3200_t :=
  let reg := limReg port
  let slot := reg &&& 3
  let page := (val &&& 0x7f).toNat + (reg >>> 2) * 128
  let base :=
    if val &&& 0x80 ≠ 0 then
      if page < T3200_LIM_PAGES then 0xa0000 + page * T3200_LIM_PAGE_SIZE
      else if dev.lim_card ∧ page < T3200_LIM_PAGES + 192 then
        0x400000 - (page - T3200_LIM_PAGES + 1) * T3200_LIM_PAGE_SIZE
      else 0
    else 0
  { dev with
    lim_regs := Function.update dev.lim_regs reg val
    lim_base := Function.update dev.lim_base slot base
    lim_mapping := Function.update dev.lim_mapping slot
      { enable := decide (base ≠ 0), exec := if base ≠ 0 then some base else none } }

/-- After `t3200_init`, with or without the card. -/
def initial (card : Bool) (ram : Nat → BitVec 8) : t3200_t where
  lim_mapping := fun _ => ⟨false, none⟩
  lim_regs := fun _ => 0
  lim_base := fun _ => 0
  lim_card := card
  ram := ram

inductive Call where
  | out (port : Nat) (val : BitVec 8)
  | write (addr : Nat) (val : BitVec 8)
  | read (addr : Nat)

def step : Call → t3200_t → t3200_t
  | .out port val, dev => t3200_lim_out port val dev
  | .write addr val, dev => t3200_lim_write addr val dev
  | .read _, dev => dev

def run : List Call → t3200_t → t3200_t
  | [], dev => dev
  | c :: cs, dev => run cs (step c dev)

/-! ## Windows and pages -/

def InFrame (addr : Nat) : Prop := T3200_LIM_FRAME ≤ addr ∧ addr < T3200_LIM_FRAME + 0x10000

instance (addr : Nat) : Decidable (InFrame addr) := by
  unfold InFrame
  infer_instance

def window (addr : Nat) : Nat := (addr >>> 14) &&& 3

def offset (addr : Nat) : Nat := addr &&& (T3200_LIM_PAGE_SIZE - 1)

/-- The pages that there are. -/
def Valid (card : Bool) (page : Nat) : Prop := page < 24 ∨ card = true ∧ page < 216

instance (card : Bool) (page : Nat) : Decidable (Valid card page) := by
  unfold Valid
  infer_instance

/-- The page that a write to a register selects. -/
def pageOf (card : Bool) (reg : Nat) (val : BitVec 8) : Option Nat :=
  let page := (val &&& 0x7f).toNat + (reg >>> 2) * 128
  if val &&& 0x80 ≠ 0 ∧ Valid card page then some page else none

/-- Where a page begins in RAM. The pages of the card come from the top down. -/
def pageBase (page : Nat) : Nat :=
  if page < 24 then 0xa0000 + page * 0x4000 else 0x400000 - (page - 23) * 0x4000

theorem offset_lt (addr : Nat) : offset addr < 0x4000 :=
  Nat.and_lt_two_pow (n := 14) addr (by decide)

theorem pageBase_bounds {card : Bool} {page o : Nat} (h : Valid card page) (ho : o < 0x4000) :
    0xa0000 ≤ pageBase page + o ∧ pageBase page + o < 0x400000 := by
  unfold pageBase
  by_cases hp : page < 24
  · rw [if_pos hp]
    omega
  · rw [if_neg hp]
    unfold Valid at h
    omega

/-- Different pages have no byte in common. -/
theorem pageBase_inj {card : Bool} {p q o o' : Nat} (hp : Valid card p) (hq : Valid card q)
    (ho : o < 0x4000) (ho' : o' < 0x4000) (h : pageBase p + o = pageBase q + o') :
    p = q ∧ o = o' := by
  unfold Valid at hp hq
  unfold pageBase at h
  by_cases h1 : p < 24
  · by_cases h2 : q < 24
    · rw [if_pos h1, if_pos h2] at h
      omega
    · rw [if_pos h1, if_neg h2] at h
      omega
  · by_cases h2 : q < 24
    · rw [if_neg h1, if_pos h2] at h
      omega
    · rw [if_neg h1, if_neg h2] at h
      omega

/-- The byte of RAM that an access goes to. -/
def place (addr : Nat) (dev : t3200_t) : Option Nat :=
  if InFrame addr ∧ dev.lim_base (window addr) ≠ 0 then
    some (dev.lim_base (window addr) + offset addr)
  else none

theorem in_frame_iff (addr : Nat) :
    ¬(addr < T3200_LIM_FRAME ∨ addr ≥ T3200_LIM_FRAME + 0x10000) ↔ InFrame addr := by
  unfold InFrame
  omega

/-- Reads and writes both leave out the addresses without a byte of RAM. -/
theorem at_place {α : Type} (addr : Nat) (dev : t3200_t) (outside : α) (inside : Nat → α) :
    (if addr < T3200_LIM_FRAME ∨ addr ≥ T3200_LIM_FRAME + 0x10000 then outside
      else if dev.lim_base (window addr) ≠ 0 then
        inside (dev.lim_base (window addr) + offset addr)
      else outside) = (place addr dev).elim outside inside := by
  unfold place
  by_cases hf : InFrame addr
  · rw [if_neg ((in_frame_iff addr).mpr hf)]
    by_cases hb : dev.lim_base (window addr) ≠ 0
    · rw [if_pos hb, if_pos ⟨hf, hb⟩]
      rfl
    · rw [if_neg hb, if_neg fun h => hb h.2]
      rfl
  · rw [if_pos (not_not.mp (mt (in_frame_iff addr).mp hf)), if_neg fun h => hf h.1]
    rfl

theorem read_place (addr : Nat) (dev : t3200_t) :
    t3200_lim_read addr dev = (place addr dev).elim 0xff dev.ram :=
  at_place addr dev 0xff dev.ram

theorem write_place (addr : Nat) (val : BitVec 8) (dev : t3200_t) :
    t3200_lim_write addr val dev =
      (place addr dev).elim dev fun a => { dev with ram := Function.update dev.ram a val } :=
  at_place addr dev dev fun a => { dev with ram := Function.update dev.ram a val }

/-! ## The windows as paged memory -/

/-- A call as paged memory has it: windows, page numbers and offsets. -/
def seen (card : Bool) : Call → Option (banked_memory.Call Nat Nat Nat (BitVec 8))
  | .out port val => some (.select (limReg port &&& 3) (pageOf card (limReg port) val))
  | .write addr val =>
    if InFrame addr then some (.write (window addr) (offset addr) val) else none
  | .read _ => none

/-- The device holds the windows and the bytes of `b`. -/
structure Shows (dev : t3200_t) (b : Banked Nat Nat Nat (BitVec 8)) : Prop where
  base : ∀ w, dev.lim_base w = (b.windows w).elim 0 pageBase
  valid : ∀ w p, b.windows w = some p → Valid dev.lim_card p
  bytes : ∀ p o, Valid dev.lim_card p → o < 0x4000 → b.bytes p o = dev.ram (pageBase p + o)

/-- Where an access goes: a base of 0 stands for no page, and no page begins there. -/
theorem Shows.place_eq {dev : t3200_t} {b : Banked Nat Nat Nat (BitVec 8)} (h : Shows dev b)
    (addr : Nat) :
    place addr dev =
      if InFrame addr then (b.windows (window addr)).map fun p => pageBase p + offset addr
      else none := by
  unfold place
  rw [h.base]
  by_cases hf : InFrame addr
  · rw [if_pos hf]
    cases hw : b.windows (window addr) with
    | none => exact if_neg (fun hn => hn.2 rfl)
    | some p =>
      have hpos := (pageBase_bounds (o := 0) (h.valid _ p hw) (by decide)).1
      exact if_pos ⟨hf, by rw [Option.elim_some]; omega⟩
  · rw [if_neg hf, if_neg (fun hn => hf hn.1)]

/-- The base that `t3200_lim_out` computes is the one of the page. -/
theorem out_base (port : Nat) (val : BitVec 8) (dev : t3200_t) (w : Nat) :
    (t3200_lim_out port val dev).lim_base w =
      Function.update dev.lim_base (limReg port &&& 3)
        ((pageOf dev.lim_card (limReg port) val).elim 0 pageBase) w := by
  unfold t3200_lim_out pageOf Valid pageBase T3200_LIM_PAGES T3200_LIM_PAGE_SIZE
  dsimp only
  generalize (val &&& 0x7f).toNat + limReg port >>> 2 * 128 = page
  congr 1
  by_cases hv : val &&& 0x80 ≠ 0
  · rw [if_pos hv]
    by_cases h1 : page < 24
    · rw [if_pos h1, if_pos ⟨hv, Or.inl h1⟩, Option.elim_some, if_pos h1]
    · rw [if_neg h1]
      by_cases h2 : dev.lim_card = true ∧ page < 216
      · have hstep : page - 24 + 1 = page - 23 := by omega
        rw [if_pos h2, if_pos ⟨hv, Or.inr h2⟩, Option.elim_some, if_neg h1, hstep]
      · rw [if_neg h2, if_neg (fun h => h.2.elim h1 h2)]
        rfl
  · rw [if_neg hv, if_neg (fun h => hv h.1)]
    rfl

theorem out_shows {dev : t3200_t} {b : Banked Nat Nat Nat (BitVec 8)} (h : Shows dev b)
    (port : Nat) (val : BitVec 8) :
    Shows (t3200_lim_out port val dev)
      (banked_memory.step
        (.select (limReg port &&& 3) (pageOf dev.lim_card (limReg port) val)) b) := by
  refine ⟨?_, ?_, h.bytes⟩
  · intro w
    rw [out_base, banked_memory.step]
    dsimp only
    by_cases hw : w = limReg port &&& 3
    · subst hw
      rw [Function.update_self, Function.update_self]
    · rw [Function.update_of_ne hw, Function.update_of_ne hw, h.base]
  · intro w p hp
    rw [banked_memory.step] at hp
    dsimp only at hp
    by_cases hw : w = limReg port &&& 3
    · subst hw
      rw [Function.update_self] at hp
      unfold pageOf at hp
      obtain ⟨hok, hpage⟩ := Option.ite_none_right_eq_some.mp hp
      obtain rfl := Option.some.inj hpage
      exact hok.2
    · rw [Function.update_of_ne hw] at hp
      exact h.valid w p hp

theorem write_shows {dev : t3200_t} {b : Banked Nat Nat Nat (BitVec 8)} (h : Shows dev b)
    {addr : Nat} (val : BitVec 8) (hf : InFrame addr) :
    Shows (t3200_lim_write addr val dev)
      (banked_memory.step (.write (window addr) (offset addr) val) b) := by
  rw [write_place, h.place_eq, if_pos hf, banked_memory.step]
  cases hw : b.windows (window addr) with
  | none => exact h
  | some p =>
    have hp := h.valid _ p hw
    refine ⟨h.base, h.valid, ?_⟩
    intro q o hq ho
    have hbytes := h.bytes q o hq ho
    dsimp only [Option.map_some, Option.elim_some]
    by_cases hqp : q = p
    · subst hqp
      rw [Function.update_self]
      by_cases hoo : o = offset addr
      · subst hoo
        rw [Function.update_self, Function.update_self]
      · rw [Function.update_of_ne hoo, Function.update_of_ne (by omega), hbytes]
    · rw [Function.update_of_ne hqp, hbytes, Function.update_of_ne]
      intro heq
      exact hqp (pageBase_inj hq hp ho (offset_lt addr) heq).1

theorem step_card (c : Call) (dev : t3200_t) : (step c dev).lim_card = dev.lim_card := by
  cases c with
  | out port val => rfl
  | write addr val =>
    rw [step, write_place]
    cases place addr dev <;> rfl
  | read addr => rfl

theorem step_shows {dev : t3200_t} {b : Banked Nat Nat Nat (BitVec 8)} (h : Shows dev b)
    (c : Call) :
    Shows (step c dev)
      ((seen dev.lim_card c).elim b fun a => banked_memory.step a b) := by
  cases c with
  | out port val => exact out_shows h port val
  | write addr val =>
    by_cases hf : InFrame addr
    · have hseen : seen dev.lim_card (.write addr val) =
          some (.write (window addr) (offset addr) val) := if_pos hf
      rw [hseen]
      exact write_shows h val hf
    · have hseen : seen dev.lim_card (.write addr val) = none := if_neg hf
      rw [hseen, step, write_place, h.place_eq, if_neg hf]
      exact h
  | read addr => exact h

theorem run_shows (calls : List Call) {dev : t3200_t} {b : Banked Nat Nat Nat (BitVec 8)}
    (h : Shows dev b) :
    Shows (run calls dev) (banked_memory.run (calls.filterMap (seen dev.lim_card)) b) := by
  induction calls generalizing dev b with
  | nil => exact h
  | cons c calls ih =>
    have hstep := step_shows h c
    rw [run]
    cases hseen : seen dev.lim_card c with
    | none =>
      rw [hseen] at hstep
      have hrest := ih hstep
      rw [step_card] at hrest
      rw [List.filterMap_cons_none hseen]
      exact hrest
    | some a =>
      rw [hseen] at hstep
      have hrest := ih hstep
      rw [step_card] at hrest
      rw [List.filterMap_cons_some hseen]
      exact hrest

theorem initial_shows (card : Bool) (ram : Nat → BitVec 8) :
    Shows (initial card ram) ⟨fun _ => none, fun p o => ram (pageBase p + o)⟩ where
  base := fun _ => rfl
  valid := fun _ _ hp => by cases hp
  bytes := fun _ _ _ _ => rfl

theorem Shows.place_bounds {dev : t3200_t} {b : Banked Nat Nat Nat (BitVec 8)} (h : Shows dev b)
    {addr a : Nat} (ha : place addr dev = some a) : 0xa0000 ≤ a ∧ a < 0x400000 := by
  rw [h.place_eq] at ha
  obtain ⟨-, ha⟩ := Option.ite_none_right_eq_some.mp ha
  obtain ⟨p, hp, rfl⟩ := Option.map_eq_some_iff.mp ha
  exact pageBase_bounds (h.valid _ p hp) (offset_lt addr)

theorem outside_untouched (calls : List Call) {dev : t3200_t}
    {b : Banked Nat Nat Nat (BitVec 8)} (h : Shows dev b) {a : Nat}
    (ha : a < 0xa0000 ∨ 0x400000 ≤ a) : (run calls dev).ram a = dev.ram a := by
  induction calls generalizing dev b with
  | nil => rfl
  | cons c calls ih =>
    rw [run, ih (step_shows h c)]
    cases c with
    | out port val => rfl
    | write addr val =>
      rw [step, write_place]
      cases hplace : place addr dev with
      | none => rfl
      | some a' =>
        have hin := h.place_bounds hplace
        exact Function.update_of_ne (by omega) _ _
    | read addr => rfl

/-- The LIM windows show paged RAM, whatever the calls: a read gives what was last written to its
place in the page that its window has, and without a page an access has no effect. -/
theorem lim_windows_are_faithful (card : Bool) (ram : Nat → BitVec 8) (calls : List Call) :
    let dev := run calls (initial card ram)
    let history := calls.filterMap (seen card)
    let windows := banked_memory.selected (fun _ => none) history
    (∀ addr p, InFrame addr → windows (window addr) = some p →
      t3200_lim_read addr dev =
        (banked_memory.lastWritten p (offset addr) (fun _ => none) history).getD
          (ram (pageBase p + offset addr))) ∧
    (∀ addr, ¬InFrame addr ∨ windows (window addr) = none →
      t3200_lim_read addr dev = 0xff ∧ ∀ val, t3200_lim_write addr val dev = dev) ∧
    (∀ p q o o', Valid card p → Valid card q → o < 0x4000 → o' < 0x4000 →
      pageBase p + o = pageBase q + o' → p = q ∧ o = o') ∧
    (∀ addr a, place addr dev = some a → 0xa0000 ≤ a ∧ a < 0x400000) ∧
    (∀ a, a < 0xa0000 ∨ 0x400000 ≤ a → dev.ram a = ram a) := by
  intro dev history windows
  have hinit := initial_shows card ram
  have hs : Shows dev (banked_memory.run history _) := run_shows calls hinit
  have hwin : ∀ w, (banked_memory.run history
      ⟨fun _ => none, fun p o => ram (pageBase p + o)⟩).windows w = windows w := by
    intro w
    rw [banked_memory.run_windows]
  refine ⟨?_, ?_, ?_, ?_, ?_⟩
  · intro addr p hf hw
    have hp := hs.valid (window addr) p ((hwin _).trans hw)
    rw [read_place, hs.place_eq, if_pos hf, hwin, hw, Option.map_some, Option.elim_some,
      ← hs.bytes p (offset addr) hp (offset_lt addr), banked_memory.run_bytes]
  · intro addr hno
    have hplace : place addr dev = none := by
      rw [hs.place_eq, hwin]
      rcases hno with hf | hw
      · rw [if_neg hf]
      · rw [hw, Option.map_none, ite_self]
    refine ⟨?_, ?_⟩
    · rw [read_place, hplace, Option.elim_none]
    · intro val
      rw [write_place, hplace, Option.elim_none]
  · intro p q o o' hp hq ho ho' h
    exact pageBase_inj hp hq ho ho' h
  · intro addr a ha
    exact hs.place_bounds ha
  · intro a ha
    exact outside_untouched calls hinit ha

example : t3200_lim_read 0xd8000 (run
    [.out 0x0208 0x97, .out 0x4208 0x80, .write 0xd3fff 0x12, .write 0xd4000 0x34, .out 0x8208 0x80]
    (initial false fun _ => 0x6d)) = 0x34 := by decide

end blumach.t3200
