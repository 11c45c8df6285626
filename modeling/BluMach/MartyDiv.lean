-- The division of the cycle-exact 808x core, `cpu/808x_marty_86box.c`: the routines of the
-- microcode that DIV and IDIV run through, with their bus cycles.
import BluMach.Marty

namespace blumach.m808x

open arith_flags x86_flags

/-! ## The core -/

/-- What the division uses of the rest of the core: its bus cycles, and whether it has stopped for
good, which no cycle takes back. -/
structure Bus (σ : Type) where
  biu_cycle_i : BitVec 16 → σ → σ
  fatal : σ → Bool
  fatal_stays : ∀ line rest, fatal rest = true → fatal (biu_cycle_i line rest) = true

structure Icpu (σ : Type) where
  flags : BitVec 16
  rest : σ

def MC_JUMP : BitVec 16 := 0xfffe

section

variable {σ : Type} (bus : Bus σ)

def Icpu.fatal (icpu : Icpu σ) : Bool := bus.fatal icpu.rest

def biu_cycle_i (mc_line : BitVec 16) (icpu : Icpu σ) : Icpu σ :=
  { icpu with rest := bus.biu_cycle_i mc_line icpu.rest }

def cycles_mc : List (BitVec 16) → Icpu σ → Icpu σ
  | [], icpu => icpu
  | line :: lines, icpu =>
    if icpu.fatal bus then icpu else cycles_mc lines (biu_cycle_i bus line icpu)

end

/-! ## Words of 8 and of 16 bits -/

def width_mask (bits : Nat) : BitVec 16 := if bits = 8 then 0x00ff else 0xffff

def width_sign (bits : Nat) : BitVec 16 := if bits = 8 then 0x0080 else 0x8000

def bitIf (cond : Bool) : BitVec 16 := if cond then 1 else 0

/-- The result and `*carry_out`. -/
def width_rcl1 (value : BitVec 16) (bits : Nat) (carry_in : Bool) : BitVec 16 × Bool :=
  let value := value &&& width_mask bits
  ((value <<< 1 ||| bitIf carry_in) &&& width_mask bits, decide (value &&& width_sign bits ≠ 0))

/-- The result and `*carry`. -/
def width_neg (value : BitVec 16) (bits : Nat) : BitVec 16 × Bool :=
  let value := value &&& width_mask bits
  ((0 - value) &&& width_mask bits, decide (value ≠ 0))

/-- What `width_sub` returns, and what it stores. -/
structure Difference where
  result : BitVec 16
  carry : Bool
  overflow : Bool
  aux : Bool

def width_sub (lhs rhs : BitVec 16) (bits : Nat) : Difference :=
  let lhs := lhs &&& width_mask bits
  let rhs := rhs &&& width_mask bits
  let result := (lhs - rhs) &&& width_mask bits
  { result := result
    carry := decide (lhs < rhs)
    overflow := decide ((lhs ^^^ rhs) &&& (lhs ^^^ result) &&& width_sign bits ≠ 0)
    aux := decide ((lhs ^^^ rhs ^^^ result) &&& 0x10 ≠ 0) }

section

variable {σ : Type}

def Icpu.setFlag (flag : BitVec 16) (state : Bool) (icpu : Icpu σ) : Icpu σ :=
  { icpu with flags := set_flag_state flag state icpu.flags }

def set_width_sub_flags (bits : Nat) (d : Difference) (icpu : Icpu σ) : Icpu σ :=
  let icpu := icpu.setFlag C_FLAG d.carry
  let icpu := icpu.setFlag V_FLAG d.overflow
  let icpu := icpu.setFlag A_FLAG d.aux
  { icpu with
    flags :=
      if bits = 8 then set_szp8 (d.result.setWidth 8) icpu.flags
      else set_szp16 d.result icpu.flags }

/-! ## CORD -/

/-- The locals of the loop. -/
structure CordLoop (σ : Type) where
  icpu : Icpu σ
  tmpa : BitVec 16
  tmpc : BitVec 16
  carry : Bool

/-- `m808x_cord_result_t` -/
structure CordResult where
  a : BitVec 16
  c : BitVec 16
  carry : Bool
  ok : Bool

variable (bus : Bus σ)

/-- A turn of the loop that leaves `counter` more. -/
def cordTurn (bits : Nat) (tmpb : BitVec 16) (counter : Nat) (s : CordLoop σ) : CordLoop σ :=
  let (tmpc, carry) := width_rcl1 s.tmpc bits s.carry
  let (tmpa, carry) := width_rcl1 s.tmpa bits carry
  let icpu := cycles_mc bus [0x18b, 0x18c, 0x18d, 0x18e] s.icpu
  let goesOn (icpu : Icpu σ) :=
    if counter > 0 then biu_cycle_i bus MC_JUMP icpu else cycles_mc bus [0x197, MC_JUMP] icpu
  if carry then
    let icpu := cycles_mc bus [MC_JUMP, 0x195, 0x196] icpu
    ⟨goesOn icpu, (width_sub tmpa tmpb bits).result, tmpc, false⟩
  else
    let d := width_sub tmpa tmpb bits
    let icpu := set_width_sub_flags bits d icpu
    let icpu := cycles_mc bus [0x18f, 0x190] icpu
    if !d.carry then
      ⟨goesOn (cycles_mc bus [MC_JUMP, 0x196] icpu), d.result, tmpc, d.carry⟩
    else
      let icpu := biu_cycle_i bus 0x191 icpu
      ⟨if counter > 0 then biu_cycle_i bus MC_JUMP icpu else icpu, tmpa, tmpc, d.carry⟩

/-- `while (counter > 0u && !icpu->fatal)` -/
def cordLoop (bits : Nat) (tmpb : BitVec 16) : Nat → CordLoop σ → CordLoop σ
  | 0, s => s
  | counter + 1, s =>
    if s.icpu.fatal bus then s else cordLoop bits tmpb counter (cordTurn bus bits tmpb counter s)

def cord_cycles (bits : Nat) (tmpa tmpb tmpc : BitVec 16) (icpu : Icpu σ) : CordResult × Icpu σ :=
  let tmpa := tmpa &&& width_mask bits
  let tmpb := tmpb &&& width_mask bits
  let tmpc := tmpc &&& width_mask bits
  let d := width_sub tmpa tmpb bits
  let icpu := set_width_sub_flags bits d icpu
  let icpu := cycles_mc bus [0x188, 0x189, 0x18a] icpu
  if !d.carry then (⟨tmpa, tmpc, d.carry, false⟩, biu_cycle_i bus MC_JUMP icpu)
  else
    let s := cordLoop bus bits tmpb bits ⟨icpu, tmpa, tmpc, d.carry⟩
    let (tmpc, carry) := width_rcl1 s.tmpc bits s.carry
    let icpu := cycles_mc bus [0x192, 0x193] s.icpu
    let (_, carry) := width_rcl1 tmpc bits carry
    let icpu := icpu.setFlag C_FLAG carry
    (⟨s.tmpa, tmpc, carry, true⟩, cycles_mc bus [0x194, MC_JUMP] icpu)

/-! ## The signs -/

/-- `mul_tmp_t` -/
structure MulTmp where
  a : BitVec 16
  b : BitVec 16
  c : BitVec 16
  carry : Bool
  negate : Bool

/-- The complement of `tmpa:tmpc`, in 16 bits also for bytes, and then of a `tmpb` below 0. -/
def mul_cor_negate_cycles (bits : Nat) (tmpa tmpb tmpc : BitVec 16) (negate skip : Bool)
    (icpu : Icpu σ) : MulTmp × Icpu σ :=
  let (tmpa, tmpc, negate, icpu) :=
    if !skip then
      let carry := decide (tmpc ≠ 0)
      let tmpc := 0 - tmpc
      if carry then
        (~~~tmpa, tmpc, !negate, cycles_mc bus [0x1b6, 0x1b7, 0x1b8, MC_JUMP, 0x1ba] icpu)
      else (0 - tmpa, tmpc, !negate, cycles_mc bus [0x1b6, 0x1b7, 0x1b8, 0x1b9, 0x1ba] icpu)
    else (tmpa, tmpc, negate, icpu)
  let carry := decide (tmpb &&& width_sign bits ≠ 0)
  let sigma := 0 - tmpb
  let icpu := cycles_mc bus [0x1bb, 0x1bc, 0x1bd] icpu
  if !carry then
    (⟨tmpa, tmpb, tmpc, carry, negate⟩, cycles_mc bus [MC_JUMP, 0x1bf, MC_JUMP] icpu)
  else (⟨tmpa, sigma, tmpc, carry, !negate⟩, cycles_mc bus [0x1be, MC_JUMP] icpu)

def pre_idiv_cycles (bits : Nat) (tmpa tmpb tmpc : BitVec 16) (negate : Bool) (icpu : Icpu σ) :
    MulTmp × Icpu σ :=
  let (_, carry) := width_rcl1 tmpa bits false
  let icpu := cycles_mc bus [0x1b4, 0x1b5] icpu
  if !carry then
    mul_cor_negate_cycles bus bits tmpa tmpb tmpc negate true (biu_cycle_i bus MC_JUMP icpu)
  else mul_cor_negate_cycles bus bits tmpa tmpb tmpc negate false icpu

def post_idiv_cycles (bits : Nat) (tmpa tmpb tmpc : BitVec 16) (carry negate : Bool)
    (icpu : Icpu σ) : CordResult × Icpu σ :=
  let icpu := biu_cycle_i bus 0x1c4 icpu
  if !carry then (⟨tmpa, tmpc, carry, false⟩, biu_cycle_i bus MC_JUMP icpu)
  else
    let (_, divisor_negative) := width_rcl1 tmpb bits false
    let (sigma, _) := width_neg tmpa bits
    let icpu := cycles_mc bus [0x1c5, 0x1c6, 0x1c7] icpu
    let (tmpa, icpu) :=
      if !divisor_negative then (tmpa, biu_cycle_i bus MC_JUMP icpu)
      else (sigma, biu_cycle_i bus 0x1c8 icpu)
    let sigma := (tmpc + 1) &&& width_mask bits
    let icpu := cycles_mc bus [0x1c9, 0x1ca] icpu
    let (sigma, icpu) :=
      if !negate then (~~~tmpc &&& width_mask bits, biu_cycle_i bus 0x1cb icpu)
      else (sigma, biu_cycle_i bus MC_JUMP icpu)
    let icpu := { icpu with flags := icpu.flags &&& ~~~(C_FLAG ||| V_FLAG) }
    (⟨tmpa, sigma, false, true⟩, cycles_mc bus [0x1cc, MC_JUMP] icpu)

/-! ## The routine -/

/-- `(dividend >> 8) & 0xff`, or `dividend >> 16`. -/
def dividendHigh (bits : Nat) (dividend : BitVec 32) : BitVec 16 :=
  if bits = 8 then (dividend >>> 8 &&& 0xff).setWidth 16 else (dividend >>> 16).setWidth 16

/-- The end of the routine, after CORD. -/
def afterCord (bits : Nat) (dividend : BitVec 32) (signed_op negate : Bool) (cord : CordResult)
    (icpu : Icpu σ) : Bool × Icpu σ :=
  if !cord.ok then (false, icpu)
  else
    let original_hi := dividendHigh bits dividend
    let icpu := cycles_mc bus
      [if bits = 8 then 0x164 else 0x16c, if bits = 8 then 0x165 else 0x16d] icpu
    if signed_op then
      let icpu := biu_cycle_i bus MC_JUMP icpu
      let (cord, icpu) :=
        post_idiv_cycles bus bits cord.a original_hi cord.c cord.carry negate icpu
      if !cord.ok then (false, icpu) else (!icpu.fatal bus, icpu)
    else (!icpu.fatal bus, icpu)

def div_microcode_cycles (bits : Nat) (dividend : BitVec 32) (divisor : BitVec 16)
    (signed_op negate : Bool) (icpu : Icpu σ) : Bool × Icpu σ :=
  let tmpa := dividendHigh bits dividend
  let tmpc := dividend.setWidth 16 &&& width_mask bits
  let tmpb := divisor &&& width_mask bits
  let icpu := cycles_mc bus
    [if bits = 8 then 0x160 else 0x168, if bits = 8 then 0x161 else 0x169,
      if bits = 8 then 0x162 else 0x16a] icpu
  let (pre, icpu) :=
    if signed_op then pre_idiv_cycles bus bits tmpa tmpb tmpc negate (biu_cycle_i bus MC_JUMP icpu)
    else (⟨tmpa, tmpb, tmpc, false, negate⟩, icpu)
  let icpu := cycles_mc bus [if bits = 8 then 0x163 else 0x16b, MC_JUMP] icpu
  let (cord, icpu) := cord_cycles bus bits pre.a pre.b pre.c icpu
  afterCord bus bits dividend signed_op pre.negate cord icpu

end

end blumach.m808x
