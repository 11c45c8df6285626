-- A wide access reaches each byte lane once: its passes together touch each handler
-- through the widest of its functions that is no wider than the access, and through
-- no other.
import BluMach.IoAccess
import Mathlib.Data.List.Perm.Basic

namespace blumach.io

/-! ## Widths and lanes -/

inductive Width where
  | byte | word | dword
deriving DecidableEq, Repr

/-- The number of bytes. -/
def Width.bytes : Width → Nat
  | .byte => 1
  | .word => 2
  | .dword => 4

/-- The functions of a handler for one direction. -/
structure Side (F : Type) where
  byte : Option F
  word : Option F
  dword : Option F

section

variable {F V : Type}

def Io.reads (p : Io F V) : Side F := ⟨p.inb, p.inw, p.inl⟩

def Io.writes (p : Io F V) : Side F := ⟨p.outb, p.outw, p.outl⟩

/-- One call of a function of a device, at a lane of the access. -/
structure Touch (F V : Type) where
  width : Width
  lane : Nat
  f : F
  priv : V

/-- The widest function that is no wider than the access. -/
def Side.widest (s : Side F) : Width → Option (Width × F)
  | .byte => s.byte.map fun f => (.byte, f)
  | .word => (s.word.map fun f => (.word, f)).or (s.byte.map fun f => (.byte, f))
  | .dword => (s.dword.map fun f => (.dword, f)).or
    ((s.word.map fun f => (.word, f)).or (s.byte.map fun f => (.byte, f)))

/-- The lanes that calls of one width start at. -/
def starts (access w : Width) : List Nat :=
  (List.range access.bytes).filter fun lane => lane % w.bytes = 0

/-- The calls that reach one handler. -/
def touchesOf (side : Io F V → Side F) (access : Width) (p : Io F V) : List (Touch F V) :=
  match (side p).widest access with
  | some (w, f) => (starts access w).map fun lane => ⟨w, lane, f, p.priv⟩
  | none => []

/-- The lanes of a call. -/
def Touch.lanes (t : Touch F V) : List Nat := (List.range t.width.bytes).map fun k => t.lane + k

/-- A handler with a function that is no wider than the access is reached at each lane, and at
each of them once. -/
theorem touched_once (side : Io F V → Side F) (access : Width) (p : Io F V) :
    (touchesOf side access p).flatMap Touch.lanes =
      if ((side p).widest access).isSome then List.range access.bytes else [] := by
  have hstarts : ∀ w : Width, w.bytes ≤ access.bytes →
      (starts access w).flatMap (fun lane => (List.range w.bytes).map fun k => lane + k) =
        List.range access.bytes := fun w hw => by
    revert hw
    cases access <;> cases w <;> decide
  have hnarrow : ∀ w f, (side p).widest access = some (w, f) → w.bytes ≤ access.bytes := by
    intro w f hw
    unfold Side.widest at hw
    cases access with
    | byte =>
      obtain ⟨f, -, hf⟩ := Option.map_eq_some_iff.mp hw
      cases hf
      exact Nat.le_refl _
    | word =>
      cases hword : (side p).word <;> cases hbyte : (side p).byte <;> rw [hword, hbyte] at hw <;>
        cases hw <;> decide
    | dword =>
      cases hdword : (side p).dword <;> cases hword : (side p).word <;>
        cases hbyte : (side p).byte <;> rw [hdword, hword, hbyte] at hw <;> cases hw <;> decide
  unfold touchesOf
  cases hwidest : (side p).widest access with
  | none => rfl
  | some wf =>
    obtain ⟨w, f⟩ := wf
    dsimp only
    rw [List.flatMap_map]
    exact hstarts w (hnarrow w f hwidest)

/-! ## Passes -/

/-- The function that a pass of one width uses. -/
def Side.use (s : Side F) : Width → Width → Option F
  | .byte, .byte => s.byte
  | .word, .word => s.word
  | .word, .byte => without s.word s.byte
  | .dword, .dword => s.dword
  | .dword, .word => without s.dword s.word
  | .dword, .byte => without s.dword (without s.word s.byte)
  | _, _ => none

/-- The passes of an access, with the lane of the port whose list each goes down. -/
def passes : Width → List (Width × Nat)
  | .byte => [(.byte, 0)]
  | .word => [(.word, 0), (.byte, 0), (.byte, 1)]
  | .dword => [(.dword, 0), (.word, 0), (.word, 2), (.byte, 0), (.byte, 1), (.byte, 2), (.byte, 3)]

/-- The handlers that have such a function. -/
def chosen (use : Io F V → Option F) (l : List (Io F V)) : List (F × V) :=
  l.filterMap fun p => (use p).map fun f => (f, p.priv)

/-- The port of a lane. -/
def laneOf (port : BitVec 16) (lane : Nat) : BitVec 16 := port + BitVec.ofNat 16 lane

/-- The calls of one pass down a list. -/
def passTouches (side : Io F V → Side F) (access : Width) (q : Width × Nat) (l : List (Io F V)) :
    List (Touch F V) :=
  (chosen (fun p => (side p).use access q.1) l).map fun c => ⟨q.1, q.2, c.1, c.2⟩

/-- The calls of an access, in their order. -/
def touches (side : Io F V → Side F) (access : Width) (io : BitVec 16 → List (Io F V))
    (port : BitVec 16) : List (Touch F V) :=
  (passes access).flatMap fun q => passTouches side access q (io (laneOf port q.2))

theorem passTouches_eq (side : Io F V → Side F) (access : Width) (q : Width × Nat)
    (l : List (Io F V)) : passTouches side access q l =
      l.flatMap fun p => (((side p).use access q.1).map fun f => (⟨q.1, q.2, f, p.priv⟩ :
        Touch F V)).toList := by
  unfold passTouches chosen
  induction l with
  | nil => rfl
  | cons p rest ih =>
    rw [List.flatMap_cons, ← ih]
    cases hp : (side p).use access q.1 <;> simp [hp]

/-- The passes together reach a handler through the widest of its functions. -/
theorem passes_reach (side : Io F V → Side F) (access : Width) (p : Io F V) :
    (passes access).flatMap (fun q => (((side p).use access q.1).map fun f =>
      (⟨q.1, q.2, f, p.priv⟩ : Touch F V)).toList) = touchesOf side access p := by
  unfold touchesOf Side.widest
  cases access with
  | byte =>
    cases hbyte : (side p).byte <;> simp [passes, Side.use, hbyte, starts, Width.bytes]
  | word =>
    cases hword : (side p).word <;> cases hbyte : (side p).byte <;>
      simp [passes, Side.use, without, hword, hbyte, starts, Width.bytes, List.range_succ]
  | dword =>
    cases hdword : (side p).dword <;> cases hword : (side p).word <;>
      cases hbyte : (side p).byte <;>
      simp [passes, Side.use, without, hdword, hword, hbyte, starts, Width.bytes, List.range_succ]

/-- Going down a list once in each pass, or once in all. -/
theorem passes_perm {α β γ : Type} (qs : List α) (l : List β) (f : α → β → List γ) :
    (qs.flatMap fun q => l.flatMap (f q)).Perm (l.flatMap fun p => qs.flatMap fun q => f q p) := by
  induction qs with
  | nil => simp
  | cons q rest ih =>
    simp only [List.flatMap_cons]
    exact (ih.append_left _).trans (List.flatMap_append_perm l (f q) _)

/-- The lists of the ports of an access hold the same handlers. -/
def Registered (io : BitVec 16 → List (Io F V)) (port : BitVec 16) (access : Width) : Prop :=
  ∀ lane < access.bytes, (io (laneOf port lane)).Perm (io port)

theorem passes_within (access : Width) : ∀ q ∈ passes access, q.2 < access.bytes := by
  cases access <;> decide

/-- The calls of an access are those that reach its handlers. -/
theorem touches_perm (side : Io F V → Side F) {access : Width} {io : BitVec 16 → List (Io F V)}
    {port : BitVec 16} (h : Registered io port access) :
    (touches side access io port).Perm ((io port).flatMap (touchesOf side access)) := by
  unfold touches
  have hpasses : ∀ q ∈ passes access, (passTouches side access q (io (laneOf port q.2))).Perm
      (passTouches side access q (io port)) := fun q hq => by
    unfold passTouches chosen
    exact ((h q.2 (passes_within access q hq)).filterMap _).map _
  refine (List.Perm.flatMap_left _ hpasses).trans ?_
  simp only [passTouches_eq]
  refine (passes_perm _ _ _).trans ?_
  simp only [passes_reach]
  exact .refl _

end

/-! ## What the devices are asked and told -/

/-- What an answer says of each lane. It says nothing, 0xff, of the lanes of others. -/
abbrev Answer := Nat → BitVec 8

def spread {w : Nat} (t : Width) (lane : Nat) (v : BitVec w) : Answer := fun i =>
  if lane ≤ i ∧ i < lane + t.bytes then v.extractLsb' (8 * (i - lane)) 8 else 0xff

/-- The AND of all answers for a lane. -/
def meet (answers : List Answer) (i : Nat) : BitVec 8 :=
  answers.foldl (fun v answer => v &&& answer i) 0xff

/-- The value of an access, from its lanes. -/
def ofLanes (access : Width) (lane : Nat → BitVec 8) : BitVec 32 :=
  match access with
  | .byte => (lane 0).setWidth 32
  | .word => (lane 1 ++ lane 0).setWidth 32
  | .dword => lane 3 ++ (lane 2 ++ (lane 1 ++ lane 0))

/-- The lane of a value. -/
def laneValue (val : BitVec 32) (i : Nat) : BitVec 8 := val.extractLsb' (8 * i) 8

section

variable {m : Type → Type} [Monad m] {F V : Type}

def Touch.ask (d : Devices m F V) (port : BitVec 16) (t : Touch F V) : m Answer :=
  match t.width with
  | .byte => spread .byte t.lane <$> d.inb t.f (laneOf port t.lane) t.priv
  | .word => spread .word t.lane <$> d.inw t.f (laneOf port t.lane) t.priv
  | .dword => spread .dword t.lane <$> d.inl t.f (laneOf port t.lane) t.priv

def Touch.tell (d : Devices m F V) (port : BitVec 16) (val : BitVec 32) (t : Touch F V) : m Unit :=
  match t.width with
  | .byte => d.outb t.f (laneOf port t.lane) (val.extractLsb' (8 * t.lane) 8) t.priv
  | .word => d.outw t.f (laneOf port t.lane) (val.extractLsb' (8 * t.lane) 16) t.priv
  | .dword => d.outl t.f (laneOf port t.lane) (val.extractLsb' (8 * t.lane) 32) t.priv

/-- A read of that width, with zeros above it. -/
def readOf (d : Devices m F V) (io : BitVec 16 → List (Io F V)) (port : BitVec 16) :
    Width → m (BitVec 32)
  | .byte => (fun v => v.setWidth 32) <$> inb d io port
  | .word => (fun v => v.setWidth 32) <$> inw d io port
  | .dword => inl d io port

/-- A write of that width, of the low bytes of a value. -/
def writeOf (d : Devices m F V) (io : BitVec 16 → List (Io F V)) (port : BitVec 16)
    (val : BitVec 32) : Width → m Unit
  | .byte => outb d io port (val.setWidth 8)
  | .word => outw d io port (val.setWidth 16)
  | .dword => outl d io port val

/-- The loops of a read of that width. -/
def readLists (d : Devices m F V) (io : BitVec 16 → List (Io F V)) (port : BitVec 16) :
    Width → m (BitVec 32)
  | .byte => (fun v => v.setWidth 32) <$> inb_lists d io port
  | .word => (fun v => v.setWidth 32) <$> inw_lists d io port
  | .dword => inl_lists d io port

/-- The loops of a write of that width. -/
def writeLists (d : Devices m F V) (io : BitVec 16 → List (Io F V)) (port : BitVec 16)
    (val : BitVec 32) : Width → m Unit
  | .byte => outb_lists d io port (val.setWidth 8)
  | .word => outw_lists d io port (val.setWidth 16)
  | .dword => outl_lists d io port val

/-! ## Loops down the lists -/

variable [LawfulMonad m]

theorem ask_all_eq {w : Nat} (use : Io F V → Option F) (ask : F → V → m (BitVec w))
    (l : List (Io F V)) (ret : BitVec w) :
    ask_all use ask l ret =
      (fun vs => vs.foldl (fun ret v => ret &&& v) ret) <$>
        (chosen use l).mapM fun c => ask c.1 c.2 := by
  unfold ask_all
  induction l generalizing ret with
  | nil => simp [chosen]
  | cons p rest ih =>
    rw [List.foldlM_cons]
    cases hp : use p with
    | none =>
      have hchosen : chosen use (p :: rest) = chosen use rest := by simp [chosen, hp]
      simp only [pure_bind, hchosen]
      exact ih ret
    | some f =>
      have hchosen : chosen use (p :: rest) = (f, p.priv) :: chosen use rest := by
        simp [chosen, hp]
      rw [hchosen, List.mapM_cons, bind_map_left, map_bind]
      refine bind_congr fun v => ?_
      rw [ih, map_bind, map_eq_pure_bind]
      simp only [map_pure, List.foldl_cons]

theorem tell_all_eq (use : Io F V → Option F) (tell : F → V → m Unit) (l : List (Io F V)) :
    tell_all use tell l = (chosen use l).forM fun c => tell c.1 c.2 := by
  unfold tell_all
  induction l with
  | nil => rfl
  | cons p rest ih =>
    simp only [List.forM_eq_forM, List.forM_cons] at ih ⊢
    cases hp : use p with
    | none =>
      have hchosen : chosen use (p :: rest) = chosen use rest := by simp [chosen, hp]
      simp only [pure_bind, hchosen]
      exact ih
    | some f =>
      have hchosen : chosen use (p :: rest) = (f, p.priv) :: chosen use rest := by
        simp [chosen, hp]
      simp only [hchosen, List.forM_cons, ih]

theorem mapM_map_result {α β γ : Type} (f : α → m β) (g : β → γ) (l : List α) :
    l.mapM (fun a => g <$> f a) = List.map g <$> l.mapM f := by
  induction l with
  | nil => simp
  | cons a rest ih =>
    rw [List.mapM_cons, List.mapM_cons, ih, bind_map_left, map_bind]
    refine bind_congr fun b => ?_
    rw [bind_map_left, map_bind]
    simp only [map_pure, List.map_cons]

/-- A pass, as the handlers of its list are asked. -/
theorem pass_asks (d : Devices m F V) (port : BitVec 16) (side : Io F V → Side F)
    (access : Width) (q : Width × Nat) (l : List (Io F V)) :
    (passTouches side access q l).mapM (Touch.ask d port) =
      (chosen (fun p => (side p).use access q.1) l).mapM fun c =>
        Touch.ask d port ⟨q.1, q.2, c.1, c.2⟩ := by
  unfold passTouches
  exact List.mapM_map

/-! ## Lanes of the answers -/

/-- The AND of more answers, from that of the ones before. -/
def meetFrom (start : BitVec 8) (answers : List Answer) (i : Nat) : BitVec 8 :=
  answers.foldl (fun v answer => v &&& answer i) start

theorem meet_append (xs ys : List Answer) (i : Nat) :
    meet (xs ++ ys) i = meetFrom (meet xs i) ys i := List.foldl_append

theorem meetFrom_append (start : BitVec 8) (xs ys : List Answer) (i : Nat) :
    meetFrom start (xs ++ ys) i = meetFrom (meetFrom start xs i) ys i := List.foldl_append

/-- Answers for other lanes say nothing. -/
theorem meetFrom_other {w : Nat} (t : Width) (lane i : Nat) (start : BitVec 8)
    (vs : List (BitVec w)) (h : i < lane ∨ lane + t.bytes ≤ i) :
    meetFrom start (vs.map (spread t lane)) i = start := by
  induction vs generalizing start with
  | nil => rfl
  | cons v rest ih =>
    have hspread : start &&& spread t lane v i = start := by
      unfold spread
      rw [if_neg (by omega)]
      exact BitVec.and_allOnes
    unfold meetFrom at ih ⊢
    rw [List.map_cons, List.foldl_cons, hspread]
    exact ih start

/-- Answers for a lane, as that lane of all of them. -/
theorem meetFrom_lane {w : Nat} (t : Width) (lane i : Nat) (start : BitVec w)
    (vs : List (BitVec w)) (h : lane ≤ i ∧ i < lane + t.bytes) :
    meetFrom (start.extractLsb' (8 * (i - lane)) 8) (vs.map (spread t lane)) i =
      (vs.foldl (fun ret v => ret &&& v) start).extractLsb' (8 * (i - lane)) 8 := by
  induction vs generalizing start with
  | nil => rfl
  | cons v rest ih =>
    have hspread : start.extractLsb' (8 * (i - lane)) 8 &&& spread t lane v i =
        (start &&& v).extractLsb' (8 * (i - lane)) 8 := by
      unfold spread
      rw [if_pos h, BitVec.extractLsb'_and]
    unfold meetFrom at ih ⊢
    rw [List.map_cons, List.foldl_cons, List.foldl_cons, hspread]
    exact ih (start &&& v)

/-- Every answer of a loop, ANDed to a value. -/
def andAll {w : Nat} (vs : List (BitVec w)) (ret : BitVec w) : BitVec w :=
  vs.foldl (fun ret v => ret &&& v) ret

theorem meetFrom_byte (lane : Nat) (start : BitVec 8) (vs : List (BitVec 8)) :
    meetFrom start (vs.map (spread .byte lane)) lane = andAll vs start := by
  have hlane := meetFrom_lane .byte lane lane start vs ⟨Nat.le_refl lane, Nat.lt_succ_self lane⟩
  rw [Nat.sub_self, Nat.mul_zero, BitVec.extractLsb'_eq_self] at hlane
  rw [hlane, BitVec.extractLsb'_eq_self]
  rfl

/-- The lanes of an answer for the whole access. -/
theorem meet_whole {w : Nat} (t : Width) (i : Nat) (hi : i < t.bytes) (hw : w = 8 * t.bytes)
    (vs : List (BitVec w)) :
    meet (vs.map (spread t 0)) i = (andAll vs (BitVec.allOnes w)).extractLsb' (8 * i) 8 := by
  have hlane := meetFrom_lane t 0 i (BitVec.allOnes w) vs ⟨Nat.zero_le i, by omega⟩
  rw [Nat.sub_zero] at hlane
  have hones : (BitVec.allOnes w).extractLsb' (8 * i) 8 = 0xff := by
    apply BitVec.eq_of_getLsbD_eq
    intro j hj
    rw [BitVec.getLsbD_extractLsb', BitVec.getLsbD_allOnes, hw]
    have hff : (0xff : BitVec 8) = BitVec.allOnes 8 := rfl
    rw [hff, BitVec.getLsbD_allOnes]
    simp only [hj, decide_true, Bool.true_and, decide_eq_true_eq]
    omega
  rw [hones] at hlane
  exact hlane

/-- A part of a part. -/
theorem extract_extract {w : Nat} (x : BitVec w) {s t n k : Nat} (h : t + k ≤ n) :
    (x.extractLsb' s n).extractLsb' t k = x.extractLsb' (s + t) k := by
  apply BitVec.eq_of_getLsbD_eq
  intro j hj
  simp only [BitVec.getLsbD_extractLsb', hj, decide_true, Bool.true_and, Nat.add_assoc]
  rw [decide_eq_true (by omega : t + j < n), Bool.true_and]

/-- The words of a dword access, from its first three passes. -/
theorem meet_words (vs : List (BitVec 32)) (low high : List (BitVec 16)) {i : Nat} (hi : i < 4) :
    meetFrom (meetFrom (meet (vs.map (spread .dword 0)) i) (low.map (spread .word 0)) i)
      (high.map (spread .word 2)) i =
      (andAll high ((andAll vs (BitVec.allOnes 32)).extractLsb' 16 16) ++
        andAll low ((andAll vs (BitVec.allOnes 32)).extractLsb' 0 16)).extractLsb' (8 * i) 8 := by
  have hwhole := @meet_whole 32 .dword i hi rfl vs
  rw [hwhole]
  generalize andAll vs (BitVec.allOnes 32) = ret
  by_cases hlow : i < 2
  · rw [meetFrom_other .word 2 i _ high (Or.inl hlow)]
    have hstart : ret.extractLsb' (8 * i) 8 =
        (ret.extractLsb' 0 16).extractLsb' (8 * (i - 0)) 8 := by
      rw [Nat.sub_zero, extract_extract ret (by omega), Nat.zero_add]
    rw [hstart, meetFrom_lane .word 0 i _ low ⟨Nat.zero_le i, hlow⟩, Nat.sub_zero,
      BitVec.extractLsb'_append_eq_of_add_le (by omega)]
    rfl
  · rw [meetFrom_other .word 0 i _ low (Or.inr (Nat.not_lt.mp hlow))]
    have hstart : ret.extractLsb' (8 * i) 8 =
        (ret.extractLsb' 16 16).extractLsb' (8 * (i - 2)) 8 := by
      have hplace : 16 + 8 * (i - 2) = 8 * i := by omega
      rw [extract_extract ret (by omega), hplace]
    rw [hstart, meetFrom_lane .word 2 i _ high ⟨Nat.not_lt.mp hlow, hi⟩,
      BitVec.extractLsb'_append_eq_of_le (by omega)]
    have hplace : 8 * i - 16 = 8 * (i - 2) := by omega
    rw [hplace]
    rfl

/-! ## Reads -/

theorem laneOf_zero (port : BitVec 16) : laneOf port 0 = port := by
  unfold laneOf
  exact BitVec.add_zero port

/-- A byte read, as the calls of its one pass. -/
theorem byte_read (d : Devices m F V) (io : BitVec 16 → List (Io F V)) (port : BitVec 16) :
    readLists d io port .byte = (fun answers => ofLanes .byte (meet answers)) <$>
      (touches Io.reads .byte io port).mapM (Touch.ask d port) := by
  have htouches : touches Io.reads .byte io port =
      passTouches Io.reads .byte (.byte, 0) (io (laneOf port 0)) := List.append_nil _
  unfold readLists inb_lists
  rw [htouches]
  simp only [pass_asks, Touch.ask, mapM_map_result, ask_all_eq, laneOf_zero, Functor.map_map]
  refine congrArg (fun f => f <$> _) (funext fun vs => ?_)
  have hlane : meet (vs.map (spread .byte 0)) 0 = andAll vs 0xff := meetFrom_byte 0 0xff vs
  unfold ofLanes
  dsimp only
  rw [hlane]
  rfl

/-- The lanes of a word read: what its words say, and the bytes of the other handlers. -/
theorem word_lanes (vs : List (BitVec 16)) (bytes0 bytes1 : List (BitVec 8)) :
    ofLanes .word (meet (vs.map (spread .word 0) ++
      (bytes0.map (spread .byte 0) ++ bytes1.map (spread .byte 1)))) =
      (andAll bytes1 ((andAll vs 0xffff).extractLsb' 8 8) ++
        andAll bytes0 ((andAll vs 0xffff).extractLsb' 0 8)).setWidth 32 := by
  have hwhole : ∀ i < 2, meet (vs.map (spread .word 0)) i =
      (andAll vs 0xffff).extractLsb' (8 * i) 8 := fun i hi => @meet_whole 16 .word i hi rfl vs
  have hlane0 : ∀ start, meetFrom (meetFrom start (bytes0.map (spread .byte 0)) 0)
      (bytes1.map (spread .byte 1)) 0 = andAll bytes0 start := fun start => by
    rw [meetFrom_byte, meetFrom_other .byte 1 0 _ bytes1 (Or.inl Nat.one_pos)]
  have hlane1 : ∀ start, meetFrom (meetFrom start (bytes0.map (spread .byte 0)) 1)
      (bytes1.map (spread .byte 1)) 1 = andAll bytes1 start := fun start => by
    rw [meetFrom_other .byte 0 1 _ bytes0 (Or.inr (Nat.le_refl 1)), meetFrom_byte]
  unfold ofLanes
  simp only [meet_append, meetFrom_append]
  rw [hlane0, hlane1, hwhole 0 (by decide), hwhole 1 (by decide)]

/-- The lanes of a dword read: its dwords, the words of the others, then the bytes of the rest. -/
theorem dword_lanes (vs : List (BitVec 32)) (low high : List (BitVec 16))
    (bytes0 bytes1 bytes2 bytes3 : List (BitVec 8)) (ret : BitVec 32)
    (hret : ret = andAll high ((andAll vs (BitVec.allOnes 32)).extractLsb' 16 16) ++
      andAll low ((andAll vs (BitVec.allOnes 32)).extractLsb' 0 16)) :
    ofLanes .dword (meet (vs.map (spread .dword 0) ++ (low.map (spread .word 0) ++
      (high.map (spread .word 2) ++ (bytes0.map (spread .byte 0) ++ (bytes1.map (spread .byte 1) ++
        (bytes2.map (spread .byte 2) ++ bytes3.map (spread .byte 3)))))))) =
      andAll bytes3 (ret.extractLsb' 24 8) ++ (andAll bytes2 (ret.extractLsb' 16 8) ++
        (andAll bytes1 (ret.extractLsb' 8 8) ++ andAll bytes0 (ret.extractLsb' 0 8))) := by
  have hwords : ∀ i < 4, meetFrom (meetFrom (meet (vs.map (spread .dword 0)) i)
      (low.map (spread .word 0)) i) (high.map (spread .word 2)) i = ret.extractLsb' (8 * i) 8 :=
    fun i hi => by rw [hret]; exact meet_words vs low high hi
  have hother : ∀ (lane i : Nat) start (vs : List (BitVec 8)), i < lane ∨ lane + 1 ≤ i →
      meetFrom start (vs.map (spread .byte lane)) i = start := fun lane i start vs h =>
    meetFrom_other .byte lane i start vs h
  unfold ofLanes
  simp only [meet_append, meetFrom_append]
  rw [hwords 0 (by decide), hwords 1 (by decide), hwords 2 (by decide), hwords 3 (by decide)]
  simp (disch := decide) only [hother, meetFrom_byte]

theorem word_read (d : Devices m F V) (io : BitVec 16 → List (Io F V)) (port : BitVec 16) :
    readLists d io port .word = (fun answers => ofLanes .word (meet answers)) <$>
      (touches Io.reads .word io port).mapM (Touch.ask d port) := by
  have hzero : port + 0 = port := BitVec.add_zero port
  unfold readLists inw_lists touches passes
  simp only [List.flatMap_cons, List.flatMap_nil, List.append_nil, List.mapM_append,
    pass_asks, Touch.ask, mapM_map_result, ask_all_eq, bind_map_left, map_bind, bind_assoc,
    pure_bind, map_pure, laneOf_zero, hzero]
  refine bind_congr fun vs => bind_congr fun bytes0 => bind_congr fun bytes1 => ?_
  exact congrArg pure (word_lanes vs bytes0 bytes1).symm

theorem dword_read (d : Devices m F V) (io : BitVec 16 → List (Io F V)) (port : BitVec 16) :
    readLists d io port .dword = (fun answers => ofLanes .dword (meet answers)) <$>
      (touches Io.reads .dword io port).mapM (Touch.ask d port) := by
  have hzero : port + 0 = port := BitVec.add_zero port
  unfold readLists inl_lists touches passes
  simp only [List.flatMap_cons, List.flatMap_nil, List.append_nil, List.mapM_append,
    pass_asks, Touch.ask, mapM_map_result, ask_all_eq, bind_map_left, map_bind,
    bind_assoc, pure_bind, map_pure, laneOf_zero, hzero]
  refine bind_congr fun vs => bind_congr fun low => bind_congr fun high => ?_
  refine bind_congr fun bytes0 => bind_congr fun bytes1 => bind_congr fun bytes2 =>
    bind_congr fun bytes3 => ?_
  exact congrArg pure (dword_lanes vs low high bytes0 bytes1 bytes2 bytes3 _ rfl).symm

/-- The loops of a read are its calls, in their order. -/
theorem reads_in_passes (d : Devices m F V) (io : BitVec 16 → List (Io F V)) (port : BitVec 16)
    (access : Width) : readLists d io port access =
      (fun answers => ofLanes access (meet answers)) <$>
        (touches Io.reads access io port).mapM (Touch.ask d port) := by
  cases access with
  | byte => exact byte_read d io port
  | word => exact word_read d io port
  | dword => exact dword_read d io port

/-! ## Writes -/

/-- A pass, as the handlers of its list are told. -/
theorem pass_tells (d : Devices m F V) (port : BitVec 16) (val : BitVec 32)
    (side : Io F V → Side F) (access : Width) (q : Width × Nat) (l : List (Io F V)) :
    (passTouches side access q l).forM (Touch.tell d port val) =
      (chosen (fun p => (side p).use access q.1) l).forM fun c =>
        Touch.tell d port val ⟨q.1, q.2, c.1, c.2⟩ := by
  unfold passTouches
  exact List.forM_map

theorem forM_append {α : Type} (xs ys : List α) (f : α → m Unit) :
    (xs ++ ys).forM f = (do
      xs.forM f
      ys.forM f) := by
  simp only [List.forM_eq_forM, List.forM_append]

/-- The loops of a write are its calls, in their order. -/
theorem writes_in_passes (d : Devices m F V) (io : BitVec 16 → List (Io F V)) (port : BitVec 16)
    (val : BitVec 32) (access : Width) :
    writeLists d io port val access =
      (touches Io.writes access io port).forM (Touch.tell d port val) := by
  have hzero : port + 0 = port := BitVec.add_zero port
  have hlow : ∀ n ≤ 32, val.setWidth n = val.extractLsb' (8 * 0) n := fun n hn =>
    BitVec.setWidth_eq_extractLsb' hn
  cases access with
  | byte =>
    unfold writeLists outb_lists touches passes
    simp only [List.flatMap_cons, List.flatMap_nil, List.append_nil, pass_tells, Touch.tell,
      tell_all_eq, laneOf_zero, hlow 8 (by decide)]
    rfl
  | word =>
    have hparts : ∀ lane, lane < 2 → (val.setWidth 16).extractLsb' (8 * lane) 8 =
        val.extractLsb' (8 * lane) 8 := fun lane h =>
      BitVec.extractLsb'_setWidth_of_le (by omega)
    have hbyte0 := hparts 0 (by decide)
    have hbyte1 := hparts 1 (by decide)
    unfold writeLists outw_lists touches passes
    simp only [List.flatMap_cons, List.flatMap_nil, List.append_nil, forM_append,
      pass_tells, Touch.tell, tell_all_eq, laneOf_zero, hzero, ← hbyte0, ← hbyte1]
    rw [← hlow 16 (by decide)]
    rfl
  | dword =>
    have hwhole : val.extractLsb' (8 * 0) 32 = val := BitVec.extractLsb'_eq_self
    unfold writeLists outl_lists touches passes
    simp only [List.flatMap_cons, List.flatMap_nil, List.append_nil, forM_append,
      pass_tells, Touch.tell, tell_all_eq, laneOf_zero, hzero]
    rw [hwhole]
    rfl

/-! ## Whole accesses -/

/-- Some handler has a function that is no wider than the access. -/
def reached (side : Io F V → Side F) (access : Width) (l : List (Io F V)) : Bool :=
  l.any fun p => ((side p).widest access).isSome

/-- No configuration window is active. -/
def Pci.NoWindow (p : Pci) : Prop :=
  p.pci_flags &&& (FLAG_CONFIG_IO_ON ||| FLAG_CONFIG_DEV0_IO_ON) = 0

theorem window_off {p : Pci} (h : p.NoWindow) (port : BitVec 16) : p.window port = false := by
  have hio : p.pci_flags &&& FLAG_CONFIG_IO_ON = 0 := by
    unfold Pci.NoWindow at h
    have hand := congrArg (· &&& FLAG_CONFIG_IO_ON) h
    simpa [BitVec.and_assoc, FLAG_CONFIG_IO_ON, FLAG_CONFIG_DEV0_IO_ON] using hand
  have hdev0 : p.pci_flags &&& FLAG_CONFIG_DEV0_IO_ON = 0 := by
    unfold Pci.NoWindow at h
    have hand := congrArg (· &&& FLAG_CONFIG_DEV0_IO_ON) h
    simpa [BitVec.and_assoc, FLAG_CONFIG_IO_ON, FLAG_CONFIG_DEV0_IO_ON] using hand
  unfold Pci.window
  rw [hio, hdev0]
  rfl

theorem touchesOf_some (side : Io F V → Side F) (access : Width) (p : Io F V) :
    ((side p).widest access).isSome = true ↔ ∃ t, t ∈ touchesOf side access p := by
  unfold touchesOf
  cases hwidest : (side p).widest access with
  | none => simp
  | some wf =>
    obtain ⟨w, f⟩ := wf
    have hzero : 0 ∈ starts access w := by
      revert w
      cases access <;> intro w <;> cases w <;> simp [starts, Width.bytes]
    refine ⟨fun _ => ⟨⟨w, 0, f, p.priv⟩, ?_⟩, fun _ => rfl⟩
    exact List.mem_map.mpr ⟨0, hzero, rfl⟩

theorem passTouches_some (side : Io F V → Side F) (access : Width) (q : Width × Nat)
    (l : List (Io F V)) : found (fun p => (side p).use access q.1) l = true ↔
      ∃ t, t ∈ passTouches side access q l := by
  unfold found
  rw [passTouches_eq, List.any_eq_true]
  constructor
  · rintro ⟨p, hp, hsome⟩
    obtain ⟨f, hf⟩ := Option.isSome_iff_exists.mp hsome
    refine ⟨⟨q.1, q.2, f, p.priv⟩, List.mem_flatMap.mpr ⟨p, hp, ?_⟩⟩
    simp [hf]
  · rintro ⟨t, ht⟩
    obtain ⟨p, hp, htp⟩ := List.mem_flatMap.mp ht
    obtain ⟨f, hf, -⟩ := Option.map_eq_some_iff.mp (Option.mem_toList.mp htp)
    exact ⟨p, hp, Option.isSome_iff_exists.mpr ⟨f, hf⟩⟩

/-- A handler was found if one of them has a function that is no wider than the access. -/
theorem passes_found (side : Io F V → Side F) {access : Width} {io : BitVec 16 → List (Io F V)}
    {port : BitVec 16} (h : Registered io port access) :
    ((passes access).any fun q =>
      found (fun p => (side p).use access q.1) (io (laneOf port q.2))) =
      reached side access (io port) := by
  have hcalls : reached side access (io port) = true ↔
      ∃ t, t ∈ (io port).flatMap (touchesOf side access) := by
    unfold reached
    rw [List.any_eq_true]
    simp only [touchesOf_some, List.mem_flatMap]
    exact ⟨fun ⟨p, hp, t, ht⟩ => ⟨t, p, hp, ht⟩, fun ⟨t, p, hp, ht⟩ => ⟨p, hp, t, ht⟩⟩
  have hpasses : ((passes access).any fun q =>
      found (fun p => (side p).use access q.1) (io (laneOf port q.2))) = true ↔
      ∃ t, t ∈ touches side access io port := by
    unfold touches
    rw [List.any_eq_true]
    simp only [passTouches_some, List.mem_flatMap]
    exact ⟨fun ⟨q, hq, t, ht⟩ => ⟨t, q, hq, ht⟩, fun ⟨t, q, hq, ht⟩ => ⟨q, hq, t, ht⟩⟩
  rw [Bool.eq_iff_iff, hpasses, hcalls]
  exact exists_congr fun t => (touches_perm side h).mem_iff

/-- A read, as its loops and what it keeps besides. -/
theorem readOf_eq (d : Devices m F V) {io : BitVec 16 → List (Io F V)} {port : BitVec 16}
    {access : Width} (hreg : Registered io port access) (hwindow : d.pci.NoWindow) :
    readOf d io port access = (do
      d.io_access access.bytes port none
      let ret ← readLists d io port access
      d.after_in port (reached Io.reads access (io port))
      return ret) := by
  have hzero : port + 0 = port := BitVec.add_zero port
  rw [← passes_found Io.reads hreg]
  cases access with
  | byte =>
    unfold readOf inb readLists inb_found
    simp only [window_off hwindow, Bool.false_or, Bool.false_eq_true, if_false, map_bind,
      bind_map_left, map_pure, passes, List.any_cons, List.any_nil, Bool.or_false, laneOf_zero]
    rfl
  | word =>
    unfold readOf inw readLists inw_found
    simp only [window_off hwindow, Bool.false_or, Bool.false_eq_true, if_false, map_bind,
      bind_map_left, map_pure, passes, List.any_cons, List.any_nil, Bool.or_false, laneOf_zero,
      hzero, Bool.or_assoc]
    rfl
  | dword =>
    unfold readOf inl readLists inl_found
    simp only [window_off hwindow, Bool.false_or, Bool.false_eq_true, if_false, passes,
      List.any_cons, List.any_nil, Bool.or_false, laneOf_zero, hzero, Bool.or_assoc]
    rfl

/-- The low bytes of a value. -/
theorem ofLanes_laneValue (val : BitVec 32) :
    ofLanes .byte (laneValue val) = (val.setWidth 8).setWidth 32 ∧
    ofLanes .word (laneValue val) = (val.setWidth 16).setWidth 32 ∧
    ofLanes .dword (laneValue val) = val := by
  have hlow : ∀ n ≤ 32, val.setWidth n = val.extractLsb' 0 n := fun n hn =>
    BitVec.setWidth_eq_extractLsb' hn
  have hjoin : ∀ s t n k, t = s + k →
      val.extractLsb' t n ++ val.extractLsb' s k = val.extractLsb' s (n + k) :=
    fun s t n k h => BitVec.extractLsb'_append_extractLsb'_eq_extractLsb' h
  refine ⟨?_, ?_, ?_⟩
  · rw [hlow 8 (by decide)]
    rfl
  · rw [hlow 16 (by decide)]
    exact congrArg (BitVec.setWidth 32) (hjoin 0 8 8 8 rfl)
  · unfold ofLanes laneValue
    dsimp only
    rw [hjoin (8 * 0) (8 * 1) 8 8 rfl, hjoin (8 * 0) (8 * 2) 8 (8 + 8) rfl,
      hjoin (8 * 0) (8 * 3) 8 (8 + (8 + 8)) rfl]
    exact BitVec.extractLsb'_eq_self

omit [LawfulMonad m] in
/-- A write, as its loops and what it keeps besides. -/
theorem writeOf_eq (d : Devices m F V) {io : BitVec 16 → List (Io F V)} {port : BitVec 16}
    {access : Width} (hreg : Registered io port access) (hwindow : d.pci.NoWindow)
    (val : BitVec 32) :
    writeOf d io port val access = (do
      d.io_access access.bytes port (some (ofLanes access (laneValue val)))
      writeLists d io port val access
      d.after_out access.bytes port (reached Io.writes access (io port))) := by
  have hzero : port + 0 = port := BitVec.add_zero port
  obtain ⟨hbyte, hword, hdword⟩ := ofLanes_laneValue val
  rw [← passes_found Io.writes hreg]
  cases access with
  | byte =>
    rw [hbyte]
    unfold writeOf outb writeLists outb_found
    simp only [window_off hwindow, Bool.false_or, Bool.false_eq_true, if_false, passes,
      List.any_cons, List.any_nil, Bool.or_false, laneOf_zero]
    rfl
  | word =>
    rw [hword]
    unfold writeOf outw writeLists outw_found
    simp only [window_off hwindow, Bool.false_or, Bool.false_eq_true, if_false, passes,
      List.any_cons, List.any_nil, Bool.or_false, laneOf_zero, hzero, Bool.or_assoc]
    rfl
  | dword =>
    rw [hdword]
    unfold writeOf outl writeLists outl_found
    simp only [window_off hwindow, Bool.false_or, Bool.false_eq_true, if_false, passes,
      List.any_cons, List.any_nil, Bool.or_false, laneOf_zero, hzero, Bool.or_assoc]
    rfl

/-! ## Handlers with functions for bytes only -/

/-- The handlers of a list have functions for bytes only. -/
def BytesOnly (side : Io F V → Side F) (l : List (Io F V)) : Prop :=
  ∀ p ∈ l, (side p).word = none ∧ (side p).dword = none

theorem chosen_none (use : Io F V → Option F) (l : List (Io F V)) (h : ∀ p ∈ l, use p = none) :
    chosen use l = [] := by
  unfold chosen
  rw [List.filterMap_eq_nil_iff]
  intro p hp
  rw [h p hp]
  rfl

theorem chosen_congr {use use' : Io F V → Option F} {l : List (Io F V)}
    (h : ∀ p ∈ l, use p = use' p) : chosen use l = chosen use' l := by
  unfold chosen
  exact List.filterMap_congr fun p hp => by rw [h p hp]

/-- Each list is then gone down in the pass of its bytes. -/
theorem bytes_chosen {side : Io F V → Side F} {l : List (Io F V)} (h : BytesOnly side l)
    (access q : Width) :
    chosen (fun p => (side p).use access q) l =
      if q = .byte then chosen (fun p => (side p).byte) l else [] := by
  by_cases hbyte : q = .byte
  · subst hbyte
    rw [if_pos rfl]
    refine chosen_congr fun p hp => ?_
    obtain ⟨hword, hdword⟩ := h p hp
    cases access <;> simp [Side.use, without, hword, hdword]
  · rw [if_neg hbyte]
    refine chosen_none _ l fun p hp => ?_
    obtain ⟨hword, hdword⟩ := h p hp
    cases access <;> cases q <;> simp_all [Side.use, without]

/-- Byte reads of the lists of the lanes make up a wide one. -/
theorem bytes_read_alone (d : Devices m F V) {io : BitVec 16 → List (Io F V)} {port : BitVec 16}
    {access : Width} (h : ∀ lane < access.bytes, BytesOnly Io.reads (io (laneOf port lane))) :
    readLists d io port access = (fun lanes => ofLanes access fun i => lanes.getD i 0xff) <$>
      (List.range access.bytes).mapM fun lane => inb_lists d io (laneOf port lane) := by
  have hzero : port + 0 = port := BitVec.add_zero port
  have hport := h 0 (by cases access <;> decide)
  rw [laneOf_zero] at hport
  cases access with
  | byte =>
    have hrange : List.range (Width.bytes .byte) = [0] := rfl
    unfold readLists
    simp only [hrange, List.mapM_cons, List.mapM_nil, laneOf_zero, map_bind, pure_bind, map_pure]
    rw [map_eq_pure_bind]
    rfl
  | word =>
    have hrange : List.range (Width.bytes .word) = [0, 1] := rfl
    have hlane1 : BytesOnly Io.reads (io (port + 1)) := h 1 (by decide)
    have hwords : chosen (fun p => p.inw) (io port) = [] := bytes_chosen hport .word .word
    have hbytes : ∀ {l : List (Io F V)}, BytesOnly Io.reads l →
        chosen (fun p => without p.inw p.inb) l = chosen (fun p => p.inb) l :=
      fun hl => bytes_chosen hl .word .byte
    have hlow : (0xffff : BitVec 16).extractLsb' 0 8 = 0xff := rfl
    have hhigh : (0xffff : BitVec 16).extractLsb' 8 8 = 0xff := rfl
    unfold readLists inw_lists inb_lists
    simp only [ask_all_eq, hrange, List.mapM_cons, List.mapM_nil, laneOf_zero, map_bind, pure_bind,
      map_pure, bind_map_left, hzero, hwords, hbytes hport, hbytes hlane1, List.foldl_nil, hlow,
      hhigh, bind_assoc]
    rfl
  | dword =>
    have hrange : List.range (Width.bytes .dword) = [0, 1, 2, 3] := rfl
    have hlane1 : BytesOnly Io.reads (io (port + 1)) := h 1 (by decide)
    have hlane2 : BytesOnly Io.reads (io (port + 2)) := h 2 (by decide)
    have hlane3 : BytesOnly Io.reads (io (port + 3)) := h 3 (by decide)
    have hdwords : chosen (fun p => p.inl) (io port) = [] := bytes_chosen hport .dword .dword
    have hwords : ∀ {l : List (Io F V)}, BytesOnly Io.reads l →
        chosen (fun p => without p.inl p.inw) l = [] := fun hl => bytes_chosen hl .dword .word
    have hbytes : ∀ {l : List (Io F V)}, BytesOnly Io.reads l →
        chosen (fun p => without p.inl (without p.inw p.inb)) l = chosen (fun p => p.inb) l :=
      fun hl => bytes_chosen hl .dword .byte
    have hlow : (0xffffffff : BitVec 32).extractLsb' 0 16 = 0xffff := rfl
    have hhigh : (0xffffffff : BitVec 32).extractLsb' 16 16 = 0xffff := rfl
    have hones : ((0xffff : BitVec 16) ++ (0xffff : BitVec 16)) = (0xffffffff : BitVec 32) := rfl
    have hlanes : ∀ lane < 4, (0xffffffff : BitVec 32).extractLsb' (8 * lane) 8 = 0xff := by decide
    unfold readLists inl_lists inb_lists
    simp only [ask_all_eq, hrange, List.mapM_cons, List.mapM_nil, laneOf_zero, map_bind, pure_bind,
      map_pure, bind_map_left, hzero, hdwords, hwords hport, hwords hlane2, hbytes hport,
      hbytes hlane1, hbytes hlane2, hbytes hlane3, List.foldl_nil, hlow, hhigh, hones, bind_assoc]
    rfl

/-- Byte writes to the lists of the lanes make up a wide one. -/
theorem bytes_written_alone (d : Devices m F V) {io : BitVec 16 → List (Io F V)}
    {port : BitVec 16} {access : Width} (val : BitVec 32)
    (h : ∀ lane < access.bytes, BytesOnly Io.writes (io (laneOf port lane))) :
    writeLists d io port val access = (List.range access.bytes).forM fun lane =>
      outb_lists d io (laneOf port lane) (laneValue val lane) := by
  have hzero : port + 0 = port := BitVec.add_zero port
  have hport := h 0 (by cases access <;> decide)
  rw [laneOf_zero] at hport
  cases access with
  | byte =>
    have hrange : List.range (Width.bytes .byte) = [0] := rfl
    have hlow : laneValue val 0 = val.setWidth 8 :=
      (BitVec.setWidth_eq_extractLsb' (by decide)).symm
    unfold writeLists
    simp only [hrange, List.forM_eq_forM, List.forM_cons, List.forM_nil, laneOf_zero, hlow]
    simp
  | word =>
    have hrange : List.range (Width.bytes .word) = [0, 1] := rfl
    have hlane1 : BytesOnly Io.writes (io (port + 1)) := h 1 (by decide)
    have hwords : chosen (fun p => p.outw) (io port) = [] := bytes_chosen hport .word .word
    have hbytes : ∀ {l : List (Io F V)}, BytesOnly Io.writes l →
        chosen (fun p => without p.outw p.outb) l = chosen (fun p => p.outb) l :=
      fun hl => bytes_chosen hl .word .byte
    have hlow : (val.setWidth 16).extractLsb' 0 8 = laneValue val 0 :=
      BitVec.extractLsb'_setWidth_of_le (by decide)
    have hhigh : (val.setWidth 16).extractLsb' 8 8 = laneValue val 1 :=
      BitVec.extractLsb'_setWidth_of_le (by decide)
    unfold writeLists outw_lists outb_lists
    simp only [tell_all_eq, hrange, List.forM_eq_forM, List.forM_cons, List.forM_nil, laneOf_zero,
      hzero, hwords, hbytes hport, hbytes hlane1, hlow, hhigh, pure_bind]
    simp
    rfl
  | dword =>
    have hrange : List.range (Width.bytes .dword) = [0, 1, 2, 3] := rfl
    have hlane1 : BytesOnly Io.writes (io (port + 1)) := h 1 (by decide)
    have hlane2 : BytesOnly Io.writes (io (port + 2)) := h 2 (by decide)
    have hlane3 : BytesOnly Io.writes (io (port + 3)) := h 3 (by decide)
    have hdwords : chosen (fun p => p.outl) (io port) = [] := bytes_chosen hport .dword .dword
    have hwords : ∀ {l : List (Io F V)}, BytesOnly Io.writes l →
        chosen (fun p => without p.outl p.outw) l = [] := fun hl => bytes_chosen hl .dword .word
    have hbytes : ∀ {l : List (Io F V)}, BytesOnly Io.writes l →
        chosen (fun p => without p.outl (without p.outw p.outb)) l = chosen (fun p => p.outb) l :=
      fun hl => bytes_chosen hl .dword .byte
    unfold writeLists outl_lists outb_lists
    simp only [tell_all_eq, hrange, List.forM_eq_forM, List.forM_cons, List.forM_nil, laneOf_zero,
      hzero, hdwords, hwords hport, hwords hlane2, hbytes hport, hbytes hlane1, hbytes hlane2,
      hbytes hlane3, pure_bind]
    simp
    rfl

/-- The devices, without what an access keeps besides. -/
def Devices.bare (d : Devices m F V) : Devices m F V :=
  { d with
    io_access := fun _ _ _ => pure ()
    after_in := fun _ _ => pure ()
    after_out := fun _ _ _ => pure () }

theorem bare_inb (d : Devices m F V) (io : BitVec 16 → List (Io F V)) (port : BitVec 16)
    (hwindow : d.pci.NoWindow) : inb d.bare io port = inb_lists d io port := by
  unfold inb
  have hoff : d.bare.pci.window port = false := window_off hwindow port
  simp only [hoff, Bool.false_eq_true, if_false]
  simp [Devices.bare]
  rfl

theorem bare_outb (d : Devices m F V) (io : BitVec 16 → List (Io F V)) (port : BitVec 16)
    (val : BitVec 8) (hwindow : d.pci.NoWindow) :
    outb d.bare io port val = outb_lists d io port val := by
  unfold outb
  have hoff : d.bare.pci.window port = false := window_off hwindow port
  simp only [hoff, Bool.false_eq_true, if_false]
  simp [Devices.bare]
  rfl

/-- A write calls each handler through the widest of its functions that is no wider than the
access, and so that function gets each byte at its lane, once; a read asks in the same way, and
of each lane it gives the AND of the answers. Handlers with functions for bytes only get what
byte accesses to the ports would give them; but it is one access of that width that is counted,
and that the latch and the cycles see. -/
theorem wide_accesses_reach_each_lane_once (d : Devices m F V) (io : BitVec 16 → List (Io F V))
    (port : BitVec 16) (access : Width) (hreg : Registered io port access)
    (hwindow : d.pci.NoWindow) :
    (∀ val : BitVec 32, ∃ calls : List (Touch F V),
      calls.Perm ((io port).flatMap (touchesOf Io.writes access)) ∧
      writeOf d io port val access = (do
        d.io_access access.bytes port (some (ofLanes access (laneValue val)))
        calls.forM (Touch.tell d port val)
        d.after_out access.bytes port (reached Io.writes access (io port)))) ∧
    (∃ calls : List (Touch F V),
      calls.Perm ((io port).flatMap (touchesOf Io.reads access)) ∧
      readOf d io port access = (do
        d.io_access access.bytes port none
        let answers ← calls.mapM (Touch.ask d port)
        d.after_in port (reached Io.reads access (io port))
        return ofLanes access (meet answers))) ∧
    (∀ (side : Io F V → Side F) (p : Io F V), (touchesOf side access p).flatMap Touch.lanes =
      if ((side p).widest access).isSome then List.range access.bytes else []) ∧
    (BytesOnly Io.writes (io port) → ∀ val : BitVec 32, writeOf d io port val access = (do
      d.io_access access.bytes port (some (ofLanes access (laneValue val)))
      (List.range access.bytes).forM fun lane =>
        outb d.bare io (laneOf port lane) (laneValue val lane)
      d.after_out access.bytes port (reached Io.writes access (io port)))) ∧
    (BytesOnly Io.reads (io port) → readOf d io port access = (do
      d.io_access access.bytes port none
      let lanes ← (List.range access.bytes).mapM fun lane => inb d.bare io (laneOf port lane)
      d.after_in port (reached Io.reads access (io port))
      return ofLanes access fun i => lanes.getD i 0xff)) := by
  have hspread : ∀ side : Io F V → Side F, BytesOnly side (io port) →
      ∀ lane < access.bytes, BytesOnly side (io (laneOf port lane)) :=
    fun side hbytes lane hlane p hp => hbytes p ((hreg lane hlane).mem_iff.mp hp)
  refine ⟨fun val => ?_, ?_, fun side p => touched_once side access p, fun hbytes val => ?_,
    fun hbytes => ?_⟩
  · refine ⟨touches Io.writes access io port, touches_perm Io.writes hreg, ?_⟩
    rw [writeOf_eq d hreg hwindow, writes_in_passes]
  · refine ⟨touches Io.reads access io port, touches_perm Io.reads hreg, ?_⟩
    rw [readOf_eq d hreg hwindow, reads_in_passes]
    simp only [bind_map_left]
  · simp only [bare_outb d io _ _ hwindow]
    rw [writeOf_eq d hreg hwindow, bytes_written_alone d val (hspread Io.writes hbytes)]
  · simp only [bare_inb d io _ hwindow]
    rw [readOf_eq d hreg hwindow, bytes_read_alone d (hspread Io.reads hbytes)]
    simp only [bind_map_left]

end

/-! ## Devices that log -/

/-- The number of the access, and the bytes that the devices got, each with its port. -/
structure Log where
  sequence : Nat
  bytes : List (Nat × BitVec 16 × BitVec 8)
deriving DecidableEq, Repr

def Log.add (l : Log) (bytes : List (Nat × BitVec 16 × BitVec 8)) : Log :=
  { l with bytes := l.bytes ++ bytes }

def logging : Devices (StateM Log) Unit Nat where
  inb _ _ _ := pure 0xff
  inw _ _ _ := pure 0xffff
  inl _ _ _ := pure 0xffffffff
  outb _ port val priv := modify fun l => l.add [(priv, port, val)]
  outw _ port val priv := modify fun l => l.add
    [(priv, port, val.extractLsb' 0 8), (priv, port + 1, val.extractLsb' 8 8)]
  outl _ port val priv := modify fun l => l.add
    [(priv, port, val.extractLsb' 0 8), (priv, port + 1, val.extractLsb' 8 8),
      (priv, port + 2, val.extractLsb' 16 8), (priv, port + 3, val.extractLsb' 24 8)]
  pci := ⟨0, 0xc000, 0x1000⟩
  pci_read _ := pure 0xff
  pci_readw _ := pure 0xffff
  pci_readl _ := pure 0xffffffff
  pci_write _ _ := pure ()
  pci_writew _ _ := pure ()
  pci_writel _ _ := pure ()
  io_access _ _ _ := modify fun l => { l with sequence := l.sequence + 1 }
  after_in _ _ := pure ()
  after_out _ _ _ := pure ()

/-- A handler with functions for bytes, on all ports. -/
def byteHandler (_ : BitVec 16) : List (Io Unit Nat) :=
  [⟨some (), none, none, some (), none, none, 7⟩]

/-- A handler with functions for dwords, on all ports. -/
def dwordHandler (_ : BitVec 16) : List (Io Unit Nat) :=
  [⟨none, none, some (), none, none, some (), 7⟩]

theorem a_byte_handler_gets_a_word :
    writeOf logging byteHandler 0x3d4 0x1234 .word = (do
      logging.io_access 2 0x3d4 (some (ofLanes .word (laneValue 0x1234)))
      (List.range 2).forM fun lane =>
        outb logging.bare byteHandler (laneOf 0x3d4 lane) (laneValue 0x1234 lane)
      logging.after_out 2 0x3d4 (reached Io.writes .word (byteHandler 0x3d4))) := by
  have hbytes : BytesOnly Io.writes (byteHandler 0x3d4) := by
    intro p hp
    rw [List.mem_singleton.mp hp]
    exact ⟨rfl, rfl⟩
  have hall := wide_accesses_reach_each_lane_once logging byteHandler 0x3d4 .word
    (fun _ _ => .refl _) rfl
  exact hall.2.2.2.1 hbytes 0x1234

/-- But a word misses a handler that has a function for dwords only, and it is not counted as
the accesses to its bytes are. -/
theorem a_word_misses_a_dword_handler :
    (¬∀ (io : BitVec 16 → List (Io Unit Nat)) (port val : BitVec 16), Registered io port .word →
      (∀ p ∈ io port, p.outb.isSome ∨ p.outw.isSome ∨ p.outl.isSome) →
      ((outw logging io port val).run ⟨0, []⟩).2.bytes.Perm ((io port).flatMap fun p =>
        [(p.priv, port, val.extractLsb' 0 8), (p.priv, port + 1, val.extractLsb' 8 8)])) ∧
    ¬∀ (io : BitVec 16 → List (Io Unit Nat)) (port val : BitVec 16), Registered io port .word →
      BytesOnly Io.writes (io port) →
      (outw logging io port val).run ⟨0, []⟩ = (do
        outb logging io port (val.extractLsb' 0 8)
        outb logging io (port + 1) (val.extractLsb' 8 8)).run ⟨0, []⟩ := by
  constructor
  · intro h
    have hword := h dwordHandler 0x300 0x1234 (fun _ _ => .refl _) fun p hp => by
      rw [List.mem_singleton.mp hp]
      exact Or.inr (Or.inr rfl)
    exact absurd hword.length_eq (by decide)
  · intro h
    have hword := h byteHandler 0x300 0x1234 (fun _ _ => .refl _) fun p hp => by
      rw [List.mem_singleton.mp hp]
      exact ⟨rfl, rfl⟩
    have hsequence := congrArg (fun r => r.2.sequence) hword
    exact absurd hsequence (by decide)

end blumach.io
