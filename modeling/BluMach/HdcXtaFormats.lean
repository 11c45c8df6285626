-- FORMAT of the XTA controllers: when its loop comes to an end, which sectors it writes, and how
-- the command is answered.
import BluMach.HdcXtaSectors

namespace blumach.hdc_xta

open HdcState odometer

/-! ## The loop as it stands -/

/-- The last value of `start_cyl`. Past it, `++start_cyl` is undefined. -/
def INT_MAX : Nat := 2 ^ 31 - 1

/-- From `do_fmt` on: one round, and back again until `start_cyl` meets `end_cyl`. -/
def formatLoop (round : Hdc → Hdc) (end_cyl : Nat) : Nat → Nat → Hdc → Option Hdc
  | 0, _, _ => none
  | fuel + 1, start_cyl, dev =>
    if start_cyl = INT_MAX then none
    else if start_cyl + 1 = end_cyl then some (round dev)
    else formatLoop round end_cyl fuel (start_cyl + 1) (round dev)

section

variable (host : Host) (dev : Hdc)

def startCyl : BitVec 16 := if cmd dev = CMD_FORMAT_DRIVE then 0 else dcbCylinder dev

def endCyl : Nat :=
  if cmd dev = CMD_FORMAT_DRIVE then (drive dev).tracks.toNat else (startCyl dev).toNat + 1

/-- All heads, or the one of the command. -/
def formatRound : Hdc → Hdc :=
  formatHeads host (if cmd dev = CMD_FORMAT_DRIVE then (drive dev).hpc.toNat else 1)
    (if cmd dev = CMD_FORMAT_DRIVE then 0 else dcbHead dev)

/-- The track is sought once, before the loop. -/
def sought : Hdc := { do_seek dev (startCyl dev) with head := dcbHead dev, sector := 0 }

/-- `do_format` returns. -/
def Returns : Prop :=
  ∃ fuel last, formatLoop (formatRound host dev) (endCyl dev) fuel (startCyl dev).toNat
    (sought dev) = some last

end

/-- A loop that counts up to its end takes as many rounds as there are to count. -/
theorem formatLoop_eq (round : Hdc → Hdc) (n start_cyl : Nat) (dev : Hdc)
    (hlt : start_cyl + n < INT_MAX) :
    formatLoop round (start_cyl + (n + 1)) (n + 1) start_cyl dev = some (round^[n + 1] dev) := by
  induction n generalizing start_cyl dev with
  | zero =>
    unfold formatLoop
    rw [if_neg (by omega), if_pos rfl]
    rfl
  | succ n ih =>
    unfold formatLoop
    have hnext := ih (start_cyl + 1) (round dev) (by omega)
    rw [show start_cyl + 1 + (n + 1) = start_cyl + (n + 1 + 1) from by omega] at hnext
    rw [if_neg (by omega), if_neg (by omega), hnext]
    rfl

/-- A loop that starts at its end or past it never meets it. -/
theorem formatLoop_none (round : Hdc → Hdc) {end_cyl start_cyl : Nat} (h : end_cyl ≤ start_cyl)
    (fuel : Nat) (dev : Hdc) : formatLoop round end_cyl fuel start_cyl dev = none := by
  induction fuel generalizing start_cyl dev with
  | zero => rfl
  | succ fuel ih =>
    unfold formatLoop
    split_ifs with hmax
    · rfl
    · omega
    · exact ih (by omega) (round dev)

section

variable {host : Host} {dev : Hdc}

theorem do_format_eq (hidle : dev.state = STATE_IDLE) :
    do_format host dev = (formatRound host dev)^[formatRounds dev] (sought dev) := by
  unfold do_format formatRound sought startCyl
  rw [if_pos hidle]

/-- The loop ends but for a drive without tracks, and then it has done what `do_format` does. -/
theorem returns_iff :
    Returns host dev ↔ (cmd dev = CMD_FORMAT_DRIVE → (drive dev).tracks ≠ 0) := by
  have htracks := (drive dev).tracks.isLt
  have hcyl := (dcbCylinder dev).isLt
  unfold Returns endCyl startCyl
  by_cases hwhole : cmd dev = CMD_FORMAT_DRIVE
  · simp only [if_pos hwhole]
    constructor
    · rintro ⟨fuel, last, hloop⟩ - h0
      rw [h0, formatLoop_none _ (Nat.le_refl _)] at hloop
      cases hloop
    · intro hne
      obtain ⟨n, hn⟩ : ∃ n, (drive dev).tracks.toNat = n + 1 := by
        refine Nat.exists_eq_succ_of_ne_zero fun h0 => hne hwhole (BitVec.eq_of_toNat_eq h0)
      have hloop := formatLoop_eq (formatRound host dev) n 0 (sought dev)
        (by unfold INT_MAX; omega)
      rw [Nat.zero_add] at hloop
      rw [hn]
      exact ⟨n + 1, _, hloop⟩
  · simp only [if_neg hwhole]
    refine iff_of_true ?_ fun hno => absurd hno hwhole
    exact ⟨1, _, formatLoop_eq (formatRound host dev) 0 _ (sought dev)
      (by unfold INT_MAX; omega)⟩

/-! ## The sectors of a round -/

/-- What a format leaves alone. -/
structure Kept (dev dev' : Hdc) : Prop where
  dcb : dev'.dcb = dev.dcb
  drives : dev'.drives = dev.drives
  track : dev'.track = dev.track
  sector_buf : dev'.sector_buf = dev.sector_buf
  comp : dev'.comp = dev.comp
  completions : dev'.completions = dev.completions

variable {dev' dev'' : Hdc}

theorem Kept.refl (dev : Hdc) : Kept dev dev := ⟨rfl, rfl, rfl, rfl, rfl, rfl⟩

theorem Kept.trans (h : Kept dev dev') (h' : Kept dev' dev'') : Kept dev dev'' :=
  ⟨h'.dcb.trans h.dcb, h'.drives.trans h.drives, h'.track.trans h.track,
    h'.sector_buf.trans h.sector_buf, h'.comp.trans h.comp, h'.completions.trans h.completions⟩

theorem Kept.drive (h : Kept dev dev') : drive dev' = drive dev := by
  unfold hdc_xta.drive hdc_xta.drvsel
  rw [h.dcb, h.drives]

/-- The sector buffer goes to these sectors of the drive. -/
def fills (dev : Hdc) (first n : Nat) : List Touch :=
  (List.range' first n).map fun a => .write (drive dev).hdd_num a dev.sector_buf

theorem Kept.fills (h : Kept dev dev') (first n : Nat) :
    fills dev' first n = fills dev first n := by
  unfold hdc_xta.fills
  rw [h.drive, h.sector_buf]

theorem fills_append (dev : Hdc) (first n m : Nat) :
    fills dev first n ++ fills dev (first + n) m = fills dev first (n + m) := by
  unfold fills
  rw [← List.map_append, List.range'_append_1]

/-- These sectors have been written besides, and no other ones. -/
structure Filled (dev dev' : Hdc) (first n : Nat) : Prop where
  kept : Kept dev dev'
  touched : dev'.touched = dev.touched ++ fills dev first n

theorem Filled.none (h : Kept dev dev') (ht : dev'.touched = dev.touched) (first : Nat) :
    Filled dev dev' first 0 := ⟨h, ht.trans (List.append_nil _).symm⟩

theorem Filled.append {first n m : Nat} (h : Filled dev dev' first n)
    (h' : Filled dev' dev'' (first + n) m) : Filled dev dev'' first (n + m) := by
  refine ⟨h.kept.trans h'.kept, ?_⟩
  rw [h'.touched, h.touched, h.kept.fills, List.append_assoc, fills_append]

/-- The number of the first sector of a track. -/
def trackStart (dev : Hdc) (head : Nat) : Nat :=
  (dev.track.toNat * (drive dev).hpc.toNat + head) * (drive dev).spt.toNat

theorem get_sector_here (hcur : (drive dev).cur_cyl = dev.track)
    (hhead : dev.head < (drive dev).hpc) (hsector : dev.sector < (drive dev).spt) :
    get_sector dev = (dev, some (trackStart dev dev.head.toNat + dev.sector.toNat)) := by
  unfold get_sector
  rw [if_neg (not_not.mpr hcur), if_neg (BitVec.not_le.mpr hhead),
    if_neg (BitVec.not_le.mpr hsector)]
  rfl

theorem get_sector_not_here
    (h : (drive dev).cur_cyl ≠ dev.track ∨ ¬dev.head < (drive dev).hpc) :
    get_sector dev = ({ dev with sense := ERR_ILLADDR }, none) := by
  unfold get_sector
  rcases h with hcur | hhead
  · rw [if_pos hcur]
  · rw [if_pos (BitVec.not_lt.mp hhead)]
    split_ifs <;> rfl

/-- Whether the image took a sector only shows in the sense byte. -/
theorem formatSectors_succ {h s : Byte} (hcur : (drive dev).cur_cyl = dev.track)
    (hhead : h < (drive dev).hpc) (hs : s < (drive dev).spt) (n : Nat) :
    ∃ next, formatSectors host h (n + 1) s dev = formatSectors host h n (s + 1) next ∧
      Filled dev next (trackStart dev h.toNat + s.toNat) 1 := by
  have hget : get_sector { dev with head := h, sector := s } =
      ({ dev with head := h, sector := s }, some (trackStart dev h.toNat + s.toNat)) :=
    @get_sector_here { dev with head := h, sector := s } hcur hhead hs
  rw [formatSectors, hget]
  refine ⟨_, rfl, ?_⟩
  simp only
  split_ifs
  · exact ⟨⟨rfl, rfl, rfl, rfl, rfl, rfl⟩, rfl⟩
  · exact ⟨⟨rfl, rfl, rfl, rfl, rfl, rfl⟩, rfl⟩

theorem Kept.trackStart (h : Kept dev dev') (head : Nat) :
    trackStart dev' head = trackStart dev head := by
  unfold hdc_xta.trackStart
  rw [h.drive, h.track]

/-- The sectors of a track that is there are written one after another. -/
theorem formatSectors_found {h s : Byte} {n : Nat} (hcur : (drive dev).cur_cyl = dev.track)
    (hhead : h < (drive dev).hpc) (hn : s.toNat + n ≤ (drive dev).spt.toNat) :
    Filled dev (formatSectors host h n s dev) (trackStart dev h.toNat + s.toNat) n := by
  induction n generalizing s dev with
  | zero => exact .none (.refl dev) rfl _
  | succ n ih =>
    have hs : s < (drive dev).spt := by
      rw [BitVec.lt_def]
      omega
    have hnext : (s + 1).toNat = s.toNat + 1 := toNat_succ_of_lt (by decide) hs
    obtain ⟨next, heq, hfirst⟩ := @formatSectors_succ host dev h s hcur hhead hs n
    have hdrive := hfirst.kept.drive
    have hrest := @ih next (s + 1) (by rw [hdrive, hfirst.kept.track]; exact hcur)
      (by rw [hdrive]; exact hhead) (by rw [hdrive]; omega)
    rw [hfirst.kept.trackStart, hnext, ← Nat.add_assoc] at hrest
    rw [heq, Nat.add_comm n 1]
    exact hfirst.append hrest

/-- On a track that is not there nothing is written. -/
theorem formatSectors_lost {h s : Byte}
    (hlost : (drive dev).cur_cyl ≠ dev.track ∨ ¬h < (drive dev).hpc) (n first : Nat) :
    Filled dev (formatSectors host h n s dev) first 0 := by
  cases n with
  | zero => exact .none (.refl dev) rfl _
  | succ n =>
    have hget : get_sector { dev with head := h, sector := s } = _ :=
      @get_sector_not_here { dev with head := h, sector := s } hlost
    have hkept : Kept dev { dev with head := h, sector := s, sense := ERR_ILLADDR } :=
      ⟨rfl, rfl, rfl, rfl, rfl, rfl⟩
    rw [formatSectors, hget]
    exact .none hkept rfl _

/-- The heads of a cylinder that is there, from one on. -/
theorem formatHeads_found {h : Byte} {n : Nat} (hcur : (drive dev).cur_cyl = dev.track)
    (hn : h.toNat + n ≤ (drive dev).hpc.toNat) :
    Filled dev (formatHeads host n h dev) (trackStart dev h.toNat)
      (n * (drive dev).spt.toNat) := by
  induction n generalizing h dev with
  | zero =>
    rw [Nat.zero_mul]
    exact .none (.refl dev) rfl _
  | succ n ih =>
    have hhead : h < (drive dev).hpc := by
      rw [BitVec.lt_def]
      omega
    have hnext : (h + 1).toNat = h.toNat + 1 := toNat_succ_of_lt (by decide) hhead
    have hfirst := @formatSectors_found host dev h 0 (drive dev).spt.toNat hcur hhead
      (Nat.zero_add _).le
    have hdrive := hfirst.kept.drive
    have hrest := @ih (formatSectors host h (drive dev).spt.toNat 0 dev) (h + 1)
      (by rw [hdrive, hfirst.kept.track]; exact hcur) (by rw [hdrive]; omega)
    have htrack : trackStart dev (h.toNat + 1) =
        trackStart dev h.toNat + (drive dev).spt.toNat := by
      unfold trackStart
      ring
    rw [hfirst.kept.trackStart, hnext, htrack, hdrive] at hrest
    have hzero : (0 : Byte).toNat = 0 := rfl
    rw [hzero, Nat.add_zero] at hfirst
    rw [Nat.succ_mul, Nat.add_comm (n * _)]
    exact hfirst.append hrest

theorem formatHeads_lost {h : Byte} {n : Nat}
    (hlost : (drive dev).cur_cyl ≠ dev.track ∨ n ≤ 1 ∧ ¬h < (drive dev).hpc) (first : Nat) :
    Filled dev (formatHeads host n h dev) first 0 := by
  induction n generalizing h dev with
  | zero => exact .none (.refl dev) rfl _
  | succ n ih =>
    have hfirst : Filled dev (formatSectors host h (drive dev).spt.toNat 0 dev) first 0 :=
      formatSectors_lost (hlost.imp_right fun hhead => hhead.2) _ first
    rcases hlost with hcur | ⟨hle, -⟩
    · have hrest := @ih (formatSectors host h (drive dev).spt.toNat 0 dev) (h + 1)
        (.inl (by rw [hfirst.kept.drive, hfirst.kept.track]; exact hcur))
      exact hfirst.append hrest
    · obtain rfl : n = 0 := by omega
      exact hfirst

/-! ## The whole command -/

/-- The seek changes nothing but the track, and the cylinder that the drive is on. -/
theorem sought_drive (dev : Hdc) : drive (sought dev) =
    { drive dev with
      cur_cyl := if startCyl dev ≥ (drive dev).tracks then (drive dev).tracks - 1
        else startCyl dev } := Function.update_self ..

theorem fills_sought (dev : Hdc) (first n : Nat) :
    fills (sought dev) first n = fills dev first n := by
  unfold fills
  rw [sought_drive]
  rfl

theorem startCyl_lt (dev : Hdc) : (startCyl dev).toNat < 1024 := by
  unfold startCyl
  split_ifs
  · decide
  · exact dcbCylinder_lt dev

/-- The drive finds the track just when it has it. -/
theorem sought_iff :
    (drive (sought dev)).cur_cyl = (sought dev).track ↔ startCyl dev < (drive dev).tracks := by
  rw [sought_drive, show (sought dev).track = startCyl dev from rfl]
  simp only
  have hsmall := startCyl_lt dev
  have htracks := (drive dev).tracks.isLt
  by_cases hge : startCyl dev ≥ (drive dev).tracks
  · rw [if_pos hge]
    rw [ge_iff_le, BitVec.le_def] at hge
    refine iff_of_false (fun hcur => ?_) (by rw [BitVec.lt_def]; omega)
    have hnat := congrArg BitVec.toNat hcur
    rw [BitVec.toNat_sub, show (1 : BitVec 16).toNat = 1 from rfl] at hnat
    omega
  · rw [if_neg hge]
    exact iff_of_true rfl (BitVec.not_le.mp hge)

/-- The same sectors again, round after round. -/
theorem filled_iterate {round : Hdc → Hdc} {first n : Nat}
    (h : ∀ d, Kept dev d → Filled d (round d) first n) (k : Nat) :
    Kept dev (round^[k] dev) ∧
      (round^[k] dev).touched = dev.touched ++ (List.replicate k (fills dev first n)).flatten := by
  induction k with
  | zero => exact ⟨.refl dev, (List.append_nil _).symm⟩
  | succ k ih =>
    obtain ⟨hkept, htouched⟩ := ih
    have hround := h _ hkept
    rw [Function.iterate_succ_apply']
    refine ⟨hkept.trans hround.kept, ?_⟩
    rw [hround.touched, htouched, hkept.fills, List.replicate_succ', List.flatten_append,
      List.append_assoc, List.flatten_singleton]

/-- What a command that formats leaves: these accesses to the image, and its completion byte. -/
def Answered (host : Host) (dev : Hdc) (new : List Touch) (c : Byte) : Prop :=
  ∃ last, step dev (.callback host) = .ok last ∧ last.touched = dev.touched ++ new ∧
    last.completions = dev.completions ++ [c]

/-- The whole drive is formatted: the loop ends, and each sector is written once. -/
def FormatsDrive (dev : Hdc) : Prop :=
  ∀ host, Returns host (called dev) ∧
    ∃ new c, Answered host dev new c ∧ new.Perm (fills dev 0 (size dev))

/-- The address in the device control block is one of the drive. -/
def TrackInside (dev : Hdc) : Prop :=
  dcbCylinder dev < (drive dev).tracks ∧ dcbHead dev < (drive dev).hpc

instance : Decidable (TrackInside dev) := inferInstanceAs (Decidable (_ ∧ _))

/-- The number of its first sector. -/
def trackFirst (dev : Hdc) : Nat :=
  ((dcbCylinder dev).toNat * (drive dev).hpc.toNat + (dcbHead dev).toNat) * (drive dev).spt.toNat

/-- One track is formatted, or the address is refused. -/
def FormatsTrack (dev : Hdc) : Prop :=
  ∀ host, Returns host (called dev) ∧ ∃ new c, Answered host dev new c ∧
    if TrackInside dev then new = fills dev (trackFirst dev) (drive dev).spt.toNat
    else new = [] ∧ c &&& COMP_ERR ≠ 0

theorem run_format (hcmd : cmd dev = CMD_FORMAT_DRIVE ∨ cmd dev = CMD_FORMAT_TRACK) :
    runCommand host dev = .ok (cmd_format host dev) := by
  unfold runCommand
  rcases hcmd with h | h
  · simp only [h]
    rfl
  · simp only [h]
    rfl

theorem callback_format (ht : dev.timer = true)
    (hcmd : cmd dev = CMD_FORMAT_DRIVE ∨ cmd dev = CMD_FORMAT_TRACK)
    (hpresent : (drive dev).present = true) (hidle : dev.state = STATE_IDLE) :
    step dev (.callback host) =
      .ok (set_intr ((formatRound host dev)^[formatRounds dev] (sought (called dev)))) := by
  rw [callback_eq ht, @run_format host (called dev) hcmd]
  have hthere : (drive (called dev)).present = true := hpresent
  unfold cmd_format
  rw [if_pos hthere, @do_format_eq host (called dev) hidle]
  rfl

/-- What the command is as a whole, from what it has written. -/
theorem answered_iff {new : List Touch} {c : Byte} (ht : dev.timer = true)
    (hcmd : cmd dev = CMD_FORMAT_DRIVE ∨ cmd dev = CMD_FORMAT_TRACK)
    (hpresent : (drive dev).present = true) (hidle : dev.state = STATE_IDLE) {written : List Touch}
    (hkept : Kept (sought (called dev))
      ((formatRound host dev)^[formatRounds dev] (sought (called dev))))
    (htouched : ((formatRound host dev)^[formatRounds dev] (sought (called dev))).touched =
      dev.touched ++ written) :
    Answered host dev new c ↔ new = written ∧ c = goodByte dev := by
  have hcallback := @callback_format host dev ht hcmd hpresent hidle
  have hcomp := hkept.comp
  have hcompletions := hkept.completions
  generalize (formatRound host dev)^[formatRounds dev] (sought (called dev)) = done at *
  have hends : (set_intr done).completions = dev.completions ++ [goodByte dev] := by
    change done.completions ++ [done.comp] = _
    rw [hcomp, hcompletions]
    rfl
  constructor
  · rintro ⟨last, hlast, hnew, hc⟩
    obtain rfl := Except.ok.inj (hcallback.symm.trans hlast)
    refine ⟨List.append_cancel_left (hnew.symm.trans htouched), ?_⟩
    exact List.singleton_inj.mp (List.append_cancel_left (hc.symm.trans hends))
  · rintro ⟨rfl, rfl⟩
    exact ⟨_, hcallback, htouched, hends⟩

/-! ## A track -/

theorem goodByte_err (dev : Hdc) : goodByte dev &&& COMP_ERR = 0 := by
  unfold goodByte
  split_ifs <;> decide

theorem track_not_drive (hcmd : cmd dev = CMD_FORMAT_TRACK) : ¬cmd dev = CMD_FORMAT_DRIVE := by
  rw [hcmd]
  decide

/-- One round for one head: the track, or nothing. -/
theorem answered_track (ht : dev.timer = true) (hcmd : cmd dev = CMD_FORMAT_TRACK)
    (hpresent : (drive dev).present = true) (hidle : dev.state = STATE_IDLE) (new : List Touch)
    (c : Byte) :
    Answered host dev new c ↔
      new = (if TrackInside dev then fills dev (trackFirst dev) (drive dev).spt.toNat else []) ∧
        c = goodByte dev := by
  have hno := track_not_drive hcmd
  have hstart : startCyl (called dev) = dcbCylinder dev := if_neg hno
  have hcalled : drive (called dev) = drive dev := rfl
  have hround : formatRound host dev = formatHeads host 1 (dcbHead dev) := by
    unfold formatRound
    rw [if_neg hno, if_neg hno]
  have hrounds : formatRounds dev = 1 := if_neg hno
  have hsought := @sought_iff (called dev)
  rw [hstart, hcalled] at hsought
  have hdrive := sought_drive (called dev)
  have hhpc : (drive (sought (called dev))).hpc = (drive dev).hpc := by rw [hdrive]; rfl
  have hspt : (drive (sought (called dev))).spt = (drive dev).spt := by rw [hdrive]; rfl
  have hone : ∀ {first n}, Filled (sought (called dev))
      (formatHeads host 1 (dcbHead dev) (sought (called dev))) first n →
      (Answered host dev new c ↔ new = fills dev first n ∧ c = goodByte dev) := by
    intro first n hfilled
    refine answered_iff ht (.inr hcmd) hpresent hidle ?_ ?_
    · rw [hround, hrounds]
      exact hfilled.kept
    · rw [hround, hrounds]
      exact hfilled.touched.trans (congrArg (_ ++ ·) (fills_sought (called dev) first n))
  by_cases hinside : TrackInside dev
  · rw [if_pos hinside]
    have hheads := @formatHeads_found host (sought (called dev)) (dcbHead dev) 1
      (hsought.mpr hinside.1) (by rw [hhpc]; exact hinside.2)
    have hfirst : trackStart (sought (called dev)) (dcbHead dev).toNat = trackFirst dev := by
      unfold trackStart trackFirst
      rw [hhpc, hspt, show (sought (called dev)).track = dcbCylinder dev from hstart]
    rw [hfirst, hspt, Nat.one_mul] at hheads
    exact hone hheads
  · rw [if_neg hinside]
    refine @hone 0 0 (formatHeads_lost ?_ 0)
    by_cases hcur : dcbCylinder dev < (drive dev).tracks
    · refine .inr ⟨Nat.le_refl 1, fun hhead => hinside ⟨hcur, ?_⟩⟩
      rwa [hhpc] at hhead
    · exact .inl fun hfound => hcur (hsought.mp hfound)

theorem formatsTrack_iff (ht : dev.timer = true) (hcmd : cmd dev = CMD_FORMAT_TRACK)
    (hpresent : (drive dev).present = true) (hidle : dev.state = STATE_IDLE) :
    FormatsTrack dev ↔ TrackInside dev := by
  constructor
  · intro h
    by_contra hout
    obtain ⟨-, new, c, hanswered, hwell⟩ := h serving
    rw [if_neg hout] at hwell
    obtain ⟨-, rfl⟩ := (answered_track ht hcmd hpresent hidle new c).mp hanswered
    exact hwell.2 (goodByte_err dev)
  · intro hinside host
    refine ⟨returns_iff.mpr fun hno => absurd hno (track_not_drive hcmd), _, _,
      (answered_track ht hcmd hpresent hidle _ _).mpr ⟨rfl, rfl⟩, ?_⟩
    rw [if_pos hinside, if_pos hinside]

/-! ## A drive -/

/-- Each round writes the first cylinder, once for each track of the drive. -/
theorem answered_drive (ht : dev.timer = true) (hcmd : cmd dev = CMD_FORMAT_DRIVE)
    (hpresent : (drive dev).present = true) (hidle : dev.state = STATE_IDLE)
    (hpos : (drive dev).tracks ≠ 0) (new : List Touch) (c : Byte) :
    Answered host dev new c ↔
      new = (List.replicate (drive dev).tracks.toNat
        (fills dev 0 ((drive dev).hpc.toNat * (drive dev).spt.toNat))).flatten ∧
        c = goodByte dev := by
  have htracks := (drive dev).tracks.isLt
  have hne : (drive dev).tracks.toNat ≠ 0 := fun h0 => hpos (BitVec.eq_of_toNat_eq h0)
  have hstart : startCyl (called dev) = 0 := if_pos hcmd
  have hrounds : formatRounds dev = (drive dev).tracks.toNat := by
    unfold formatRounds
    rw [if_pos hcmd]
    omega
  have hround : formatRound host dev = formatHeads host (drive dev).hpc.toNat 0 := by
    unfold formatRound
    rw [if_pos hcmd, if_pos hcmd]
  have hcur : (drive (sought (called dev))).cur_cyl = (sought (called dev)).track := by
    refine sought_iff.mpr ?_
    rw [hstart, BitVec.lt_def]
    exact Nat.pos_of_ne_zero hne
  have hdrive := sought_drive (called dev)
  have hhpc : (drive (sought (called dev))).hpc = (drive dev).hpc := by rw [hdrive]; rfl
  have hspt : (drive (sought (called dev))).spt = (drive dev).spt := by rw [hdrive]; rfl
  have hfilled : ∀ d, Kept (sought (called dev)) d → Filled d (formatRound host dev d) 0
      ((drive dev).hpc.toNat * (drive dev).spt.toNat) := by
    intro d hkept
    have hheads := @formatHeads_found host d 0 (drive dev).hpc.toNat
      (by rw [hkept.drive, hkept.track]; exact hcur)
      (by rw [hkept.drive, hhpc]; exact (Nat.zero_add _).le)
    have hfirst : trackStart d (0 : Byte).toNat = 0 := by
      unfold trackStart
      rw [hkept.track, show (sought (called dev)).track = 0 from hstart]
      simp
    rw [hround]
    rw [hfirst, hkept.drive, hspt] at hheads
    exact hheads
  obtain ⟨hkept, htouched⟩ := filled_iterate hfilled (drive dev).tracks.toNat
  refine answered_iff ht (.inl hcmd) hpresent hidle ?_ ?_
  · rw [hrounds]
    exact hkept
  · rw [hrounds, htouched, fills_sought]
    rfl

theorem mem_fills {t : Touch} {first n : Nat} :
    t ∈ fills dev first n ↔
      ∃ a, (first ≤ a ∧ a < first + n) ∧ .write (drive dev).hdd_num a dev.sector_buf = t := by
  unfold fills
  rw [List.mem_map]
  simp only [List.mem_range'_1]

/-- The first cylinder over and over is each sector once only where the two are the same. -/
theorem rounds_perm_iff (hpos : (drive dev).tracks ≠ 0) :
    (List.replicate (drive dev).tracks.toNat
      (fills dev 0 ((drive dev).hpc.toNat * (drive dev).spt.toNat))).flatten.Perm
        (fills dev 0 (size dev)) ↔
      (drive dev).tracks = 1 ∨ (drive dev).hpc.toNat * (drive dev).spt.toNat = 0 := by
  have hne : (drive dev).tracks.toNat ≠ 0 := fun h0 => hpos (BitVec.eq_of_toNat_eq h0)
  have hsize : size dev =
      (drive dev).tracks.toNat * ((drive dev).hpc.toNat * (drive dev).spt.toNat) :=
    Nat.mul_assoc ..
  constructor
  · intro hperm
    by_contra hno
    obtain ⟨hmany, hsome⟩ := not_or.mp hno
    have htwo : 2 ≤ (drive dev).tracks.toNat := by
      have hone : (drive dev).tracks.toNat ≠ 1 := fun h1 => hmany (BitVec.eq_of_toNat_eq h1)
      omega
    -- the first sector of the second cylinder
    have hlater : .write (drive dev).hdd_num ((drive dev).hpc.toNat * (drive dev).spt.toNat)
        dev.sector_buf ∈ fills dev 0 (size dev) := by
      refine mem_fills.mpr ⟨_, ⟨Nat.zero_le _, ?_⟩, rfl⟩
      have hdouble := Nat.mul_le_mul_right ((drive dev).hpc.toNat * (drive dev).spt.toNat) htwo
      omega
    obtain ⟨l, hl, hin⟩ := List.mem_flatten.mp (hperm.mem_iff.mpr hlater)
    rw [List.eq_of_mem_replicate hl] at hin
    obtain ⟨a, ⟨-, hlt⟩, ha⟩ := mem_fills.mp hin
    obtain ⟨-, rfl, -⟩ := Touch.write.inj ha
    omega
  · rintro (h1 | h0)
    · rw [hsize, h1]
      simp
    · rw [hsize, h0, Nat.mul_zero]
      simp [fills]

theorem formatsDrive_iff (ht : dev.timer = true) (hcmd : cmd dev = CMD_FORMAT_DRIVE)
    (hpresent : (drive dev).present = true) (hidle : dev.state = STATE_IDLE) :
    FormatsDrive dev ↔ (drive dev).tracks = 1 ∨
      (drive dev).tracks ≠ 0 ∧ (drive dev).hpc.toNat * (drive dev).spt.toNat = 0 := by
  constructor
  · intro h
    obtain ⟨hreturns, new, c, hanswered, hperm⟩ := h serving
    have hpos : (drive dev).tracks ≠ 0 := (@returns_iff serving (called dev)).mp hreturns hcmd
    obtain ⟨rfl, -⟩ := (answered_drive ht hcmd hpresent hidle hpos new c).mp hanswered
    exact ((rounds_perm_iff hpos).mp hperm).imp_right fun h0 => ⟨hpos, h0⟩
  · intro h host
    have hpos : (drive dev).tracks ≠ 0 := by
      rcases h with h1 | ⟨hpos, -⟩
      · rw [h1]
        decide
      · exact hpos
    refine ⟨returns_iff.mpr fun _ => hpos, _, _,
      (answered_drive ht hcmd hpresent hidle hpos _ _).mpr ⟨rfl, rfl⟩, ?_⟩
    exact (rounds_perm_iff hpos).mpr (h.imp_right fun h0 => h0.2)

end

/-- A drive is formatted as it should be just when its one cylinder is all of it, or when it has
tracks but no sectors. A track is just when it is one of the drive. -/
theorem formats_are_as_they_should_be_iff (dev : Hdc) (ht : dev.timer = true)
    (hidle : dev.state = STATE_IDLE) (hpresent : (drive dev).present = true) :
    (cmd dev = CMD_FORMAT_DRIVE → (FormatsDrive dev ↔ (drive dev).tracks = 1 ∨
      (drive dev).tracks ≠ 0 ∧ (drive dev).hpc.toNat * (drive dev).spt.toNat = 0)) ∧
    (cmd dev = CMD_FORMAT_TRACK → (FormatsTrack dev ↔ TrackInside dev)) :=
  ⟨fun hcmd => formatsDrive_iff ht hcmd hpresent hidle,
    fun hcmd => formatsTrack_iff ht hcmd hpresent hidle⟩

/-- A device control block, byte after byte. -/
def sends (b0 b1 b2 b3 b4 b5 : Byte) : List Op :=
  [.write 0x322 0, .write 0x320 b0, .write 0x320 b1, .write 0x320 b2, .write 0x320 b3,
    .write 0x320 b4, .write 0x320 b5]

/-- The last track of a drive of 615 cylinders is formatted. -/
theorem the_last_track_is_formatted : ∃ dev,
    (sends 0x06 0x03 0x80 0x66 0 0).foldlM step (initial 0 0xff oneDrive) = .ok dev ∧
      FormatsTrack dev := by
  refine ⟨_, rfl, ?_⟩
  refine ((formats_are_as_they_should_be_iff _ rfl rfl rfl).2 rfl).mpr ?_
  decide +kernel

/-- Of a drive only the first cylinder is written, a track that is not there ends without an error,
and a drive that is said to have no tracks is formatted without end. -/
theorem formats_are_not_as_they_should_be :
    (∃ dev, (sends 0x04 0 0 0 0 0).foldlM step (initial 0 0xff oneDrive) = .ok dev ∧
      ¬FormatsDrive dev) ∧
    (∃ dev, (sends 0x06 0 0x80 0x67 0 0).foldlM step (initial 0 0xff oneDrive) = .ok dev ∧
      ¬FormatsTrack dev) ∧
    ∃ dev, (sends 0x0c 0 0 0 0 0 ++ [Op.callback quiet] ++ List.replicate 8 (Op.write 0x320 0) ++
        [Op.callback quiet, Op.read 0x320] ++ sends 0x04 0 0 0 0 0).foldlM step
          (initial 0 0xff oneDrive) = .ok dev ∧ ¬Returns quiet (called dev) := by
  refine ⟨⟨_, rfl, ?_⟩, ⟨_, rfl, ?_⟩, ⟨_, rfl, ?_⟩⟩
  · rw [formatsDrive_iff rfl rfl rfl rfl]
    decide +kernel
  · rw [formatsTrack_iff rfl rfl rfl rfl]
    decide +kernel
  · rw [returns_iff]
    decide +kernel

end blumach.hdc_xta
