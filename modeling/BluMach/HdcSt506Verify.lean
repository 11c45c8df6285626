-- VERIFY: the addresses that it checks, and how often it completes.
import BluMach.HdcSt506Formats

namespace blumach.hdc_st506_xt

open HdcState odometer

/-! ## The addresses of the command -/

section

variable (dev : Hdc) (drive : Drive)

/-- As many addresses as the command counts, from its first one on. -/
def addressed : List Nat := List.range' (firstSector dev drive) (sectorCount dev)

/-- The addresses that the drive has. The T3200 knows its physical geometry besides. -/
def Right (a : Nat) : Prop :=
  InTrack drive (start dev drive) ∧ a < size drive ∧
    (dev.type = ST506_XT_TYPE_TOSHIBA_T3200 → Physical drive a)

instance (a : Nat) : Decidable (Right dev drive a) := inferInstanceAs (Decidable (_ ∧ _ ∧ _))

def AllRight : Prop := ∀ a ∈ addressed dev drive, Right dev drive a

instance : Decidable (AllRight dev drive) :=
  inferInstanceAs (Decidable (∀ a ∈ addressed dev drive, Right dev drive a))

/-- The addresses to check: all of them, or up to the first one that the drive does not have. -/
def due : List Nat :=
  (addressed dev drive).take ((addressed dev drive).findIdx (fun a => ¬Right dev drive a) + 1)

end

/-- The places that VERIFY asks `get_sector` about, callback after callback. -/
def asked : Hdc → List Host → List Place
  | _, [] => []
  | dev, host :: hosts =>
    (if dev.state = STATE_SEND_DATA then [place dev] else []) ++
      match st506_callback host dev with
      | .ok next => asked next hosts
      | .error _ => []

/-- The command ends once, without an error when all of its addresses are right, and else with the
error for an address. -/
def Completes (dev : Hdc) (drive : Drive) : Prop :=
  ∀ hosts : List Host, sectorCount dev + 2 ≤ hosts.length →
    ∃ last c, callbacks dev hosts = .ok last ∧ last.completions = dev.completions ++ [c] ∧
      if AllRight dev drive then c &&& 0x02 = 0
      else c &&& 0x02 ≠ 0 ∧ last.error = ERR_ILLEGAL_ADDR

/-- Besides, the addresses are checked that are to be, in order, and no other ones. -/
def Verifies (dev : Hdc) (drive : Drive) : Prop :=
  Completes dev drive ∧ ∀ hosts : List Host, sectorCount dev + 2 ≤ hosts.length →
    (asked dev hosts).map (lba drive) = due dev drive

/-! ## One turn -/

theorem get_sector_illegal {drive : Drive} {dev : Hdc} (hpresent : drive.present = true)
    (h : ¬Found dev.type drive (place dev)) :
    get_sector drive dev = ({ dev with error := ERR_ILLEGAL_ADDR }, none) := by
  obtain ⟨err, herr⟩ := get_sector_lost h
  unfold get_sector at herr ⊢
  rw [if_neg (by rw [hpresent]; nofun)] at herr ⊢
  split_ifs at herr ⊢
  · rfl
  · rfl
  · rfl
  · exact absurd (congrArg (·.2) herr) (by simp)

theorem rests_verify {dev : Hdc} (hcommand : decode (dev.command.get 0) = .verify) :
    Rests (decode (dev.command.get 0)) := by
  rw [hcommand]
  intro host dev' hstate
  unfold execute verify
  simp only [hstate]

theorem callback_verify {dev dev0 : Hdc} (host : Host) (h : dev.command = dev0.command)
    (hcommand : decode (dev0.command.get 0) = .verify) :
    st506_callback host dev = verify (preset dev) := by
  rw [callback_eq host h, hcommand]
  rfl

section

variable (dev0 : Hdc) (drive0 : Drive)

/-- So many addresses have been checked. -/
structure Verifying (k : Nat) (dev : Hdc) : Prop where
  here : Here dev0 drive0 k dev
  state : dev.state = STATE_SEND_DATA
  count : dev.count = (sectorCount dev0 : Int) - k

/-- The command is over, with these completion bytes. -/
structure Ended (cs : List Byte) (dev : Hdc) : Prop where
  state : dev.state = STATE_COMPLETION_BYTE
  command : dev.command = dev0.command
  completions : dev.completions = dev0.completions ++ cs

end

section

variable {dev0 dev : Hdc} {drive0 : Drive} {k : Nat}

/-- `st506_complete` ends the command, with one byte more. -/
theorem ended_complete {cs : List Byte} (hcommand : dev.command = dev0.command)
    (hcompletions : dev.completions = dev0.completions ++ cs) :
    Ended dev0 (cs ++ [dev.compl]) (st506_complete dev) where
  state := rfl
  command := hcommand
  completions := by
    rw [← List.append_assoc, ← hcompletions]
    rfl

theorem Ended.moved {cs : List Byte} (h : Ended dev0 cs dev) (q : Position) (drive : Drive) :
    Ended dev0 cs (setDrive (moveTo dev q) drive) :=
  ⟨h.state, h.command, h.completions⟩

theorem verify_start (hcommand : decode (dev0.command.get 0) = .verify)
    (hstate : dev0.state = STATE_START_COMMAND)
    (hdrive : dev0.drives[driveSel dev0]? = some drive0) (host : Host) :
    ∃ next, st506_callback host dev0 = .ok next ∧ Verifying dev0 drive0 0 next := by
  have hwaiting : Waiting dev0 drive0 dev0 := ⟨hstate, rfl, rfl, rfl, hdrive, rfl, rfl⟩
  obtain ⟨next, b, hchs, hhere, hcount, -⟩ := here_start hwaiting
  have hstart : (preset dev0).state = STATE_START_COMMAND := hstate
  rw [callback_verify host rfl hcommand]
  unfold verify
  simp only [hstart]
  rw [withDrive_some (drive_preset rfl hdrive), hchs]
  refine ⟨_, rfl, ⟨hhere.type, hhere.command, hhere.place, hhere.drive, hhere.completions⟩, rfl, ?_⟩
  exact hcount.trans (Int.sub_zero _).symm

/-- The end of the count changes nothing that the address depends on. -/
theorem verifyTurn_same (dev : Hdc) :
    (verifyTurn dev).type = dev.type ∧ (verifyTurn dev).command = dev.command ∧
      place (verifyTurn dev) = place dev ∧ (verifyTurn dev).drives = dev.drives ∧
      (verifyTurn dev).drive_sel = dev.drive_sel ∧ (verifyTurn dev).count = dev.count - 1 := by
  unfold verifyTurn
  split_ifs <;> exact ⟨rfl, rfl, rfl, rfl, rfl, rfl⟩

/-- A turn of a command asks for the address that it is at. -/
theorem verify_turn (hcommand : decode (dev0.command.get 0) = .verify)
    (hpresent : drive0.present = true) (h : Verifying dev0 drive0 k dev) (host : Host) :
    (FoundAt dev0 drive0 k → st506_callback host dev =
      .ok (setDrive (moveTo (verifyTurn (preset dev)) (positionAt dev0 drive0 (k + 1)))
        (driveAt dev0 drive0 (k + 1)))) ∧
    (¬FoundAt dev0 drive0 k → st506_callback host dev =
      .ok (fails ERR_ILLEGAL_ADDR
        { verifyTurn (preset dev) with error := ERR_ILLEGAL_ADDR })) := by
  have hstate : (preset dev).state = STATE_SEND_DATA := h.state
  obtain ⟨htype, hcmd, hplace, hdrives, hsel, -⟩ := verifyTurn_same (preset dev)
  have htype' : (verifyTurn (preset dev)).type = dev0.type := htype.trans h.here.type
  have hplace' : place (verifyTurn (preset dev)) = (positionAt dev0 drive0 k).place :=
    hplace.trans h.here.place
  have hdrive : (verifyTurn (preset dev)).drives[(verifyTurn (preset dev)).drive_sel]? =
      some (driveAt dev0 drive0 k) := by
    rw [hdrives, hsel]
    exact drive_preset h.here.command h.here.drive
  have hiff := foundAt_iff hplace' htype'
  rw [callback_verify host h.here.command hcommand]
  unfold verify
  simp only [hstate]
  rw [withDrive_some hdrive]
  constructor
  · intro hf
    rw [get_sector_found (hiff.mpr hf)]
    simp only
    rw [next_sector_at hplace' htype']
  · intro hf
    have habsent : (driveAt dev0 drive0 k).present = true := hpresent
    rw [get_sector_illegal habsent fun hno => hf (hiff.mp hno)]

/-- A turn before the last one. -/
theorem verify_found (hcommand : decode (dev0.command.get 0) = .verify)
    (hpresent : drive0.present = true) (h : Verifying dev0 drive0 k dev)
    (hmore : k < sectorCount dev0) (hf : FoundAt dev0 drive0 k) (host : Host) :
    ∃ next, st506_callback host dev = .ok next ∧ Verifying dev0 drive0 (k + 1) next := by
  have hcount : (preset dev).count = (sectorCount dev0 : Int) - k := h.count
  have hturn : verifyTurn (preset dev) = counted (preset dev) := if_neg (by omega)
  refine ⟨_, (verify_turn hcommand hpresent h host).1 hf, ?_⟩
  rw [hturn]
  have hhere : Here dev0 drive0 k (counted (preset dev)) :=
    ⟨h.here.type, h.here.command, h.here.place, h.here.drive, h.here.completions⟩
  refine ⟨here_next hhere (driveSel_congr h.here.command), h.state, ?_⟩
  change (preset dev).count - 1 = _
  omega

theorem verify_lost (hcommand : decode (dev0.command.get 0) = .verify)
    (hpresent : drive0.present = true) (h : Verifying dev0 drive0 k dev)
    (hmore : k < sectorCount dev0) (hf : ¬FoundAt dev0 drive0 k) (host : Host) :
    ∃ next c, st506_callback host dev = .ok next ∧ Ended dev0 [c] next ∧ c &&& 0x02 ≠ 0 ∧
      next.error = ERR_ILLEGAL_ADDR := by
  have hcount : (preset dev).count = (sectorCount dev0 : Int) - k := h.count
  have hturn : verifyTurn (preset dev) = counted (preset dev) := if_neg (by omega)
  refine ⟨_, (preset dev).compl ||| 0x02, (verify_turn hcommand hpresent h host).2 hf, ?_,
    error_mark _, rfl⟩
  rw [hturn]
  have hbefore : dev.completions = dev0.completions ++ [] := by
    rw [List.append_nil, h.here.completions]
  exact @ended_complete _ (st506_error _ { counted (preset dev) with error := _ }) []
    h.here.command hbefore

/-- The last turn: the command is complete, and one more address is asked for. -/
theorem verify_last (hcommand : decode (dev0.command.get 0) = .verify)
    (hpresent : drive0.present = true) (h : Verifying dev0 drive0 k dev)
    (hlast : k = sectorCount dev0) (host : Host) :
    ∃ next c, st506_callback host dev = .ok next ∧ c &&& 0x02 = 0 ∧
      (FoundAt dev0 drive0 k → Ended dev0 [c] next) ∧
      (¬FoundAt dev0 drive0 k → Ended dev0 [c, c ||| 0x02] next) := by
  have hcount : (preset dev).count = (sectorCount dev0 : Int) - k := h.count
  have hturn : verifyTurn (preset dev) = st506_complete (counted (preset dev)) :=
    if_pos (by omega)
  have hbefore : dev.completions = dev0.completions ++ [] := by
    rw [List.append_nil, h.here.completions]
  have hended : Ended dev0 [(preset dev).compl] (st506_complete (counted (preset dev))) :=
    @ended_complete _ (counted (preset dev)) [] h.here.command hbefore
  have hturns := verify_turn hcommand hpresent h host
  rw [hturn] at hturns
  by_cases hf : FoundAt dev0 drive0 k
  · exact ⟨_, (preset dev).compl, hturns.1 hf, preset_completion, fun _ => hended.moved _ _,
      absurd hf⟩
  · refine ⟨_, (preset dev).compl, hturns.2 hf, preset_completion, fun hno => absurd hno hf,
      fun _ => ?_⟩
    -- the completed command is completed once more
    exact @ended_complete _ (st506_error _
      { st506_complete (counted (preset dev)) with error := _ })
      [_] hended.command hended.completions

/-! ## A whole command -/

theorem asked_cons {next : Hdc} {host : Host} (hosts : List Host)
    (h : st506_callback host dev = .ok next) :
    asked dev (host :: hosts) =
      (if dev.state = STATE_SEND_DATA then [place dev] else []) ++ asked next hosts := by
  rw [asked, h]

/-- A command that is over asks for nothing. -/
theorem asked_ended (hcommand : decode (dev.command.get 0) = .verify)
    (hstate : dev.state = STATE_COMPLETION_BYTE) (hosts : List Host) : asked dev hosts = [] := by
  induction hosts generalizing dev with
  | nil => rfl
  | cons host hosts ih =>
    have hstep : st506_callback host dev = .ok (preset dev) :=
      rests_verify hcommand host (preset dev) hstate
    rw [asked_cons hosts hstep, if_neg (by rw [hstate]; nofun), @ih (preset dev) hcommand hstate]
    rfl

/-- The places of the first addresses. -/
def placesTo (dev : Hdc) (drive : Drive) (k : Nat) : List Place :=
  (List.range k).map fun i => (positionAt dev drive i).place

/-- As long as the addresses are found, one callback after another checks them. -/
theorem verify_reaches (hcommand : decode (dev0.command.get 0) = .verify)
    (hpresent : drive0.present = true) (hstate : dev0.state = STATE_START_COMMAND)
    (hdrive : dev0.drives[driveSel dev0]? = some drive0) (hk : k ≤ sectorCount dev0)
    (hfound : ∀ i < k, FoundAt dev0 drive0 i) {hosts : List Host} (hlen : k + 1 ≤ hosts.length) :
    ∃ next, Verifying dev0 drive0 k next ∧
      callbacks dev0 hosts = callbacks next (hosts.drop (k + 1)) ∧
      asked dev0 hosts = placesTo dev0 drive0 k ++ asked next (hosts.drop (k + 1)) := by
  induction k with
  | zero =>
    obtain ⟨host, rest, rfl⟩ := List.exists_cons_of_length_pos hlen
    obtain ⟨next, hstep, hnext⟩ := verify_start hcommand hstate hdrive host
    refine ⟨next, hnext, callbacks_cons rest hstep, ?_⟩
    rw [asked_cons rest hstep, if_neg (by rw [hstate]; nofun)]
    rfl
  | succ k ih =>
    obtain ⟨dev, hdev, hcallbacks, hasked⟩ :=
      ih (by omega) (fun i hi => hfound i (by omega)) (by omega)
    obtain ⟨next, hstep, hnext⟩ := verify_found hcommand hpresent hdev (by omega)
      (hfound k (Nat.lt_succ_self k)) hosts[k + 1]
    have hdrop : hosts.drop (k + 1) = hosts[k + 1] :: hosts.drop (k + 1 + 1) :=
      List.drop_eq_getElem_cons hlen
    rw [hdrop] at hcallbacks hasked
    refine ⟨next, hnext, hcallbacks.trans (callbacks_cons _ hstep), ?_⟩
    rw [hasked, asked_cons _ hstep, if_pos hdev.state, hdev.here.place]
    unfold placesTo
    rw [List.range_succ, List.map_append, List.append_assoc]
    rfl

/-- The turn after which the command is over. -/
theorem verify_ends {next last : Hdc} {cs : List Byte} {host : Host} {rest : List Host}
    (hcommand : decode (dev0.command.get 0) = .verify) (hnext : Verifying dev0 drive0 k next)
    (hstep : st506_callback host next = .ok last) (hlast : Ended dev0 cs last) :
    (∃ final, callbacks next (host :: rest) = .ok final ∧
      final.completions = dev0.completions ++ cs ∧ final.error = last.error) ∧
    asked next (host :: rest) = [(positionAt dev0 drive0 k).place] := by
  have hdecode : decode (last.command.get 0) = .verify := by
    rw [hlast.command]
    exact hcommand
  obtain ⟨dev', hrun, -, hcompletions, herror⟩ :=
    ended_callbacks (rests_verify hdecode) hlast.state rest
  refine ⟨⟨dev', ?_, hcompletions.trans hlast.completions, herror⟩, ?_⟩
  · rw [callbacks_cons rest hstep]
    exact hrun
  · rw [asked_cons rest hstep, if_pos hnext.state, hnext.here.place,
      asked_ended hdecode hlast.state]
    rfl

/-- How a command ends after the addresses that were found. -/
structure EndsAfter (dev0 : Hdc) (drive0 : Drive) (k : Nat) (hosts : List Host) (cs : List Byte)
    (last : Hdc) : Prop where
  run : callbacks dev0 hosts = .ok last
  completions : last.completions = dev0.completions ++ cs
  asked : asked dev0 hosts = placesTo dev0 drive0 (k + 1)

theorem endsAfter (hcommand : decode (dev0.command.get 0) = .verify) {next last : Hdc}
    {cs : List Byte} {hosts : List Host} (hlen : k + 2 ≤ hosts.length)
    (hnext : Verifying dev0 drive0 k next)
    (hcallbacks : callbacks dev0 hosts = callbacks next (hosts.drop (k + 1)))
    (hasked : asked dev0 hosts = placesTo dev0 drive0 k ++ asked next (hosts.drop (k + 1)))
    (hstep : st506_callback hosts[k + 1] next = .ok last) (hended : Ended dev0 cs last) :
    ∃ final, EndsAfter dev0 drive0 k hosts cs final ∧ final.error = last.error := by
  have hdrop : hosts.drop (k + 1) = hosts[k + 1] :: hosts.drop (k + 1 + 1) :=
    List.drop_eq_getElem_cons hlen
  obtain ⟨⟨final, hrun, hcompletions, herror⟩, hplaces⟩ :=
    @verify_ends _ _ _ _ _ _ _ (hosts.drop (k + 1 + 1)) hcommand hnext hstep hended
  rw [hdrop] at hcallbacks hasked
  refine ⟨final, ⟨hcallbacks.trans hrun, hcompletions, ?_⟩, herror⟩
  rw [hasked, hplaces]
  unfold placesTo
  rw [List.range_succ, List.map_append]
  rfl

/-- An address of the command is refused. -/
theorem ends_refused (hcommand : decode (dev0.command.get 0) = .verify)
    (hpresent : drive0.present = true) (hstate : dev0.state = STATE_START_COMMAND)
    (hdrive : dev0.drives[driveSel dev0]? = some drive0) (hk : k < sectorCount dev0)
    (hfound : ∀ i < k, FoundAt dev0 drive0 i) (hlost : ¬FoundAt dev0 drive0 k)
    {hosts : List Host} (hlen : sectorCount dev0 + 2 ≤ hosts.length) :
    ∃ last c, EndsAfter dev0 drive0 k hosts [c] last ∧ c &&& 0x02 ≠ 0 ∧
      last.error = ERR_ILLEGAL_ADDR := by
  have hlen' : k + 2 ≤ hosts.length := by omega
  obtain ⟨next, hnext, hcallbacks, hasked⟩ := verify_reaches hcommand hpresent hstate hdrive
    (Nat.le_of_lt hk) hfound (Nat.le_of_succ_le hlen')
  obtain ⟨turned, c, hstep, hended, hmark, herr⟩ :=
    verify_lost hcommand hpresent hnext hk hlost hosts[k + 1]
  obtain ⟨last, hlast, herror⟩ := endsAfter hcommand hlen' hnext hcallbacks hasked hstep hended
  exact ⟨last, c, hlast, hmark, herror.trans herr⟩

/-- All addresses of the command are found. The one after them decides whether it ends twice. -/
theorem ends_found (hcommand : decode (dev0.command.get 0) = .verify)
    (hpresent : drive0.present = true) (hstate : dev0.state = STATE_START_COMMAND)
    (hdrive : dev0.drives[driveSel dev0]? = some drive0)
    (hfound : ∀ i < sectorCount dev0, FoundAt dev0 drive0 i)
    {hosts : List Host} (hlen : sectorCount dev0 + 2 ≤ hosts.length) :
    ∃ last c cs, EndsAfter dev0 drive0 (sectorCount dev0) hosts cs last ∧ c &&& 0x02 = 0 ∧
      (FoundAt dev0 drive0 (sectorCount dev0) → cs = [c]) ∧
      (¬FoundAt dev0 drive0 (sectorCount dev0) → cs = [c, c ||| 0x02]) := by
  obtain ⟨next, hnext, hcallbacks, hasked⟩ := verify_reaches hcommand hpresent hstate hdrive
    (Nat.le_refl _) hfound (Nat.le_of_succ_le hlen)
  obtain ⟨turned, c, hstep, hmark, honce, htwice⟩ :=
    verify_last hcommand hpresent hnext rfl hosts[sectorCount dev0 + 1]
  by_cases hf : FoundAt dev0 drive0 (sectorCount dev0)
  · obtain ⟨last, hlast, -⟩ :=
      endsAfter hcommand hlen hnext hcallbacks hasked hstep (honce hf)
    exact ⟨last, c, _, hlast, hmark, fun _ => rfl, absurd hf⟩
  · obtain ⟨last, hlast, -⟩ :=
      endsAfter hcommand hlen hnext hcallbacks hasked hstep (htwice hf)
    exact ⟨last, c, _, hlast, hmark, fun hno => absurd hno hf, fun _ => rfl⟩

/-! ## The addresses that are found -/

/-- The controller refuses the addresses that are not right: the T3200 all of them, the other ones
only a head or a sector that is not in the geometry. -/
def Checked (dev : Hdc) (drive : Drive) : Prop :=
  InTrack drive (start dev drive) → dev.type = ST506_XT_TYPE_TOSHIBA_T3200

instance : Decidable (Checked dev0 drive0) :=
  inferInstanceAs (Decidable (InTrack drive0 (start dev0 drive0) →
    dev0.type = ST506_XT_TYPE_TOSHIBA_T3200))

/-- After addresses that were found, the controller is at the next one, and finds it if it is
right. -/
theorem found_right (hpresent : drive0.present = true) (hchecked : Checked dev0 drive0)
    (hfound : ∀ i < k, FoundAt dev0 drive0 i) :
    sectorAt dev0 drive0 k = firstSector dev0 drive0 + k ∧
      (FoundAt dev0 drive0 k ↔ Right dev0 drive0 (firstSector dev0 drive0 + k)) := by
  by_cases htrack : InTrack drive0 (start dev0 drive0)
  · have ht := hchecked htrack
    refine ⟨lba_t3200 ht htrack k, ?_⟩
    unfold FoundAt positionAt Right
    rw [found_t3200 ht htrack k]
    exact ⟨fun ⟨_, hlt, hphysical⟩ => ⟨htrack, hlt, fun _ => hphysical⟩,
      fun ⟨_, hlt, hphysical⟩ => ⟨hpresent, hlt, hphysical ht⟩⟩
  · have hfirst : ¬FoundAt dev0 drive0 0 := fun hf => htrack (foundAt_zero_iff hf).1
    obtain rfl : k = 0 := by
      by_contra hne
      exact hfirst (hfound 0 (by omega))
    exact ⟨rfl, iff_of_false hfirst fun hright => htrack hright.1⟩

/-- The other controllers find any address. -/
theorem found_all (hpresent : drive0.present = true) (hchecked : ¬Checked dev0 drive0) (k : Nat) :
    FoundAt dev0 drive0 k := by
  unfold Checked at hchecked
  obtain ⟨htrack, ht⟩ := Classical.not_imp.mp hchecked
  exact (found_other ht htrack k).mpr hpresent

theorem allRight_iff : AllRight dev0 drive0 ↔
    ∀ i < sectorCount dev0, Right dev0 drive0 (firstSector dev0 drive0 + i) := by
  unfold AllRight addressed
  constructor
  · intro h i hi
    exact h _ (List.mem_range'_1.mpr (by omega))
  · intro h a ha
    obtain ⟨hle, hlt⟩ := List.mem_range'_1.mp ha
    have hright := h (a - firstSector dev0 drive0) (by omega)
    rwa [Nat.add_sub_cancel' hle] at hright

theorem length_due_le : (due dev0 drive0).length ≤ sectorCount dev0 := by
  unfold due addressed
  rw [List.length_take, List.length_range']
  omega

/-- The addresses up to the first one that is not right. -/
theorem due_refused (hk : k < sectorCount dev0)
    (hright : ∀ i < k, Right dev0 drive0 (firstSector dev0 drive0 + i))
    (hwrong : ¬Right dev0 drive0 (firstSector dev0 drive0 + k)) :
    due dev0 drive0 = List.range' (firstSector dev0 drive0) (k + 1) := by
  have hlen : k < (addressed dev0 drive0).length := by
    unfold addressed
    rwa [List.length_range']
  have hget : ∀ i, ∀ hi : i < (addressed dev0 drive0).length,
      (addressed dev0 drive0)[i] = firstSector dev0 drive0 + i := by
    intro i hi
    exact (List.getElem_range' hi).trans (congrArg _ (Nat.one_mul i))
  have hindex : (addressed dev0 drive0).findIdx (fun a => ¬Right dev0 drive0 a) = k := by
    refine (List.findIdx_eq hlen).mpr ⟨?_, fun i hi => ?_⟩
    · rw [hget]
      exact decide_eq_true hwrong
    · rw [hget]
      exact decide_eq_false fun hno => hno (hright i hi)
  unfold due
  rw [hindex]
  exact List.take_range'_of_length_ge hk

theorem found_of_right (hpresent : drive0.present = true) (hchecked : Checked dev0 drive0)
    (hright : ∀ i < k, Right dev0 drive0 (firstSector dev0 drive0 + i)) :
    ∀ i < k, FoundAt dev0 drive0 i := by
  intro i
  induction i using Nat.strong_induction_on with
  | _ i ih =>
    intro hi
    have hbefore : ∀ l < i, FoundAt dev0 drive0 l := fun l hl => ih l hl (by omega)
    exact (found_right hpresent hchecked hbefore).2.mpr (hright i hi)

/-- The first address that is not right. -/
theorem exists_first_wrong (h : ¬AllRight dev0 drive0) :
    ∃ k < sectorCount dev0, ¬Right dev0 drive0 (firstSector dev0 drive0 + k) ∧
      ∀ i < k, Right dev0 drive0 (firstSector dev0 drive0 + i) := by
  have hsome : ∃ k, k < sectorCount dev0 ∧ ¬Right dev0 drive0 (firstSector dev0 drive0 + k) := by
    by_contra hnone
    refine h (allRight_iff.mpr fun k hk => ?_)
    by_contra hwrong
    exact hnone ⟨k, hk, hwrong⟩
  refine ⟨Nat.find hsome, (Nat.find_spec hsome).1, (Nat.find_spec hsome).2, fun i hi => ?_⟩
  have hmin := Nat.find_min hsome hi
  by_contra hwrong
  exact hmin ⟨hi.trans (Nat.find_spec hsome).1, hwrong⟩

/-! ## When the command is as it should be -/

theorem verifies_refused (hcommand : decode (dev0.command.get 0) = .verify)
    (hpresent : drive0.present = true) (hstate : dev0.state = STATE_START_COMMAND)
    (hdrive : dev0.drives[driveSel dev0]? = some drive0) (hchecked : Checked dev0 drive0)
    (hwrong : ¬AllRight dev0 drive0) : Verifies dev0 drive0 := by
  obtain ⟨k, hk, hno, hright⟩ := exists_first_wrong hwrong
  have hfound := found_of_right hpresent hchecked hright
  have hlost : ¬FoundAt dev0 drive0 k :=
    fun hf => hno ((found_right hpresent hchecked hfound).2.mp hf)
  refine ⟨fun hosts hlen => ?_, fun hosts hlen => ?_⟩
  · obtain ⟨last, c, hends, hmark, herror⟩ :=
      ends_refused hcommand hpresent hstate hdrive hk hfound hlost hlen
    refine ⟨last, c, hends.run, hends.completions, ?_⟩
    rw [if_neg hwrong]
    exact ⟨hmark, herror⟩
  · obtain ⟨last, c, hends, -, -⟩ :=
      ends_refused hcommand hpresent hstate hdrive hk hfound hlost hlen
    rw [hends.asked, due_refused hk hright hno]
    unfold placesTo
    rw [List.map_map, List.range'_eq_map_range]
    refine List.map_congr_left fun i hi => ?_
    have hi' := List.mem_range.mp hi
    exact (found_right hpresent hchecked fun l hl => hfound l (by omega)).1

theorem completes_found (hcommand : decode (dev0.command.get 0) = .verify)
    (hpresent : drive0.present = true) (hstate : dev0.state = STATE_START_COMMAND)
    (hdrive : dev0.drives[driveSel dev0]? = some drive0)
    (hfound : ∀ i < sectorCount dev0, FoundAt dev0 drive0 i) :
    Completes dev0 drive0 ↔ AllRight dev0 drive0 ∧ FoundAt dev0 drive0 (sectorCount dev0) := by
  constructor
  · intro hcompletes
    have hlen : sectorCount dev0 + 2 ≤ (List.replicate (sectorCount dev0 + 2) serving).length :=
      (List.length_replicate).ge
    obtain ⟨last, c, hrun, hcompletions, hmark⟩ := hcompletes _ hlen
    obtain ⟨last', c', cs, hends, hmark', honce, htwice⟩ :=
      ends_found hcommand hpresent hstate hdrive hfound hlen
    obtain rfl := Except.ok.inj (hrun.symm.trans hends.run)
    have hcs : [c] = cs := List.append_cancel_left (hcompletions.symm.trans hends.completions)
    by_cases hf : FoundAt dev0 drive0 (sectorCount dev0)
    · obtain rfl : c = c' := List.singleton_inj.mp (hcs.trans (honce hf))
      refine ⟨?_, hf⟩
      by_contra hwrong
      rw [if_neg hwrong] at hmark
      exact hmark.1 hmark'
    · have hlength := congrArg List.length (hcs.trans (htwice hf))
      exact absurd hlength (by simp)
  · rintro ⟨hall, hf⟩ hosts hlen
    obtain ⟨last, c, cs, hends, hmark, honce, -⟩ :=
      ends_found hcommand hpresent hstate hdrive hfound hlen
    refine ⟨last, c, hends.run, hends.completions.trans (by rw [honce hf]), ?_⟩
    rwa [if_pos hall]

/-- A command with all of its addresses found checks one more. -/
theorem not_verifies_found (hcommand : decode (dev0.command.get 0) = .verify)
    (hpresent : drive0.present = true) (hstate : dev0.state = STATE_START_COMMAND)
    (hdrive : dev0.drives[driveSel dev0]? = some drive0)
    (hfound : ∀ i < sectorCount dev0, FoundAt dev0 drive0 i) : ¬Verifies dev0 drive0 := by
  rintro ⟨-, hasked⟩
  have hlen : sectorCount dev0 + 2 ≤ (List.replicate (sectorCount dev0 + 2) serving).length :=
    (List.length_replicate).ge
  obtain ⟨last, c, cs, hends, -⟩ := ends_found hcommand hpresent hstate hdrive hfound hlen
  have hlength := congrArg List.length (hasked _ hlen)
  rw [hends.asked] at hlength
  unfold placesTo at hlength
  rw [List.length_map, List.length_map, List.length_range] at hlength
  have hle := @length_due_le dev0 drive0
  omega

end

/-- VERIFY checks what it is to check just when one of its addresses is refused; it ends as it
should besides when all of them are right and the one that follows is found. -/
theorem verify_is_exact_iff (dev : Hdc) (drive : Drive)
    (hcommand : decode (dev.command.get 0) = .verify) (hstate : dev.state = STATE_START_COMMAND)
    (hdrive : dev.drives[driveSel dev]? = some drive) (hpresent : drive.present = true) :
    (Verifies dev drive ↔ ¬AllRight dev drive ∧ Checked dev drive) ∧
    (Completes dev drive ↔
      if Checked dev drive then
        AllRight dev drive → Right dev drive (firstSector dev drive + sectorCount dev)
      else AllRight dev drive) := by
  by_cases hchecked : Checked dev drive
  · rw [if_pos hchecked]
    by_cases hall : AllRight dev drive
    · have hfound := found_of_right hpresent hchecked (allRight_iff.mp hall)
      have hnext := (found_right hpresent hchecked hfound).2
      refine ⟨iff_of_false (not_verifies_found hcommand hpresent hstate hdrive hfound)
        fun hno => hno.1 hall, ?_⟩
      rw [completes_found hcommand hpresent hstate hdrive hfound, hnext]
      exact ⟨fun h _ => h.2, fun h => ⟨hall, h hall⟩⟩
    · have hverifies := verifies_refused hcommand hpresent hstate hdrive hchecked hall
      exact ⟨iff_of_true hverifies ⟨hall, hchecked⟩,
        iff_of_true hverifies.1 fun hno => absurd hno hall⟩
  · rw [if_neg hchecked]
    have hfound : ∀ k, FoundAt dev drive k := found_all hpresent hchecked
    refine ⟨iff_of_false (not_verifies_found hcommand hpresent hstate hdrive fun i _ => hfound i)
      fun hno => hchecked hno.2, ?_⟩
    rw [completes_found hcommand hpresent hstate hdrive fun i _ => hfound i]
    exact ⟨fun h => h.1, fun h => ⟨h, hfound _⟩⟩

/-- Past the last sector of the drive: the command ends once, with an error. -/
theorem an_address_past_the_drive_is_refused :
    Verifies (received 29 #v[0x05, 0x03, 0x50, 0x31, 2, 0]) smallDrive :=
  (verify_is_exact_iff _ smallDrive (by decide +kernel) rfl (received_drive (by decide +kernel))
    rfl).1.mpr (by decide +kernel)

/-- The last sector of the drive is verified well, and then a second time with an error. -/
theorem the_last_sector_is_verified_twice :
    ¬Verifies (received 29 #v[0x05, 0x03, 0x50, 0x31, 1, 0]) smallDrive ∧
      ¬Completes (received 29 #v[0x05, 0x03, 0x50, 0x31, 1, 0]) smallDrive ∧
      AllRight (received 29 #v[0x05, 0x03, 0x50, 0x31, 1, 0]) smallDrive := by
  have hall : AllRight (received 29 #v[0x05, 0x03, 0x50, 0x31, 1, 0]) smallDrive := by
    decide +kernel
  have hchecked : Checked (received 29 #v[0x05, 0x03, 0x50, 0x31, 1, 0]) smallDrive :=
    fun _ => rfl
  have hfound := @found_of_right _ smallDrive _ rfl hchecked (allRight_iff.mp hall)
  have hcompletes : ¬Completes (received 29 #v[0x05, 0x03, 0x50, 0x31, 1, 0]) smallDrive := by
    intro h
    have hnext := ((completes_found (by decide +kernel) rfl rfl
      (received_drive (by decide +kernel)) hfound).mp h).2
    have hright := (found_right rfl hchecked hfound).2.mp hnext
    exact absurd hright (by decide +kernel)
  exact ⟨fun h => hcompletes h.1, hcompletes, hall⟩

end blumach.hdc_st506_xt
