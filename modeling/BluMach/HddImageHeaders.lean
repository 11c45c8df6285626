-- The headers of HDI and HDX images, written by a load that makes the file and read by the loads
-- after it. The size in an HDI header has four bytes, so it is lost from 4 GB on; and an HDX
-- image needs four bytes behind its header to be taken for one.
import BluMach.HddImageExtend

namespace blumach.hdd_image

open file_stream

/-! ## The first load and the second -/

/-- The number of sectors of a geometry. -/
def sectorsOf (hdd : hard_disk_t) : Nat := hdd.spt.toNat * hdd.hpc.toNat * hdd.tracks.toNat

/-- A load of this drive makes an HDI or HDX image. -/
structure Creating (host : Host) (hdd : hard_disk_t) : Prop where
  not_loaded : host.already_loaded = false
  not_raw_device : hdd.raw_device = false
  not_block_device : host.is_block_device = false
  not_dot : hdd.starts_with_dot = false
  no_file : host.file = none
  creates : host.creates = true
  not_wp : hdd.wp = false
  headed : hdd.extension = .hdi ∨ hdd.extension = .hdx

/-- The drive has the file name of the other one, with any geometry of its own. -/
structure SameName (hdd hdd' : hard_disk_t) : Prop where
  extension : hdd'.extension = hdd.extension
  raw_device : hdd'.raw_device = hdd.raw_device
  starts_with_dot : hdd'.starts_with_dot = hdd.starts_with_dot

/-- The host once the file is there and can be opened. -/
def withContents (host : Host) (file : List (BitVec 8)) : Host :=
  { host with file := some file, opens := true }

/-- The image is made, and loading it again gives the same geometry, base and last sector. -/
def ComesBack (host : Host) (hdd hdd' : hard_disk_t) : Prop :=
  ∃ ret image out ret' image' out',
    hdd_image_load host hdd = .returned ret image out ∧
    hdd_image_load (withContents host image.contents) hdd' = .returned ret' image' out' ∧
    (out'.spt = hdd.spt ∧ out'.hpc = hdd.hpc ∧ out'.tracks = hdd.tracks) ∧
    image'.base = image.base ∧ image'.last_sector = image.last_sector

/-- The file can be made; the number of sectors of an HDI image, as far as 32 bits hold it, is
below 2^23; and an HDX image has something behind its header. -/
def Kept (__unix__ : Bool) (hdd : hard_disk_t) : Prop :=
  (__unix__ = true → sectorsOf hdd < 2 ^ 54) ∧
    if hdd.extension = .hdi then sectorsOf hdd % 2 ^ 32 < 2 ^ 23
    else if __unix__ then sectorsOf hdd ≠ 0
    else sectorsOf hdd % 2 ^ 43 ≠ 0

section

variable {host : Host} {hdd hdd' : hard_disk_t} {file : List (BitVec 8)}

/-! ## Sizes -/

theorem fullSize_toNat (h55 : sectorsOf hdd < 2 ^ 55) :
    (fullSize hdd).toNat = 512 * sectorsOf hdd := by
  have hspt := hdd.spt.isLt
  have hhpc := hdd.hpc.isLt
  have hprod : (hdd.spt.setWidth 64 * hdd.hpc.setWidth 64 * hdd.tracks.setWidth 64 :
      BitVec 64).toNat = sectorsOf hdd := by
    rw [BitVec.toNat_mul, BitVec.toNat_mul]
    simp only [BitVec.toNat_setWidth]
    unfold sectorsOf at h55 ⊢
    rw [Nat.mod_mul_mod, Nat.mod_eq_of_lt (show hdd.spt.toNat < 2 ^ 64 by omega),
      Nat.mod_eq_of_lt (show hdd.hpc.toNat < 2 ^ 64 by omega),
      Nat.mod_eq_of_lt (show hdd.tracks.toNat < 2 ^ 64 by omega)]
    omega
  unfold fullSize
  rw [BitVec.toNat_shiftLeft, hprod, Nat.shiftLeft_eq]
  omega

/-! ## The file that is made -/

/-- How many zeroes there are behind the header of a new image. -/
def tailLength (__unix__ : Bool) (full_size : BitVec 64) (base : BitVec 32) : Nat :=
  if __unix__ then full_size.toNat - base.toNat else full_size.toNat % 2 ^ 52

/-- A new image with these parts for its header. -/
def newImage (parts : List (List (BitVec 8))) (base : BitVec 32) (type : ImageType) :
    hdd_image_t :=
  { closedImage with
    file := some (writeParts parts (Stream.start [])), base := base, type := type }

/-- A new image has its header and zeroes, unless its length is too much for `ftruncate`. -/
theorem prepared_written (host : Host) (hdd : hard_disk_t) {parts : List (List (BitVec 8))}
    {base : BitVec 32} (hlen : parts.flatten.length = base.toNat) (type : ImageType) :
    (host.__unix__ = true ∧ 2 ^ 63 ≤ (fullSize hdd).toNat ∧
      prepared host (newImage parts base type) hdd = .fatal) ∨
    ((host.__unix__ = true → (fullSize hdd).toNat < 2 ^ 63) ∧ ∃ image,
      prepared host (newImage parts base type) hdd = .returned 1 image hdd ∧
      image.contents =
        parts.flatten ++ zeros (tailLength host.__unix__ (fullSize hdd) base) ∧
      image.base = base ∧ image.last_sector = lastSector (fullSize hdd)) := by
  have hready := header_ready parts hlen
  have hfile : (newImage parts base type).file = some (writeParts parts (Stream.start [])) := rfl
  have hdevice : (newImage parts base type).is_block_device = false := rfl
  have htarget : targetSize (fullSize hdd) (newImage parts base type)
      (writeParts parts (Stream.start [])) = fullSize hdd := by
    have hback : BitVec.ofNat 64 base.toNat = base.setWidth 64 := BitVec.eq_of_toNat_eq (by simp)
    unfold targetSize
    rw [hready.1, hlen, hback]
    exact BitVec.add_sub_cancel _ _
  rw [prepared_eq hfile]
  unfold preparedLoad
  cases hunix : host.__unix__ with
  | true =>
    rw [prepare_unix hfile hdevice, htarget]
    unfold Stream.ftruncate
    by_cases h63 : (fullSize hdd).toNat < 2 ^ 63
    · rw [if_pos h63]
      refine Or.inr ⟨fun _ => h63, _, rfl, ?_, rfl, rfl⟩
      refine (resized_contents (fullSize hdd).toNat hready).trans ?_
      have htail : (zeros (fullSize hdd).toNat).drop parts.flatten.length =
          zeros (tailLength true (fullSize hdd) base) := by
        unfold zeros tailLength
        rw [List.drop_replicate, hlen, if_pos rfl]
      rw [writeParts_eq, ← htail]
      by_cases hparts : parts.flatten = []
      · rw [hparts]
        simp [Stream.start, resize]
      · exact if_neg hparts
    · rw [if_neg h63]
      exact Or.inl ⟨rfl, by omega, rfl⟩
  | false =>
    rw [prepare_other hfile hdevice, htarget]
    refine Or.inr ⟨fun h => absurd h Bool.false_ne_true, _, rfl, ?_, rfl, rfl⟩
    refine (writeMissing_contents (fullSize hdd) _).trans ?_
    rw [hready.contents]
    rfl

/-! ## Reading the header again -/

/-- The geometry is read where it was written. -/
theorem readGeometry_ahead (hdd : hard_disk_t) {f : Stream} {front rest : List (BitVec 8)}
    (hfront : front.length = 0x10)
    (h : f.contents = front ++ (bytesOf 4 512 ++ (bytesOf 4 hdd.spt.toNat ++
      (bytesOf 4 hdd.hpc.toNat ++ (bytesOf 4 hdd.tracks.toNat ++ rest))))) :
    ∃ g, readGeometry f = some (g, some (hdd.spt, hdd.hpc, hdd.tracks)) ∧
      g.contents = f.contents := by
  have hword : ∀ v : BitVec 32, BitVec.ofNat 32 (v.toNat % 256 ^ 4) = v := by
    intro v
    have hv := v.isLt
    rw [Nat.mod_eq_of_lt (show v.toNat < 256 ^ 4 by omega)]
    rw [BitVec.ofNat_toNat, BitVec.setWidth_eq]
  have h0 := seek_ahead h
  rw [hfront] at h0
  obtain ⟨f₁, h₁, hc₁, ha₁⟩ := fread_ahead (by decide) h0
  obtain ⟨f₂, h₂, hc₂, ha₂⟩ := fread_ahead (by decide) ha₁
  obtain ⟨f₃, h₃, hc₃, ha₃⟩ := fread_ahead (by decide) ha₂
  obtain ⟨f₄, h₄, hc₄, -⟩ := fread_ahead (by decide) ha₃
  refine ⟨f₄, ?_, ?_⟩
  · unfold readGeometry
    rw [h₁]
    simp only [Option.bind_eq_bind, Option.bind_some]
    rw [if_neg (by decide), h₂]
    simp only [Option.bind_some]
    rw [h₃]
    simp only [Option.bind_some]
    rw [h₄]
    simp only [Option.bind_some]
    rw [hword, hword, hword]
  · rw [hc₄, hc₃, hc₂, hc₁, contents_seek]

/-- What comes of opening a file with this header. -/
structure ReadBack (hdd hdd' : hard_disk_t) (file : List (BitVec 8)) (base : BitVec 32)
    (full : Nat) (o : Opened) : Prop where
  opened : OpenedOn file o
  base_eq : o.image.base = base
  geometry : o.hdd.spt = hdd.spt ∧ o.hdd.hpc = hdd.hpc ∧ o.hdd.tracks = hdd.tracks
  full_size : o.full_size = BitVec.ofNat 64 full

theorem openHdi_written (hdd hdd' : hard_disk_t) (tail : List (BitVec 8)) :
    ∃ o, openHdi ((hdiHeader hdd).flatten ++ tail) hdd' = some (0x1000, some o) ∧
      ReadBack hdd hdd' ((hdiHeader hdd).flatten ++ tail) 0x1000
        ((fullSize hdd).toNat % 256 ^ 4) o := by
  let zero := bytesOf 4 0
  let base := bytesOf 4 0x1000
  let full := bytesOf 4 (fullSize hdd).toNat
  let rest := bytesOf 4 512 ++ (bytesOf 4 hdd.spt.toNat ++ (bytesOf 4 hdd.hpc.toNat ++
    (bytesOf 4 hdd.tracks.toNat ++ ((List.replicate 0x3f8 (bytesOf 4 0)).flatten ++ tail))))
  have hheader : (hdiHeader hdd).flatten ++ tail =
      (zero ++ zero) ++ (base ++ (full ++ rest)) := by
    simp only [hdiHeader, List.flatten_append, List.flatten_cons, List.flatten_nil,
      List.append_assoc, List.append_nil, zero, base, full, rest]
  have hcontents := (contents_start ((hdiHeader hdd).flatten ++ tail)).trans hheader
  have hahead := seek_ahead hcontents
  rw [List.length_append, bytesOf_length] at hahead
  obtain ⟨f₁, h₁, hc₁, -⟩ := fread_ahead (by decide) hahead
  rw [contents_seek, hcontents, ← List.append_assoc] at hc₁
  have hahead₁ := seek_ahead hc₁
  rw [List.length_append, List.length_append, bytesOf_length, bytesOf_length] at hahead₁
  obtain ⟨f₂, h₂, hc₂, -⟩ := fread_ahead (by decide) hahead₁
  rw [contents_seek, hc₁, ← List.append_assoc] at hc₂
  obtain ⟨f₃, h₃, hc₃⟩ := readGeometry_ahead hdd (by simp [bytesOf_length, zero, base, full]) hc₂
  have hopen : openHdi ((hdiHeader hdd).flatten ++ tail) hdd' = some (0x1000, some
      { image := { closedImage with file := some f₃, base := 0x1000, type := .HDD_IMAGE_HDI }
        hdd := { hdd' with spt := hdd.spt, hpc := hdd.hpc, tracks := hdd.tracks }
        full_size := BitVec.ofNat 64 ((fullSize hdd).toNat % 256 ^ 4) }) := by
    unfold openHdi
    rw [h₁]
    simp only [Option.bind_eq_bind, Option.bind_some]
    rw [h₂]
    simp only [Option.bind_some]
    rw [h₃]
    rfl
  exact ⟨_, hopen, openHdi_on hopen, rfl, ⟨rfl, rfl, rfl⟩, rfl⟩

theorem openHdx_written (hdd hdd' : hard_disk_t) (tail : List (BitVec 8)) :
    ∃ o, openHdx ((hdxHeader hdd).flatten ++ tail) hdd' = some (0x28, some o) ∧
      ReadBack hdd hdd' ((hdxHeader hdd).flatten ++ tail) 0x28
        ((fullSize hdd).toNat % 256 ^ 8) o := by
  have hheader : (hdxHeader hdd).flatten ++ tail =
      bytesOf 8 HDX_SIGNATURE ++ (bytesOf 8 (fullSize hdd).toNat ++ (bytesOf 4 512 ++
        (bytesOf 4 hdd.spt.toNat ++ (bytesOf 4 hdd.hpc.toNat ++ (bytesOf 4 hdd.tracks.toNat ++
          (bytesOf 4 0 ++ (bytesOf 4 0 ++ tail))))))) := by
    simp [hdxHeader]
  have hcontents := (contents_start ((hdxHeader hdd).flatten ++ tail)).trans hheader
  have hahead := seek_ahead hcontents
  rw [bytesOf_length] at hahead
  obtain ⟨f₁, h₁, hc₁, -⟩ := fread_ahead (by decide) hahead
  rw [contents_seek, hcontents, ← List.append_assoc] at hc₁
  obtain ⟨f₂, h₂, hc₂⟩ := readGeometry_ahead hdd (by simp [bytesOf_length]) hc₁
  have hopen : openHdx ((hdxHeader hdd).flatten ++ tail) hdd' = some (0x28, some
      { image := { closedImage with file := some f₂, base := 0x28, type := .HDD_IMAGE_HDX }
        hdd := { hdd' with spt := hdd.spt, hpc := hdd.hpc, tracks := hdd.tracks }
        full_size := BitVec.ofNat 64 ((fullSize hdd).toNat % 256 ^ 8) }) := by
    unfold openHdx
    rw [h₁]
    simp only [Option.bind_eq_bind, Option.bind_some]
    rw [h₂]
    rfl
  exact ⟨_, hopen, openHdx_on hopen, rfl, ⟨rfl, rfl, rfl⟩, rfl⟩

/-! ## The second load -/

/-- The end of a load keeps the base, and the last sector is that of the size; but on Unix the
length can be too much for `ftruncate`. -/
theorem finishLoad_cases (host : Host) {o : Opened} (ho : OpenedOn file o) :
    (finishLoad host o = .fatal ∧ host.__unix__ = true ∧
      (file.length < 2 ^ 63 →
        2 ^ 63 + file.length ≤ o.full_size.toNat + o.image.base.toNat)) ∨
    ∃ ret image, finishLoad host o = .returned ret image o.hdd ∧
      image.base = o.image.base ∧ image.last_sector = lastSector o.full_size := by
  obtain ⟨⟨f, hf, hcontents⟩, hdevice⟩ := ho
  have hpos : f.seekEnd.pos = file.length := by
    unfold Stream.seekEnd Stream.seek
    rw [hcontents]
  unfold finishLoad
  rw [hf]
  dsimp only
  split_ifs with hshort
  · have hfile :
        ({ o.image with file := some f.seekEnd } : hdd_image_t).file = some f.seekEnd := rfl
    cases hunix : host.__unix__ with
    | true =>
      rw [prepare_unix hfile hdevice]
      unfold Stream.ftruncate
      split_ifs with h63
      · exact Or.inr ⟨_, _, rfl, rfl, rfl⟩
      · refine Or.inl ⟨rfl, rfl, fun hlen => ?_⟩
        have htarget : (targetSize o.full_size { o.image with file := some f.seekEnd }
            f.seekEnd).toNat =
              (o.full_size.toNat + o.image.base.toNat + 2 ^ 64 - file.length) % 2 ^ 64 := by
          unfold targetSize
          rw [hpos]
          exact target_toNat hlen
        rw [htarget] at h63
        have h1 := o.full_size.isLt
        have h2 := o.image.base.isLt
        rw [hpos, BitVec.lt_def, BitVec.toNat_ofNat, BitVec.toNat_add,
          BitVec.toNat_setWidth] at hshort
        omega
    | false =>
      rw [prepare_other hfile hdevice]
      exact Or.inr ⟨_, _, rfl, rfl, rfl⟩
  · exact Or.inr ⟨_, _, rfl, rfl, rfl⟩

/-- The signature of an HDX image is there, and the file is taken for one if it has four bytes
more than the header. -/
theorem image_is_hdx_written (host : Host) (hdd : hard_disk_t) (tail : List (BitVec 8))
    (h : hdd'.extension = .hdx) :
    image_is_hdx (withContents host ((hdxHeader hdd).flatten ++ tail)) hdd' true = true ↔
      4 ≤ tail.length := by
  have hsignature : join (((hdxHeader hdd).flatten ++ tail).take 8) = HDX_SIGNATURE := by
    have hfirst : (hdxHeader hdd).flatten ++ tail =
        bytesOf 8 HDX_SIGNATURE ++ ((hdxHeader hdd).tail.flatten ++ tail) := by
      simp [hdxHeader]
    rw [hfirst, List.take_left' (bytesOf_length _ _), join_bytesOf]
    rfl
  have hlen : ((hdxHeader hdd).flatten ++ tail).length = 0x28 + tail.length := by
    rw [List.length_append, hdxHeader_length]
  unfold image_is_hdx withContents
  dsimp only
  rw [if_pos h, if_pos rfl, hsignature, hlen]
  split_ifs with hshort
  · exact iff_of_false id (by omega)
  · exact iff_of_true rfl (by omega)

/-- The load that makes the file, to its length. -/
theorem load_new (hc : Creating host hdd) : hdd_image_load host hdd =
    if hdd.extension = .hdi then
      prepared host (newImage (hdiHeader hdd) 0x1000 .HDD_IMAGE_HDI) hdd
    else prepared host (newImage (hdxHeader hdd) 0x28 .HDD_IMAGE_HDX) hdd := by
  obtain ⟨hloaded, hraw, hblock, hdot, hfile, hcreates, hwp, hheaded⟩ := hc
  unfold hdd_image_load createImage image_is_hdi image_is_hdx
  simp only [hloaded, hraw, hblock, hdot, hfile, hcreates, hwp, Bool.or_self, Bool.false_eq_true,
    Bool.true_eq_false, if_false, decide_eq_true_eq]
  rcases hheaded with h | h
  · rw [if_pos h, if_pos h]
    rfl
  · rw [h]
    rfl

/-- A later load of it, to the end of the file. -/
theorem load_again (hc : Creating host hdd) (hs : SameName hdd hdd') :
    hdd_image_load (withContents host file) hdd' =
      if hdd.extension = .hdi then afterHeader (withContents host file) hdd' (openHdi file hdd')
      else if image_is_hdx (withContents host file) hdd' true then
        afterHeader (withContents host file) hdd' (openHdx file hdd')
      else finishLoad (withContents host file) (openRaw file hdd') := by
  obtain ⟨hloaded, hraw, hblock, hdot, -, -, -, hheaded⟩ := hc
  obtain ⟨hextension, hraw', hdot'⟩ := hs
  have hhdi : image_is_hdi hdd' = true ↔ hdd.extension = .hdi := by
    unfold image_is_hdi
    rw [decide_eq_true_eq, hextension]
  have hvhd : image_is_vhd (withContents host file) hdd' true = false := by
    unfold image_is_vhd
    rw [if_neg]
    rcases hheaded with h | h
    · simp [hextension, h]
    · simp [hextension, h]
  have hstart : ¬(withContents host file).already_loaded = true ∧
      ¬(hdd'.raw_device || (withContents host file).is_block_device) = true ∧
      ¬hdd'.starts_with_dot = true ∧ ¬(withContents host file).opens = false := by
    simp [withContents, hloaded, hraw, hraw', hblock, hdot, hdot']
  have hfile : (withContents host file).file = some file := rfl
  obtain ⟨h1, h2, h3, h4⟩ := hstart
  unfold hdd_image_load
  rw [if_neg h1, if_neg h2, if_neg h3, hfile]
  dsimp only
  rw [if_neg h4, hvhd]
  simp only [hhdi, Bool.false_eq_true, if_false]

theorem comesBack_iff {ret ret' : Int} {image image' : hdd_image_t} {out out' : hard_disk_t}
    (hfirst : hdd_image_load host hdd = .returned ret image out)
    (hsecond : hdd_image_load (withContents host image.contents) hdd' =
      .returned ret' image' out') :
    ComesBack host hdd hdd' ↔
      (out'.spt = hdd.spt ∧ out'.hpc = hdd.hpc ∧ out'.tracks = hdd.tracks) ∧
        image'.base = image.base ∧ image'.last_sector = image.last_sector := by
  constructor
  · rintro ⟨_, _, _, _, _, _, h, h', hback⟩
    rw [hfirst] at h
    obtain ⟨-, rfl, -⟩ := Load.returned.inj h
    rw [hsecond] at h'
    obtain ⟨-, rfl, rfl⟩ := Load.returned.inj h'
    exact hback
  · exact fun h => ⟨ret, image, out, ret', image', out', hfirst, hsecond, h⟩

/-- The last sector is the same for the size in an HDI header if the sectors above the first
2^23 are not counted. -/
theorem lastSector_four (h55 : sectorsOf hdd < 2 ^ 55) :
    lastSector (BitVec.ofNat 64 ((fullSize hdd).toNat % 256 ^ 4)) = lastSector (fullSize hdd) ↔
      sectorsOf hdd % 2 ^ 32 < 2 ^ 23 := by
  have hfull := fullSize_toNat h55
  rw [← BitVec.toNat_inj, lastSector_toNat, lastSector_toNat, BitVec.toNat_ofNat, hfull]
  omega

theorem lastSector_eight :
    lastSector (BitVec.ofNat 64 ((fullSize hdd).toNat % 256 ^ 8)) = lastSector (fullSize hdd) := by
  have hfull := (fullSize hdd).isLt
  have hsame : BitVec.ofNat 64 ((fullSize hdd).toNat % 256 ^ 8) = fullSize hdd := by
    apply BitVec.eq_of_toNat_eq
    rw [BitVec.toNat_ofNat]
    omega
  rw [hsame]

/-- A file that could be made can be loaded again, and what its header says comes back. -/
theorem read_comes_back {base : BitVec 32} {full ret : Nat} {image : hdd_image_t}
    {out : hard_disk_t} {o : Opened}
    (hfirst : hdd_image_load host hdd = .returned ret image out) (hbase : image.base = base)
    (hlast : image.last_sector = lastSector (fullSize hdd))
    (hread : ReadBack hdd hdd' image.contents base full o)
    (hagain : hdd_image_load (withContents host image.contents) hdd' =
      finishLoad (withContents host image.contents) o)
    (hroom : host.__unix__ = true → image.contents.length < 2 ^ 63 ∧
      full % 2 ^ 64 + base.toNat < 2 ^ 63 + image.contents.length) :
    ComesBack host hdd hdd' ↔ lastSector (BitVec.ofNat 64 full) = lastSector (fullSize hdd) := by
  rcases finishLoad_cases (withContents host image.contents) hread.opened with
    ⟨-, hunix, hlong⟩ | ⟨ret', image', hret, hbase', hlast'⟩
  · have h := hroom hunix
    have hover := hlong h.1
    rw [hread.full_size, hread.base_eq, BitVec.toNat_ofNat] at hover
    omega
  · rw [comesBack_iff hfirst (hagain.trans hret), hbase', hlast', hbase, hlast, hread.base_eq,
      hread.full_size]
    exact ⟨fun h => h.2.2, fun h => ⟨hread.geometry, rfl, h⟩⟩

/-- How long a new file is. -/
theorem written_length {start : List (BitVec 8)} {base : BitVec 32} (__unix__ : Bool)
    (hstart : start.length = base.toNat) (full_size : BitVec 64) :
    (start ++ zeros (tailLength __unix__ full_size base)).length =
      base.toNat + tailLength __unix__ full_size base := by
  rw [List.length_append, zeros_length, hstart]

theorem hdi_comes_back_iff (hc : Creating host hdd) (hs : SameName hdd hdd')
    (hext : hdd.extension = .hdi) (h55 : sectorsOf hdd < 2 ^ 55) :
    ComesBack host hdd hdd' ↔ Kept host.__unix__ hdd := by
  have hfull := fullSize_toNat h55
  have hnew := load_new hc
  rw [if_pos hext] at hnew
  unfold Kept
  rw [if_pos hext]
  have hlen : (hdiHeader hdd).flatten.length = (0x1000 : BitVec 32).toNat := hdiHeader_length
  rcases prepared_written host hdd hlen .HDD_IMAGE_HDI with
    ⟨hunix, h63, hfatal⟩ | ⟨h63, image, hret, hcontents, hbase, hlast⟩
  · refine iff_of_false ?_ fun h => ?_
    · rintro ⟨_, _, _, _, _, _, h, -⟩
      rw [hnew, hfatal] at h
      cases h
    · have h54 := h.1 hunix
      omega
  · obtain ⟨o, hopen, hread⟩ := openHdi_written hdd hdd'
      (zeros (tailLength host.__unix__ (fullSize hdd) 0x1000))
    have hagain : hdd_image_load (withContents host image.contents) hdd' = _ := load_again hc hs
    rw [if_pos hext, hcontents, hopen, ← hcontents] at hagain
    rw [← hcontents] at hread
    rw [read_comes_back (hnew.trans hret) hbase hlast hread hagain ?_, lastSector_four h55]
    · exact (and_iff_right fun hunix => by have := h63 hunix; omega).symm
    · intro hunix
      have hsmall := h63 hunix
      rw [hcontents, written_length _ hlen]
      unfold tailLength
      rw [hunix, if_pos rfl]
      have h4096 : (0x1000 : BitVec 32).toNat = 4096 := rfl
      omega

/-- The zeroes behind an HDX header are four or more exactly if there are any. -/
theorem hdx_tail_iff (__unix__ : Bool) (h55 : sectorsOf hdd < 2 ^ 55) :
    4 ≤ tailLength __unix__ (fullSize hdd) 0x28 ↔
      if __unix__ then sectorsOf hdd ≠ 0 else sectorsOf hdd % 2 ^ 43 ≠ 0 := by
  have hfull := fullSize_toNat h55
  have hbase : (0x28 : BitVec 32).toNat = 40 := rfl
  unfold tailLength
  split_ifs
  · omega
  · omega

theorem hdx_comes_back_iff (hc : Creating host hdd) (hs : SameName hdd hdd')
    (hext : hdd.extension = .hdx) (h55 : sectorsOf hdd < 2 ^ 55) :
    ComesBack host hdd hdd' ↔ Kept host.__unix__ hdd := by
  have hfull := fullSize_toNat h55
  have hbase40 : (0x28 : BitVec 32).toNat = 40 := rfl
  have hhdi : ¬hdd.extension = .hdi := by
    rw [hext]
    decide
  have hnew := load_new hc
  rw [if_neg hhdi] at hnew
  have hlen : (hdxHeader hdd).flatten.length = (0x28 : BitVec 32).toNat := hdxHeader_length
  unfold Kept
  rw [if_neg hhdi, ← hdx_tail_iff _ h55]
  rcases prepared_written host hdd hlen .HDD_IMAGE_HDX with
    ⟨hunix, h63, hfatal⟩ | ⟨h63, image, hret, hcontents, hbase, hlast⟩
  · refine iff_of_false ?_ fun h => ?_
    · rintro ⟨_, _, _, _, _, _, h, -⟩
      rw [hnew, hfatal] at h
      cases h
    · have h54 := h.1 hunix
      omega
  · have hagain : hdd_image_load (withContents host image.contents) hdd' = _ := load_again hc hs
    have hsigned := image_is_hdx_written host hdd
      (zeros (tailLength host.__unix__ (fullSize hdd) 0x28)) (hs.extension.trans hext)
    rw [zeros_length, ← hcontents] at hsigned
    rw [if_neg hhdi] at hagain
    by_cases htail : 4 ≤ tailLength host.__unix__ (fullSize hdd) 0x28
    · obtain ⟨o, hopen, hread⟩ := openHdx_written hdd hdd'
        (zeros (tailLength host.__unix__ (fullSize hdd) 0x28))
      rw [← hcontents] at hread hopen
      rw [if_pos (hsigned.mpr htail), hopen] at hagain
      rw [read_comes_back (hnew.trans hret) hbase hlast hread hagain ?_]
      · exact iff_of_true lastSector_eight ⟨fun hunix => by have := h63 hunix; omega, htail⟩
      · intro hunix
        have hsmall := h63 hunix
        rw [hcontents, written_length _ hlen]
        unfold tailLength
        rw [hunix, if_pos rfl]
        omega
    · -- without them the file is loaded as a raw image, which has no base
      refine iff_of_false ?_ fun h => htail h.2
      rw [if_neg fun h => htail (hsigned.mp h)] at hagain
      rintro ⟨_, _, _, _, _, _, h, h', -, hbase', -⟩
      rw [hnew.trans hret] at h
      obtain ⟨-, rfl, -⟩ := Load.returned.inj h
      rw [hagain] at h'
      have hon : OpenedOn image.contents (openRaw image.contents hdd') := openRaw_on
      have hzero : (openRaw image.contents hdd').image.base = 0 := rfl
      rcases finishLoad_cases (withContents host image.contents) hon with
        ⟨hfatal, -⟩ | ⟨_, raw, hraw, hraw', -⟩
      · rw [hfatal] at h'
        cases h'
      · rw [hraw] at h'
        obtain ⟨-, rfl, -⟩ := Load.returned.inj h'
        rw [hraw', hbase, hzero] at hbase'
        exact absurd hbase' (by decide)

end

/-- Exactly when an image that is made with its header has the same geometry, base and last sector
once it is loaded again. -/
theorem the_geometry_comes_back_iff (host : Host) (hdd hdd' : hard_disk_t)
    (hc : Creating host hdd) (hs : SameName hdd hdd') (h55 : sectorsOf hdd < 2 ^ 55) :
    ComesBack host hdd hdd' ↔ Kept host.__unix__ hdd := by
  rcases hc.headed with h | h
  · exact hdi_comes_back_iff hc hs h h55
  · exact hdx_comes_back_iff hc hs h h55

/-- A host of Unix that has no file of that name. -/
def newHost : Host where
  __unix__ := true
  file := none
  opens := true
  creates := true
  already_loaded := false
  is_block_device := false
  device_size := 0
  is_vhd _ := false

def newDrive (spt hpc tracks : BitVec 32) (extension : Extension) : hard_disk_t where
  spt := spt
  hpc := hpc
  tracks := tracks
  wp := false
  raw_device := false
  extension := extension
  starts_with_dot := false
  fn_cleared := false

theorem creating_newDrive (spt hpc tracks : BitVec 32) {extension : Extension}
    (h : extension = .hdi ∨ extension = .hdx) :
    Creating newHost (newDrive spt hpc tracks extension) :=
  ⟨rfl, rfl, rfl, rfl, rfl, rfl, rfl, h⟩

theorem an_hdx_image_comes_back :
    ComesBack newHost (newDrive 63 16 1024 .hdx) (newDrive 17 4 615 .hdx) :=
  (the_geometry_comes_back_iff newHost (newDrive 63 16 1024 .hdx) (newDrive 17 4 615 .hdx)
    (creating_newDrive 63 16 1024 (Or.inr rfl)) ⟨rfl, rfl, rfl⟩ (by decide)).mpr
    ⟨fun _ => by decide, by decide⟩

/-- An HDI image of 4 GB says that it has no bytes. -/
theorem an_hdi_image_of_4GB_does_not_come_back :
    Creating newHost (newDrive 32 16 16384 .hdi) ∧
      sectorsOf (newDrive 32 16 16384 .hdi) < 2 ^ 55 ∧
      ¬ComesBack newHost (newDrive 32 16 16384 .hdi) (newDrive 32 16 16384 .hdi) := by
  have hc : Creating newHost (newDrive 32 16 16384 .hdi) :=
    creating_newDrive 32 16 16384 (Or.inl rfl)
  have h55 : sectorsOf (newDrive 32 16 16384 .hdi) < 2 ^ 55 := by decide
  refine ⟨hc, h55, fun h => ?_⟩
  have hkept := (hdi_comes_back_iff hc ⟨rfl, rfl, rfl⟩ rfl h55).mp h
  exact absurd hkept.2 (by decide)

end blumach.hdd_image
