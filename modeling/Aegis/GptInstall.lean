import Aegis.GptScan

/-! `install_write_gpt` of the installer, and what the kernel's `gpt_scan` makes of the disk it
leaves. The checksums are never computed: writer and reader run the same function over the same
bytes. -/

namespace Aegis.Gpt

open ByteMemory Function List Option Nat Field
open ByteLayout (Byte)

/-! ### The installer -/

structure InstallDisk where
  blockCount : Nat
  content : Nat → Bytes
  accepts : Nat → Bool
  rejects : ∀ lba, accepts lba = true → lba < blockCount

def writeBlock (d : InstallDisk) (lba : Nat) (data : Bytes) (len bs : Nat) : Option InstallDisk :=
  if d.accepts lba then
    some { d with content := update d.content lba (clip (min len bs) data) }
  else none

def espStart (bs : Nat) : Nat := 1024 * 1024 / bs

def espLbas (bs : Nat) : Nat := 32 * 1024 * 1024 / bs

def espEnd (bs : Nat) : Nat := espStart bs + espLbas bs - 1

def rootStart (bs : Nat) : Nat := espEnd bs + 1

def lastLba (n : Nat) : Nat := (n + word - 1) % word

def rootEnd (n bs : Nat) : Nat := (lastLba n + word - entryLbas bs + word - 1) % word

def backupLba (n bs : Nat) : Nat := (lastLba n + word - entryLbas bs) % word

def protectiveMbr (n : Nat) : Bytes :=
  Field.setAll (fun _ => 0) [(⟨447, 3⟩, 0x000200), (⟨450, 1⟩, 0xEE), (⟨451, 3⟩, 0xFFFFFF),
    (⟨454, 4⟩, 1), (⟨458, 4⟩, min (lastLba n) 0xFFFFFFFF), (⟨510, 2⟩, 0xAA55)]

def espGuid : List Byte :=
  [0x28, 0x73, 0x2A, 0xC1, 0x1F, 0xF8, 0xD2, 0x11, 0xBA, 0x4B, 0x00, 0xA0, 0xC9, 0x3E, 0xC9, 0x3B]

def aegisRootGuid : List Byte :=
  [0x24, 0x8F, 0x61, 0xA3, 0x76, 0x0C, 0x3D, 0x4B, 0x00, 0x01, 0x00, 0x00, 0x00, 0x00, 0x00, 0x00]

def entryFields (n bs : Nat) : List (Field × Nat) :=
  [(⟨16, 4⟩, 0x04030201), (⟨32, 8⟩, espStart bs), (⟨40, 8⟩, espEnd bs),
    (⟨144, 4⟩, 0x08070605), (⟨160, 8⟩, rootStart bs), (⟨168, 8⟩, rootEnd n bs)]

def installEntries (n bs : Nat) : Bytes :=
  Field.setAll (overlay (ofList espGuid) 128 16 (ofList aegisRootGuid)) (entryFields n bs)

def headerFields (n bs my alternate start : Nat) : List (Field × Nat) :=
  [(⟨8, 4⟩, 0x00010000), (hdrSize, 92), (myLba, my), (⟨32, 8⟩, alternate),
    (firstUsable, 2 + entryLbas bs), (lastUsable, rootEnd n bs), (⟨56, 4⟩, 0x001561AE),
    (entryLba, start), (numEntries, 128), (entrySize, 128),
    (arrayCrc, crc32 (installEntries n bs) (128 * 128))]

def headerBase (n bs my alternate start : Nat) : Bytes :=
  Field.setAll (ofList gptSig) (headerFields n bs my alternate start)

def installHeader (n bs my alternate start : Nat) : Bytes :=
  hdrCrc.set (headerBase n bs my alternate start) (crc32 (headerBase n bs my alternate start) 92)

/-- The loop over the blocks of the array, `k` blocks from block `start` on. -/
def writeEntries (d : InstallDisk) (entries : Bytes) (bs start : Nat) : Nat → Option InstallDisk
  | 0 => some d
  | k + 1 => (writeEntries d entries bs start k).bind fun d =>
    writeBlock d ((start + k) % word) (view entries (k * bs)) (min bs (128 * 128 - k * bs)) bs

def installWriteGpt (d : InstallDisk) (bs : Nat) : Option InstallDisk :=
  let n := d.blockCount
  if rootEnd n bs ≤ rootStart bs then none
  else do
    let d ← writeBlock d 0 (protectiveMbr n) 512 bs
    let d ← writeBlock d 1 (installHeader n bs 1 (lastLba n) 2) 512 bs
    let d ← writeEntries d (installEntries n bs) bs 2 (entryLbas bs)
    let d ← writeEntries d (installEntries n bs) bs (backupLba n bs) (entryLbas bs)
    writeBlock d (lastLba n) (installHeader n bs (lastLba n) 1 (backupLba n bs)) 512 bs

/-! ### What the disk should be -/

def InstallDisk.drive (d : InstallDisk) (bs : Nat) : Drive where
  blockCount := d.blockCount
  blockSize := bs
  read lba := if lba < d.blockCount then some (d.content lba) else none

def InstallDisk.overwrite (d : InstallDisk) (lba : Nat) (block : Bytes) : InstallDisk :=
  { d with content := update d.content lba block }

def installRanges (n bs : Nat) : List (Nat × Nat) :=
  [(0, 0), (1, 1), (2, 2 + entryLbas bs - 1), (espStart bs, espEnd bs),
    (rootStart bs, rootEnd n bs), (backupLba n bs, backupLba n bs + entryLbas bs - 1),
    (lastLba n, lastLba n)]

/-- A scan with room for one partition registers exactly the root partition. -/
def RegistersRoot (n bs : Nat) (drive : Drive) : Prop :=
  ∀ s devname dev, blkdevGet s devname = some dev → s.devices.length < blkdevMax →
    (gptScan s devname drive).1.devices = s.devices ++ [.part 0] ∧
      ((gptScan s devname drive).1.parts 0).parent = dev ∧
      ((gptScan s devname drive).1.parts 0).lbaOffset = rootStart bs ∧
      ((gptScan s devname drive).1.parts 0).blockCount =
        (rootEnd n bs - rootStart bs + 1) * (bs / 512)

/-- The ranges are apart and inside the disk, and the root partition is registered, also if the
primary header is overwritten. -/
structure ReadsBack (bs : Nat) (d : InstallDisk) : Prop where
  apart : (installRanges d.blockCount bs).Pairwise fun a b => a.2 < b.1 ∨ b.2 < a.1
  inside : ∀ r ∈ installRanges d.blockCount bs, r.1 ≤ r.2 ∧ r.2 < d.blockCount
  registers : RegistersRoot d.blockCount bs (d.drive bs)
  backup : ∀ block, headerValid block 1 = false →
    RegistersRoot d.blockCount bs ((d.overwrite 1 block).drive bs)

section
variable {d d' : InstallDisk} {lba len bs start k n : Nat} {data entries : Bytes}

theorem writeBlock_some (hw : writeBlock d lba data len bs = some d') :
    lba < d.blockCount ∧ d'.blockCount = d.blockCount ∧
      d'.content = update d.content lba (clip (min len bs) data) := by
  rw [writeBlock] at hw
  split at hw
  · next ok =>
    cases hw
    exact ⟨d.rejects lba ok, rfl, rfl⟩
  · cases hw

theorem writeEntries_some (hw : writeEntries d entries bs start k = some d')
    (fits : start + k ≤ word) :
    d'.blockCount = d.blockCount ∧ (0 < k → start + k ≤ d.blockCount) ∧ ∀ lba,
      d'.content lba = if start ≤ lba ∧ lba < start + k then
        clip (min (min bs (128 * 128 - (lba - start) * bs)) bs) (view entries ((lba - start) * bs))
      else d.content lba := by
  induction k generalizing d' with
  | zero =>
    cases hw
    refine ⟨rfl, fun none => absurd none (Nat.lt_irrefl 0), fun lba => ?_⟩
    rw [if_neg (by omega)]
  | succ k ih =>
    obtain ⟨mid, pre, last⟩ := bind_eq_some_iff.mp hw
    obtain ⟨blocks, -, content⟩ := ih pre (by omega)
    obtain ⟨hi, count, block⟩ := writeBlock_some last
    rw [mod_eq_of_lt (by omega)] at hi block
    refine ⟨count.trans blocks, fun _ => by omega, fun lba => ?_⟩
    rw [block]
    by_cases here : lba = start + k
    · rw [here, update_self, if_pos (by omega), Nat.add_sub_cancel_left]
    rw [update_of_ne here, content]
    by_cases he : start ≤ lba ∧ lba < start + k
    · rw [if_pos he, if_pos (by omega)]
    · rw [if_neg he, if_neg (by omega)]

theorem layout_eq (lt : n < word) (room : 2 + entryLbas bs ≤ n) :
    lastLba n = n - 1 ∧ backupLba n bs = n - 1 - entryLbas bs ∧
      rootEnd n bs = n - 2 - entryLbas bs := by
  have last : lastLba n = n - 1 := by
    rw [lastLba, show n + word - 1 = n - 1 + word by omega, add_mod_right]
    exact mod_eq_of_lt (by omega)
  rw [backupLba, rootEnd, last]
  refine ⟨rfl, ?_, ?_⟩
  · rw [show n - 1 + word - entryLbas bs = n - 1 - entryLbas bs + word by omega, add_mod_right]
    exact mod_eq_of_lt (by omega)
  have hw : n - 1 + word - entryLbas bs + word - 1 =
      n - 2 - entryLbas bs + word + word := by omega
  rw [hw, add_mod_right, add_mod_right]
  exact mod_eq_of_lt (by omega)

def entryBlock (entries : Bytes) (bs k : Nat) : Bytes :=
  clip (min (min bs (128 * 128 - k * bs)) bs) (view entries (k * bs))

structure Installed (n bs : Nat) (d : InstallDisk) : Prop where
  count : d.blockCount = n
  order : rootStart bs < rootEnd n bs
  room : 2 + entryLbas bs ≤ n
  header : d.content 1 = clip (min 512 bs) (installHeader n bs 1 (lastLba n) 2)
  entries : ∀ k < entryLbas bs, d.content (2 + k) = entryBlock (installEntries n bs) bs k
  backupEntries : ∀ k < entryLbas bs,
    d.content (backupLba n bs + k) = entryBlock (installEntries n bs) bs k
  backupHeader : d.content (lastLba n) =
    clip (min 512 bs) (installHeader n bs (lastLba n) 1 (backupLba n bs))

theorem espEnd_lt (size : bs = 512 ∨ bs = 4096) :
    0 < entryLbas bs ∧ 2 + entryLbas bs ≤ espStart bs ∧ espStart bs ≤ espEnd bs ∧
      rootStart bs = espEnd bs + 1 ∧ espEnd bs < word ∧ entryLbas bs * bs = 128 * 128 ∧
      512 ≤ bs := by
  rcases size with rfl | rfl <;> decide

theorem installWriteGpt_some (size : bs = 512 ∨ bs = 4096) (lt : d.blockCount < word)
    (hw : installWriteGpt d bs = some d') : Installed d.blockCount bs d' := by
  rw [installWriteGpt] at hw
  split at hw
  · cases hw
  next order =>
  obtain ⟨pos, low, esp, root, hb, -⟩ := espEnd_lt size
  obtain ⟨d1, mbr, rest1⟩ := bind_eq_some_iff.mp hw
  obtain ⟨d2, primary, rest2⟩ := bind_eq_some_iff.mp rest1
  obtain ⟨d3, ha, rest3⟩ := bind_eq_some_iff.mp rest2
  obtain ⟨d4, backup, rest4⟩ := bind_eq_some_iff.mp rest3
  obtain ⟨-, count1, -⟩ := writeBlock_some mbr
  obtain ⟨-, count2, content2⟩ := writeBlock_some primary
  obtain ⟨count3, room, ht⟩ := writeEntries_some ha (by omega)
  have room : 2 + entryLbas bs ≤ d.blockCount := by
    rw [← count1, ← count2]
    exact room pos
  obtain ⟨last, h1, stop⟩ := layout_eq lt room
  obtain ⟨count4, -, hn⟩ := writeEntries_some backup (by omega)
  obtain ⟨-, count5, hc⟩ := writeBlock_some rest4
  -- The root partition lies between the two tables, so no write is over another.
  have order := Nat.lt_of_not_le order
  refine ⟨by omega, order, room, ?_, ?_, ?_, ?_⟩
  · rw [hc, update_of_ne (by omega), hn, if_neg (by omega), ht,
      if_neg (by omega), content2, update_self]
  · intro k hi
    rw [hc, update_of_ne (by omega), hn, if_neg (by omega), ht,
      if_pos (by omega), Nat.add_sub_cancel_left]
    rfl
  · intro k hi
    rw [hc, update_of_ne (by omega), hn, if_pos (by omega), Nat.add_sub_cancel_left]
    rfl
  · rw [hc, update_self]

end

/-! ### The table that is read -/

section
variable {n bs my alternate start : Nat}

theorem headerFields_places : (headerFields n bs my alternate start).map Prod.fst =
    [⟨8, 4⟩, ⟨12, 4⟩, ⟨24, 8⟩, ⟨32, 8⟩, ⟨40, 8⟩, ⟨48, 8⟩, ⟨56, 4⟩, ⟨72, 8⟩, ⟨80, 4⟩, ⟨84, 4⟩,
      ⟨88, 4⟩] := rfl

theorem headerFields_apart :
    (headerFields n bs my alternate start).Pairwise fun d e => d.1.Apart e.1 := by
  rw [← pairwise_map, headerFields_places]
  decide

theorem header_get {f : Field} {v : Nat} {h : Bytes}
    (is : clip 512 (installHeader n bs my alternate start) = h)
    (mem : (f, v) ∈ headerFields n bs my alternate start) (lt : v < 256 ^ f.width)
    (hi : f.offset + f.width ≤ 512 := by decide) (ha : f.Apart hdrCrc := by decide) :
    f.get h = v := by
  rw [← is, get_clip hi, installHeader, get_set_apart ha]
  exact get_setAll headerFields_apart mem lt

variable {i : Nat} {d : Drive} {m : Bytes}

theorem headerBase_outside (hp : i < 8 ∨ 16 ≤ i ∧ i < 20) :
    headerBase n bs my alternate start i = ofList gptSig i := by
  apply setAll_outside
  rw [headerFields_places]
  simp only [mem_cons, not_mem_nil, or_false, forall_eq_or_imp, forall_eq]
  omega

theorem headerValid_installHeader (lt : my < word) :
    headerValid (clip 512 (installHeader n bs my alternate start)) my = true := by
  generalize is : clip 512 (installHeader n bs my alternate start) = h
  have sizes : hdrSize.get h = 92 :=
    header_get is (by simp [headerFields]) (by decide)
  have own : myLba.get h = my :=
    header_get is (by simp [headerFields]) lt
  have sig : (range 8).map h = gptSig := by
    have bytes : ∀ i ∈ range 8, h i = ofList gptSig i := by
      intro i mem
      have low := mem_range.mp mem
      rw [← is, clip_of_lt (by omega), ← headerBase_outside (.inl low)]
      exact overlay_outside (.inl (lt_of_lt_of_le low (by decide)))
    rw [map_congr_left bytes]
    rfl
  have hs : hdrCrc.get h = crc32 (headerBase n bs my alternate start) 92 := by
    rw [← is, get_clip (by decide), installHeader, get_set crc32_lt]
  have ha : crc32 (hdrCrc.set h 0) 92 = crc32 (headerBase n bs my alternate start) 92 := by
    apply crc32_congr
    intro i low
    by_cases hc : 16 ≤ i ∧ i < 20
    · have unset : ofList gptSig i = 0 := by
        rw [ofList, getElem?_eq_none (le_trans (by decide) hc.1)]
        rfl
      rw [headerBase_outside (.inr hc), unset]
      refine (overlay_inside hc.1 hc.2).trans ?_
      simp [leBytes]
    · have ho : i < 16 ∨ 16 + 4 ≤ i := by omega
      refine (overlay_outside ho).trans ?_
      rw [← is, clip_of_lt (by omega)]
      exact overlay_outside ho
  rw [headerValid, sizes, own, sig, hs, ha]
  simp

theorem readArray_eq {chunk : Nat → Bytes} {k : Nat}
    (hr : ∀ j < k, d.read ((start + j) % word) = some (chunk j)) :
    ∃ m, readArray d start k = some m ∧
      ∀ i < k * d.blockSize, m i = chunk (i / d.blockSize) (i % d.blockSize) := by
  induction k with
  | zero => exact ⟨_, rfl, fun i none => by omega⟩
  | succ k ih =>
    obtain ⟨m, pre, bytes⟩ := ih fun j low => hr j (by omega)
    refine ⟨overlay m (k * d.blockSize) d.blockSize (chunk k), ?_, fun i low => ?_⟩
    · rw [readArray, pre, hr k (lt_succ_self k)]
    by_cases last : k * d.blockSize ≤ i
    · have high : i < k * d.blockSize + d.blockSize := by
        rw [succ_mul] at low
        exact low
      have block : i / d.blockSize = k := Nat.div_eq_of_lt_le (by omega) (by omega)
      have hp : i % d.blockSize = i - k * d.blockSize := by
        rw [mod_eq_sub_mul_div, block, mul_comm]
      rw [overlay_inside last high, block, hp]
    · rw [overlay_outside (by omega), bytes i (by omega)]

theorem gptTable_installed (size : bs = 512 ∨ bs = 4096) (native : d.blockSize = bs)
    (header : gptHeader d = some (clip 512 (installHeader n bs my alternate start)))
    (lt : start < word) (hr : ∀ k < entryLbas bs, d.read ((start + k) % word) =
      some (entryBlock (installEntries n bs) bs k)) :
    ∃ hdr m, gptTable d = some (hdr, m) ∧ ∀ i < 128 * 128, m i = installEntries n bs i := by
  generalize is : clip 512 (installHeader n bs my alternate start) = h at header
  obtain ⟨-, -, -, -, -, hw, hl⟩ := espEnd_lt size
  rw [← native] at hr
  obtain ⟨m, ha, bytes⟩ := readArray_eq hr
  rw [native] at hr ha bytes
  have hg : ∀ i < 128 * 128, m i = installEntries n bs i := by
    intro i low
    have split := div_add_mod i bs
    have offset : i % bs < bs := mod_lt _ (by omega)
    have block : i / bs < entryLbas bs := Nat.div_lt_of_lt_mul (by rw [mul_comm]; omega)
    have hi : (i / bs + 1) * bs ≤ 128 * 128 := by
      rw [← hw]
      exact Nat.mul_le_mul_right _ block
    rw [succ_mul] at hi
    rw [bytes i (by omega), entryBlock, clip_of_lt (by omega), view, mul_comm, split]
  refine ⟨h, m, ?_, hg⟩
  have count : numEntries.get h = 128 :=
    header_get is (by simp [headerFields]) (by decide)
  have width : entrySize.get h = 128 :=
    header_get is (by simp [headerFields]) (by decide)
  have hp : entryLba.get h = start :=
    header_get is (by simp [headerFields]) lt
  have sum : arrayCrc.get h = crc32 (installEntries n bs) (128 * 128) :=
    header_get is (by simp [headerFields]) crc32_lt
  rw [gptTable, header]
  dsimp only
  rw [count, width, hp, sum, native, ha, if_neg (by decide)]
  dsimp only
  rw [if_pos (crc32_congr hg)]

theorem entryAt_congr {m' : Bytes} (hi : i < 128) (ha : ∀ i < 128 * 128, m i = m' i) :
    entryAt m i = entryAt m' i := by
  have guid : (range 16).map (fun j => m (i * 128 + j)) =
      (range 16).map fun j => m' (i * 128 + j) := by
    apply map_congr_left
    intro j mem
    have low := mem_range.mp mem
    exact ha _ (by omega)
  rw [entryAt, entryAt, guid, readLe_congr fun k low high => ha k (by omega),
    readLe_congr fun k low high => ha k (by omega)]

theorem entryFields_places : (entryFields n bs).map Prod.fst =
    [⟨16, 4⟩, ⟨32, 8⟩, ⟨40, 8⟩, ⟨144, 4⟩, ⟨160, 8⟩, ⟨168, 8⟩] := rfl

theorem installEntries_guid {j : Nat} (low : j < 16) : installEntries n bs (i * 128 + j) =
      overlay (ofList espGuid) 128 16 (ofList aegisRootGuid) (i * 128 + j) := by
  apply setAll_outside
  rw [entryFields_places]
  simp only [mem_cons, not_mem_nil, or_false, forall_eq_or_imp, forall_eq]
  omega

theorem installEntries_root (size : bs = 512 ∨ bs = 4096) :
    (entryAt (installEntries n bs) 1).startLba = rootStart bs ∧
      (entryAt (installEntries n bs) 1).endLba = rootEnd n bs := by
  have ha : (entryFields n bs).Pairwise fun d e => d.1.Apart e.1 := by
    rw [← pairwise_map, entryFields_places]
    decide
  have hb : rootStart bs < word := by
    rcases size with rfl | rfl <;> decide
  constructor
  · exact get_setAll ha (f := ⟨160, 8⟩) (by simp [entryFields]) hb
  · exact get_setAll ha (f := ⟨168, 8⟩) (by simp [entryFields]) (mod_lt _ (Nat.two_pow_pos 64))

theorem wantedEntries_installed (size : bs = 512 ∨ bs = 4096) (order : rootStart bs < rootEnd n bs)
    (ha : ∀ i < 128 * 128, m i = installEntries n bs i) : wantedEntries m = [1] := by
  have guid (i : Nat) : (entryAt (installEntries n bs) i).guid = (range 16).map fun j =>
      overlay (ofList espGuid) 128 16 (ofList aegisRootGuid) (i * 128 + j) := by
    apply map_congr_left
    intro j mem
    exact installEntries_guid (mem_range.mp mem)
  have boot : (entryAt (installEntries n bs) 0).wanted = false := by
    rw [GptEntry.wanted, guid]
    simp [espGuid, aegisPrefix, ofList, overlay, range_succ]
  have root : (entryAt (installEntries n bs) 1).wanted = true := by
    obtain ⟨h1, last⟩ := @installEntries_root n bs size
    rw [GptEntry.wanted, guid, h1, last, decide_eq_true order, Bool.and_true]
    rfl
  have hu (i : Nat) (high : 2 ≤ i) : (entryAt (installEntries n bs) i).wanted = false := by
    have hz : (entryAt (installEntries n bs) i).guid = replicate 16 0 := by
      rw [guid]
      apply ext_getElem (by simp)
      intro j low _
      rw [getElem_map, getElem_range, getElem_replicate, overlay_outside (by omega),
        ofList, getElem?_eq_none (by simp [espGuid]; omega)]
      rfl
    rw [GptEntry.wanted, hz]
    rfl
  rw [wantedEntries]
  have rest : (range' 2 126).filter (fun i => (entryAt m i).wanted) = [] := by
    apply filter_eq_nil_iff.mpr
    intro i mem
    obtain ⟨low, high⟩ := mem_range'_1.mp mem
    rw [entryAt_congr (by omega) ha, hu i low]
    exact Bool.false_ne_true
  have range : range 128 = 0 :: 1 :: range' 2 126 := rfl
  rw [range, filter_cons_of_neg, filter_cons_of_pos, rest]
  · rw [entryAt_congr (by decide) ha]
    exact root
  · rw [entryAt_congr (by decide) ha, boot]
    exact Bool.false_ne_true

def oneDisk : BlkState where
  devices := [.disk 0]
  parts _ := ⟨[], .disk 0, 0, 0, 0⟩
  diskName _ := []

section
variable (size : bs = 512 ∨ bs = 4096)
include size

theorem registersRoot_iff {hdr : Bytes} (native : d.blockSize = bs)
    (order : rootStart bs < rootEnd n bs) (table : gptTable d = some (hdr, m))
    (ha : ∀ i < 128 * 128, m i = installEntries n bs i) :
    RegistersRoot n bs d ↔ (rootEnd n bs - rootStart bs + 1) * (bs / 512) < word := by
  have hw := wantedEntries_installed size order ha
  obtain ⟨h1, last⟩ := @installEntries_root n bs size
  rw [← entryAt_congr (by decide) ha] at h1 last
  have hb : rootEnd n bs < word := mod_lt _ (Nat.two_pow_pos 64)
  have pos : 0 < rootStart bs := succ_pos _
  have record (s devname dev) (hf : blkdevGet s devname = some dev) :
      (gptScan s devname d).1.parts 0 = partRecord devname dev bs m 1 1 := by
    rw [gptScan_parts_of_lt hf table (by rw [gptMaxParts]; omega) (by rw [hw]; decide), native]
    simp only [hw, getElem_cons_zero]
  have blocks (devname dev) : (partRecord devname dev bs m 1 1).blockCount =
      (rootEnd n bs - rootStart bs + 1) * (bs / 512) % word := by
    have sectors : (rootEnd n bs + word - rootStart bs + 1) % word =
        rootEnd n bs - rootStart bs + 1 := by
      rw [show rootEnd n bs + word - rootStart bs + 1 = rootEnd n bs - rootStart bs + 1 + word by
        omega, add_mod_right]
      exact mod_eq_of_lt (by omega)
    rw [partRecord, h1, last, ← sectors]
    rfl
  constructor
  · intro hr
    have count := (hr oneDisk [] (.disk 0) rfl (by decide)).2.2.2
    rw [record oneDisk [] (.disk 0) rfl, blocks] at count
    rw [← count]
    exact mod_lt _ (Nat.two_pow_pos 64)
  · intro fits s devname dev hf room
    rw [record s devname dev hf, blocks, mod_eq_of_lt fits]
    refine ⟨?_, rfl, h1, rfl⟩
    have one : min (min gptMaxParts (blkdevMax - s.devices.length)) 1 = 1 := by
      rw [gptMaxParts]
      omega
    rw [(gptScan_eq hf table).1, hw, length_singleton, one]
    rfl

theorem Installed.registersRoot_iff {d : InstallDisk} (lt : n < word) (hi : Installed n bs d) :
    RegistersRoot n bs (d.drive bs) ↔ (rootEnd n bs - rootStart bs + 1) * (bs / 512) < word := by
  have room := hi.room
  have block : min 512 bs = 512 := by omega
  have count : (d.drive bs).blockCount = n := hi.count
  have header : gptHeader (d.drive bs) = some (clip 512 (installHeader n bs 1 (lastLba n) 2)) := by
    rw [gptHeader, show (d.drive bs).read 1 = _ from if_pos (by rw [hi.count]; omega),
      hi.header, block]
    exact if_pos (headerValid_installHeader (by decide))
  obtain ⟨hdr, m, table, ha⟩ := gptTable_installed size rfl header (by decide) fun k low => by
    rw [mod_eq_of_lt (by omega), ← hi.entries k low]
    exact if_pos (by rw [hi.count]; omega)
  exact Gpt.registersRoot_iff size rfl hi.order table ha

theorem Installed.backup_iff {d : InstallDisk} {primary : Bytes} (lt : n < word)
    (hi : Installed n bs d) (hn : headerValid primary 1 = false) :
    RegistersRoot n bs ((d.overwrite 1 primary).drive bs) ↔
      (rootEnd n bs - rootStart bs + 1) * (bs / 512) < word := by
  have room := hi.room
  have order := hi.order
  obtain ⟨pos, low, esp, root, -⟩ := espEnd_lt size
  obtain ⟨last, h1, stop⟩ := layout_eq lt room
  have block : min 512 bs = 512 := by omega
  have count : (d.overwrite 1 primary).blockCount = n := hi.count
  have hr (lba : Nat) (hs : lba < n) (other : lba ≠ 1) :
      ((d.overwrite 1 primary).drive bs).read lba = some (d.content lba) := by
    have content : (d.overwrite 1 primary).content lba = d.content lba := update_of_ne other ..
    rw [← content]
    exact if_pos (by omega)
  have overwritten : ((d.overwrite 1 primary).drive bs).read 1 = some primary := by
    have content : (d.overwrite 1 primary).content 1 = primary := by
      simp [InstallDisk.overwrite]
    nth_rewrite 2 [← content]
    exact if_pos (by omega)
  have header : gptHeader ((d.overwrite 1 primary).drive bs) =
      some (clip 512 (installHeader n bs (lastLba n) 1 (backupLba n bs))) := by
    have lba : (((d.overwrite 1 primary).drive bs).blockCount + word - 1) % word = lastLba n := by
      rw [← count]
      rfl
    rw [gptHeader, overwritten]
    dsimp only
    rw [if_neg (by rw [hn]; exact Bool.false_ne_true), lba, hr _ (by omega) (by omega),
      hi.backupHeader, block]
    exact if_pos (headerValid_installHeader (by omega))
  obtain ⟨hdr, m, table, ha⟩ := gptTable_installed size rfl header (by omega) fun k low => by
    rw [mod_eq_of_lt (by omega), ← hi.backupEntries k low]
    exact hr _ (by omega) (by omega)
  exact Gpt.registersRoot_iff size rfl order table ha

theorem installRanges_inside (lt : n < word) (room : 2 + entryLbas bs ≤ n)
    (order : rootStart bs < rootEnd n bs) :
    ((installRanges n bs).Pairwise fun a b => a.2 < b.1 ∨ b.2 < a.1) ∧
      ∀ r ∈ installRanges n bs, r.1 ≤ r.2 ∧ r.2 < n := by
  obtain ⟨pos, low, esp, root, -⟩ := espEnd_lt size
  obtain ⟨last, h1, stop⟩ := layout_eq lt room
  constructor
  · simp only [installRanges, pairwise_cons, mem_cons, not_mem_nil, or_false,
      forall_eq_or_imp, forall_eq, false_implies, implies_true, List.Pairwise.nil, and_true]
    omega
  · simp only [installRanges, mem_cons, not_mem_nil, or_false, forall_eq_or_imp, forall_eq]
    omega

end

end

/-- A disk of any size on which the installer succeeds is laid out without overlaps and read back
by the kernel, also from the backup, exactly if the sectors of the root partition can be counted
in 64 bits. -/
theorem install_read_back {d d' : InstallDisk} {bs : Nat} (size : bs = 512 ∨ bs = 4096)
    (small : d.blockCount < word) (written : installWriteGpt d bs = some d') :
    ReadsBack bs d' ↔ (rootEnd d.blockCount bs - rootStart bs + 1) * (bs / 512) < word := by
  have installed := installWriteGpt_some size small written
  constructor
  · intro back
    have registers := back.registers
    rw [installed.count] at registers
    exact (installed.registersRoot_iff size small).mp registers
  · intro fits
    obtain ⟨apart, inside⟩ := installRanges_inside size small installed.room installed.order
    rw [← installed.count] at apart inside
    refine ⟨apart, inside, ?_, fun primary invalid => ?_⟩
    · rw [installed.count]
      exact (installed.registersRoot_iff size small).mpr fits
    · rw [installed.count]
      exact (installed.backup_iff size small invalid).mpr fits

def blankDisk (n : Nat) : InstallDisk where
  blockCount := n
  content _ _ := 0
  accepts lba := decide (lba < n)
  rejects _ accepted := of_decide_eq_true accepted

theorem install_read_back_small :
    ∃ d', installWriteGpt (blankDisk 131072) 512 = some d' ∧ ReadsBack 512 d' := by
  have works : (installWriteGpt (blankDisk 131072) 512).isSome = true := by decide +kernel
  obtain ⟨d', written⟩ := isSome_iff_exists.mp works
  exact ⟨d', written, (install_read_back (.inl rfl) (by decide) written).mpr (by decide)⟩

/-- On `2 ^ 61 + 2 ^ 20` blocks of 4096 bytes the number of sectors wraps around. -/
theorem install_size_wraps : ∃ d', installWriteGpt (blankDisk (2 ^ 61 + 2 ^ 20)) 4096 = some d' ∧
      ¬ RegistersRoot (2 ^ 61 + 2 ^ 20) 4096 (d'.drive 4096) := by
  have works : (installWriteGpt (blankDisk (2 ^ 61 + 2 ^ 20)) 4096).isSome = true := by
    decide +kernel
  obtain ⟨d', written⟩ := isSome_iff_exists.mp works
  have installed := installWriteGpt_some (.inr rfl) (by decide) written
  refine ⟨d', written, fun registers => ?_⟩
  have fits := (installed.registersRoot_iff (.inr rfl) (by decide)).mp registers
  exact absurd fits (by decide)

end Aegis.Gpt
