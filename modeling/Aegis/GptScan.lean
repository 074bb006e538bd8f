import Aegis.Gpt

/-! `gpt_scan` and `gpt_rescan` on the table of block devices. The records of all partitions are
in one static array, which every scan fills from its start. -/

namespace Aegis.Gpt

open ByteMemory Function List
open ByteLayout (Byte)

/-- A registered device: a disk, or the partition record with a number. -/
inductive Device
  | disk (k : Nat)
  | part (idx : Nat)
  deriving DecidableEq

/-- `s_devs[idx]` and `s_parts[idx]`; `source` is the number of the entry it was made from, which
the kernel does not keep. -/
structure PartRecord where
  name : List Byte
  parent : Device
  lbaOffset : Nat
  blockCount : Nat
  source : Nat
  deriving DecidableEq

structure BlkState where
  devices : List Device
  parts : Nat → PartRecord
  diskName : Nat → List Byte

def BlkState.name (s : BlkState) : Device → List Byte
  | .disk k => s.diskName k
  | .part idx => (s.parts idx).name

def blkdevMax : Nat := 8

def gptMaxParts : Nat := 7

def blkdevGet (s : BlkState) (name : List Byte) : Option Device :=
  s.devices.find? fun d => decide (s.name d = name)

def blkdevUnregisterChildren (s : BlkState) (name : List Byte) : BlkState :=
  { s with devices := s.devices.filter fun d => !(name ++ [0x70]).isPrefixOf (s.name d) }

def partRecord (devname : List Byte) (dev : Device) (bs : Nat) (entries : Bytes)
    (partNum i : Nat) : PartRecord where
  name := devname.take 13 ++ [0x70, BitVec.ofNat 8 (0x30 + partNum)]
  parent := dev
  lbaOffset := (entryAt entries i).startLba
  blockCount :=
    (Partition.ofEntry bs (entryAt entries i).startLba (entryAt entries i).endLba).blockCount
  source := i

/-- The loop over the entries. The record is filled in before `blkdev_register` can fail. -/
def scanEntries (devname : List Byte) (dev : Device) (bs : Nat) (entries : Bytes) :
    List Nat → Nat → BlkState → BlkState × Nat
  | [], partNum, s => (s, partNum - 1)
  | i :: rest, partNum, s =>
    if gptMaxParts < partNum then (s, partNum - 1)
    else if !(entryAt entries i).wanted then scanEntries devname dev bs entries rest partNum s
    else
      let parts := update s.parts (partNum - 1)
        (partRecord devname dev bs entries partNum i)
      if blkdevMax ≤ s.devices.length then ({ s with parts := parts }, partNum - 1)
      else scanEntries devname dev bs entries rest (partNum + 1)
        { s with devices := s.devices ++ [.part (partNum - 1)], parts := parts }

/-- The scan of a device with content `drive`, and the number of partitions it registers. -/
def gptScan (s : BlkState) (devname : List Byte) (drive : Drive) : BlkState × Nat :=
  match blkdevGet s devname with
  | none => (s, 0)
  | some dev =>
    match gptTable drive with
    | none => (s, 0)
    | some (_, entries) =>
      scanEntries devname dev drive.blockSize entries (List.range 128) 1 s

def gptRescan (s : BlkState) (devname : List Byte) (drive : Drive) : BlkState × Nat :=
  gptScan (blkdevUnregisterChildren s devname) devname drive

/-! ### What a scan should do -/

/-- The entry is covered by the checksum of the array, and its blocks are usable blocks of the
disk. -/
def Covered (drive : Drive) (hdr entries : Bytes) (i : Nat) : Prop :=
  i < numEntries.get hdr ∧ firstUsable.get hdr ≤ (entryAt entries i).startLba ∧
    (entryAt entries i).endLba ≤ lastUsable.get hdr ∧ (entryAt entries i).endLba < drive.blockCount

/-- The record was made from a covered entry of the verified table. -/
def Validated (drive : Drive) (r : PartRecord) : Prop :=
  ∃ hdr entries, gptTable drive = some (hdr, entries) ∧ Covered drive hdr entries r.source ∧
    r.lbaOffset = (entryAt entries r.source).startLba ∧
    r.blockCount = (Partition.ofEntry drive.blockSize (entryAt entries r.source).startLba
      (entryAt entries r.source).endLba).blockCount

/-- A scan from `start` to `after` registers only validated partitions, and the partitions of
other devices that were registered in `before` stay what they were. -/
structure ScansSafely (before start after : BlkState) (devname : List Byte) (drive : Drive) :
    Prop where
  validated : ∀ d ∈ after.devices.drop start.devices.length,
    ∃ idx, d = .part idx ∧ Validated drive (after.parts idx)
  others : ∀ dev, blkdevGet start devname = some dev → ∀ idx, .part idx ∈ before.devices →
    (before.parts idx).parent ≠ dev → after.parts idx = before.parts idx

def wantedEntries (entries : Bytes) : List Nat :=
  (List.range 128).filter fun i => (entryAt entries i).wanted

/-- The entries that find room are covered, and the records that are filled in do not belong to a
registered partition of another device. -/
def ScanRoom (before start : BlkState) (devname : List Byte) (drive : Drive) : Prop :=
  ∀ dev hdr entries, blkdevGet start devname = some dev → gptTable drive = some (hdr, entries) →
    (∀ i ∈ (wantedEntries entries).take (min gptMaxParts (blkdevMax - start.devices.length)),
      Covered drive hdr entries i) ∧
    ∀ idx < min (min gptMaxParts (blkdevMax - start.devices.length + 1))
        (wantedEntries entries).length,
      .part idx ∈ before.devices → (before.parts idx).parent = dev

section
variable {devname : List Byte} {dev : Device} {bs : Nat} {entries : Bytes}

/-- The loop, from partition number `n + 1` on: the wanted entries fill the records from `n` on,
one more than are registered if the table is full. -/
theorem scanEntries_eq (l : List Nat) (n : Nat) (s : BlkState) :
    ((scanEntries devname dev bs entries l (n + 1) s).1.devices = s.devices ++
      (range' n (min (min (gptMaxParts - n) (blkdevMax - s.devices.length))
        (l.filter fun i => (entryAt entries i).wanted).length)).map .part) ∧
    ∀ idx, (scanEntries devname dev bs entries l (n + 1) s).1.parts idx =
      if n ≤ idx ∧ idx < n + min (gptMaxParts - n) (blkdevMax - s.devices.length + 1) then
        ((l.filter fun i => (entryAt entries i).wanted)[idx - n]?).elim (s.parts idx)
          (partRecord devname dev bs entries (idx + 1))
      else s.parts idx := by
  induction l generalizing n s with
  | nil =>
    refine ⟨by simp [scanEntries], fun idx => ?_⟩
    simp [scanEntries]
  | cons i rest ih =>
    rw [scanEntries]
    by_cases full : gptMaxParts < n + 1
    · have none : gptMaxParts - n = 0 := by omega
      rw [if_pos full]
      refine ⟨by simp [none], fun idx => ?_⟩
      rw [if_neg (by omega)]
    rw [if_neg full]
    by_cases hw : (entryAt entries i).wanted = true
    swap
    · have hs : (i :: rest).filter (fun i => (entryAt entries i).wanted) =
          rest.filter fun i => (entryAt entries i).wanted :=
        filter_cons_of_neg hw
      rw [if_pos (by simp [hw]), hs]
      exact ih n s
    have ht : (i :: rest).filter (fun i => (entryAt entries i).wanted) =
        i :: rest.filter fun i => (entryAt entries i).wanted :=
      filter_cons_of_pos hw
    rw [if_neg (by simp [hw]), ht, Nat.add_sub_cancel]
    by_cases room : blkdevMax ≤ s.devices.length
    · have none : blkdevMax - s.devices.length = 0 := by omega
      rw [if_pos room]
      refine ⟨by simp [none], fun idx => ?_⟩
      by_cases here : idx = n
      · subst here
        rw [if_pos (by omega), Nat.sub_self]
        exact update_self ..
      · rw [if_neg (by omega)]
        exact update_of_ne here ..
    rw [if_neg room]
    obtain ⟨devices, parts⟩ := ih (n + 1) { s with
      devices := s.devices ++ [.part n],
      parts := update s.parts n (partRecord devname dev bs entries (n + 1) i) }
    have length : (s.devices ++ [Device.part n]).length = s.devices.length + 1 := by simp
    dsimp only at devices parts
    rw [length] at devices parts
    constructor
    · have count : min (min (gptMaxParts - n) (blkdevMax - s.devices.length))
          (i :: rest.filter fun i => (entryAt entries i).wanted).length =
          min (min (gptMaxParts - (n + 1)) (blkdevMax - (s.devices.length + 1)))
            (rest.filter fun i => (entryAt entries i).wanted).length + 1 := by
        rw [length_cons]
        omega
      rw [devices, count, range'_succ, map_cons, append_assoc]
      rfl
    · intro idx
      rw [parts]
      by_cases here : idx = n
      · subst here
        rw [if_neg (by omega), if_pos (by omega), Nat.sub_self]
        exact update_self ..
      · rw [update_of_ne here]
        by_cases hl : n + 1 ≤ idx ∧ idx < n + 1 + min (gptMaxParts - (n + 1))
            (blkdevMax - (s.devices.length + 1) + 1)
        · have next : idx - n = idx - (n + 1) + 1 := by omega
          rw [if_pos hl, if_pos (by omega), next, getElem?_cons_succ]
        · rw [if_neg hl, if_neg (by omega)]

end

section
variable {before start : BlkState} {devname : List Byte} {drive : Drive} {dev : Device}
  {hdr entries : Bytes}

theorem gptScan_eq (hf : blkdevGet start devname = some dev)
    (table : gptTable drive = some (hdr, entries)) :
    ((gptScan start devname drive).1.devices = start.devices ++
      (range (min (min gptMaxParts (blkdevMax - start.devices.length))
        (wantedEntries entries).length)).map .part) ∧
    ∀ idx, (gptScan start devname drive).1.parts idx =
      if idx < min gptMaxParts (blkdevMax - start.devices.length + 1) then
        ((wantedEntries entries)[idx]?).elim (start.parts idx)
          (partRecord devname dev drive.blockSize entries (idx + 1))
      else start.parts idx := by
  have loop : gptScan start devname drive =
      scanEntries devname dev drive.blockSize entries (range 128) (0 + 1) start := by
    rw [gptScan, hf, table]
  obtain ⟨devices, parts⟩ := scanEntries_eq (range 128) 0 start
  rw [loop]
  refine ⟨?_, fun idx => ?_⟩
  · rw [devices, ← range_eq_range']
    rfl
  rw [parts]
  simp only [Nat.zero_le, true_and, Nat.zero_add, Nat.sub_zero]
  rfl

theorem gptScan_of_none (none : blkdevGet start devname = none ∨ gptTable drive = none) :
    gptScan start devname drive = (start, 0) := by
  rw [gptScan]
  rcases none with none | none
  · rw [none]
  · rw [none]
    split <;> rfl

theorem gptScan_parts_of_lt (hf : blkdevGet start devname = some dev)
    (table : gptTable drive = some (hdr, entries)) {idx : Nat}
    (room : idx < min gptMaxParts (blkdevMax - start.devices.length + 1))
    (entry : idx < (wantedEntries entries).length) :
    (gptScan start devname drive).1.parts idx =
      partRecord devname dev drive.blockSize entries (idx + 1) (wantedEntries entries)[idx] := by
  rw [(gptScan_eq hf table).2, if_pos room, getElem?_eq_getElem entry]
  rfl

theorem validated_partRecord (table : gptTable drive = some (hdr, entries)) {partNum i : Nat} :
    Validated drive (partRecord devname dev drive.blockSize entries partNum i) ↔
      Covered drive hdr entries i := by
  constructor
  · rintro ⟨hdr', entries', table', hc, -⟩
    rw [table, Option.some.injEq, Prod.mk.injEq] at table'
    obtain ⟨rfl, rfl⟩ := table'
    exact hc
  · exact fun hc => ⟨hdr, entries, table, hc, rfl, rfl⟩

theorem scansSafely_of_none (eq : start.parts = before.parts)
    (none : blkdevGet start devname = none ∨ gptTable drive = none) :
    ScansSafely before start (gptScan start devname drive).1 devname drive := by
  have hu := gptScan_of_none none
  constructor
  · rw [hu, drop_length]
    simp
  · intro _ _ idx _ _
    rw [hu, eq]

theorem scansSafely_iff (eq : start.parts = before.parts) :
    ScansSafely before start (gptScan start devname drive).1 devname drive ↔
      ScanRoom before start devname drive := by
  rcases hf : blkdevGet start devname with _ | dev
  · refine iff_of_true (scansSafely_of_none eq (.inl hf)) fun dev hdr entries get _ => ?_
    rw [hf] at get
    cases get
  rcases table : gptTable drive with _ | ⟨hdr, entries⟩
  · refine iff_of_true (scansSafely_of_none eq (.inr table)) fun dev hdr entries _ get => ?_
    rw [table] at get
    cases get
  obtain ⟨devices, parts⟩ := gptScan_eq hf table
  have record := @gptScan_parts_of_lt start devname drive dev hdr entries hf table
  constructor
  · rintro ⟨hv, ho⟩ dev' hdr' entries' hf' table'
    rw [hf, Option.some.injEq] at hf'
    rw [table, Option.some.injEq, Prod.mk.injEq] at table'
    obtain ⟨rfl, rfl⟩ := table'
    subst hf'
    constructor
    · intro i mem
      obtain ⟨idx, lt, rfl⟩ := mem_take_iff_getElem.mp mem
      have new : Device.part idx ∈
          (gptScan start devname drive).1.devices.drop start.devices.length := by
        rw [devices, drop_left]
        exact mem_map_of_mem (mem_range.mpr lt)
      obtain ⟨idx', eq, hl⟩ := hv _ new
      obtain rfl := Device.part.inj eq
      rw [record (by omega) (by omega)] at hl
      exact (validated_partRecord table).mp hl
    · intro idx lt mem
      by_contra other
      have kept := ho dev hf idx mem other
      rw [record (by omega) (by omega)] at kept
      exact other (congrArg PartRecord.parent kept).symm
  · intro room
    obtain ⟨hc, free⟩ := room dev hdr entries hf table
    constructor
    · intro d new
      rw [devices, drop_left] at new
      obtain ⟨idx, lt, rfl⟩ := mem_map.mp new
      have lt := mem_range.mp lt
      refine ⟨idx, rfl, ?_⟩
      rw [record (by omega) (by omega)]
      apply (validated_partRecord table).mpr
      apply hc
      exact mem_take_iff_getElem.mpr ⟨idx, by omega, rfl⟩
    · intro dev' hf' idx mem other
      rw [hf, Option.some.injEq] at hf'
      subst hf'
      rw [parts, eq]
      split
      · next low =>
        rcases lt_or_ge idx (wantedEntries entries).length with entry | hb
        · exact absurd (free idx (by omega) mem) other
        · rw [getElem?_eq_none hb]
          rfl
      · rfl

end

/-- A scan or a rescan from any state and for any content of the disk is safe exactly if the
entries that find room are covered and the records it fills in are free. -/
theorem scans_validated (s : BlkState) (devname : List Byte) (drive : Drive) :
    (ScansSafely s s (gptScan s devname drive).1 devname drive ↔ ScanRoom s s devname drive) ∧
      (ScansSafely s (blkdevUnregisterChildren s devname) (gptRescan s devname drive).1 devname
        drive ↔ ScanRoom s (blkdevUnregisterChildren s devname) devname drive) :=
  ⟨scansSafely_iff rfl, scansSafely_iff rfl⟩

def oneEntry : Bytes :=
  writeLe (writeLe (ofList (aegisPrefix ++ [1])) 8 32 100) 8 40 200

def oneHeader (n : Nat) : Bytes :=
  let hdr := Field.setAll (ofList gptSig) [(hdrSize, 92), (myLba, 1), (firstUsable, 6),
    (lastUsable, 900), (entryLba, 2), (numEntries, n), (entrySize, 128),
    (arrayCrc, crc32 oneEntry (n * 128))]
  hdrCrc.set hdr (crc32 hdr 92)

def oneDrive (n : Nat) : Drive where
  blockCount := 1000
  blockSize := 4096
  read lba := some (if lba = 1 then oneHeader n else if lba = 2 then oneEntry else fun _ => 0)

def twoDisks : BlkState where
  devices := [.disk 0, .disk 1]
  parts _ := ⟨[], .disk 0, 0, 0, 0⟩
  diskName k := [BitVec.ofNat 8 (0x61 + k)]

theorem oneDrive_scanned : (gptTable (oneDrive 0)).any (fun t => numEntries.get t.1 = 0) = true ∧
    (gptScan twoDisks [0x61] (oneDrive 0)).1.devices = [.disk 0, .disk 1, .part 0] ∧
    (gptScan twoDisks [0x61] (oneDrive 0)).1.parts 0 = ⟨[0x61, 0x70, 0x31], .disk 0, 100, 808, 0⟩ ∧
    blkdevGet (gptScan twoDisks [0x61] (oneDrive 0)).1 [0x62] = some (.disk 1) ∧
    (gptScan (gptScan twoDisks [0x61] (oneDrive 0)).1 [0x62] (oneDrive 0)).1.parts 0 =
      ⟨[0x62, 0x70, 0x31], .disk 1, 100, 808, 0⟩ := by
  decide +kernel

/-- The disk's header declares no entries, and the entry behind them is registered; the scan of
the second disk then takes the record of the first disk's partition. -/
theorem unchecked_entry_registered : ∃ once, once = (gptScan twoDisks [0x61] (oneDrive 0)).1 ∧
    ¬ ScansSafely twoDisks twoDisks once [0x61] (oneDrive 0) ∧
      ¬ ScansSafely once once (gptScan once [0x62] (oneDrive 0)).1 [0x62] (oneDrive 0) := by
  obtain ⟨declared, devices, record, get, taken⟩ := oneDrive_scanned
  refine ⟨_, rfl, ?_, ?_⟩
  · rintro ⟨validated, -⟩
    rw [devices] at validated
    obtain ⟨idx, same, hdr, entries, table, covered, -⟩ := validated (.part 0) (by decide)
    obtain rfl := Device.part.inj same
    rw [record] at covered
    rw [table, Option.any_some, decide_eq_true_iff] at declared
    have inside : 0 < numEntries.get hdr := covered.1
    exact absurd declared (ne_of_gt inside)
  · rintro ⟨-, others⟩
    have kept := others _ get 0 (by rw [devices]; decide) (by rw [record]; decide)
    rw [taken, record] at kept
    exact absurd kept (by decide)

end Aegis.Gpt
