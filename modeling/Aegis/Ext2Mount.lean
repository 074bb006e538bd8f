import Aegis.Ext2Cache

/-! Mounting an ext2 volume: the superblock and the first block of the group descriptors, the
checks that `ext2_mount` makes of them, and where `ext2_read_inode` then looks for an inode.
The checks that are left out decide whether the driver can work with the volume. -/

namespace Aegis.Ext2

open ByteMemory Function Nat BlockCache

structure Superblock where
  inodesCount : Nat
  blocksCount : Nat
  freeBlocksCount : Nat
  freeInodesCount : Nat
  firstDataBlock : Nat
  logBlockSize : Nat
  blocksPerGroup : Nat
  inodesPerGroup : Nat
  magic : Nat
  revLevel : Nat
  inodeSize : Nat
  deriving DecidableEq

def superblockOf (m : Bytes) : Superblock where
  inodesCount := readLe m 4 0
  blocksCount := readLe m 4 4
  freeBlocksCount := readLe m 4 12
  freeInodesCount := readLe m 4 16
  firstDataBlock := readLe m 4 20
  logBlockSize := readLe m 4 24
  blocksPerGroup := readLe m 4 32
  inodesPerGroup := readLe m 4 40
  magic := readLe m 2 56
  revLevel := readLe m 4 76
  inodeSize := readLe m 2 88

structure GroupDesc where
  blockBitmap : Nat
  inodeBitmap : Nat
  inodeTable : Nat
  freeBlocksCount : Nat
  freeInodesCount : Nat
  usedDirsCount : Nat

def groupDescOf (m : Bytes) (g : Nat) : GroupDesc where
  blockBitmap := readLe m 4 (32 * g)
  inodeBitmap := readLe m 4 (32 * g + 4)
  inodeTable := readLe m 4 (32 * g + 8)
  freeBlocksCount := readLe m 2 (32 * g + 12)
  freeInodesCount := readLe m 2 (32 * g + 14)
  usedDirsCount := readLe m 2 (32 * g + 16)

structure Geometry where
  sb : Superblock
  blockSize : Nat
  numGroups : Nat
  bgd : Nat → GroupDesc

def maxGroups : Nat := 32

def ext2Magic : Nat := 0xEF53

def Superblock.recordSize (sb : Superblock) : Nat := if 1 ≤ sb.revLevel then sb.inodeSize else 128

/-- Block and offset of an inode in `ext2_read_inode` and `ext2_write_inode`. -/
def Geometry.inodePos (geo : Geometry) (ino : Nat) : Option (Nat × Nat) :=
  let number := (ino + 2 ^ 32 - 1) % 2 ^ 32
  let group := number / geo.sb.inodesPerGroup
  let index := number % geo.sb.inodesPerGroup
  if geo.numGroups ≤ group ∨ maxGroups ≤ group then none
  else
    let byteOffset := index * geo.sb.recordSize % 2 ^ 32
    some (((geo.bgd group).inodeTable + byteOffset / geo.blockSize) % 2 ^ 32,
      byteOffset % geo.blockSize)

/-- `faults` is a division by zero; `bgdBlock` is the block the descriptors were read from. -/
inductive MountResult
  | fails
  | faults
  | mounted (geo : Geometry) (bgdBlock : Nat)

def BlockCache.clearSlots (c : BlockCache) : BlockCache :=
  (List.range cacheSlots).foldl (fun c i => ((c.setBlockNum i 0).setDirty i 0).setSlotAge i 0) c

def Superblock.numGroups (sb : Superblock) : Nat :=
  min maxGroups ((sb.blocksCount + sb.blocksPerGroup - 1) % 2 ^ 32 / sb.blocksPerGroup)

/-- `found` is whether the device exists, the other two are its answers to the reads. -/
def ext2Mount (c : BlockCache) (found superRead bgdRead : Bool) : MountResult × BlockCache :=
  let c := c.clearSlots
  if !found then (.fails, c)
  else if !superRead then (.fails, c)
  else
    let sb := superblockOf (view c.dev 1024)
    if sb.magic ≠ ext2Magic then (.fails, c)
    else if 6 < sb.logBlockSize then (.fails, c)
    else if 1 ≤ sb.revLevel ∧ (sb.inodeSize < 128 ∨ 4096 < sb.inodeSize) then (.fails, c)
    else if sb.blocksPerGroup = 0 then (.faults, c)
    else
      let bgdBlock := if sb.firstDataBlock = 1 then 2 else 1
      match c.cacheGetSlot (blockSize sb.logBlockSize) bgdBlock bgdRead with
      | (none, c) => (.fails, c)
      | (some i, c) =>
        -- the walk to `/etc/shadow` starts by dividing by `s_inodes_per_group`
        if sb.inodesPerGroup = 0 then (.faults, c)
        else (.mounted ⟨sb, blockSize sb.logBlockSize, sb.numGroups,
          groupDescOf (view c.mem (dataAddr i))⟩ bgdBlock, c)

/-! ### What is mounted -/

/-- The groups that the blocks from the first data block on make. -/
def Superblock.groupCount (sb : Superblock) : Nat :=
  (sb.blocksCount - sb.firstDataBlock + (sb.blocksPerGroup - 1)) / sb.blocksPerGroup

/-- The driver can work with the volume. The descriptors follow the block of the superblock. -/
structure Usable (geo : Geometry) (dev : Bytes) (bgdBlock : Nat) : Prop where
  block : 1024 ≤ geo.blockSize ∧ geo.blockSize ≤ slotData
  blocks : 0 < geo.sb.blocksPerGroup ∧ geo.sb.blocksPerGroup ≤ 8 * geo.blockSize
  inodes : 0 < geo.sb.inodesPerGroup ∧ geo.sb.inodesPerGroup ≤ 8 * geo.blockSize
  groups : geo.numGroups = geo.sb.groupCount
  placed : ∀ ino, 1 ≤ ino → ino ≤ geo.sb.inodesCount → ∃ b offset,
    geo.inodePos ino = some (b, offset) ∧ geo.sb.firstDataBlock ≤ b ∧ b < geo.sb.blocksCount ∧
      offset + 128 ≤ geo.blockSize
  table : bgdBlock = 1024 / geo.blockSize + 1
  whole : ∀ g < geo.sb.groupCount,
    geo.bgd g = groupDescOf (view dev (devAddr geo.blockSize bgdBlock)) g

/-- The count of groups is not spoilt by the first data block, by the limit of 32 groups or by
the sum that wraps. -/
def Superblock.GroupsMatch (sb : Superblock) : Prop :=
  (sb.blocksCount + sb.blocksPerGroup ≤ 2 ^ 32 ∧ sb.blocksCount ≤ maxGroups * sb.blocksPerGroup ∧
    (sb.blocksCount = 0 ∨ sb.firstDataBlock ≤ (sb.blocksCount - 1) % sb.blocksPerGroup)) ∨
  (sb.blocksCount + sb.blocksPerGroup ≤ 2 ^ 32 ∧ maxGroups * sb.blocksPerGroup < sb.blocksCount ∧
    31 * sb.blocksPerGroup + sb.firstDataBlock < sb.blocksCount ∧
    sb.blocksCount ≤ maxGroups * sb.blocksPerGroup + sb.firstDataBlock) ∨
  (2 ^ 32 < sb.blocksCount + sb.blocksPerGroup ∧ sb.blocksCount ≤ sb.firstDataBlock)

structure Checked (sb : Superblock) (table : Nat → Nat) : Prop where
  block : sb.logBlockSize ≤ 2
  first : sb.firstDataBlock = 1 ↔ sb.logBlockSize = 0
  blocks : sb.blocksPerGroup ≤ 8 * blockSize sb.logBlockSize
  inodes : sb.inodesPerGroup ≤ 8 * blockSize sb.logBlockSize
  groups : sb.GroupsMatch
  count : sb.inodesCount ≤ sb.groupCount * sb.inodesPerGroup
  records : ∀ index < min sb.inodesPerGroup sb.inodesCount,
    index * sb.recordSize % blockSize sb.logBlockSize + 128 ≤ blockSize sb.logBlockSize
  tables : ∀ g, g * sb.inodesPerGroup < sb.inodesCount → sb.firstDataBlock ≤ table g ∧
    table g + (min sb.inodesPerGroup (sb.inodesCount - g * sb.inodesPerGroup) - 1) *
      sb.recordSize / blockSize sb.logBlockSize < sb.blocksCount

/-! ### The slots before the first access -/

section
variable {c : BlockCache} {i b bs : Nat}

theorem clearSlots_empty (lt : i < cacheSlots) :
    c.clearSlots.dirty i = 0 ∧ c.clearSlots.slotAge i = 0 := by
  have loop : ∀ (l : List Nat) (c : BlockCache), (i ∈ l ∨ c.dirty i = 0 ∧ c.slotAge i = 0) →
      (l.foldl (fun c i => ((c.setBlockNum i 0).setDirty i 0).setSlotAge i 0) c).dirty i = 0 ∧
      (l.foldl (fun c i => ((c.setBlockNum i 0).setDirty i 0).setSlotAge i 0) c).slotAge i = 0 := by
    intro l
    induction l with
    | nil => exact fun c clear => clear.resolve_left List.not_mem_nil
    | cons k l ih =>
      intro c here
      have fits : 1024 ≤ slotData := by decide
      have slots : (((c.setBlockNum k 0).setDirty k 0).setSlotAge k 0).slots 1024 =
          update (c.slots 1024) k ⟨0, 0, 0, (c.slots 1024 k).data⟩ := by
        rw [slots_setSlotAge fits (by decide), slots_setDirty fits (by decide),
          slots_setBlockNum fits (by decide)]
        simp only [update_self, update_idem]
      refine ih _ ?_
      by_cases eq : i = k
      · rw [eq]
        exact .inr (slot_self slots).2
      obtain ⟨-, hd, age⟩ := slot_other slots eq
      rw [hd, age]
      exact here.imp_left fun hm => (List.mem_cons.mp hm).resolve_left eq
  exact loop _ c (.inl (List.mem_range.mpr lt))

theorem clearSlots_dev : c.clearSlots.dev = c.dev := by
  rw [clearSlots]
  induction List.range cacheSlots generalizing c with
  | nil => rfl
  | cons i l ih => exact ih

theorem label_dev : (c.label i b).dev = c.dev := rfl

theorem cacheGetSlot_first {r : Bool} {c' : BlockCache}
    (got : c.clearSlots.cacheGetSlot bs b r = (some i, c')) :
    ∀ k < devLen bs, view c'.mem (dataAddr i) k = view c.dev (devAddr bs b) k := by
  have ha : c.clearSlots.cacheFind b = none :=
    cacheFind_none.mpr fun j lt both => both.2 (clearSlots_empty lt).2
  have hc : c.clearSlots.writeBack bs c.clearSlots.victim = c.clearSlots :=
    if_neg fun hd => hd.1 (clearSlots_empty victim_lt).1
  rw [cacheGetSlot, ha] at got
  simp only [cacheEvict, hc] at got
  split at got
  · obtain ⟨slot, rfl⟩ := Prod.mk.inj got
    obtain rfl := Option.some.inj slot
    intro k lt
    rw [devRead, label_dev, clearSlots_dev]
    exact overlay_add lt
  · cases (Prod.mk.inj got).1

end

theorem groupDescOf_congr {m m' : Bytes} {n g : Nat} (eq : ∀ k < n, m' k = m k)
    (hi : 32 * g + 32 ≤ n) : groupDescOf m' g = groupDescOf m g := by
  have field : ∀ width offset, offset + width ≤ 32 →
      readLe m' width (32 * g + offset) = readLe m width (32 * g + offset) :=
    fun width offset room => readLe_congr fun k _ high => eq k (by omega)
  rw [groupDescOf, groupDescOf]
  congr 1
  · exact field 4 0 (by decide)
  · exact field 4 4 (by decide)
  · exact field 4 8 (by decide)
  · exact field 2 12 (by decide)
  · exact field 2 14 (by decide)
  · exact field 2 16 (by decide)

theorem blockSize_ge (log : Nat) : 1024 ≤ blockSize log := by
  rw [blockSize, shiftLeft_eq]
  exact Nat.le_mul_of_pos_right 1024 (Nat.two_pow_pos log)

structure Accepted (geo : Geometry) (dev : Bytes) (bgdBlock : Nat) : Prop where
  sb : geo.sb = superblockOf (view dev 1024)
  blockSize : geo.blockSize = blockSize geo.sb.logBlockSize
  numGroups : geo.numGroups = geo.sb.numGroups
  bgd : ∀ g < maxGroups, geo.bgd g = groupDescOf (view dev (devAddr geo.blockSize bgdBlock)) g
  bgdBlock : bgdBlock = if geo.sb.firstDataBlock = 1 then 2 else 1
  record : 128 ≤ geo.sb.recordSize ∧ geo.sb.recordSize ≤ 4096
  blocksPerGroup : 0 < geo.sb.blocksPerGroup
  inodesPerGroup : 0 < geo.sb.inodesPerGroup

theorem ext2Mount_accepted {c : BlockCache} {f s x : Bool} {geo : Geometry}
    {bgdBlock : Nat} (accepted : (ext2Mount c f s x).1 = .mounted geo bgdBlock) :
    Accepted geo c.dev bgdBlock := by
  rw [ext2Mount] at accepted
  dsimp only at accepted
  split at accepted
  · cases accepted
  split at accepted
  · cases accepted
  split at accepted
  · cases accepted
  split at accepted
  · cases accepted
  split at accepted
  · cases accepted
  next size =>
  split at accepted
  · cases accepted
  next blocks =>
  split at accepted
  · cases accepted
  next i c' got =>
  split at accepted
  · cases accepted
  next hi =>
  obtain ⟨rfl, rfl⟩ := MountResult.mounted.inj accepted
  have bytes := cacheGetSlot_first got
  rw [devLen_blockSize] at bytes
  rw [clearSlots_dev] at size blocks hi got bytes ⊢
  refine ⟨rfl, rfl, rfl, fun g lt => ?_, rfl, ?_, Nat.pos_of_ne_zero blocks, Nat.pos_of_ne_zero hi⟩
  · refine groupDescOf_congr bytes ?_
    have hl := blockSize_ge (superblockOf (view c.dev 1024)).logBlockSize
    simp only [maxGroups] at lt
    omega
  · simp only [Superblock.recordSize]
    split <;> omega

/-! ### The checks that are missing -/

theorem ceilDiv_eq_iff {x p n : Nat} (pos : 0 < p) :
    (x + (p - 1)) / p = n ↔ x ≤ n * p ∧ (n = 0 ∨ (n - 1) * p < x) := by
  rw [Nat.div_eq_iff pos]
  cases n with
  | zero => omega
  | succ k =>
    rw [succ_mul, Nat.add_sub_cancel]
    omega

section
variable {sb : Superblock}

theorem numGroups_eq_iff (pos : 0 < sb.blocksPerGroup) (word : sb.blocksPerGroup < 2 ^ 32)
    (count : sb.blocksCount < 2 ^ 32) :
    sb.numGroups = sb.groupCount ↔ sb.GroupsMatch := by
  rw [Superblock.numGroups, Superblock.groupCount, Superblock.GroupsMatch, eq_comm]
  generalize sb.blocksCount = blocks at *
  generalize sb.firstDataBlock = first at *
  generalize sb.blocksPerGroup = per at *
  by_cases hr : 2 ^ 32 < blocks + per
  · -- the wrapped sum is below the divisor
    have none : (blocks + per - 1) % 2 ^ 32 / per = 0 := div_eq_of_lt (by omega)
    rw [none, Nat.min_zero, ceilDiv_eq_iff pos]
    omega
  · have hw : (blocks + per - 1) % 2 ^ 32 = blocks + (per - 1) := by omega
    rw [hw]
    generalize hc : (blocks + (per - 1)) / per = groups
    obtain ⟨high, low⟩ := (ceilDiv_eq_iff pos).mp hc
    by_cases few : blocks ≤ maxGroups * per
    · have lt : groups ≤ maxGroups := by
        by_contra many
        have more : maxGroups * per ≤ (groups - 1) * per := Nat.mul_le_mul_right per (by omega)
        simp only [maxGroups] at many more few
        omega
      rw [Nat.min_eq_right lt, ceilDiv_eq_iff pos]
      rcases Nat.eq_zero_or_pos blocks with he | some
      · have zero : groups = 0 := by
          by_contra hp
          omega
        rw [zero]
        omega
      · have hp : groups ≠ 0 := fun zero => by
          rw [zero, Nat.zero_mul] at high
          omega
        have last : (blocks - 1) % per = blocks - 1 - (groups - 1) * per := by
          have hq : (blocks - 1) / per = groups - 1 := by
            rw [Nat.div_eq_iff pos]
            have next : groups * per = (groups - 1) * per + per := by
              rw [← succ_mul]
              congr 1
              omega
            omega
          have split := div_add_mod (blocks - 1) per
          rw [hq, Nat.mul_comm] at split
          omega
        rw [last]
        omega
    · have many : maxGroups ≤ groups := by
        by_contra less
        have hf : groups * per ≤ maxGroups * per := Nat.mul_le_mul_right per (by omega)
        omega
      rw [Nat.min_eq_left many, ceilDiv_eq_iff pos]
      simp only [maxGroups] at few ⊢
      omega

end

section
variable {geo : Geometry} {dev : Bytes} {bgdBlock : Nat}

theorem inodePos_eq {group index : Nat} (ht : group < geo.numGroups) (few : group < maxGroups)
    (lt : index < geo.sb.inodesPerGroup)
    (number : group * geo.sb.inodesPerGroup + index + 1 < 2 ^ 32)
    (bytes : index * geo.sb.recordSize < 2 ^ 32) :
    geo.inodePos (group * geo.sb.inodesPerGroup + index + 1) =
      some (((geo.bgd group).inodeTable + index * geo.sb.recordSize / geo.blockSize) % 2 ^ 32,
        index * geo.sb.recordSize % geo.blockSize) := by
  have pos : 0 < geo.sb.inodesPerGroup := by omega
  have hw : (group * geo.sb.inodesPerGroup + index + 1 + 2 ^ 32 - 1) % 2 ^ 32 =
      group * geo.sb.inodesPerGroup + index := by omega
  have hq : (group * geo.sb.inodesPerGroup + index) / geo.sb.inodesPerGroup = group := by
    rw [mul_comm, mul_add_div pos, div_eq_of_lt lt, add_zero]
  have rest : (group * geo.sb.inodesPerGroup + index) % geo.sb.inodesPerGroup = index := by
    rw [mul_comm, mul_add_mod, mod_eq_of_lt lt]
  rw [Geometry.inodePos]
  simp only [hw, hq, rest, mod_eq_of_lt bytes]
  exact if_neg (by omega)

theorem inodePos_group {ino b offset : Nat} (pos : 1 ≤ ino) (word : ino < 2 ^ 32)
    (hp : geo.inodePos ino = some (b, offset)) :
    (ino - 1) / geo.sb.inodesPerGroup < geo.numGroups := by
  have hw : (ino + 2 ^ 32 - 1) % 2 ^ 32 = ino - 1 := by omega
  rw [Geometry.inodePos] at hp
  simp only [hw] at hp
  split at hp
  · cases hp
  · omega

theorem Accepted.log_le (accepted : Accepted geo dev bgdBlock) (fits : geo.blockSize ≤ slotData) :
    geo.sb.logBlockSize ≤ 2 := by
  by_contra large
  have more : 2 ^ 3 ≤ 2 ^ geo.sb.logBlockSize := Nat.pow_le_pow_right (by decide) (by omega)
  rw [accepted.blockSize, Ext2.blockSize, shiftLeft_eq] at fits
  simp only [slotData] at fits
  omega

def tablesOn (dev : Bytes) (log g : Nat) : Nat :=
  (groupDescOf (view dev (devAddr (blockSize log) (1024 / blockSize log + 1))) g).inodeTable

section
variable (accepted : Accepted geo dev bgdBlock)
include accepted

theorem Accepted.words :
    geo.sb.inodesCount < 2 ^ 32 ∧ geo.sb.blocksCount < 2 ^ 32 ∧ geo.sb.blocksPerGroup < 2 ^ 32 := by
  rw [accepted.sb]
  exact ⟨readLe_lt, readLe_lt, readLe_lt⟩

theorem Accepted.table_iff (lt : geo.sb.logBlockSize ≤ 2) : bgdBlock = 1024 / geo.blockSize + 1 ↔
      (geo.sb.firstDataBlock = 1 ↔ geo.sb.logBlockSize = 0) := by
  rw [accepted.bgdBlock, accepted.blockSize]
  generalize geo.sb.logBlockSize = log at lt
  have cases : log = 0 ∨ log = 1 ∨ log = 2 := by omega
  rcases cases with rfl | rfl | rfl
  · have one : 1024 / Ext2.blockSize 0 = 1 := by decide
    rw [one]
    split <;> simp_all
  · have zero : 1024 / Ext2.blockSize 1 = 0 := by decide
    rw [zero]
    split <;> simp_all
  · have zero : 1024 / Ext2.blockSize 2 = 0 := by decide
    rw [zero]
    split <;> simp_all

theorem Accepted.index_lt {index : Nat} (fits : geo.blockSize ≤ slotData)
    (hi : geo.sb.inodesPerGroup ≤ 8 * geo.blockSize) (lt : index < geo.sb.inodesPerGroup) :
    index * geo.sb.recordSize < 2 ^ 32 ∧ index * geo.sb.recordSize / geo.blockSize < 2 ^ 17 := by
  have hl : 1024 ≤ geo.blockSize := accepted.blockSize ▸ blockSize_ge _
  have hb : index * geo.sb.recordSize ≤ 32768 * 4096 := by
    refine Nat.mul_le_mul ?_ accepted.record.2
    simp only [slotData] at fits
    omega
  refine ⟨by omega, ?_⟩
  rw [Nat.div_lt_iff_lt_mul (by omega)]
  have hp : 2 ^ 17 * 1024 ≤ 2 ^ 17 * geo.blockSize := Nat.mul_le_mul_left _ hl
  have strict : index * geo.sb.recordSize < 32768 * 4096 := by
    refine Nat.mul_lt_mul_of_lt_of_le ?_ accepted.record.2 (by decide)
    simp only [slotData] at fits
    omega
  omega

end

theorem Usable.checked (hu : Usable geo dev bgdBlock) (accepted : Accepted geo dev bgdBlock) :
    Checked geo.sb (tablesOn dev geo.sb.logBlockSize) := by
  obtain ⟨hi, hb, hg⟩ := accepted.words
  have lt := accepted.log_le hu.block.2
  have groups := hu.groups
  rw [accepted.numGroups] at groups
  have few : geo.numGroups ≤ maxGroups := by
    rw [accepted.numGroups]
    exact Nat.min_le_left _ _
  have count : geo.sb.inodesCount ≤ geo.sb.groupCount * geo.sb.inodesPerGroup := by
    rcases Nat.eq_zero_or_pos geo.sb.inodesCount with none | some
    · omega
    obtain ⟨b, offset, hp, -⟩ := hu.placed _ some (Nat.le_refl _)
    have group := inodePos_group some hi hp
    rw [Nat.div_lt_iff_lt_mul hu.inodes.1, hu.groups] at group
    omega
  have spread : geo.sb.blocksCount - geo.sb.firstDataBlock ≤ 32 * (8 * 4096) := by
    have hc := (ceilDiv_eq_iff (x := geo.sb.blocksCount - geo.sb.firstDataBlock) hu.blocks.1).mp rfl
    have hn : geo.sb.groupCount * geo.sb.blocksPerGroup ≤ 32 * (8 * 4096) := by
      refine Nat.mul_le_mul (hu.groups ▸ few) ?_
      have blocks := hu.blocks.2
      have fits := hu.block.2
      simp only [slotData] at fits
      omega
    exact Nat.le_trans hc.1 hn
  -- what is known of the inode at an index of a group
  have hl : ∀ g index, index < geo.sb.inodesPerGroup →
      g * geo.sb.inodesPerGroup + index < geo.sb.inodesCount → g < geo.numGroups ∧
      geo.sb.firstDataBlock ≤
        ((geo.bgd g).inodeTable + index * geo.sb.recordSize / geo.blockSize) % 2 ^ 32 ∧
      ((geo.bgd g).inodeTable + index * geo.sb.recordSize / geo.blockSize) % 2 ^ 32 <
        geo.sb.blocksCount ∧
      index * geo.sb.recordSize % geo.blockSize + 128 ≤ geo.blockSize := by
    intro g index hw hr
    have group : g < geo.numGroups := by
      rw [hu.groups]
      refine Nat.lt_of_mul_lt_mul_right (a := geo.sb.inodesPerGroup) ?_
      omega
    obtain ⟨b, offset, hp, low, high, ha⟩ :=
      hu.placed (g * geo.sb.inodesPerGroup + index + 1) (by omega) (by omega)
    rw [inodePos_eq group (by omega) hw (by omega)
      (accepted.index_lt hu.block.2 hu.inodes.2 hw).1] at hp
    cases hp
    exact ⟨group, low, high, ha⟩
  refine ⟨lt, (accepted.table_iff lt).mp hu.table, accepted.blockSize ▸ hu.blocks.2,
    accepted.blockSize ▸ hu.inodes.2,
    (numGroups_eq_iff hu.blocks.1 hg hb).mp groups, count,
    fun index hw => ?_, fun g hr => ?_⟩
  · rw [← accepted.blockSize]
    exact (hl 0 index (by omega) (by omega)).2.2.2
  obtain ⟨group, h1, hd, -⟩ := hl g 0 hu.inodes.1 hr
  have table : tablesOn dev geo.sb.logBlockSize g = (geo.bgd g).inodeTable := by
    rw [tablesOn, ← accepted.blockSize, ← hu.table, hu.whole g (hu.groups ▸ group)]
  have word : (geo.bgd g).inodeTable < 2 ^ 32 := by
    rw [accepted.bgd g (by omega)]
    exact readLe_lt
  generalize named : min geo.sb.inodesPerGroup
    (geo.sb.inodesCount - g * geo.sb.inodesPerGroup) - 1 = last
  have hw : last < geo.sb.inodesPerGroup := by
    have pos := hu.inodes.1
    omega
  obtain ⟨-, low, high, -⟩ := hl g last hw (by omega)
  have far := (accepted.index_lt hu.block.2 hu.inodes.2 hw).2
  rw [table, ← accepted.blockSize]
  rw [Nat.zero_mul, Nat.zero_div, Nat.add_zero, mod_eq_of_lt word] at h1 hd
  -- a table that runs over the last block number would come back below the first block
  have hs : (geo.bgd g).inodeTable + last * geo.sb.recordSize / geo.blockSize < 2 ^ 32 := by
    by_contra beyond
    omega
  rw [mod_eq_of_lt hs] at high
  exact ⟨h1, high⟩

theorem Checked.usable (hc : Checked geo.sb (tablesOn dev geo.sb.logBlockSize))
    (accepted : Accepted geo dev bgdBlock) : Usable geo dev bgdBlock := by
  obtain ⟨hd, hb, hg⟩ := accepted.words
  have fits : geo.blockSize ≤ slotData := accepted.blockSize ▸ blockSize_le hc.block
  have hn : geo.sb.inodesPerGroup ≤ 8 * geo.blockSize := accepted.blockSize ▸ hc.inodes
  have groups : geo.numGroups = geo.sb.groupCount := by
    rw [accepted.numGroups]
    exact (numGroups_eq_iff accepted.blocksPerGroup hg hb).mpr hc.groups
  have few : geo.numGroups ≤ maxGroups := by
    rw [accepted.numGroups]
    exact Nat.min_le_left _ _
  have table := (accepted.table_iff hc.block).mpr hc.first
  refine ⟨⟨accepted.blockSize ▸ blockSize_ge _, fits⟩,
    ⟨accepted.blocksPerGroup, accepted.blockSize ▸ hc.blocks⟩,
    ⟨accepted.inodesPerGroup, hn⟩, groups, fun ino pos hp => ?_, table,
    fun g lt => accepted.bgd g (by omega)⟩
  generalize split : (ino - 1) / geo.sb.inodesPerGroup = group
  generalize rest : (ino - 1) % geo.sb.inodesPerGroup = index
  have hw : index < geo.sb.inodesPerGroup := rest ▸ mod_lt _ accepted.inodesPerGroup
  have number : ino = group * geo.sb.inodesPerGroup + index + 1 := by
    have hh := div_add_mod (ino - 1) geo.sb.inodesPerGroup
    rw [split, rest, Nat.mul_comm] at hh
    omega
  have hl : group < geo.numGroups := by
    rw [groups]
    refine Nat.lt_of_mul_lt_mul_right (a := geo.sb.inodesPerGroup) ?_
    have count := hc.count
    omega
  obtain ⟨low, high⟩ := hc.tables group (by omega)
  have eq : tablesOn dev geo.sb.logBlockSize group = (geo.bgd group).inodeTable := by
    rw [tablesOn, ← accepted.blockSize, ← table, accepted.bgd group (by omega)]
  rw [eq, ← accepted.blockSize] at high
  rw [eq] at low
  have hs : index * geo.sb.recordSize / geo.blockSize ≤
      (min geo.sb.inodesPerGroup (geo.sb.inodesCount - group * geo.sb.inodesPerGroup) - 1) *
        geo.sb.recordSize / geo.blockSize :=
    Nat.div_le_div_right (Nat.mul_le_mul_right _ (by omega))
  have hi := hc.records index (by omega)
  rw [← accepted.blockSize] at hi
  refine ⟨(geo.bgd group).inodeTable + index * geo.sb.recordSize / geo.blockSize, _, ?_,
    Nat.le_trans low (Nat.le_add_right _ _), by omega, hi⟩
  rw [number, inodePos_eq hl (by omega) hw (by omega)
    (accepted.index_lt fits hn hw).1, mod_eq_of_lt (by omega)]

/-- A volume that is mounted can be worked with exactly when its superblock and descriptors
pass the checks that are left out. -/
theorem mount_usable_iff {c : BlockCache} {found superRead bgdRead : Bool}
    (mounts : (ext2Mount c found superRead bgdRead).1 = .mounted geo bgdBlock) :
    Usable geo c.dev bgdBlock ↔ Checked (superblockOf (view c.dev 1024))
      (tablesOn c.dev (superblockOf (view c.dev 1024)).logBlockSize) := by
  have accepted := ext2Mount_accepted mounts
  rw [← accepted.sb]
  exact ⟨fun usable => usable.checked accepted, fun checked => checked.usable accepted⟩

end

/-! ### Three volumes -/

def partitionOf (fields : List (Nat × Nat × Nat)) : Bytes :=
  fields.foldl (fun m field => writeLe m field.2.1 field.1 field.2.2) fun _ => 0

/-- One group with 16 inodes, its bitmaps in blocks 3 and 4 and its inode table in block 5. -/
def volumeWith (log first blocks : Nat) : Bytes :=
  partitionOf [(1024, 4, 16), (1028, 4, blocks), (1036, 4, 40), (1040, 4, 5), (1044, 4, first),
    (1048, 4, log), (1056, 4, 8192), (1064, 4, 16), (1080, 2, ext2Magic),
    (2048, 4, 3), (2052, 4, 4), (2056, 4, 5), (2060, 2, 40), (2062, 2, 5), (2064, 2, 2)]

def bootCache (dev : Bytes) : BlockCache := ⟨fun _ => 0, 0, dev⟩

def MountResult.isMounted : MountResult → Bool
  | .mounted _ _ => true
  | _ => false

theorem exists_mounted {r : MountResult} (mounts : r.isMounted = true) :
    ∃ geo bgdBlock, r = .mounted geo bgdBlock := by
  cases r with
  | mounted geo bgdBlock => exact ⟨geo, bgdBlock, rfl⟩
  | fails => cases mounts
  | faults => cases mounts

theorem mount_usable_iff_small :
    ∃ geo bgdBlock, (ext2Mount (bootCache (volumeWith 0 1 64)) true true true).1 =
      .mounted geo bgdBlock ∧ Usable geo (volumeWith 0 1 64) bgdBlock := by
  obtain ⟨geo, bgdBlock, mounts⟩ := exists_mounted
    (r := (ext2Mount (bootCache (volumeWith 0 1 64)) true true true).1) (by decide +kernel)
  refine ⟨geo, bgdBlock, mounts, (mount_usable_iff mounts).mpr ?_⟩
  have sb : superblockOf (view (bootCache (volumeWith 0 1 64)).dev 1024) =
      ⟨16, 64, 40, 5, 1, 0, 8192, 16, ext2Magic, 0, 0⟩ := by decide +kernel
  have table : tablesOn (bootCache (volumeWith 0 1 64)).dev 0 0 = 5 := by decide +kernel
  rw [sb]
  refine ⟨by decide, by decide, by decide, by decide, .inl (by decide), by decide, by decide,
    fun g present => ?_⟩
  obtain rfl : g = 0 := by
    simp only at present
    omega
  simp only [table]
  decide

/-- With 1 KiB blocks and 8193 of them there is one group, the driver counts two. Blocks of
8 KiB are accepted as well. -/
theorem unusable_mounted :
    (∃ geo bgdBlock, (ext2Mount (bootCache (volumeWith 0 1 8193)) true true true).1 =
      .mounted geo bgdBlock ∧ ¬ Usable geo (volumeWith 0 1 8193) bgdBlock) ∧
    ∃ geo bgdBlock, (ext2Mount (bootCache (volumeWith 3 0 64)) true true true).1 =
      .mounted geo bgdBlock ∧ ¬ Usable geo (volumeWith 3 0 64) bgdBlock := by
  constructor
  · obtain ⟨geo, bgdBlock, mounts⟩ := exists_mounted
      (r := (ext2Mount (bootCache (volumeWith 0 1 8193)) true true true).1) (by decide +kernel)
    refine ⟨geo, bgdBlock, mounts, fun usable => ?_⟩
    have accepted := ext2Mount_accepted mounts
    have groups := usable.groups
    rw [accepted.numGroups, accepted.sb] at groups
    exact absurd groups (by decide +kernel)
  · obtain ⟨geo, bgdBlock, mounts⟩ := exists_mounted
      (r := (ext2Mount (bootCache (volumeWith 3 0 64)) true true true).1) (by decide +kernel)
    refine ⟨geo, bgdBlock, mounts, fun usable => ?_⟩
    have accepted := ext2Mount_accepted mounts
    have fits := usable.block.2
    rw [accepted.blockSize, accepted.sb] at fits
    exact absurd fits (by decide +kernel)

end Aegis.Ext2
