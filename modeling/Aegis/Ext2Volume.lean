import Aegis.Ext2Mount
import Aegis.BlockProgram

/-! A mounted ext2 volume: its blocks and the counters that the driver keeps in memory. The
functions of the driver are programs over blocks; what they mean is their run on the contents
of the blocks. Run through the block cache, a program does the same to what the cache stands
for, as long as the age counter does not wrap. -/

namespace Aegis.Ext2

open ByteMemory BlockProgram BlockCache CacheState

structure Counters where
  freeBlocks : Nat → Nat
  freeInodes : Nat → Nat
  usedDirs : Nat → Nat
  totalFreeBlocks : Nat
  totalFreeInodes : Nat

/-- A function that does not return a value: it returns an error code, or a loop of it does
not end. -/
inductive Stop
  | code (c : Int)
  | hangs
  deriving DecidableEq

abbrev Volume := Disk Counters Bytes

abbrev Fs := BlockProgram Counters Stop Bytes

/-- An access through the cache, on a device that works: `cache_get_slot`, and
`cache_mark_dirty` for a block that is changed. -/
def cached (bs : Nat) : BlockHandler BlockCache Bytes := fun c b put =>
  match c.cacheGetSlot bs b true with
  | (none, c) => (none, c)
  | (some i, c) =>
    (some (c.buffer bs i), match put (some (c.buffer bs i)) with
      | none => c
      | some d => (c.setBuffer bs i d).cacheMarkDirty b)

def BlockCache.blocks (bs : Nat) (c : BlockCache) (b : Nat) : Bytes :=
  match c.cacheFind b with
  | some i => c.buffer bs i
  | none => devBlock bs c.dev b

def Settled (bs : Nat) (c : BlockCache) (blocks : Nat → Bytes) : Prop :=
  CacheInv bs ⟨c, none, fun _ => false, blocks⟩

structure CachedVolume where
  counters : Counters
  cache : BlockCache

namespace CachedVolume

variable {α : Type}

def volume (bs : Nat) (v : CachedVolume) : Volume := ⟨v.counters, v.cache.blocks bs⟩

def run (bs : Nat) (p : Fs α) (v : CachedVolume) : Except Stop α × CachedVolume :=
  let r := exec (cached bs) p v.counters v.cache
  (r.1, ⟨r.2.1, r.2.2⟩)

def accesses (bs : Nat) (p : Fs α) (v : CachedVolume) : Nat :=
  (trace (cached bs) p v.counters v.cache).length

def Early (bs : Nat) (p : Fs α) (v : CachedVolume) : Prop :=
  v.cache.age + v.accesses bs p < 2 ^ 32
  deriving Decidable

end CachedVolume

section
variable {bs b n : Nat} {c : BlockCache} {blocks : Nat → Bytes} {put : Option Bytes → Option Bytes}
  {s : CacheState}

theorem CacheInv.settled (inv : CacheInv bs s) (hf : ∀ i, s.stale i = false) :
    Settled bs s.cache s.content := by
  have none : s.stale = fun _ => false := funext hf
  have lines : lines bs ⟨s.cache, Option.none, fun _ => false, s.content⟩ = s.lines bs := by
    rw [lines, lines, none]
  refine ⟨by rw [lines]; exact inv.coherent, by rw [lines]; exact inv.content, inv.unique,
    fun i lt hd => ?_, fun b i held => by cases held⟩
  obtain ⟨age, -, hn⟩ := inv.dirty i lt hd
  exact ⟨age, rfl, hn⟩

theorem Settled.blocks_eq (hs : Settled bs c blocks) : c.blocks bs = blocks := by
  obtain ⟨s, eq, content, inv, hr⟩ : ∃ s : CacheState, s.cache = c ∧ s.content = blocks ∧
      CacheInv bs s ∧ ∀ i, s.stale i = false := ⟨_, rfl, rfl, hs, fun _ => rfl⟩
  subst eq content
  rw [← inv.content]
  funext b
  rw [blocks]
  cases hf : s.cache.cacheFind b with
  | none =>
    have ha : ∀ i < cacheSlots, ¬ (s.lines bs).Keeps i b := fun i lt hk => by
      simp only [WriteBack.Cache.Keeps, lines, lineOf, Bool.and_eq_true, decide_eq_true_eq] at hk
      exact cacheFind_none.mp hf i lt ⟨hk.2, hk.1.1⟩
    exact (WriteBack.content_absent ha).symm
  | some i =>
    obtain ⟨lt, block, age⟩ := cacheFind_some hf
    have hk : (s.lines bs).Keeps i b := by
      simp [WriteBack.Cache.Keeps, lines, lineOf, slots, age, block, hr]
    exact (inv.coherent.content_line lt hk).symm

theorem cacheGetSlot_held (bs : Nat) (s : CacheState) (b : Nat) :
    ∃ i, s.cache.cacheGetSlot bs b true = (some i, (cacheGet bs s b true).cache) ∧
      (cacheGet bs s b true).held = some (b, i) := by
  cases hf : s.cache.cacheFind b with
  | some i =>
    refine ⟨i, ?_, by rw [cacheGet_hit hf]⟩
    rw [cacheGet_hit hf, cacheGetSlot, hf]
  | none =>
    refine ⟨s.cache.victim, ?_, by rw [cacheGet_read hf]⟩
    rw [cacheGet_read hf, cacheGetSlot, hf]
    rfl

theorem cacheGet_content {r : Bool} : (cacheGet bs s b r).content = s.content := rfl

theorem cacheStore_cache {i : Nat} {d : Bytes} : (cacheStore bs s b i d).cache =
    (s.cache.setBuffer bs i d).cacheMarkDirty b := rfl

theorem cacheStore_content {i : Nat} {d : Bytes} : (cacheStore bs s b i d).content =
    Function.update s.content b (clip bs d) := rfl

theorem Settled.access (sectors : devLen bs = bs) (fits : bs ≤ slotData)
    (settled : Settled bs c blocks) (word : 0 < b ∧ b < 2 ^ 32) (early : c.age + 1 < 2 ^ 32) :
    (cached bs c b put).1 = (flat (clip bs) blocks b put).1 ∧
      Settled bs (cached bs c b put).2 (flat (clip bs) blocks b put).2 ∧
      (cached bs c b put).2.age = c.age + 1 := by
  obtain ⟨s, same, content, inv, fresh⟩ : ∃ s : CacheState, s.cache = c ∧ s.content = blocks ∧
      CacheInv bs s ∧ ∀ i, s.stale i = false := ⟨_, rfl, rfl, settled, fun _ => rfl⟩
  subst same content
  have got : CacheInv bs (cacheGet bs s b true) :=
    inv.get sectors fits word early fun i _ => fresh i
  have stale : ∀ i, (cacheGet bs s b true).stale i = false := cacheGet_stale fresh
  have age : (cacheGet bs s b true).cache.age = s.cache.age + 1 := by
    rw [cacheGet_age, Nat.mod_eq_of_lt early]
  obtain ⟨i, slot, held⟩ := cacheGetSlot_held bs s b
  have reads : (cacheGet bs s b true).cache.buffer bs i = s.content b := got.reads held
  simp only [cached, slot, reads, flat]
  cases put (some (s.content b)) with
  | none => exact ⟨trivial, got.settled stale, age⟩
  | some d =>
    refine ⟨trivial, ?_, (cacheMarkDirty_age _ _).trans age⟩
    have stored := (got.store (d := d) fits held).settled stale
    rw [cacheStore_cache, cacheStore_content, cacheGet_content] at stored
    exact stored

variable {α : Type} {p : Fs α} {v : CachedVolume}

/-- A program run through the cache does to the contents what it does when run on them. -/
theorem CachedVolume.run_eq (sectors : devLen bs = bs) (fits : bs ≤ slotData)
    (settled : Settled bs v.cache (v.volume bs).blocks)
    (words : ∀ b ∈ touched (clip bs) p (v.volume bs), 0 < b ∧ b < 2 ^ 32)
    (early : v.Early bs p) :
    (v.run bs p).1 = (BlockProgram.run (clip bs) p (v.volume bs)).1 ∧
      (v.run bs p).2.volume bs = (BlockProgram.run (clip bs) p (v.volume bs)).2 ∧
      Settled bs (v.run bs p).2.cache ((v.run bs p).2.volume bs).blocks := by
  rw [Early] at early
  obtain ⟨same, vars, after, -⟩ := exec_simulates (h := cached bs) (l := flat (clip bs))
    (p := p) (k := v.counters) (s := v.cache) (t := (v.volume bs).blocks) (n := 0)
    (fun n c blocks => Settled bs c blocks ∧ c.age + n = v.cache.age + v.accesses bs p)
    (fun b => 0 < b ∧ b < 2 ^ 32)
    (fun n c blocks b put related word => by
      obtain ⟨settled, budget⟩ := related
      obtain ⟨same, after, age⟩ := settled.access sectors fits word (by omega)
      exact ⟨same, after, by omega⟩)
    ⟨settled, by rw [zero_add]; rfl⟩ words
  have contents : (v.run bs p).2.cache.blocks bs =
      (BlockProgram.run (clip bs) p (v.volume bs)).2.blocks := after.blocks_eq
  refine ⟨same, congrArg₂ Disk.mk vars contents, ?_⟩
  change Settled bs _ ((v.run bs p).2.cache.blocks bs)
  rw [contents]
  exact after

end

/-! ### Inodes, bitmaps and block pointers -/

section
open ByteMemory BlockProgram Function

def iMode : Field := ⟨0, 2⟩

def iSize : Field := ⟨4, 4⟩

def iLinksCount : Field := ⟨26, 2⟩

def iBlocks : Field := ⟨28, 4⟩

def iBlock (k : Nat) : Field := ⟨40 + 4 * k, 4⟩

def inodeBytes : Nat := 128

variable {k : Nat}

theorem iBlock_apart {f : Field} (low : f.offset + f.width ≤ 40) : (iBlock k).Apart f :=
  .inr (le_trans low (Nat.le_add_right _ _))

theorem apart_iBlock {f : Field} (low : f.offset + f.width ≤ 40) : f.Apart (iBlock k) :=
  .inl (le_trans low (Nat.le_add_right _ _))

theorem iBlock_apart_iBlock {j : Nat} (hd : j ≠ k) : (iBlock j).Apart (iBlock k) := by
  rw [Field.Apart, iBlock, iBlock]
  dsimp only
  omega

def fileKind (inode : Bytes) : Nat := iMode.get inode / 4096

def kindDir : Nat := 4

def kindReg : Nat := 8

def kindLink : Nat := 10

def freshInode (mode links : Nat) : Bytes := iLinksCount.set (iMode.set (fun _ => 0) mode) links

def failed : Stop := .code (-1)

def eIo : Stop := .code (-5)

/-- An error of `p` is returned as `e`; a loop that does not end stays one. -/
def orStop {α : Type} (p : Fs α) (e : Stop) : Fs α := do
  match ← p.attempt with
  | .ok a => pure a
  | .error .hangs => fail .hangs
  | .error (.code _) => fail e

def ignore {α : Type} (p : Fs α) : Fs Unit := do
  let _ ← p.attempt
  pure ()

def sub32 (a b : Nat) : Nat := (a + 2 ^ 32 - b % 2 ^ 32) % 2 ^ 32

section
variable (geo : Geometry)

def ext2ReadInode (ino : Nat) : Fs Bytes :=
  if ino = 0 then fail eIo
  else match geo.inodePos ino with
    | none => fail failed
    | some (b, offset) => do
      match ← look b with
      | none => fail failed
      | some d => pure (clip inodeBytes (view d offset))

def ext2WriteInode (ino : Nat) (inode : Bytes) : Fs Unit :=
  match geo.inodePos ino with
  | none => fail failed
  | some (b, offset) => do
    match ← change b fun d => some (overlay d offset inodeBytes inode) with
    | none => fail failed
    | some _ => pure ()

/-- The block of a file; 0 is a hole. Blocks behind the triple indirect block are not reached. -/
def ext2BlockNum (inode : Bytes) (fileBlock : Nat) : Fs Nat :=
  let ptrs := geo.blockSize / 4
  if fileBlock < 12 then pure ((iBlock fileBlock).get inode)
  else if fileBlock < 12 + ptrs then
    let indirect := (iBlock 12).get inode
    if indirect = 0 then pure 0
    else do
      match ← look indirect with
      | none => pure 0
      | some d => pure (readLe d 4 ((fileBlock - 12) * 4))
  else if fileBlock < 12 + ptrs + ptrs * ptrs then
    let double := (iBlock 13).get inode
    if double = 0 then pure 0
    else do
      match ← look double with
      | none => pure 0
      | some outer =>
        let index := fileBlock - 12 - ptrs
        let indirect := readLe outer 4 (index / ptrs * 4)
        if indirect = 0 then pure 0
        else
          match ← look indirect with
          | none => pure 0
          | some inner => pure (readLe inner 4 (index % ptrs * 4))
  else pure 0

/-! ### Allocation -/

structure Pool where
  bitmap : Nat → Nat
  /-- The bits of a group. -/
  size : Nat → Nat
  free : Counters → Nat → Nat
  take : Nat → Counters → Counters
  /-- The number of a bit. -/
  number : Nat → Nat → Nat

def Geometry.blocksInGroup (g : Nat) : Nat :=
  if g = geo.numGroups - 1 then sub32 geo.sb.blocksCount (g * geo.sb.blocksPerGroup)
  else geo.sb.blocksPerGroup

def Geometry.blockPool : Pool where
  bitmap g := (geo.bgd g).blockBitmap
  size := geo.blocksInGroup
  free c := c.freeBlocks
  take g c := { c with
    freeBlocks := update c.freeBlocks g ((c.freeBlocks g + 65535) % 65536)
    totalFreeBlocks := sub32 c.totalFreeBlocks 1 }
  number g i := (g * geo.sb.blocksPerGroup + i + geo.sb.firstDataBlock) % 2 ^ 32

def Geometry.inodePool : Pool where
  bitmap g := (geo.bgd g).inodeBitmap
  size _ := geo.sb.inodesPerGroup
  free c := c.freeInodes
  take g c := { c with
    freeInodes := update c.freeInodes g ((c.freeInodes g + 65535) % 65536)
    totalFreeInodes := sub32 c.totalFreeInodes 1 }
  number g i := (g * geo.sb.inodesPerGroup + i + 1) % 2 ^ 32

def allocFrom (pool : Pool) : List Nat → Fs Nat
  | [] => pure 0
  | g :: rest => do
    let c ← getVars
    if pool.free c g = 0 then allocFrom pool rest
    else
      match ← change (pool.bitmap g) fun d =>
          (firstClear (bit d) (pool.size g) 0).map (setBit d) with
      | none => allocFrom pool rest
      | some d =>
        match firstClear (bit d) (pool.size g) 0 with
        | none => allocFrom pool rest
        | some i => do
          modifyVars (pool.take g)
          pure (pool.number g i)

def Geometry.groupOrder (preferred : Nat) : List Nat :=
  (List.range geo.numGroups).map fun g => (g + preferred) % geo.numGroups

def ext2AllocBlock (preferred : Nat) : Fs Nat := allocFrom geo.blockPool (geo.groupOrder preferred)

end

end

end Aegis.Ext2
