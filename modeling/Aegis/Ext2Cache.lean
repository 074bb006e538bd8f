import Aegis.LabelledRun
import Aegis.ByteMemory
import Aegis.WriteBack

/-! The block cache of the ext2 driver: sixteen slots of `s_cache`, laid out in memory as the
compiler lays out `cache_slot_t`, in front of a partition. A slot has room for 4096 bytes and
a transfer is as long as a block, so a larger block spills into the next slot. For blocks that
fit, the slots are lines of a write-back cache: a reader gets what was last stored. A slot is
labelled before its block is read, and keeps the label when the read fails. -/

namespace Aegis.Ext2

open LabelledRun ByteMemory Function List Option

def cacheSlots : Nat := 16

def slotData : Nat := 4096

def slotAddr (i : Nat) : Nat := 4108 * i

def dataAddr (i : Nat) : Nat := slotAddr i + 12

structure BlockCache where
  mem : Bytes
  age : Nat
  dev : Bytes

def devAddr (bs b : Nat) : Nat := b * (bs / 512) * 512

def devLen (bs : Nat) : Nat := bs / 512 * 512

def devBlock (bs : Nat) (dev : Bytes) (b : Nat) : Bytes :=
  clip (devLen bs) (view dev (devAddr bs b))

namespace BlockCache

variable (c : BlockCache)

def blockNum (i : Nat) : Nat := readLe c.mem 4 (slotAddr i)

def dirty (i : Nat) : Nat := readLe c.mem 1 (slotAddr i + 4)

def slotAge (i : Nat) : Nat := readLe c.mem 4 (slotAddr i + 8)

def buffer (bs i : Nat) : Bytes := clip bs (view c.mem (dataAddr i))

def setMem (m : Bytes) : BlockCache := { c with mem := m }

def setBlockNum (i b : Nat) : BlockCache := c.setMem (writeLe c.mem 4 (slotAddr i) b)

def setDirty (i v : Nat) : BlockCache := c.setMem (writeLe c.mem 1 (slotAddr i + 4) v)

def setSlotAge (i v : Nat) : BlockCache := c.setMem (writeLe c.mem 4 (slotAddr i + 8) v)

def setBuffer (n i : Nat) (d : Bytes) : BlockCache := c.setMem (overlay c.mem (dataAddr i) n d)

def devRead (bs i b : Nat) : BlockCache :=
  c.setBuffer (devLen bs) i (view c.dev (devAddr bs b))

def devWrite (bs i b : Nat) : BlockCache :=
  { c with dev := overlay c.dev (devAddr bs b) (devLen bs) (view c.mem (dataAddr i)) }

def touch (i : Nat) : BlockCache :=
  { c.setSlotAge i ((c.age + 1) % 2 ^ 32) with age := (c.age + 1) % 2 ^ 32 }

def cacheFind (b : Nat) : Option Nat :=
  (List.range cacheSlots).find? fun i => decide (c.blockNum i = b ∧ c.slotAge i ≠ 0)

def better (best i : Nat) : Nat :=
  if c.dirty i = 0 ∧ c.dirty best ≠ 0 then i
  else if c.dirty i ≠ 0 ∧ c.dirty best = 0 then best
  else if c.slotAge i < c.slotAge best then i
  else best

def victim : Nat := (List.range' 1 (cacheSlots - 1)).foldl c.better 0

def writeBack (bs i : Nat) : BlockCache :=
  if c.dirty i ≠ 0 ∧ c.blockNum i ≠ 0 then (c.devWrite bs i (c.blockNum i)).setDirty i 0 else c

def cacheEvict (bs : Nat) : Nat × BlockCache := (c.victim, c.writeBack bs c.victim)

def cacheMarkDirty (b : Nat) : BlockCache :=
  match c.cacheFind b with
  | none => c
  | some i => c.setDirty i 1

def label (i b : Nat) : BlockCache := ((c.setBlockNum i b).setDirty i 0).touch i

def cacheGetSlot (bs b : Nat) (reads : Bool) : Option Nat × BlockCache :=
  match c.cacheFind b with
  | some i => (some i, c.touch i)
  | none =>
    let (i, c) := c.cacheEvict bs
    let c := c.label i b
    if reads then (some i, c.devRead bs i b) else (none, c)

def ext2Sync (bs : Nat) : BlockCache :=
  (List.range cacheSlots).foldl (fun c i => c.writeBack bs i) c

end BlockCache

/-! ### Memory as slots -/

structure Slot where
  blockNum : Nat
  dirty : Nat
  age : Nat
  data : Bytes

def BlockCache.slots (bs : Nat) (c : BlockCache) (i : Nat) : Slot :=
  ⟨c.blockNum i, c.dirty i, c.slotAge i, c.buffer bs i⟩

open BlockCache

section
variable {c : BlockCache} {bs a n i j b v : Nat} {d src : Bytes}

theorem slots_overlay_other (fits : bs ≤ slotData) (other : j ≠ i) (low : slotAddr i ≤ a)
    (high : a + n ≤ slotAddr (i + 1)) :
    (c.setMem (overlay c.mem a n src)).slots bs j = c.slots bs j := by
  simp only [slotAddr] at low high
  have ha : 4108 * j + 4108 ≤ a ∨ a + n ≤ 4108 * j := by
    rcases lt_or_gt_of_ne other with less | more
    · exact .inl (by omega)
    · exact .inr (by omega)
  simp only [slotData] at fits
  simp only [slots, blockNum, dirty, slotAge, buffer, setMem, slotAddr, dataAddr, Slot.mk.injEq]
  refine ⟨?_, ?_, ?_, clip_congr fun k lt => ?_⟩
  · exact readLe_overlay_apart (by omega)
  · exact readLe_overlay_apart (by omega)
  · exact readLe_overlay_apart (by omega)
  · exact overlay_outside (by omega)

theorem buffer_overlay_header (hw : a + n ≤ dataAddr i) :
    (c.setMem (overlay c.mem a n src)).buffer bs i = c.buffer bs i :=
  clip_congr fun _ _ => overlay_outside (by omega)

section
variable (fits : bs ≤ slotData)
include fits

theorem slots_setMem {slot : Slot} (low : slotAddr i ≤ a) (high : a + n ≤ slotAddr (i + 1))
    (here : (c.setMem (overlay c.mem a n src)).slots bs i = slot) :
    (c.setMem (overlay c.mem a n src)).slots bs = update (c.slots bs) i slot := by
  funext j
  by_cases eq : j = i
  · rw [eq, update_self, here]
  · rw [update_of_ne eq, slots_overlay_other fits eq low high]

theorem slots_setBlockNum (lt : b < 2 ^ 32) :
    (c.setBlockNum i b).slots bs = update (c.slots bs) i { c.slots bs i with blockNum := b } := by
  refine slots_setMem fits le_rfl (by simp only [slotAddr]; omega) ?_
  simp only [slots, Slot.mk.injEq]
  refine ⟨readLe_writeLe_of_lt lt, ?_, ?_, buffer_overlay_header (by simp [dataAddr])⟩
  · exact readLe_overlay_apart (by omega)
  · exact readLe_overlay_apart (by omega)

theorem slots_setDirty (lt : v < 256) :
    (c.setDirty i v).slots bs = update (c.slots bs) i { c.slots bs i with dirty := v } := by
  refine slots_setMem fits (by omega) (by simp only [slotAddr]; omega) ?_
  simp only [slots, Slot.mk.injEq]
  refine ⟨?_, readLe_writeLe_of_lt lt, ?_, buffer_overlay_header (by simp [dataAddr])⟩
  · exact readLe_overlay_apart (by omega)
  · exact readLe_overlay_apart (by omega)

theorem slots_setSlotAge (lt : v < 2 ^ 32) :
    (c.setSlotAge i v).slots bs = update (c.slots bs) i { c.slots bs i with age := v } := by
  refine slots_setMem fits (by omega) (by simp only [slotAddr]; omega) ?_
  simp only [slots, Slot.mk.injEq]
  refine ⟨?_, ?_, readLe_writeLe_of_lt lt, buffer_overlay_header (by simp [dataAddr])⟩
  · exact readLe_overlay_apart (by omega)
  · exact readLe_overlay_apart (by omega)

theorem slots_setBuffer : (c.setBuffer bs i d).slots bs =
      update (c.slots bs) i { c.slots bs i with data := clip bs d } := by
  have room : bs ≤ 4096 := fits
  refine slots_setMem fits (by simp only [dataAddr]; omega)
    (by simp only [dataAddr, slotAddr]; omega) ?_
  simp only [slots, Slot.mk.injEq]
  refine ⟨?_, ?_, ?_, clip_congr fun k lt => overlay_add lt⟩
  · exact readLe_overlay_apart (by simp only [dataAddr]; omega)
  · exact readLe_overlay_apart (by simp only [dataAddr]; omega)
  · exact readLe_overlay_apart (by simp only [dataAddr]; omega)

theorem slots_touch : (c.touch i).slots bs =
      update (c.slots bs) i { c.slots bs i with age := (c.age + 1) % 2 ^ 32 } :=
  slots_setSlotAge fits (Nat.mod_lt _ (by decide))

theorem slots_label (lt : b < 2 ^ 32) : (c.label i b).slots bs = update (c.slots bs) i
      ⟨b, 0, (c.age + 1) % 2 ^ 32, (c.slots bs i).data⟩ := by
  rw [label, slots_touch fits, slots_setDirty fits (by decide), slots_setBlockNum fits lt]
  simp only [update_self, update_idem]
  rfl

theorem slots_devRead (hg : devLen bs = bs) : (c.devRead bs i b).slots bs =
      update (c.slots bs) i { c.slots bs i with data := devBlock bs c.dev b } := by
  rw [devRead, devBlock, hg]
  exact slots_setBuffer fits

end

theorem devBlock_devWrite (hg : devLen bs = bs) : devBlock bs (c.devWrite bs i b).dev =
      update (devBlock bs c.dev) b (c.buffer bs i) := by
  have addr : ∀ q, devAddr bs q = q * bs := fun q => by
    rw [devAddr, Nat.mul_assoc]
    exact congrArg (q * ·) hg
  funext q
  by_cases eq : q = b
  · subst eq
    rw [update_self, devBlock, hg]
    refine clip_congr fun k lt => ?_
    rw [devWrite, hg]
    exact overlay_add lt
  · rw [update_of_ne eq]
    refine clip_congr fun k lt => overlay_outside ?_
    rw [hg] at lt
    rw [addr, addr, hg]
    rcases Nat.lt_or_gt_of_ne eq with less | more
    · left
      calc q * bs + k < q * bs + bs := Nat.add_lt_add_left lt _
        _ = (q + 1) * bs := (Nat.succ_mul q bs).symm
        _ ≤ b * bs := Nat.mul_le_mul_right bs less
    · right
      calc b * bs + bs = (b + 1) * bs := (Nat.succ_mul b bs).symm
        _ ≤ q * bs := Nat.mul_le_mul_right bs more
        _ ≤ q * bs + k := Nat.le_add_right _ _

theorem victim_lt : c.victim < cacheSlots := by
  have loop : ∀ l : List Nat, (∀ i ∈ l, i < cacheSlots) → ∀ best < cacheSlots,
      l.foldl c.better best < cacheSlots := by
    intro l
    induction l with
    | nil => exact fun _ _ lt => lt
    | cons i l ih =>
      intro all best lt
      refine ih (fun j hm => all j (mem_cons_of_mem i hm)) _ ?_
      have here := all i mem_cons_self
      rw [better]
      split_ifs
      · exact here
      · exact lt
      · exact here
      · exact lt
  refine loop _ (fun i hm => ?_) 0 (by decide)
  have hb := mem_range'_1.mp hm
  simp only [cacheSlots] at hb ⊢
  omega

theorem cacheFind_some (hf : c.cacheFind b = some i) :
    i < cacheSlots ∧ c.blockNum i = b ∧ c.slotAge i ≠ 0 := by
  refine ⟨mem_range.mp (mem_of_find?_eq_some hf), ?_⟩
  exact of_decide_eq_true
    (find?_some (p := fun i => decide (c.blockNum i = b ∧ c.slotAge i ≠ 0)) hf)

theorem cacheFind_none : c.cacheFind b = none ↔
    ∀ i < cacheSlots, ¬ (c.blockNum i = b ∧ c.slotAge i ≠ 0) := by
  simp [cacheFind]

end

/-! ### Runs of the cache -/

/-- The cache and its user: `held` is the block and the slot of the buffer the user has. Two
history variables: the slots whose block could not be read, and the content of each block,
from the partition or as it was last stored. -/
structure CacheState where
  cache : BlockCache
  held : Option (Nat × Nat)
  stale : Nat → Bool
  content : Nat → Bytes

inductive CacheCall
  | get (b : Nat) (reads : Bool)
  /-- The buffer is changed and the block marked dirty. -/
  | store (d : Bytes)
  | sync

def cacheGet (bs : Nat) (s : CacheState) (b : Nat) (reads : Bool) : CacheState :=
  let r := s.cache.cacheGetSlot bs b reads
  { s with
    cache := r.2
    held := r.1.map fun i => (b, i)
    stale := if (s.cache.cacheFind b).isSome then s.stale
      else update s.stale s.cache.victim !reads }

def cacheStore (bs : Nat) (s : CacheState) (b i : Nat) (d : Bytes) : CacheState :=
  { s with
    cache := (s.cache.setBuffer bs i d).cacheMarkDirty b
    content := update s.content b (clip bs d) }

/-- Block numbers are unsigned words other than 0. -/
def cacheStep (bs : Nat) (s : CacheState) : CacheCall → Option CacheState
  | .get b reads => if 0 < b ∧ b < 2 ^ 32 then some (cacheGet bs s b reads) else none
  | .store d => s.held.map fun h => cacheStore bs s h.1 h.2 d
  | .sync => some { s with cache := s.cache.ext2Sync bs }

structure Mounted (bs : Nat) (s : CacheState) : Prop where
  empty : ∀ i < cacheSlots, s.cache.blockNum i = 0 ∧ s.cache.dirty i = 0 ∧ s.cache.slotAge i = 0
  held : s.held = none
  stale : ∀ i, s.stale i = false
  content : s.content = devBlock bs s.cache.dev
  age : s.cache.age < 2 ^ 32

def accesses (calls : List CacheCall) : Nat :=
  calls.countP fun | .get _ _ => true | _ => false

/-- What a line of a write-back cache is here; a slot whose read failed stands for nothing. -/
def lineOf (slot : Slot) (stale : Bool) : WriteBack.Line Nat Bytes :=
  ⟨slot.blockNum, decide (slot.age ≠ 0) && !stale, decide (slot.dirty ≠ 0), slot.data⟩

def CacheState.lines (bs : Nat) (s : CacheState) : WriteBack.Cache Nat Bytes :=
  ⟨fun i => lineOf (s.cache.slots bs i) (s.stale i), devBlock bs s.cache.dev⟩

structure CacheInv (bs : Nat) (s : CacheState) : Prop where
  coherent : WriteBack.Coherent cacheSlots (s.lines bs)
  content : WriteBack.Cache.content cacheSlots (s.lines bs) = s.content
  unique : ∀ i < cacheSlots, ∀ j < cacheSlots, s.cache.slotAge i ≠ 0 → s.cache.slotAge j ≠ 0 →
    s.cache.blockNum i = s.cache.blockNum j → i = j
  dirty : ∀ i < cacheSlots, s.cache.dirty i ≠ 0 →
    s.cache.slotAge i ≠ 0 ∧ s.stale i = false ∧ s.cache.blockNum i ≠ 0
  held : ∀ b i, s.held = some (b, i) → i < cacheSlots ∧ s.cache.blockNum i = b ∧
    s.cache.slotAge i ≠ 0 ∧ s.stale i = false ∧ 0 < b

/-- An access goes wrong in three ways: the counter of ages wraps to 0, which means a slot not
in use; a block does not fit its slot; the block is found in a slot that could not be read. -/
def CleanAccess (s : CacheState) : CacheCall → Prop
  | .get b _ => s.cache.age + 1 < 2 ^ 32 ∧ ∀ i, s.cache.cacheFind b = some i → s.stale i = false
  | _ => True

open CacheState

section
variable {s s' : CacheState} {bs b i : Nat} {d : Bytes} {x : Slot} {t : Bool}

theorem lines_update (slots : s'.cache.slots bs = update (s.cache.slots bs) i x)
    (hs : s'.stale = update s.stale i t)
    (dev : devBlock bs s'.cache.dev = devBlock bs s.cache.dev) :
    s'.lines bs = (s.lines bs).setLine i (lineOf x t) := by
  rw [lines, WriteBack.Cache.setLine, dev]
  refine congrArg (WriteBack.Cache.mk · _) (funext fun j => ?_)
  rw [slots, hs]
  by_cases eq : j = i
  · rw [eq, update_self, update_self, update_self]
  · rw [update_of_ne eq, update_of_ne eq, update_of_ne eq]
    rfl

theorem slot_self {c c' : BlockCache} (slots : c'.slots bs = update (c.slots bs) i x) :
    c'.blockNum i = x.blockNum ∧ c'.dirty i = x.dirty ∧ c'.slotAge i = x.age := by
  have slot := congrFun slots i
  rw [update_self] at slot
  subst slot
  exact ⟨rfl, rfl, rfl⟩

theorem slot_other {c c' : BlockCache} {j : Nat}
    (slots : c'.slots bs = update (c.slots bs) i x) (other : j ≠ i) :
    c'.blockNum j = c.blockNum j ∧ c'.dirty j = c.dirty j ∧ c'.slotAge j = c.slotAge j := by
  have slot := congrFun slots j
  rw [update_of_ne other] at slot
  simp only [BlockCache.slots, Slot.mk.injEq] at slot
  exact ⟨slot.1, slot.2.1, slot.2.2.1⟩

theorem slots_same {c c' : BlockCache} (slots : c'.slots bs = update (c.slots bs) i x)
    (block : x.blockNum = c.blockNum i) (age : x.age ≠ 0 ↔ c.slotAge i ≠ 0) (j : Nat) :
    c'.blockNum j = c.blockNum j ∧ (c'.slotAge j ≠ 0 ↔ c.slotAge j ≠ 0) := by
  by_cases here : j = i
  · obtain ⟨block', -, age'⟩ := slot_self slots
    rw [here, block', age']
    exact ⟨block, age⟩
  · obtain ⟨block', -, age'⟩ := slot_other slots here
    rw [block', age']
    exact ⟨rfl, Iff.rfl⟩

theorem cacheFind_same {c c' : BlockCache} (same : ∀ j, c'.blockNum j = c.blockNum j ∧
    (c'.slotAge j ≠ 0 ↔ c.slotAge j ≠ 0)) : c'.cacheFind b = c.cacheFind b := by
  simp only [cacheFind, same]

theorem slots_writeBack (fits : bs ≤ slotData) (c : BlockCache)
    (hn : c.dirty i ≠ 0 → c.blockNum i ≠ 0) :
    (c.writeBack bs i).slots bs = update (c.slots bs) i { c.slots bs i with dirty := 0 } := by
  rw [writeBack]
  split
  · exact slots_setDirty (c := c.devWrite bs i (c.blockNum i)) fits (by decide)
  next kept =>
  have hc : c.dirty i = 0 := by
    by_contra dirty
    exact kept ⟨dirty, hn dirty⟩
  refine (update_eq_self_iff.mpr ?_).symm
  simp only [slots, hc]

theorem writeBack_age (c : BlockCache) (i : Nat) : (c.writeBack bs i).age = c.age := by
  rw [writeBack]
  split_ifs
  · rfl
  · rfl

theorem cacheGet_hit {r : Bool} (hf : s.cache.cacheFind b = some i) :
    cacheGet bs s b r = ⟨s.cache.touch i, some (b, i), s.stale, s.content⟩ := by
  simp [cacheGet, cacheGetSlot, hf]

theorem cacheGet_failed (ha : s.cache.cacheFind b = none) :
    cacheGet bs s b false = ⟨(s.cache.writeBack bs s.cache.victim).label s.cache.victim b, none,
      update s.stale s.cache.victim true, s.content⟩ := by
  simp [cacheGet, cacheGetSlot, cacheEvict, ha]

theorem cacheGet_read (ha : s.cache.cacheFind b = none) :
    cacheGet bs s b true = ⟨((s.cache.writeBack bs s.cache.victim).label s.cache.victim b).devRead
      bs s.cache.victim b, some (b, s.cache.victim),
      update s.stale s.cache.victim false, s.content⟩ := by
  simp [cacheGet, cacheGetSlot, cacheEvict, ha]

theorem CacheInv.relabel {age : Nat} {data : Bytes} (inv : CacheInv bs s) (hi : i < cacheSlots)
    (hc : s.cache.dirty i = 0) (ha : s.cache.cacheFind b = none) (word : 0 < b)
    (aged : age ≠ 0)
    (slots : s'.cache.slots bs = update (s.cache.slots bs) i ⟨b, 0, age, data⟩)
    (hs : s'.stale = update s.stale i t)
    (dev : devBlock bs s'.cache.dev = devBlock bs s.cache.dev) (content : s'.content = s.content)
    (held : s'.held = if t then none else some (b, i))
    (read : t = false → data = devBlock bs s.cache.dev b) : CacheInv bs s' := by
  have own : s'.cache.blockNum i = b ∧ s'.cache.dirty i = 0 ∧ s'.cache.slotAge i = age :=
    slot_self slots
  have ho : ∀ j, j ≠ i → s'.cache.blockNum j = s.cache.blockNum j ∧
      s'.cache.dirty j = s.cache.dirty j ∧ s'.cache.slotAge j = s.cache.slotAge j ∧
      s'.stale j = s.stale j := fun j other => by
    obtain ⟨block, hd, age'⟩ := slot_other slots other
    exact ⟨block, hd, age', by rw [hs, update_of_ne other]⟩
  have hf : ∀ j < cacheSlots, s.cache.slotAge j ≠ 0 → s.cache.blockNum j ≠ b :=
    fun j lt hj eq => cacheFind_none.mp ha j lt ⟨eq, hj⟩
  have lines := lines_update slots hs dev
  have idle : ((s.lines bs).line i).live = true → ((s.lines bs).line i).dirty = false := fun _ => by
    simp [CacheState.lines, lineOf, BlockCache.slots, hc]
  have after : WriteBack.Coherent cacheSlots (s'.lines bs) ∧
      WriteBack.Cache.content cacheSlots (s'.lines bs) = s.content := by
    rw [lines, ← inv.content]
    cases t with
    | true => exact inv.coherent.retire idle (by simp [lineOf])
    | false =>
      have hk : lineOf ⟨b, 0, age, data⟩ false = ⟨b, true, false, (s.lines bs).store b⟩ := by
        rw [read rfl]
        simp [lineOf, aged, CacheState.lines]
      rw [hk]
      refine inv.coherent.fill hi idle fun j lt hl => ?_
      simp only [WriteBack.Cache.Keeps, CacheState.lines, lineOf, Bool.and_eq_true,
        decide_eq_true_eq] at hl
      exact hf j lt hl.1.1 hl.2
  refine ⟨after.1, after.2.trans content.symm, fun x lt y lt' h1 h2 he => ?_,
    fun j lt hd => ?_, fun q j has => ?_⟩
  · by_cases left : x = i <;> by_cases right : y = i
    · rw [left, right]
    · obtain ⟨block, -, age', -⟩ := ho y right
      rw [left, own.1, block] at he
      rw [age'] at h2
      exact absurd he.symm (hf y lt' h2)
    · obtain ⟨block, -, age', -⟩ := ho x left
      rw [right, own.1, block] at he
      rw [age'] at h1
      exact absurd he (hf x lt h1)
    · obtain ⟨block, -, age', -⟩ := ho x left
      obtain ⟨block', -, age'', -⟩ := ho y right
      rw [block, block'] at he
      rw [age'] at h1
      rw [age''] at h2
      exact inv.unique x lt y lt' h1 h2 he
  · by_cases here : j = i
    · rw [here, own.2.1] at hd
      exact absurd rfl hd
    obtain ⟨block, dirty', age', stale'⟩ := ho j here
    rw [block, age', stale']
    exact inv.dirty j lt (dirty' ▸ hd)
  · rw [held] at has
    split at has
    · cases has
    next hr =>
    cases has
    refine ⟨hi, own.1, by rw [own.2.2]; exact aged, ?_, word⟩
    rw [hs, update_self]
    exact Bool.eq_false_iff.mpr hr

theorem CacheInv.keep (inv : CacheInv bs s)
    (slots : s'.cache.slots bs = update (s.cache.slots bs) i x)
    (block : x.blockNum = s.cache.blockNum i) (age : x.age ≠ 0 ↔ s.cache.slotAge i ≠ 0)
    (stale : s'.stale = s.stale)
    (dirty : x.dirty ≠ 0 → s.cache.slotAge i ≠ 0 ∧ s.stale i = false ∧ s.cache.blockNum i ≠ 0)
    (held : ∀ b j, s'.held = some (b, j) → j < cacheSlots ∧ s.cache.blockNum j = b ∧
      s.cache.slotAge j ≠ 0 ∧ s.stale j = false ∧ 0 < b)
    (lines : WriteBack.Coherent cacheSlots (s'.lines bs) ∧
      WriteBack.Cache.content cacheSlots (s'.lines bs) = s'.content) : CacheInv bs s' := by
  have same := slots_same slots block age
  refine ⟨lines.1, lines.2, fun a lt b lt' h1 h2 he => ?_, fun j lt hd => ?_, fun b j has => ?_⟩
  · rw [(same a).1, (same b).1] at he
    exact inv.unique a lt b lt' ((same a).2.mp h1) ((same b).2.mp h2) he
  · rw [(same j).1, (same j).2, stale]
    by_cases here : j = i
    · rw [here, (slot_self slots).2.1] at hd
      exact here ▸ dirty hd
    · exact inv.dirty j lt ((slot_other slots here).2.1 ▸ hd)
  · rw [(same j).1, (same j).2, stale]
    exact held b j has

section
variable (hg : devLen bs = bs) (fits : bs ≤ slotData)
include hg fits

theorem CacheInv.writeBack (inv : CacheInv bs s) (hi : i < cacheSlots) :
    CacheInv bs { s with cache := s.cache.writeBack bs i } := by
  have slots := slots_writeBack fits s.cache fun hd => (inv.dirty i hi hd).2.2
  refine inv.keep slots rfl Iff.rfl rfl (absurd rfl) inv.held ?_
  by_cases hd : s.cache.dirty i ≠ 0
  · obtain ⟨age, hr, hn⟩ := inv.dirty i hi hd
    have live : ((s.lines bs).line i).live = true := by
      simp [lines, lineOf, BlockCache.slots, age, hr]
    have hf : lines bs { s with cache := s.cache.writeBack bs i } = (s.lines bs).flush i := by
      rw [lines, WriteBack.Cache.flush]
      refine congrArg₂ WriteBack.Cache.mk (funext fun j => ?_) ?_
      · rw [slots]
        by_cases here : j = i
        · rw [here, update_self, update_self]
          simp [lines, lineOf]
        · rw [update_of_ne here, update_of_ne here]
          rfl
      · rw [BlockCache.writeBack, if_pos ⟨hd, hn⟩]
        exact devBlock_devWrite hg
    have after := inv.coherent.flush hi live
    rw [← hf, inv.content] at after
    exact after
  · have kept : s.cache.writeBack bs i = s.cache := if_neg fun both => hd both.1
    rw [kept]
    exact ⟨inv.coherent, inv.content⟩

theorem CacheInv.sync (inv : CacheInv bs s) : CacheInv bs { s with cache := s.cache.ext2Sync bs } ∧
      ∀ i < cacheSlots, (s.cache.ext2Sync bs).dirty i = 0 := by
  have loop : ∀ (l : List Nat) (c : BlockCache), (∀ i ∈ l, i < cacheSlots) →
      CacheInv bs { s with cache := c } →
      CacheInv bs { s with cache := l.foldl (fun c i => c.writeBack bs i) c } ∧
        ∀ i < cacheSlots, (i ∈ l ∨ c.dirty i = 0) →
          (l.foldl (fun c i => c.writeBack bs i) c).dirty i = 0 := by
    intro l
    induction l with
    | nil => exact fun c _ inv => ⟨inv, fun i _ clean => clean.resolve_left not_mem_nil⟩
    | cons k l ih =>
      intro c all inv
      have inside := all k mem_cons_self
      have slots := slots_writeBack (i := k) fits c fun dirty => (inv.dirty k inside dirty).2.2
      obtain ⟨after, clean⟩ := ih (c.writeBack bs k)
        (fun i member => all i (mem_cons_of_mem k member))
        (inv.writeBack hg fits inside)
      refine ⟨after, fun i small here => clean i small ?_⟩
      by_cases same : i = k
      · exact .inr (same ▸ (slot_self slots).2.1)
      rcases here with member | clear
      · exact .inl ((mem_cons.mp member).resolve_left same)
      · exact .inr ((slot_other slots same).2.1.trans clear)
  obtain ⟨after, clean⟩ := loop (range cacheSlots) s.cache (fun i member => mem_range.mp member) inv
  exact ⟨after, fun i small => clean i small (.inl (mem_range.mpr small))⟩

omit hg in
theorem CacheInv.hit (inv : CacheInv bs s) (word : 0 < b)
    (aged : (s.cache.age + 1) % 2 ^ 32 ≠ 0) (found : s.cache.cacheFind b = some i)
    (fresh : s.stale i = false) :
    CacheInv bs ⟨s.cache.touch i, some (b, i), s.stale, s.content⟩ := by
  obtain ⟨inside, block, age⟩ := cacheFind_some found
  have slots := slots_touch (c := s.cache) (i := i) fits
  generalize (s.cache.age + 1) % 2 ^ 32 = new at aged slots
  have lines : lines bs ⟨s.cache.touch i, some (b, i), s.stale, s.content⟩ = s.lines bs := by
    rw [lines, lines]
    refine congrArg (WriteBack.Cache.mk · _) (funext fun j => ?_)
    rw [slots]
    by_cases here : j = i
    · rw [here, update_self]
      simp [lineOf, BlockCache.slots, aged, age]
    · rw [update_of_ne here]
  refine inv.keep slots rfl (iff_of_true aged age) rfl (inv.dirty i inside) (fun q j has => ?_)
    (by rw [lines]; exact ⟨inv.coherent, inv.content⟩)
  cases has
  exact ⟨inside, block, age, fresh, word⟩

theorem CacheInv.miss {r : Bool} (inv : CacheInv bs s) (word : 0 < b ∧ b < 2 ^ 32)
    (aged : (s.cache.age + 1) % 2 ^ 32 ≠ 0) (hn : s.cache.cacheFind b = none) :
    CacheInv bs (cacheGet bs s b r) := by
  have hi := victim_lt (c := s.cache)
  have hf := inv.writeBack hg fits hi
  have slots := slots_writeBack (i := s.cache.victim) fits s.cache fun hd =>
    (inv.dirty _ hi hd).2.2
  have hc : (s.cache.writeBack bs s.cache.victim).dirty s.cache.victim = 0 := (slot_self slots).2.1
  have ha : (s.cache.writeBack bs s.cache.victim).cacheFind b = none :=
    (cacheFind_same (slots_same slots rfl Iff.rfl)).trans hn
  have hl := slots_label (c := s.cache.writeBack bs s.cache.victim) (i := s.cache.victim)
    fits word.2
  rw [writeBack_age] at hl
  cases r with
  | false =>
    rw [cacheGet_failed hn]
    exact hf.relabel (t := true) hi hc ha word.1 aged hl rfl rfl rfl rfl
      fun hs => Bool.noConfusion hs
  | true =>
    have he := slots_devRead (c := (s.cache.writeBack bs s.cache.victim).label s.cache.victim b)
      (i := s.cache.victim) (b := b) fits hg
    rw [hl, update_idem, update_self] at he
    rw [cacheGet_read hn]
    exact hf.relabel (t := false) hi hc ha word.1 aged he rfl rfl rfl rfl fun _ => rfl

theorem CacheInv.get {r : Bool} (inv : CacheInv bs s) (word : 0 < b ∧ b < 2 ^ 32)
    (he : s.cache.age + 1 < 2 ^ 32)
    (hr : ∀ i, s.cache.cacheFind b = some i → s.stale i = false) :
    CacheInv bs (cacheGet bs s b r) := by
  have aged : (s.cache.age + 1) % 2 ^ 32 ≠ 0 := by
    rw [Nat.mod_eq_of_lt he]
    exact Nat.succ_ne_zero _
  cases hf : s.cache.cacheFind b with
  | some i =>
    rw [cacheGet_hit hf]
    exact inv.hit fits word.1 aged hf (hr i hf)
  | none => exact inv.miss hg fits word aged hf

omit hg in
theorem CacheInv.store (inv : CacheInv bs s) (held : s.held = some (b, i)) :
    CacheInv bs (cacheStore bs s b i d) := by
  obtain ⟨inside, block, age, fresh, word⟩ := inv.held b i held
  have slots := slots_setBuffer (c := s.cache) (i := i) (d := d) fits
  have found : (s.cache.setBuffer bs i d).cacheFind b = some i := by
    rw [cacheFind_same (slots_same slots rfl Iff.rfl)]
    cases found : s.cache.cacheFind b with
    | none => exact absurd ⟨block, age⟩ (cacheFind_none.mp found i inside)
    | some j =>
      obtain ⟨small, block', age'⟩ := cacheFind_some found
      rw [inv.unique j small i inside age' age (block'.trans block.symm)]
  have marked : (s.cache.setBuffer bs i d).cacheMarkDirty b =
      (s.cache.setBuffer bs i d).setDirty i 1 := by
    rw [BlockCache.cacheMarkDirty, found]
  have stored : (cacheStore bs s b i d).cache.slots bs = update (s.cache.slots bs) i
      ⟨b, 1, s.cache.slotAge i, clip bs d⟩ := by
    rw [cacheStore, marked]
    simp only
    rw [slots_setDirty fits (by decide), slots, update_idem, update_self, ← block]
    rfl
  have lists : (s.lines bs).Keeps i b := by
    simp [WriteBack.Cache.Keeps, lines, lineOf, BlockCache.slots, age, fresh, block]
  have lines : (cacheStore bs s b i d).lines bs = (s.lines bs).setLine i
      (lineOf ⟨b, 1, s.cache.slotAge i, clip bs d⟩ false) := by
    refine lines_update stored (update_eq_self_iff.mpr fresh.symm).symm ?_
    rw [cacheStore, marked]
    rfl
  have after := inv.coherent.rewrite inside lists
    (l := lineOf ⟨b, 1, s.cache.slotAge i, clip bs d⟩ false) (by simp [lineOf, age]) rfl rfl
  rw [← lines, inv.content] at after
  exact inv.keep stored block.symm Iff.rfl rfl (fun _ => ⟨age, fresh, by omega⟩) inv.held after

theorem CacheInv.step {call : CacheCall} (inv : CacheInv bs s) (clean : CleanAccess s call)
    (step : cacheStep bs s call = some s') : CacheInv bs s' := by
  cases call with
  | get b reads =>
    obtain ⟨word, done⟩ := ite_none_right_eq_some.mp step
    obtain rfl := some.inj done
    exact inv.get hg fits word clean.1 clean.2
  | store d =>
    obtain ⟨⟨b, i⟩, held, rfl⟩ := map_eq_some_iff.mp step
    exact inv.store fits held
  | sync =>
    obtain rfl := some.inj step
    exact (inv.sync hg fits).1

end

theorem Mounted.inv (hf : Mounted bs s) : CacheInv bs s := by
  have dead : ∀ i < cacheSlots, ((s.lines bs).line i).live = false := fun i lt => by
    simp [lines, lineOf, slots, (hf.empty i lt).2.2]
  have hu : ∀ k, ∀ i < cacheSlots, ¬ (s.lines bs).Keeps i k := fun k i lt hl => by
    rw [WriteBack.Cache.Keeps, dead i lt] at hl
    exact Bool.false_ne_true hl.1
  refine ⟨⟨fun i lt j _ k hl => absurd hl (hu k i lt), fun i lt live => ?_⟩,
    funext fun k => ?_, fun i lt j _ alive => absurd (hf.empty i lt).2.2 alive,
    fun i lt hd => absurd (hf.empty i lt).2.1 hd, fun b i held => ?_⟩
  · rw [dead i lt] at live
    cases live
  · rw [WriteBack.content_absent (hu k), hf.content]
    rfl
  · rw [hf.held] at held
    cases held

theorem CacheInv.reads (inv : CacheInv bs s) (held : s.held = some (b, i)) :
    s.cache.buffer bs i = s.content b := by
  obtain ⟨hi, block, age, hf, -⟩ := inv.held b i held
  have hl : (s.lines bs).Keeps i b := by
    simp [WriteBack.Cache.Keeps, lines, lineOf, slots, age, hf, block]
  rw [← inv.content, inv.coherent.content_line hi hl]
  rfl

end

/-! ### Coherence -/

/-- `s_block_size` for `s_log_block_size`, which `ext2_mount` accepts up to 6. -/
def blockSize (log : Nat) : Nat := 1024 <<< log

/-- An access that can be read returns a slot, the reader gets the content of the block, no
block is in two slots, and after a synchronisation the partition has it all. -/
structure Faithful (bs : Nat) (s : CacheState) : Prop where
  answers : ∀ b, (s.cache.cacheGetSlot bs b true).1.isSome = true
  reads : ∀ b i, s.held = some (b, i) → s.cache.buffer bs i = s.content b
  once : ∀ i < cacheSlots, ∀ j < cacheSlots, s.cache.slotAge i ≠ 0 → s.cache.slotAge j ≠ 0 →
    s.cache.blockNum i = s.cache.blockNum j → i = j
  synced : ∀ b, devBlock bs (s.cache.ext2Sync bs).dev b = s.content b

section
variable {log bs : Nat} {start s s' : CacheState} {calls : List CacheCall} {call : CacheCall}

theorem devLen_blockSize : devLen (blockSize log) = blockSize log := by
  rw [devLen, blockSize, Nat.shiftLeft_eq]
  omega

theorem blockSize_le (lt : log ≤ 2) : blockSize log ≤ slotData := by
  rw [blockSize, Nat.shiftLeft_eq]
  exact Nat.mul_le_mul_left 1024 (Nat.pow_le_pow_right (by decide) lt)

theorem CacheInv.faithful (hg : devLen bs = bs) (fits : bs ≤ slotData)
    (inv : CacheInv bs s) : Faithful bs s := by
  refine ⟨fun b => ?_, fun b i held => inv.reads held, inv.unique, fun b => ?_⟩
  · rw [cacheGetSlot]
    split
    · rfl
    · rfl
  obtain ⟨after, clean⟩ := inv.sync hg fits
  rw [← after.content]
  refine (after.coherent.content_clean fun i small _ => ?_).symm
  simp [lines, lineOf, slots, clean i small]

theorem cacheGet_stale {b : Nat} (all : ∀ i, s.stale i = false) (i : Nat) :
    (cacheGet bs s b true).stale i = false := by
  rw [cacheGet]
  dsimp only
  split
  · exact all i
  by_cases here : i = s.cache.victim
  · rw [here, update_self, Bool.not_true]
  · rw [update_of_ne here, all i]

theorem ext2Sync_age (c : BlockCache) : (c.ext2Sync bs).age = c.age := by
  rw [ext2Sync]
  induction range cacheSlots generalizing c with
  | nil => rfl
  | cons i l ih => rw [foldl_cons, ih, writeBack_age]

theorem cacheMarkDirty_age (c : BlockCache) (b : Nat) : (c.cacheMarkDirty b).age = c.age := by
  rw [cacheMarkDirty]
  split
  · rfl
  · rfl

theorem cacheGet_age {b : Nat} {r : Bool} :
    (cacheGet bs s b r).cache.age = (s.cache.age + 1) % 2 ^ 32 := by
  cases hf : s.cache.cacheFind b with
  | some i =>
    rw [cacheGet_hit hf]
    rfl
  | none =>
    cases r with
    | true =>
      rw [cacheGet_read hf]
      exact congrArg (fun age => (age + 1) % 2 ^ 32) (writeBack_age _ _)
    | false =>
      rw [cacheGet_failed hf]
      exact congrArg (fun age => (age + 1) % 2 ^ 32) (writeBack_age _ _)

theorem accesses_snoc : accesses (calls ++ [call]) = accesses calls + accesses [call] :=
  countP_append

theorem clean_run (hg : devLen bs = bs) (fits : bs ≤ slotData) (hf : Mounted bs start)
    (run : Run (cacheStep bs) start calls s)
    (hr : ∀ b r, CacheCall.get b r ∈ calls → r = true)
    (few : start.cache.age + accesses calls < 2 ^ 32) :
    CacheInv bs s ∧ (∀ i, s.stale i = false) ∧ s.cache.age = start.cache.age + accesses calls := by
  induction run with
  | nil => exact ⟨hf.inv, hf.stale, rfl⟩
  | @snoc calls t u call pre _ step ih =>
    rw [accesses_snoc, ← add_assoc] at few
    obtain ⟨inv, all, age⟩ := ih (fun b r hm => hr b r (mem_append_left _ hm)) (by omega)
    rw [accesses_snoc, ← add_assoc]
    cases call with
    | get b r =>
      obtain rfl := hr b r (mem_append_right _ mem_cons_self)
      have one : accesses [CacheCall.get b true] = 1 := rfl
      rw [one] at few ⊢
      have he : t.cache.age + 1 < 2 ^ 32 := by omega
      have hc : CleanAccess t (.get b true) := ⟨he, fun i _ => all i⟩
      refine ⟨inv.step hg fits hc step, ?_⟩
      obtain ⟨-, done⟩ := ite_none_right_eq_some.mp step
      obtain rfl := some.inj done
      exact ⟨cacheGet_stale all, by rw [cacheGet_age, Nat.mod_eq_of_lt he, age]⟩
    | store d =>
      have hc : CleanAccess t (.store d) := trivial
      refine ⟨inv.step hg fits hc step, ?_⟩
      obtain ⟨⟨b, i⟩, held, rfl⟩ := map_eq_some_iff.mp step
      have none : accesses [CacheCall.store d] = 0 := rfl
      rw [none, add_zero]
      exact ⟨all, (cacheMarkDirty_age _ _).trans age⟩
    | sync =>
      have hc : CleanAccess t .sync := trivial
      refine ⟨inv.step hg fits hc step, ?_⟩
      obtain rfl := some.inj step
      have none : accesses [CacheCall.sync] = 0 := rfl
      rw [none, add_zero]
      exact ⟨all, (@ext2Sync_age bs t.cache).trans age⟩

/-- With blocks of at most 4096 bytes, a device that works and fewer than 2³² accesses, the
cache is transparent. -/
theorem cache_coherent (small : log ≤ 2) (fresh : Mounted (blockSize log) start)
    (reads : ∀ b r, CacheCall.get b r ∈ calls → r = true)
    (few : start.cache.age + accesses calls < 2 ^ 32)
    (run : Run (cacheStep (blockSize log)) start calls s) : Faithful (blockSize log) s :=
  (clean_run devLen_blockSize (blockSize_le small) fresh run reads few).1.faithful
    devLen_blockSize (blockSize_le small)

/-- A device on which reads fail: what an access returns is the content of the block, in
every run that does not ask again for a block whose slot could not be read. -/
theorem failed_read_not_served (small : log ≤ 2) (fresh : Mounted (blockSize log) start)
    (run : RunWhere (cacheStep (blockSize log)) CleanAccess start calls s) {b i : Nat}
    (returned : s.held = some (b, i)) : s.cache.buffer (blockSize log) i = s.content b :=
  (run.invariant fresh.inv fun _ _ _ inv clean step =>
    inv.step devLen_blockSize (blockSize_le small) clean step).reads returned

end

/-! ### A block too large, and a read that fails -/

def mountedOn (bs : Nat) (dev : Bytes) : CacheState :=
  ⟨⟨fun _ => 0, 0, dev⟩, none, fun _ => false, devBlock bs dev⟩

theorem mountedOn_mounted (bs : Nat) (dev : Bytes) : Mounted bs (mountedOn bs dev) :=
  ⟨fun _ _ => ⟨rfl, rfl, rfl⟩, rfl, fun _ => rfl, rfl, Nat.two_pow_pos 32⟩

/-- With blocks of 8 KiB on an empty partition, the second block overwrites the end of the
first. -/
theorem large_block_overwritten :
    ∃ s, Run (cacheStep (blockSize 3)) (mountedOn (blockSize 3) fun _ => 0)
      [.get 1 true, .get 2 true, .get 1 true] s ∧ ¬ Faithful (blockSize 3) s := by
  refine exists_run_of (fun s => s.held = some (1, 0) ∧
    s.cache.buffer (blockSize 3) 0 4096 = 2 ∧ s.content 1 4096 = 0) ?_
  rintro s - ⟨held, got, stored⟩ faithful
  have same := congrFun (faithful.reads 1 0 held) 4096
  rw [got, stored] at same
  exact absurd same (by decide)

def storeAndReload : List CacheCall :=
  [.get 1 true, .store fun _ => 7] ++ (List.range' 2 17).map (.get · true) ++ [.get 1 true]

theorem cache_coherent_reload :
    ∃ s, Run (cacheStep (blockSize 0)) (mountedOn (blockSize 0) fun _ => 0) storeAndReload s ∧
      Faithful (blockSize 0) s ∧ s.content 1 5 = 7 := by
  refine exists_run_of (fun s => s.content 1 5 = 7) fun s run stored => ?_
  refine ⟨cache_coherent (by decide) (mountedOn_mounted _ _) (fun b r member => ?_)
    (by decide) run, stored⟩
  have reads : (∃ k, CacheCall.get k true = .get b r) := by
    simp only [storeAndReload, List.mem_append, List.mem_cons, List.mem_map, List.not_mem_nil,
      or_false, reduceCtorEq] at member
    rcases member with (first | ⟨k, -, same⟩) | last
    · exact ⟨1, first.symm⟩
    · exact ⟨k, same⟩
    · exact ⟨1, last.symm⟩
  obtain ⟨k, same⟩ := reads
  injection same with _ reads
  exact reads.symm

def countingDisk : CacheState := mountedOn (blockSize 0) fun i => BitVec.ofNat 8 i

/-- A read fails; the next access finds the slot and returns what was in it. -/
theorem failed_read_served :
    ∃ s, Run (cacheStep (blockSize 0)) countingDisk [.get 1 false, .get 1 true] s ∧
      s.held = some (1, 0) ∧ s.cache.buffer (blockSize 0) 0 ≠ s.content 1 := by
  refine exists_run_of (fun s => s.held = some (1, 0) ∧
    s.cache.buffer (blockSize 0) 0 1 = 0 ∧ s.content 1 1 = 1) ?_
  rintro s - ⟨held, got, stored⟩
  refine ⟨held, fun same => ?_⟩
  have byte := congrFun same 1
  rw [got, stored] at byte
  exact absurd byte (by decide)

/-- A read fails; the next block goes into another slot. -/
theorem failed_read_not_served_retry :
    ∃ s, RunWhere (cacheStep (blockSize 0)) CleanAccess countingDisk
        [.get 1 false, .get 2 true] s ∧ s.held = some (2, 1) ∧
      s.cache.buffer (blockSize 0) 1 = s.content 2 := by
  have passes : (exec (cacheStep (blockSize 0)) countingDisk [.get 1 false, .get 2 true]).any
      (fun s => s.held == some (2, 1)) = true := by decide +kernel
  have first : CleanAccess countingDisk (.get 1 false) := ⟨by decide, fun _ _ => rfl⟩
  obtain ⟨last, ends, held⟩ := (Option.any_eq_true ..).mp passes
  obtain ⟨mid, one, rest⟩ := Option.bind_eq_some_iff.mp ends
  obtain ⟨stop, two, rest⟩ := Option.bind_eq_some_iff.mp rest
  obtain rfl : stop = last := Option.some.inj rest
  have second : CleanAccess mid (.get 2 true) := by
    cases one
    have absent : (cacheGet (blockSize 0) countingDisk 1 false).cache.cacheFind 2 = none := by
      decide +kernel
    refine ⟨by decide +kernel, fun i found => ?_⟩
    rw [absent] at found
    cases found
  have run : RunWhere (cacheStep (blockSize 0)) CleanAccess countingDisk
      [.get 1 false, .get 2 true] stop := .head first one (.head second two .nil)
  exact ⟨stop, run, eq_of_beq held, failed_read_not_served (by decide)
    (mountedOn_mounted _ _) run (eq_of_beq held)⟩

end Aegis.Ext2
