import Aegis.Ext2Volume

/-! What an ext2 volume stands for: inodes, the bits of the bitmaps and the blocks of data. On a
volume whose parts do not overlap, the functions that access inodes and bitmaps change exactly
the inode or the bit they are about. -/

namespace Aegis.Ext2

open ByteMemory BlockProgram Function List Option Ext2.Geometry

inductive Kind
  | block
  | inode
  deriving DecidableEq

structure Numbering where
  first : Nat
  per : Nat
  groups : Nat

namespace Numbering

variable (n : Numbering)

def Has (x : Nat) : Prop := n.first ≤ x ∧ x < n.first + n.groups * n.per
  deriving Decidable

def group (x : Nat) : Nat := (x - n.first) / n.per

def index (x : Nat) : Nat := (x - n.first) % n.per

def number (g i : Nat) : Nat := g * n.per + i + n.first

variable {n} {x y g i : Nat}

theorem Has.group_lt (has : n.Has x) (pos : 0 < n.per) : n.group x < n.groups := by
  obtain ⟨low, high⟩ := has
  rw [group, Nat.div_lt_iff_lt_mul pos]
  omega

theorem Has.number (has : n.Has x) : n.number (n.group x) (n.index x) = x := by
  obtain ⟨low, -⟩ := has
  have hw := Nat.div_add_mod (x - n.first) n.per
  rw [Numbering.number, group, index, mul_comm]
  omega

theorem Has.eq_of (has : n.Has x) (has' : n.Has y) (group : n.group x = n.group y)
    (index : n.index x = n.index y) : x = y := by
  rw [← has.number, ← has'.number, group, index]

theorem has_number (hw : g < n.groups) (lt : i < n.per) : n.Has (n.number g i) := by
  have last : (g + 1) * n.per ≤ n.groups * n.per := Nat.mul_le_mul_right _ hw
  rw [Nat.succ_mul] at last
  rw [number]
  exact ⟨by omega, by omega⟩

theorem group_number (lt : i < n.per) : n.group (n.number g i) = g := by
  rw [group, number, Nat.add_sub_cancel, mul_comm, Nat.mul_add_div (by omega), Nat.div_eq_of_lt lt,
    add_zero]

theorem index_number (lt : i < n.per) : n.index (n.number g i) = i := by
  rw [index, number, Nat.add_sub_cancel, mul_comm, Nat.mul_add_mod, Nat.mod_eq_of_lt lt]

end Numbering

inductive Part
  | bitmap (kind : Kind) (g : Nat)
  | inodeTable (g k : Nat)
  deriving DecidableEq

namespace Geometry

variable (geo : Geometry)

def numbers : Kind → Numbering
  | .block => ⟨geo.sb.firstDataBlock, geo.sb.blocksPerGroup, geo.numGroups⟩
  | .inode => ⟨1, geo.sb.inodesPerGroup, geo.numGroups⟩

def pool : Kind → Pool
  | .block => geo.blockPool
  | .inode => geo.inodePool

def tableBlocks : Nat :=
  (geo.sb.inodesPerGroup * geo.sb.recordSize + (geo.blockSize - 1)) / geo.blockSize

def parts : List Part :=
  (List.range geo.numGroups).flatMap fun g =>
    .bitmap .block g :: .bitmap .inode g :: (List.range geo.tableBlocks).map (.inodeTable g)

def partBlock : Part → Nat
  | .bitmap kind g => (geo.pool kind).bitmap g
  | .inodeTable g k => (geo.bgd g).inodeTable + k

def metaBlocks : List Nat := geo.parts.map geo.partBlock

abbrev HasInode (ino : Nat) : Prop := (geo.numbers .inode).Has ino

def inodeBlock (ino : Nat) : Nat :=
  (geo.bgd ((geo.numbers .inode).group ino)).inodeTable +
    (geo.numbers .inode).index ino * geo.sb.recordSize / geo.blockSize

def inodeOffset (ino : Nat) : Nat :=
  (geo.numbers .inode).index ino * geo.sb.recordSize % geo.blockSize

def IsData (b : Nat) : Prop := (0 < b ∧ b < 2 ^ 32) ∧ b ∉ geo.metaBlocks
  deriving Decidable

structure Sound : Prop where
  block : ∃ log, log ≤ 2 ∧ geo.blockSize = Ext2.blockSize log
  groups : 0 < geo.numGroups ∧ geo.numGroups ≤ maxGroups
  inodes : 0 < geo.sb.inodesPerGroup ∧ geo.sb.inodesPerGroup ≤ 8 * geo.blockSize
  blocks : 0 < geo.sb.blocksPerGroup ∧ geo.sb.blocksPerGroup ≤ 8 * geo.blockSize
  record : inodeBytes ≤ geo.sb.recordSize ∧ geo.sb.recordSize ∣ geo.blockSize
  span : geo.sb.firstDataBlock + geo.numGroups * geo.sb.blocksPerGroup ≤ 2 ^ 32
  last : (geo.numGroups - 1) * geo.sb.blocksPerGroup ≤ geo.sb.blocksCount ∧
    geo.sb.blocksCount ≤ geo.numGroups * geo.sb.blocksPerGroup
  words : ∀ p ∈ geo.parts, 0 < geo.partBlock p ∧ geo.partBlock p < 2 ^ 32
  distinct : ∀ p ∈ geo.parts, ∀ q ∈ geo.parts, geo.partBlock p = geo.partBlock q → p = q

end Geometry

@[ext] structure Image where
  inode : Nat → Bytes
  used : Kind → Nat → Bool
  data : Nat → Bytes
  counters : Counters

def image (geo : Geometry) (v : Volume) : Image where
  inode ino := if geo.HasInode ino then
    clip inodeBytes (view (v.blocks (geo.inodeBlock ino)) (geo.inodeOffset ino)) else fun _ => 0
  used kind x := decide ((geo.numbers kind).Has x) &&
    bit (v.blocks ((geo.pool kind).bitmap ((geo.numbers kind).group x))) ((geo.numbers kind).index x)
  data b := if b ∈ geo.metaBlocks then fun _ => 0 else v.blocks b
  counters := v.vars

namespace Image

variable (m : Image)

def setInode (ino : Nat) (inode : Bytes) : Image :=
  { m with inode := update m.inode ino (clip inodeBytes inode) }

def setUsed (kind : Kind) (x : Nat) (used : Bool) : Image :=
  { m with used := update m.used kind (update (m.used kind) x used) }

def setData (b : Nat) (d : Bytes) : Image := { m with data := update m.data b d }

def setCounters (c : Counters) : Image := { m with counters := c }

section
variable {m : Image} {kind kind' : Kind} {ino b x : Nat} {inode d : Bytes} {used : Bool}
  {c : Counters}

@[simp] theorem setInode_inode :
    (m.setInode ino inode).inode = update m.inode ino (clip inodeBytes inode) := rfl

@[simp] theorem setUsed_used_same :
    (m.setUsed kind x used).used kind = update (m.used kind) x used :=
  update_self kind _ _

theorem setUsed_used_of_ne (other : kind' ≠ kind) :
    (m.setUsed kind x used).used kind' = m.used kind' := update_of_ne other _ _

@[simp] theorem setData_used : (m.setData b d).used = m.used := rfl

@[simp] theorem setData_data : (m.setData b d).data = update m.data b d := rfl

@[simp] theorem setCounters_counters : (m.setCounters c).counters = c := rfl

end

end Image

def Image.pick (geo : Geometry) (kind : Kind) (m : Image) (groups : List Nat) :
    Option (Nat × Nat) :=
  groups.findSome? fun g => if (geo.pool kind).free m.counters g = 0 then none
    else (firstClear (fun i => m.used kind ((geo.numbers kind).number g i))
      ((geo.pool kind).size g) 0).map (g, ·)

def Image.take (geo : Geometry) (kind : Kind) (m : Image) (spot : Nat × Nat) : Nat × Image :=
  ((geo.numbers kind).number spot.1 spot.2,
    (m.setUsed kind ((geo.numbers kind).number spot.1 spot.2) true).setCounters
      ((geo.pool kind).take spot.1 m.counters))

open Image

theorem Image.take_used {geo : Geometry} {kind : Kind} {m : Image} {spot : Nat × Nat} :
    (m.take geo kind spot).2.used kind =
      update (m.used kind) (m.take geo kind spot).1 true := setUsed_used_same

theorem Image.take_used_of_ne {geo : Geometry} {kind kind' : Kind} {m : Image} {spot : Nat × Nat}
    (other : kind' ≠ kind) : (m.take geo kind spot).2.used kind' = m.used kind' :=
  setUsed_used_of_ne other

def Image.alloc (geo : Geometry) (kind : Kind) (m : Image) (groups : List Nat) : Nat × Image :=
  match m.pick geo kind groups with
  | none => (0, m)
  | some spot => m.take geo kind spot

def Word (b : Nat) : Prop := 0 < b ∧ b < 2 ^ 32

/-- What a function of the driver does to the contents of a volume. -/
def Does {α : Type} (geo : Geometry) (p : Fs α) (m : Image) (r : Except Stop α) (m' : Image) :
    Prop :=
  Means (clip geo.blockSize) Word (fun v m => image geo v = m) p m r m'

open Ext2.Numbering

section
variable {geo : Geometry} {kind : Kind} {g k b x ino i : Nat} {p : Part} {v : Volume}
  {d inode : Bytes}

theorem bitmap_mem (kind : Kind) (lt : g < geo.numGroups) : .bitmap kind g ∈ geo.parts := by
  cases kind <;> simp [parts, lt]

theorem inodeTable_mem (lt : g < geo.numGroups) (hi : k < geo.tableBlocks) :
    .inodeTable g k ∈ geo.parts := by
  simp [parts, lt, hi]

theorem partBlock_mem (mem : p ∈ geo.parts) : geo.partBlock p ∈ geo.metaBlocks := mem_map_of_mem mem

theorem numbers_groups : (geo.numbers kind).groups = geo.numGroups := by
  cases kind <;> rfl

namespace Geometry.Sound

variable (ho : geo.Sound)
include ho

theorem per_bounds (kind : Kind) :
    0 < (geo.numbers kind).per ∧ (geo.numbers kind).per ≤ 8 * geo.blockSize := by
  cases kind with
  | block => exact ho.blocks
  | inode => exact ho.inodes

theorem index_lt (kind : Kind) (x : Nat) : (geo.numbers kind).index x < 8 * geo.blockSize :=
  lt_of_lt_of_le (Nat.mod_lt _ (ho.per_bounds kind).1) (ho.per_bounds kind).2

theorem bitmap_of_has (has : (geo.numbers kind).Has x) :
    .bitmap kind ((geo.numbers kind).group x) ∈ geo.parts :=
  bitmap_mem kind (lt_of_lt_of_eq (has.group_lt (ho.per_bounds kind).1) numbers_groups)

theorem blockSize_cases : geo.blockSize = 1024 ∨ geo.blockSize = 2048 ∨ geo.blockSize = 4096 := by
  obtain ⟨log, lt, size⟩ := ho.block
  rw [size]
  have logs : log = 0 ∨ log = 1 ∨ log = 2 := by omega
  rcases logs with rfl | rfl | rfl <;> decide

theorem blockSize_bounds : 1024 ≤ geo.blockSize ∧ geo.blockSize ≤ 4096 := by
  have sizes := ho.blockSize_cases
  omega

theorem blockSize_pos : 0 < geo.blockSize := by
  have hb := ho.blockSize_bounds
  omega

theorem table_mem (has : geo.HasInode ino) : .inodeTable ((geo.numbers .inode).group ino)
      ((geo.numbers .inode).index ino * geo.sb.recordSize / geo.blockSize) ∈ geo.parts := by
  have pos := ho.blockSize_pos
  refine inodeTable_mem (has.group_lt ho.inodes.1) ?_
  rw [Nat.div_lt_iff_lt_mul pos]
  have index : (geo.numbers .inode).index ino < geo.sb.inodesPerGroup := Nat.mod_lt _ ho.inodes.1
  have hc := ((ceilDiv_eq_iff (x := geo.sb.inodesPerGroup * geo.sb.recordSize) pos).mp rfl).1
  refine Nat.lt_of_lt_of_le (Nat.mul_lt_mul_of_pos_right index ?_) hc
  have record := ho.record.1
  rw [inodeBytes] at record
  omega

theorem inodeBlock_word (has : geo.HasInode ino) : Word (geo.inodeBlock ino) :=
  ho.words _ (ho.table_mem has)

theorem inodeOffset_le (ino : Nat) : geo.inodeOffset ino + inodeBytes ≤ geo.blockSize := by
  obtain ⟨hl, n, size⟩ := ho.record
  have pos := ho.blockSize_pos
  have hi : geo.inodeOffset ino < geo.blockSize := Nat.mod_lt _ pos
  have ha : geo.sb.recordSize ∣ geo.inodeOffset ino :=
    (Nat.dvd_mod_iff ⟨n, size⟩).mpr (Nat.dvd_mul_left _ _)
  obtain ⟨q, hp⟩ := ha
  rw [hp, size] at hi ⊢
  have hf : q + 1 ≤ n := Nat.lt_of_mul_lt_mul_left hi
  calc geo.sb.recordSize * q + inodeBytes ≤ geo.sb.recordSize * q + geo.sb.recordSize :=
        Nat.add_le_add_left hl _
    _ = geo.sb.recordSize * (q + 1) := (Nat.mul_succ _ _).symm
    _ ≤ geo.sb.recordSize * n := Nat.mul_le_mul_left _ hf

theorem inode_lt (has : geo.HasInode ino) : ino < 2 ^ 32 := by
  obtain ⟨-, high⟩ := has
  have total : geo.numGroups * geo.sb.inodesPerGroup ≤ 32 * 32768 := by
    have size := ho.blockSize_bounds
    have hi := ho.inodes.2
    exact Nat.mul_le_mul ho.groups.2 (by omega)
  simp only [numbers] at high
  omega

theorem inodePos_eq (has : geo.HasInode ino) :
    geo.inodePos ino = some (geo.inodeBlock ino, geo.inodeOffset ino) := by
  have group : (geo.numbers .inode).group ino < geo.numGroups := has.group_lt ho.inodes.1
  have index : (geo.numbers .inode).index ino < geo.sb.inodesPerGroup := Nat.mod_lt _ ho.inodes.1
  have groups := ho.groups.2
  have number : (geo.numbers .inode).group ino * geo.sb.inodesPerGroup +
      (geo.numbers .inode).index ino + 1 = ino := has.number
  have word := ho.inode_lt has
  have bytes : (geo.numbers .inode).index ino * geo.sb.recordSize < 2 ^ 32 := by
    have size := ho.blockSize_bounds
    have hi := ho.inodes.2
    have record := Nat.le_of_dvd ho.blockSize_pos ho.record.2
    have hr : (geo.numbers .inode).index ino * geo.sb.recordSize ≤ 32768 * 4096 :=
      Nat.mul_le_mul (by omega) (by omega)
    omega
  have hp := Ext2.inodePos_eq group (by omega) index (by omega) bytes
  have block := (ho.inodeBlock_word has).2
  rw [inodeBlock] at block
  rw [number, Nat.mod_eq_of_lt block] at hp
  exact hp

theorem inode_apart {other : Nat} (has : geo.HasInode ino) (has' : geo.HasInode other)
    (hd : other ≠ ino) (eq : geo.inodeBlock other = geo.inodeBlock ino) :
    geo.inodeOffset other + inodeBytes ≤ geo.inodeOffset ino ∨
      geo.inodeOffset ino + inodeBytes ≤ geo.inodeOffset other := by
  have part := ho.distinct _ (ho.table_mem has') _ (ho.table_mem has) eq
  injection part with group block
  have index : (geo.numbers .inode).index other ≠ (geo.numbers .inode).index ino :=
    fun he => hd (has'.eq_of has group he)
  have split := Nat.div_add_mod ((geo.numbers .inode).index ino * geo.sb.recordSize) geo.blockSize
  have split' := Nat.div_add_mod ((geo.numbers .inode).index other * geo.sb.recordSize)
    geo.blockSize
  rw [block] at split'
  have record := ho.record.1
  rw [inodeOffset, inodeOffset]
  rcases lt_or_gt_of_ne index with less | more
  · have step := Nat.mul_le_mul_right geo.sb.recordSize (Nat.succ_le_of_lt less)
    rw [Nat.succ_mul] at step
    omega
  · have step := Nat.mul_le_mul_right geo.sb.recordSize (Nat.succ_le_of_lt more)
    rw [Nat.succ_mul] at step
    omega

end Geometry.Sound

/-! ### Blocks that are changed -/

section
variable {v' : Volume}

theorem image_inode_congr
    (eq : geo.HasInode ino → v'.blocks (geo.inodeBlock ino) = v.blocks (geo.inodeBlock ino)) :
    (image geo v').inode ino = (image geo v).inode ino := by
  simp only [image]
  split
  · next has => rw [eq has]
  · rfl

theorem image_used_congr (eq : (geo.numbers kind).Has x →
      bit (v'.blocks ((geo.pool kind).bitmap ((geo.numbers kind).group x)))
        ((geo.numbers kind).index x) =
      bit (v.blocks ((geo.pool kind).bitmap ((geo.numbers kind).group x)))
        ((geo.numbers kind).index x)) :
    (image geo v').used kind x = (image geo v).used kind x := by
  simp only [image]
  by_cases has : (geo.numbers kind).Has x
  · rw [eq has]
  · rw [decide_eq_false has, Bool.false_and, Bool.false_and]

theorem image_data_congr (eq : b ∉ geo.metaBlocks → v'.blocks b = v.blocks b) :
    (image geo v').data b = (image geo v).data b := by
  simp only [image]
  split
  · rfl
  · next data => exact eq data

end

section
variable (ho : geo.Sound)
include ho

theorem image_setData (data : b ∉ geo.metaBlocks) :
    image geo ⟨v.vars, update v.blocks b d⟩ = (image geo v).setData b d := by
  have other : ∀ p ∈ geo.parts, update v.blocks b d (geo.partBlock p) =
      v.blocks (geo.partBlock p) := fun p mem =>
    update_of_ne (fun eq => data (by rw [← eq]; exact partBlock_mem mem)) _ _
  refine Image.ext (funext fun ino => ?_) (funext fun kind => funext fun x => ?_)
    (funext fun q => ?_) rfl
  · exact image_inode_congr fun has => other _ (ho.table_mem has)
  · exact image_used_congr fun has => congrArg (bit · _) (other _ (ho.bitmap_of_has has))
  · simp only [image, Image.setData_data]
    by_cases eq : q = b
    · rw [eq, update_self, if_neg data, update_self]
    · rw [update_of_ne eq, update_of_ne eq]

theorem update_part (v : Volume) (d : Bytes) (mem : p ∈ geo.parts) :
    (∀ q ∈ geo.parts, q ≠ p → update v.blocks (geo.partBlock p) d (geo.partBlock q) =
      v.blocks (geo.partBlock q)) ∧
    ∀ b, b ∉ geo.metaBlocks → update v.blocks (geo.partBlock p) d b = v.blocks b := by
  refine ⟨fun q hl hd => update_of_ne (fun same => ?_) _ _,
    fun b data => update_of_ne (fun same => ?_) _ _⟩
  · exact hd (ho.distinct q hl p mem same)
  · exact data (same ▸ partBlock_mem mem)

theorem image_setInode (has : geo.HasInode ino) :
    image geo ⟨v.vars, update v.blocks (geo.inodeBlock ino) (clip geo.blockSize
      (overlay (v.blocks (geo.inodeBlock ino)) (geo.inodeOffset ino) inodeBytes inode))⟩ =
      (image geo v).setInode ino inode := by
  obtain ⟨parts, data⟩ := update_part ho v (clip geo.blockSize
    (overlay (v.blocks (geo.inodeBlock ino)) (geo.inodeOffset ino) inodeBytes inode))
    (ho.table_mem has)
  refine Image.ext (funext fun other => ?_) (funext fun kind => funext fun x => ?_)
    (funext fun q => ?_) rfl
  · have room := ho.inodeOffset_le ino
    by_cases eq : other = ino
    · subst eq
      simp only [image, Image.setInode_inode, if_pos has, update_self]
      refine clip_congr fun k lt => ?_
      rw [view, clip_of_lt (by omega), overlay_add lt]
    · rw [Image.setInode_inode, update_of_ne eq]
      by_cases has' : geo.HasInode other
      · by_cases block : geo.inodeBlock other = geo.inodeBlock ino
        · have ha := ho.inode_apart has has' eq block
          have room' := ho.inodeOffset_le other
          simp only [image, if_pos has', block, update_self]
          refine clip_congr fun k lt => ?_
          rw [view, view, clip_of_lt (by omega), overlay_outside (by omega)]
        · exact image_inode_congr fun _ => update_of_ne block _ _
      · exact image_inode_congr fun has'' => absurd has'' has'
  · exact image_used_congr fun has' => congrArg (bit · _) (parts _ (ho.bitmap_of_has has') nofun)
  · exact image_data_congr (data q)

theorem image_setUsed (used : Bool) (has : (geo.numbers kind).Has x)
    (bits : ∀ j, bit d j = if j = (geo.numbers kind).index x then used
      else bit (v.blocks ((geo.pool kind).bitmap ((geo.numbers kind).group x))) j) :
    image geo ⟨v.vars, update v.blocks
      ((geo.pool kind).bitmap ((geo.numbers kind).group x)) (clip geo.blockSize d)⟩ =
      (image geo v).setUsed kind x used := by
  obtain ⟨parts, data⟩ := update_part ho v (clip geo.blockSize d) (ho.bitmap_of_has has)
  refine Image.ext (funext fun ino => ?_) (funext fun other => funext fun y => ?_)
    (funext fun q => ?_) rfl
  · exact image_inode_congr fun has' => parts _ (ho.table_mem has') nofun
  · by_cases eq : other = kind
    · subst eq
      rw [Image.setUsed_used_same]
      by_cases here : y = x
      · subst here
        rw [update_self]
        simp only [image, update_self]
        rw [bit_clip (ho.index_lt other y), bits, if_pos rfl, decide_eq_true has, Bool.true_and]
      · rw [update_of_ne here]
        refine image_used_congr fun has' => ?_
        by_cases group : (geo.numbers other).group y = (geo.numbers other).group x
        · rw [group]
          simp only [update_self]
          rw [bit_clip (ho.index_lt other y), bits,
            if_neg fun index => here (has'.eq_of has group index)]
        · exact congrArg (bit · _) (parts _ (ho.bitmap_of_has has')
            fun he => group (Part.bitmap.inj he).2)
    · rw [Image.setUsed_used_of_ne eq]
      exact image_used_congr fun has' => congrArg (bit · _) (parts _ (ho.bitmap_of_has has')
        fun he => eq (Part.bitmap.inj he).1)
  · exact image_data_congr (data q)

end

section
variable {α β : Type} {q : Fs α} {f : α → Fs β} {m m' m'' : Image} {a : α} {e : Stop}
  {r : Except Stop β}

theorem Does.pure : Does geo (Pure.pure a : Fs α) m (.ok a) m := Means.pure

theorem Does.fail : Does geo (BlockProgram.fail e : Fs α) m (.error e) m := Means.fail

theorem Does.bind (h1 : Does geo q m (.ok a) m') (rest : Does geo (f a) m' r m'') :
    Does geo (q >>= f) m r m'' := Means.bind h1 rest

theorem Does.attempt {r : Except Stop α} (does : Does geo q m r m') :
    Does geo q.attempt m (.ok r) m' := Means.attempt does

theorem orStop_does (does : Does geo q m (.ok a) m') : Does geo (orStop q e) m (.ok a) m' :=
  Does.bind does.attempt Does.pure

theorem ignore_does {r : Except Stop α} (does : Does geo q m r m') :
    Does geo (ignore q) m (.ok ()) m' :=
  Does.bind does.attempt Does.pure

theorem getVars_does : Does geo getVars m (.ok m.counters) m :=
  fun _ eq => ⟨by rw [← eq]; rfl, eq, fun _ mem => absurd mem not_mem_nil⟩

theorem look_does (data : geo.IsData b) : Does geo (look b) m (.ok (some (m.data b))) m := by
  intro v eq
  refine ⟨?_, eq, fun c mem => mem_singleton.mp mem ▸ data.1⟩
  have block : (image geo v).data b = v.blocks b := if_neg data.2
  rw [← eq, block]
  rfl

theorem change_does (ho : geo.Sound) (data : geo.IsData b) {f : Bytes → Option Bytes} :
    Does geo (change b f) m (.ok (some (m.data b))) (match f (m.data b) with
      | none => m
      | some d => m.setData b (clip geo.blockSize d)) := by
  intro v eq
  have block : (image geo v).data b = v.blocks b := if_neg data.2
  rw [← eq, block, run_change]
  refine ⟨rfl, ?_, fun c mem => mem_singleton.mp mem ▸ data.1⟩
  cases f (v.blocks b) with
  | none => rfl
  | some d => exact image_setData ho data.2

end

section
variable (ho : geo.Sound) {m : Image}
include ho

theorem ext2ReadInode_does (has : geo.HasInode ino) :
    Does geo (ext2ReadInode geo ino) m (.ok (m.inode ino)) m := by
  intro v eq
  have named : ino ≠ 0 := ne_of_gt has.1
  have inode : (image geo v).inode ino =
      clip inodeBytes (view (v.blocks (geo.inodeBlock ino)) (geo.inodeOffset ino)) := if_pos has
  simp only [ext2ReadInode, if_neg named, ho.inodePos_eq has]
  rw [run_bind, touched_bind, ← eq, inode]
  exact ⟨rfl, rfl, fun b mem => mem_singleton.mp mem ▸ ho.inodeBlock_word has⟩

theorem ext2WriteInode_does (has : geo.HasInode ino) :
    Does geo (ext2WriteInode geo ino inode) m (.ok ()) (m.setInode ino inode) := by
  intro v eq
  simp only [ext2WriteInode, ho.inodePos_eq has]
  rw [run_bind, touched_bind, run_change, ← eq]
  exact ⟨rfl, image_setInode ho has,
    fun b mem => mem_singleton.mp mem ▸ ho.inodeBlock_word has⟩

theorem pool_size_le (kind : Kind) (hw : g < geo.numGroups) :
    (geo.pool kind).size g ≤ (geo.numbers kind).per := by
  cases kind with
  | inode => exact le_rfl
  | block =>
    obtain ⟨low, high⟩ := ho.last
    have span := ho.span
    simp only [pool, blockPool, blocksInGroup, numbers]
    split
    · next last =>
      have hh : geo.numGroups * geo.sb.blocksPerGroup =
          g * geo.sb.blocksPerGroup + geo.sb.blocksPerGroup := by
        rw [← Nat.succ_mul]
        congr 1
        omega
      rw [← last] at low
      rw [sub32]
      omega
    · exact le_rfl

theorem pool_number (hw : g < geo.numGroups) (lt : i < (geo.numbers kind).per) :
    (geo.pool kind).number g i = (geo.numbers kind).number g i := by
  have has := has_number (n := geo.numbers kind) (lt_of_lt_of_eq hw numbers_groups.symm) lt
  cases kind with
  | inode => exact Nat.mod_eq_of_lt (ho.inode_lt has)
  | block =>
    refine Nat.mod_eq_of_lt (lt_of_lt_of_le has.2 ?_)
    exact ho.span

omit ho in
theorem image_used_number (within : g < geo.numGroups) (small : i < (geo.numbers kind).per) :
    (image geo v).used kind ((geo.numbers kind).number g i) =
      bit (v.blocks ((geo.pool kind).bitmap g)) i := by
  have has := has_number (n := geo.numbers kind) (lt_of_lt_of_eq within numbers_groups.symm) small
  simp only [image]
  rw [decide_eq_true has, Bool.true_and, group_number small, index_number small]

theorem allocFrom_does (kind : Kind) (groups : List Nat) (all : ∀ g ∈ groups, g < geo.numGroups) :
    Does geo (allocFrom (geo.pool kind) groups) m (.ok (m.alloc geo kind groups).1)
      (m.alloc geo kind groups).2 := by
  induction groups with
  | nil => exact Does.pure
  | cons g groups ih =>
    have hw := all g mem_cons_self
    have hl := ih fun g mem => all g (mem_cons_of_mem _ mem)
    rw [allocFrom]
    refine Does.bind getVars_does ?_
    by_cases none : (geo.pool kind).free m.counters g = 0
    · have skip : m.alloc geo kind (g :: groups) = m.alloc geo kind groups := by
        rw [alloc, pick, List.findSome?_cons, if_pos none]
        rfl
      rw [if_pos none, skip]
      exact hl
    rw [if_neg none]
    intro v eq
    have bits : firstClear (fun i => m.used kind ((geo.numbers kind).number g i))
        ((geo.pool kind).size g) 0 =
        firstClear (bit (v.blocks ((geo.pool kind).bitmap g))) ((geo.pool kind).size g) 0 := by
      refine firstClear_congr fun i _ high => ?_
      have size := pool_size_le ho kind hw
      rw [← eq]
      exact image_used_number hw (by omega)
    have word := ho.words _ (bitmap_mem kind hw)
    cases hf : firstClear (bit (v.blocks ((geo.pool kind).bitmap g)))
        ((geo.pool kind).size g) 0 with
    | none =>
      have skip : m.alloc geo kind (g :: groups) = m.alloc geo kind groups := by
        rw [alloc, pick, List.findSome?_cons, if_neg none, bits, hf]
        rfl
      rw [skip, run_bind, touched_bind, run_change]
      simp only [hf, map_none]
      obtain ⟨hr, after, words⟩ := hl v eq
      refine ⟨hr, after, fun b mem => (mem_append.mp mem).elim (fun first => ?_) (words b)⟩
      exact mem_singleton.mp first ▸ word
    | some i =>
      have lt : i < (geo.numbers kind).per := by
        have size := pool_size_le ho kind hw
        have hb := (firstClear_some hf).2.1
        omega
      have has := has_number (n := geo.numbers kind) (lt_of_lt_of_eq hw numbers_groups.symm) lt
      have here : m.alloc geo kind (g :: groups) = m.take geo kind (g, i) := by
        rw [alloc, pick, List.findSome?_cons, if_neg none, bits, hf]
        rfl
      have hm := image_setUsed (v := v)
        (d := setBit (v.blocks ((geo.pool kind).bitmap g)) i) ho true has fun j => by
          rw [bit_setBit, index_number lt, group_number lt]
          by_cases here : j = i <;> simp [here]
      rw [group_number lt, eq] at hm
      rw [here, run_bind, touched_bind, run_change]
      simp only [hf, map_some]
      refine ⟨?_, ?_, fun b mem => ?_⟩
      · exact congrArg Except.ok (pool_number ho hw lt)
      · have vars : v.vars = m.counters := by
          rw [← eq]
          rfl
        have hc := congrArg (setCounters · ((geo.pool kind).take g v.vars)) hm
        refine hc.trans ?_
        rw [vars]
        rfl
      · exact mem_singleton.mp mem ▸ word

theorem pick_some {spot : Nat × Nat} (hf : m.pick geo kind (range geo.numGroups) = some spot) :
    (geo.numbers kind).Has (m.take geo kind spot).1 ∧
      m.used kind (m.take geo kind spot).1 = false := by
  obtain ⟨g, hl, ht⟩ := exists_of_findSome?_eq_some hf
  have hw := mem_range.mp hl
  obtain ⟨-, ht⟩ := ite_none_left_eq_some.mp ht
  obtain ⟨i, clear, rfl⟩ := map_eq_some_iff.mp ht
  obtain ⟨-, lt, free⟩ := firstClear_some clear
  have size := pool_size_le ho kind hw
  exact ⟨has_number (lt_of_lt_of_eq hw numbers_groups.symm) (by omega), free⟩

omit ho in
theorem groupOrder_zero : geo.groupOrder 0 = range geo.numGroups := by
  rw [groupOrder]
  refine (map_congr_left fun g mem => ?_).trans (map_id _)
  rw [add_zero, Nat.mod_eq_of_lt (mem_range.mp mem)]
  rfl

theorem ext2AllocBlock_does : Does geo (ext2AllocBlock geo 0) m
    (.ok (m.alloc geo .block (range geo.numGroups)).1)
    (m.alloc geo .block (range geo.numGroups)).2 := by
  rw [ext2AllocBlock, groupOrder_zero]
  exact allocFrom_does ho .block _ fun g mem => mem_range.mp mem

theorem Does.cached {α : Type} {q : Fs α} {r : Except Stop α} {m' : Image} {v : CachedVolume}
    (does : Does geo q m r m') (contents : image geo (v.volume geo.blockSize) = m)
    (hs : Settled geo.blockSize v.cache (v.volume geo.blockSize).blocks)
    (he : v.Early geo.blockSize q) :
    (v.run geo.blockSize q).1 = r ∧
      image geo ((v.run geo.blockSize q).2.volume geo.blockSize) = m' ∧
      Settled geo.blockSize (v.run geo.blockSize q).2.cache
        ((v.run geo.blockSize q).2.volume geo.blockSize).blocks := by
  obtain ⟨log, lt, size⟩ := ho.block
  obtain ⟨hr, after, words⟩ := does _ contents
  obtain ⟨eq, hv, hs⟩ := CachedVolume.run_eq (by rw [size]; exact devLen_blockSize)
    (by rw [size]; exact blockSize_le lt) hs words he
  rw [eq, hv]
  exact ⟨hr, after, hv ▸ hs⟩

end

end

end Aegis.Ext2
