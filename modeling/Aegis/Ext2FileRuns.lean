import Aegis.Ext2File
import Aegis.Ext2BlockMap
import Aegis.Ext2DirRuns

/-! Runs of writes to one file, through the block cache. A file that `ext2_create` made is the
byte array that the writes say, and no other file changes, as long as the counter of ages in the
cache does not wrap. -/

namespace Aegis.Ext2

open ByteMemory BlockProgram LabelledRun Image Field
open ByteLayout (Byte)

structure FileRef where
  size : Nat
  bytes : Bytes

def FileRef.empty : FileRef := ⟨0, fun _ => 0⟩

def FileRef.write (ref : FileRef) (buf : List Byte) (offset : Nat) : FileRef :=
  if buf.length = 0 then ref
  else ⟨max ref.size (offset + buf.length), overlay ref.bytes offset buf.length (ofList buf)⟩

def FileRef.read (ref : FileRef) (offset len : Nat) : List Byte :=
  (List.range (min len (ref.size - offset))).map fun i => ref.bytes (offset + i)

structure FileState where
  vol : CachedVolume
  ref : FileRef
  returned : Except Stop Nat
  expected : Except Stop Nat

structure FileWrite where
  buf : List Byte
  offset : Nat

def regularInode (mode : Nat) : Bytes := freshInode (0x8000 + mode % 512) 1

section
variable (geo : Geometry) (ino : Nat)

def FileWrite.program (w : FileWrite) : Fs Nat := ext2Write geo ino w.buf w.offset

/-- A write within the first 12 blocks that finds the blocks it needs. -/
def FileWrite.Allowed (s : FileState) (w : FileWrite) : Prop :=
  w.offset + w.buf.length ≤ 12 * geo.blockSize ∧
    (w.buf.length = 0 ∨ Image.canAlloc geo (holes ((s.vol.image geo).inode ino)
      (w.offset / geo.blockSize)
      ((w.offset + w.buf.length - 1) / geo.blockSize + 1 - w.offset / geo.blockSize))
      (s.vol.image geo) = true)
  deriving Decidable

def fileStep (s : FileState) (w : FileWrite) : Option FileState :=
  if w.Allowed geo ino s then
    let r := s.vol.run geo.blockSize (w.program geo ino)
    some ⟨r.2, s.ref.write w.buf w.offset, r.1, .ok w.buf.length⟩
  else none

def NoWrapWrite (s : FileState) (w : FileWrite) : Prop :=
  s.vol.Early geo.blockSize (w.program geo ino)
  deriving Decidable

structure BlocksMarked (m : Image) : Prop where
  marked : ∀ o, m.used .inode o = true → HasBlocks (m.inode o) → ∀ root path,
    IsPlace geo root path → m.slot (m.inode o) root path ≠ 0 →
    m.used .block (m.slot (m.inode o) root path) = true
  free : ∀ b, (geo.numbers .block).Has b → m.used .block b = false → geo.IsData b

structure FileStart (s : FileState) : Prop where
  sound : geo.Sound
  settled : Settled geo.blockSize s.vol.cache (s.vol.volume geo.blockSize).blocks
  marked : BlocksMarked geo (s.vol.image geo)
  has : geo.HasInode ino
  created : ∃ mode, (s.vol.image geo).inode ino = clip inodeBytes (regularInode mode)
  ref : s.ref = .empty
  answer : s.returned = s.expected

/-- The last write returned its length, a read returns the bytes of the array, and all other
inodes in use have what they had before. -/
structure IsArray (start s : FileState) : Prop where
  answer : s.returned = s.expected
  reads : ∀ offset len, offset + len < 2 ^ 32 →
    s.vol.Early geo.blockSize (ext2Read geo ino offset len) →
    (s.vol.run geo.blockSize (ext2Read geo ino offset len)).1 = .ok (s.ref.read offset len)
  others : ∀ o, o ≠ ino → (start.vol.image geo).used .inode o = true →
    SameBlocks geo (start.vol.image geo) (s.vol.image geo) o

structure FileIs (old : Nat → Prop) (m : Image) (ref : FileRef) : Prop where
  trim : clip inodeBytes (m.inode ino) = m.inode ino
  file : FileOn geo old m (m.inode ino)
  size : iSize.get (m.inode ino) = ref.size
  small : ref.size ≤ 12 * geo.blockSize
  bytes : ∀ p < 12 * geo.blockSize, m.byteAt geo (m.inode ino) p = ref.bytes p

end

section
variable {geo : Geometry} {ino : Nat} {old : Nat → Prop} {m m' : Image} {ref : FileRef}
  {inode inode' : Bytes} {start s s' : FileState} {w : FileWrite}

theorem FileOn.congr (file : FileOn geo old m inode) (bits : m'.used .block = m.used .block)
    (eq : ∀ k < 12, (iBlock k).get inode' = (iBlock k).get inode) : FileOn geo old m' inode' where
  data k small present := by
    rw [eq k small] at present ⊢
    rw [bits]
    exact file.data k small present
  apart j smallJ k smallK equal present := by
    rw [eq j smallJ, eq k smallK] at equal
    rw [eq j smallJ] at present
    exact file.apart j smallJ k smallK equal present
  free b has clear := by
    rw [bits] at clear
    exact file.free b has clear

theorem byteAt_congr {p : Nat} (lt : p < 12 * geo.blockSize) (data : m'.data = m.data)
    (eq : ∀ k < 12, (iBlock k).get inode' = (iBlock k).get inode) :
    m'.byteAt geo inode' p = m.byteAt geo inode p := by
  have hd : p / geo.blockSize < 12 := Nat.div_lt_of_lt_mul (by rwa [mul_comm])
  rw [byteAt_direct lt, byteAt_direct lt, eq _ hd, data]

namespace FileIs

variable (here : FileIs geo ino old m ref) (sound : geo.Sound) (has : geo.HasInode ino)
include here sound has

theorem ext2Read_does {offset len : Nat} (word : offset + len < 2 ^ 32) :
    Does geo (ext2Read geo ino offset len) m (.ok (ref.read offset len)) m := by
  have hb := sound.blockSize_bounds
  have pos := sound.blockSize_pos
  have lt := here.small
  have size := here.size
  have eq : m.bytesFrom geo (m.inode ino) offset len = ref.read offset len := by
    rw [bytesFrom, FileRef.read, size]
    refine List.map_congr_left fun i mem => here.bytes _ ?_
    have hi := List.mem_range.mp mem
    omega
  rw [← eq]
  refine Ext2.ext2Read_does sound has ?_ word fun k less => ?_
  · rw [size, maxSize]
    omega
  have hd : k < 12 := by
    refine lt_of_lt_of_le less (Nat.div_lt_of_lt_mul ?_)
    omega
  rw [fileBlock, pointers, if_pos hd, if_pos hd]
  exact ⟨fun hp => (here.file.data k hd hp).1, by simp⟩

theorem write_does {buf : List Byte} {offset : Nat}
    (fits : offset + buf.length ≤ 12 * geo.blockSize)
    (can : buf.length = 0 ∨ canAlloc geo (holes (m.inode ino) (offset / geo.blockSize)
      ((offset + buf.length - 1) / geo.blockSize + 1 - offset / geo.blockSize)) m = true) :
    ∃ m', Does geo (ext2Write geo ino buf offset) m (.ok buf.length) m' ∧
      FileIs geo ino old m' (ref.write buf offset) ∧ (∀ o, o ≠ ino → m'.inode o = m.inode o) ∧
      ∀ b, old b → m'.data b = m.data b := by
  have hb := sound.blockSize_bounds
  by_cases none : buf.length = 0
  · rw [FileRef.write, if_pos none, ext2Write, if_pos none, none]
    exact ⟨m, Does.pure, here, fun _ _ => rfl, fun _ _ => rfl⟩
  obtain ⟨m', inode', does, hw⟩ := Ext2.ext2Write_does here.file sound has fits (by omega)
    (can.resolve_left none)
  refine ⟨_, does, ?_, fun o hd => ?_, hw.kept⟩
  · have size : iSize.get inode' = ref.size := by
      rw [hw.fields _ (.inl (by decide)), here.size]
    rw [here.size]
    generalize final : (if ref.size < offset + buf.length then setSize inode' (offset + buf.length)
      else inode') = inode''
    have inode : (m'.setInode ino inode'').inode ino = clip inodeBytes inode'' :=
      Function.update_self _ _ _
    have pointers : ∀ k < 12, (iBlock k).get (clip inodeBytes inode'') = (iBlock k).get inode' := by
      intro k lt
      rw [get_clip (by simp only [iBlock, inodeBytes]; omega), ← final]
      split
      · exact setSize_iBlock
      · rfl
    refine ⟨by rw [inode, clip_clip], ?_, ?_, ?_, ?_⟩
    · rw [inode]
      exact hw.file.congr rfl pointers
    · rw [inode, get_clip (by decide), FileRef.write, if_neg none, ← final]
      dsimp only
      split
      · rw [setSize_iSize (by omega)]
        omega
      · rw [size]
        omega
    · rw [FileRef.write, if_neg none]
      exact max_le here.small fits
    · intro p lt
      have eq : (m'.setInode ino inode'').byteAt geo (clip inodeBytes inode'') p =
          m'.byteAt geo inode' p := byteAt_congr lt rfl pointers
      rw [inode, eq, hw.bytes p lt, FileRef.write, if_neg none, here.bytes p lt]
      dsimp only
      rw [overlay]
      rfl
  · rw [setInode_inode, Function.update_of_ne hd, hw.inodes]

end FileIs

structure FileInv (geo : Geometry) (ino : Nat) (start s : FileState) : Prop where
  settled : Settled geo.blockSize s.vol.cache (s.vol.volume geo.blockSize).blocks
  file : FileIs geo ino (fun b => (start.vol.image geo).used .block b = true) (s.vol.image geo) s.ref
  inodes : ∀ o, o ≠ ino → (s.vol.image geo).inode o = (start.vol.image geo).inode o
  kept : ∀ b, (start.vol.image geo).used .block b = true →
    (s.vol.image geo).data b = (start.vol.image geo).data b
  answer : s.returned = s.expected

theorem regularInode_pointer {mode k : Nat} (lt : k < 15) :
    (iBlock k).get (clip inodeBytes (regularInode mode)) = 0 := by
  rw [get_clip (by simp only [iBlock, inodeBytes]; omega), regularInode, freshInode,
    get_set_apart (iBlock_apart (by decide)), get_set_apart (iBlock_apart (by decide))]
  rfl

theorem FileStart.inv (hb : FileStart geo ino start) : FileInv geo ino start start := by
  obtain ⟨mode, hc⟩ := hb.created
  have pos := hb.sound.blockSize_pos
  have pointers : ∀ k < 12, (iBlock k).get ((start.vol.image geo).inode ino) = 0 :=
    fun k lt => by
      rw [hc]
      exact regularInode_pointer (by omega)
  refine ⟨hb.settled, ⟨?_, ⟨?_, ?_, ?_⟩, ?_, ?_, ?_⟩, fun _ _ => rfl, fun _ _ => rfl, hb.answer⟩
  · rw [hc, clip_clip]
  · exact fun k lt hp => absurd (pointers k lt) hp
  · exact fun j lt k _ _ hp => absurd (pointers j lt) hp
  · intro b has clear
    refine ⟨hb.marked.free b has clear, ?_⟩
    rw [clear]
    exact Bool.false_ne_true
  · rw [hb.ref, hc, get_clip (by decide), regularInode, freshInode,
      get_set_apart (.inl (by decide)), get_set_apart (.inr (by decide))]
    rfl
  · rw [hb.ref]
    exact Nat.zero_le _
  · intro p lt
    have hd : p / geo.blockSize < 12 := Nat.div_lt_of_lt_mul (by rwa [Nat.mul_comm])
    rw [byteAt_direct lt, if_pos (pointers _ hd), hb.ref]
    rfl

theorem FileInv.step (inv : FileInv geo ino start s) (sound : geo.Sound) (has : geo.HasInode ino)
    (he : NoWrapWrite geo ino s w) (step : fileStep geo ino s w = some s') :
    FileInv geo ino start s' := by
  obtain ⟨⟨fits, can⟩, done⟩ := Option.ite_none_right_eq_some.mp step
  cases done
  obtain ⟨m', does, file, hi, kept⟩ := inv.file.write_does sound has fits can
  obtain ⟨ha, rfl, hs⟩ := does.cached sound rfl inv.settled he
  exact ⟨hs, file, fun o hd => (hi o hd).trans (inv.inodes o hd),
    fun b ho => (kept b ho).trans (inv.kept b ho), ha⟩

theorem FileInv.isArray (inv : FileInv geo ino start s) (hb : FileStart geo ino start) :
    IsArray geo ino start s where
  answer := inv.answer
  reads _ _ word early :=
    ((inv.file.ext2Read_does hb.sound hb.has word).cached hb.sound rfl inv.settled early).1
  others o differ used := sameBlocks_of_data (inv.inodes o differ) fun blocks root path hp some =>
    inv.kept _ (hb.marked.marked o used blocks root path hp some)

end

/-! ### A file on the small volume -/

def filePartition : Bytes :=
  writeLe (writeLe (writeLe smallPartition 2 4096 0x7FF) 2 6400 0x81A4) 2 6426 1

def fileVolume (age : Nat) : CachedVolume := ⟨smallCounters, ⟨fun _ => 0, age, filePartition⟩⟩

def fileImage : Image := image smallGeometry ⟨smallCounters, devBlock 1024 filePartition⟩

def fileState (age : Nat) : FileState := ⟨fileVolume age, .empty, .ok 0, .ok 0⟩

theorem slot_of_zero {m : Image} {inode : Bytes} {root : Nat} (none : (iBlock root).get inode = 0)
    (path : List Nat) : m.slot inode root path = 0 := by
  induction path with
  | nil => exact none
  | cons j path ih => rw [slot, ih, ptr_zero]

theorem fileImage_marked : BlocksMarked smallGeometry fileImage where
  marked o used blocks root path hp some := by
    have hi : ∀ o < 17, fileImage.used .inode o = true → HasBlocks (fileImage.inode o) →
        o = 2 ∨ o = 11 := by decide +kernel
    have rootDir : ∀ root < 15, (iBlock root).get (fileImage.inode 2) = 0 ∨ root = 0 := by
      decide +kernel
    have newFile : ∀ root < 15, (iBlock root).get (fileImage.inode 11) = 0 := by decide +kernel
    have has := of_decide_eq_true (Bool.and_eq_true_iff.mp used).1
    obtain rfl | rfl := hi o has.2 used blocks
    · obtain none | rfl := rootDir root hp.small
      · exact absurd (slot_of_zero none path) some
      obtain rfl : path = [] := List.length_eq_zero_iff.mp (Nat.le_zero.mp hp.depth)
      change fileImage.used .block ((iBlock 0).get (fileImage.inode 2)) = true
      decide +kernel
    · exact absurd (slot_of_zero (newFile root hp.small) path) some
  free b has clear := by
    have bits : ∀ b < 65, (smallGeometry.numbers .block).Has b →
        fileImage.used .block b = false → smallGeometry.IsData b := by decide +kernel
    exact bits b has.2 has clear

theorem fileState_start {age : Nat} (word : age < 2 ^ 32) :
    FileStart smallGeometry 11 (fileState age) := by
  have hs : Settled 1024 (fileVolume age).cache (devBlock 1024 filePartition) :=
    Mounted.inv ⟨fun _ _ => ⟨rfl, rfl, rfl⟩, rfl, fun _ => rfl, rfl, word⟩
  have hv : (fileVolume age).volume 1024 = ⟨smallCounters, devBlock 1024 filePartition⟩ :=
    congrArg (Disk.mk smallCounters) hs.blocks_eq
  have contents : (fileState age).vol.image smallGeometry = fileImage :=
    congrArg (image smallGeometry) hv
  refine ⟨smallGeometry_sound, ?_, contents ▸ fileImage_marked, by decide, ⟨420, ?_⟩, rfl, rfl⟩
  · exact congrArg Disk.blocks hv ▸ hs
  rw [contents]
  refine clip_congr fun i lt => ?_
  have bytes : ∀ i < inodeBytes, view (devBlock 1024 filePartition 6) 256 i =
      regularInode 420 i := by decide +kernel
  exact bytes i lt

def gapWrites : List FileWrite := [⟨[65, 66], 1500⟩, ⟨[67], 3⟩]

def usedFile : FileState := ⟨(fileVolume (2 ^ 32 - 20)).filled, .empty, .ok 0, .ok 0⟩

end Aegis.Ext2
