import Aegis.Ext2Image

/-! The blocks of a file in the contents of a volume: direct blocks, and those behind the single
and the double indirect block. Any block of an inode has its place, a pointer of the inode and the
way through the blocks of pointers; a device or a short link has other data there. -/

namespace Aegis.Ext2

open ByteMemory BlockProgram List Does Image

namespace Image

/-- An entry of a block of pointers; there are none behind block 0. -/
def ptr (m : Image) (b j : Nat) : Nat := if b = 0 then 0 else readLe (m.data b) 4 (j * 4)

def fileBlock (geo : Geometry) (m : Image) (inode : Bytes) (k : Nat) : Nat :=
  if k < 12 then (iBlock k).get inode
  else if k < 12 + geo.blockSize / 4 then m.ptr ((iBlock 12).get inode) (k - 12)
  else if k < 12 + geo.blockSize / 4 + geo.blockSize / 4 * (geo.blockSize / 4) then
    m.ptr (m.ptr ((iBlock 13).get inode) ((k - 12 - geo.blockSize / 4) / (geo.blockSize / 4)))
      ((k - 12 - geo.blockSize / 4) % (geo.blockSize / 4))
  else 0

def pointers (geo : Geometry) (m : Image) (inode : Bytes) (k : Nat) : List Nat :=
  if k < 12 then []
  else if k < 12 + geo.blockSize / 4 then [(iBlock 12).get inode]
  else if k < 12 + geo.blockSize / 4 + geo.blockSize / 4 * (geo.blockSize / 4) then
    [(iBlock 13).get inode,
      m.ptr ((iBlock 13).get inode) ((k - 12 - geo.blockSize / 4) / (geo.blockSize / 4))]
  else []

variable {geo : Geometry} {m m' : Image} {inode inode' d : Bytes} {b k : Nat} {j : Nat}

theorem ptr_zero : m.ptr 0 j = 0 := if_pos rfl

theorem ptr_of_ne (used : b ≠ 0) : m.ptr b j = readLe (m.data b) 4 (j * 4) := if_neg used

theorem ptr_congr (eq : m'.data b = m.data b) : m'.ptr b j = m.ptr b j := by
  rw [ptr, ptr, eq]

theorem fileBlock_congr (eq : ∀ j < 15, (iBlock j).get inode' = (iBlock j).get inode)
    (data : ∀ q ∈ m.pointers geo inode k, m'.data q = m.data q) :
    m'.fileBlock geo inode' k = m.fileBlock geo inode k ∧
      m'.pointers geo inode' k = m.pointers geo inode k := by
  rw [pointers] at data
  rw [fileBlock, fileBlock, pointers, pointers, eq 12 (by decide), eq 13 (by decide)]
  by_cases hd : k < 12
  · rw [if_pos hd, if_pos hd, if_pos hd, if_pos hd, eq k (by omega)]
    exact ⟨rfl, rfl⟩
  simp only [if_neg hd] at data ⊢
  by_cases single : k < 12 + geo.blockSize / 4
  · simp only [if_pos single] at data ⊢
    exact ⟨ptr_congr (data _ mem_cons_self), trivial⟩
  simp only [if_neg single] at data ⊢
  by_cases double : k < 12 + geo.blockSize / 4 + geo.blockSize / 4 * (geo.blockSize / 4)
  · simp only [if_pos double] at data ⊢
    rw [ptr_congr (data _ mem_cons_self), ptr_congr (data _ (mem_cons_of_mem _ mem_cons_self))]
    exact ⟨rfl, rfl⟩
  · simp only [if_neg double]
    exact ⟨trivial, trivial⟩

end Image

section
variable {geo : Geometry} {m : Image} {inode : Bytes} {k : Nat}

theorem ext2BlockNum_does (data : ∀ q ∈ m.pointers geo inode k, q ≠ 0 → geo.IsData q) :
    Does geo (ext2BlockNum geo inode k) m (.ok (m.fileBlock geo inode k)) m := by
  rw [pointers] at data
  rw [ext2BlockNum, fileBlock]
  dsimp only
  by_cases hd : k < 12
  · rw [if_pos hd, if_pos hd]
    exact pure
  rw [if_neg hd, if_neg hd]
  rw [if_neg hd] at data
  by_cases single : k < 12 + geo.blockSize / 4
  · rw [if_pos single, if_pos single]
    rw [if_pos single] at data
    by_cases hole : (iBlock 12).get inode = 0
    · rw [if_pos hole, hole, ptr_zero]
      exact pure
    · rw [if_neg hole, ptr_of_ne hole]
      exact bind (look_does (data _ mem_cons_self hole)) pure
  rw [if_neg single, if_neg single]
  rw [if_neg single] at data
  by_cases double : k < 12 + geo.blockSize / 4 + geo.blockSize / 4 * (geo.blockSize / 4)
  · rw [if_pos double, if_pos double]
    rw [if_pos double] at data
    by_cases hole : (iBlock 13).get inode = 0
    · rw [if_pos hole, hole, ptr_zero, ptr_zero]
      exact pure
    rw [if_neg hole]
    refine bind (look_does (data _ mem_cons_self hole)) ?_
    have h2 := data _ (mem_cons_of_mem _ mem_cons_self)
    rw [ptr_of_ne hole] at h2 ⊢
    dsimp only
    generalize readLe (m.data ((iBlock 13).get inode)) 4 _ = inner at h2 ⊢
    by_cases he : inner = 0
    · rw [if_pos he, he, ptr_zero]
      exact pure
    · rw [if_neg he, ptr_of_ne he]
      exact bind (look_does (h2 he)) pure
  · rw [if_neg double, if_neg double]
    exact pure

end

/-! ### Every block of an inode -/

section
open ByteMemory BlockProgram

/-- The block at a place; `path` has the entry in the last block of pointers first. -/
def Image.slot (m : Image) (inode : Bytes) (root : Nat) : List Nat → Nat
  | [] => (iBlock root).get inode
  | j :: path => m.ptr (m.slot inode root path) j

structure IsPlace (geo : Geometry) (root : Nat) (path : List Nat) : Prop where
  small : root < 15
  depth : path.length ≤ root - 11
  entries : ∀ j ∈ path, j < geo.blockSize / 4

def HasBlocks (inode : Bytes) : Prop :=
  fileKind inode = kindReg ∨ fileKind inode = kindDir ∨
    fileKind inode = kindLink ∧ 60 < iSize.get inode
  deriving Decidable

def SameBlocks (geo : Geometry) (m m' : Image) (ino : Nat) : Prop :=
  m'.inode ino = m.inode ino ∧ (HasBlocks (m.inode ino) → ∀ root path, IsPlace geo root path →
    m'.slot (m'.inode ino) root path = m.slot (m.inode ino) root path ∧
      (m.slot (m.inode ino) root path ≠ 0 →
        m'.data (m.slot (m.inode ino) root path) = m.data (m.slot (m.inode ino) root path)))

section
variable {geo : Geometry} {m m' : Image} {inode inode' : Bytes} {root j k : Nat} {path : List Nat}

theorem IsPlace.tail (hp : IsPlace geo root (j :: path)) : IsPlace geo root path :=
  ⟨hp.small, Nat.le_of_succ_le hp.depth, fun i mem => hp.entries i (.tail _ mem)⟩

theorem slot_congr (eq : ∀ k < 15, (iBlock k).get inode' = (iBlock k).get inode)
    (data : ∀ root path, IsPlace geo root path → m.slot inode root path ≠ 0 →
      m'.data (m.slot inode root path) = m.data (m.slot inode root path))
    (hp : IsPlace geo root path) : m'.slot inode' root path = m.slot inode root path := by
  induction path with
  | nil => exact eq root hp.small
  | cons j path ih =>
    rw [Image.slot, Image.slot, ih hp.tail]
    by_cases hole : m.slot inode root path = 0
    · rw [hole, Image.ptr_zero, Image.ptr_zero]
    · exact Image.ptr_congr (data root path hp.tail hole)

theorem sameBlocks_of_data {ino : Nat} (eq : m'.inode ino = m.inode ino)
    (data : HasBlocks (m.inode ino) → ∀ root path, IsPlace geo root path →
      m.slot (m.inode ino) root path ≠ 0 →
      m'.data (m.slot (m.inode ino) root path) = m.data (m.slot (m.inode ino) root path)) :
    SameBlocks geo m m' ino := by
  refine ⟨eq, fun blocks root path hp => ⟨?_, data blocks root path hp⟩⟩
  rw [eq]
  exact slot_congr (fun _ _ => rfl) (data blocks) hp

end

end

end Aegis.Ext2
