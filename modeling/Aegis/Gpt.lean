import Aegis.ByteMemory

/-! GUID partition tables as the kernel reads them: the checksum, the check of a header and the
entries of the array, and the devices that `gpt_scan` makes of them. Addresses of blocks are
64-bit words of the disk's own block size; a partition shows sectors of 512 bytes. -/

namespace Aegis.Gpt

open ByteMemory List
open ByteLayout (Byte)

def word : Nat := 2 ^ 64

/-! ### The checksum -/

def crcBit (c : BitVec 32) : BitVec 32 :=
  (c >>> 1) ^^^ (if c.getLsbD 0 then 0xEDB88320#32 else 0#32)

def crcTable (i : BitVec 32) : BitVec 32 := (List.range 8).foldl (fun c _ => crcBit c) i

def crcByte (crc : BitVec 32) (b : Byte) : BitVec 32 :=
  (crc >>> 8) ^^^ crcTable ((crc ^^^ b.setWidth 32) &&& 0xFF#32)

def crc32 (buf : Bytes) (len : Nat) : Nat :=
  ((List.range len).foldl (fun crc i => crcByte crc (buf i)) 0xFFFFFFFF#32 ^^^ 0xFFFFFFFF#32).toNat

theorem crc32_congr {buf buf' : Bytes} {len : Nat} (eq : ∀ i < len, buf' i = buf i) :
    crc32 buf' len = crc32 buf len := by
  have fold : ∀ (l : List Nat) (crc : BitVec 32), (∀ i ∈ l, i < len) →
      l.foldl (fun crc i => crcByte crc (buf' i)) crc =
        l.foldl (fun crc i => crcByte crc (buf i)) crc := by
    intro l
    induction l with
    | nil => exact fun _ _ => rfl
    | cons i l ih =>
      intro crc hi
      rw [foldl_cons, foldl_cons, eq i (hi i mem_cons_self)]
      exact ih _ fun j mem => hi j (.tail _ mem)
  rw [crc32, crc32, fold _ _ fun i mem => mem_range.mp mem]

theorem crc32_lt {buf : Bytes} {len : Nat} : crc32 buf len < 2 ^ 32 := BitVec.isLt _

/-! ### Header and entries -/

def hdrSize : Field := ⟨12, 4⟩

def hdrCrc : Field := ⟨16, 4⟩

def myLba : Field := ⟨24, 8⟩

def firstUsable : Field := ⟨40, 8⟩

def lastUsable : Field := ⟨48, 8⟩

def entryLba : Field := ⟨72, 8⟩

def numEntries : Field := ⟨80, 4⟩

def entrySize : Field := ⟨84, 4⟩

def arrayCrc : Field := ⟨88, 4⟩

def gptSig : List Byte := [0x45, 0x46, 0x49, 0x20, 0x50, 0x41, 0x52, 0x54]

def headerValid (sector : Bytes) (expected : Nat) : Bool :=
  decide ((List.range 8).map sector = gptSig) &&
  (decide (92 ≤ hdrSize.get sector) && decide (hdrSize.get sector ≤ 512)) &&
  decide (myLba.get sector = expected) &&
  decide (crc32 (hdrCrc.set sector 0) (hdrSize.get sector) = hdrCrc.get sector)

structure Drive where
  blockCount : Nat
  blockSize : Nat
  read : Nat → Option Bytes

/-- The sector of the header that is used: the primary one, or the backup at the end. -/
def gptHeader (d : Drive) : Option Bytes :=
  match d.read 1 with
  | none => none
  | some sector =>
    if headerValid sector 1 then some sector
    else
      let lastLba := (d.blockCount + word - 1) % word
      match d.read lastLba with
      | none => none
      | some sector => if headerValid sector lastLba then some sector else none

def readArray (d : Drive) (start : Nat) : Nat → Option Bytes
  | 0 => some fun _ => 0
  | n + 1 =>
    match readArray d start n, d.read ((start + n) % word) with
    | some entries, some chunk => some (overlay entries (n * d.blockSize) d.blockSize chunk)
    | _, _ => none

def entryLbas (bs : Nat) : Nat := (128 * 128 + bs - 1) / bs

def gptTable (d : Drive) : Option (Bytes × Bytes) :=
  match gptHeader d with
  | none => none
  | some hdr =>
    if 128 < numEntries.get hdr ∨ entrySize.get hdr ≠ 128 then none
    else
      match readArray d (entryLba.get hdr) (entryLbas d.blockSize) with
      | none => none
      | some entries =>
        if crc32 entries (numEntries.get hdr * 128) = arrayCrc.get hdr then some (hdr, entries)
        else none

structure GptEntry where
  guid : List Byte
  startLba : Nat
  endLba : Nat

def entryAt (entries : Bytes) (i : Nat) : GptEntry where
  guid := (List.range 16).map fun j => entries (i * 128 + j)
  startLba := readLe entries 8 (i * 128 + 32)
  endLba := readLe entries 8 (i * 128 + 40)

def aegisPrefix : List Byte := [0x24, 0x8F, 0x61, 0xA3, 0x76, 0x0C, 0x3D, 0x4B]

def GptEntry.wanted (e : GptEntry) : Bool :=
  e.guid.any (· ≠ 0) && decide (e.startLba < e.endLba) && decide (e.guid.take 8 = aegisPrefix)

structure Partition where
  blockCount : Nat
  lbaOffset : Nat
  parentBs : Nat

def Partition.ofEntry (bs start stop : Nat) : Partition where
  blockCount := (stop + word - start + 1) % word * (bs / 512) % word
  lbaOffset := start
  parentBs := bs

end Aegis.Gpt
