import Aegis.GptIo

/-! Partitions with sectors of 512 bytes on a disk with blocks of 4096 bytes: `gpt_part_read` and
`gpt_part_write` go through the buffer of one block, `s_part_bounce`. A request that ends in
another block than it starts in runs over the end of the buffer, so the model keeps the memory
from the buffer on. -/

namespace Aegis.Gpt

open LabelledRun ByteMemory Option
open ByteLayout (Byte)

structure NativeDisk where
  disk : Bytes
  bounce : Bytes

def loadNative (p : Partition) (lba count : Nat) (s : NativeDisk) : Option (Nat × Bytes) :=
  (p.request lba count).map fun r => (r.1, overlay s.bounce 0 4096 (view s.disk (r.1 * 4096)))

def subOff (lba : Nat) : Nat := lba * 512 % word % 4096

def gptPartRead (p : Partition) (lba count : Nat) (s : NativeDisk) : Option (Bytes × NativeDisk) :=
  (loadNative p lba count s).map fun (_, bounce) =>
    (clip (count * 512) (view bounce (subOff lba)), { s with bounce := bounce })

def gptPartWrite (p : Partition) (lba count : Nat) (buf : Bytes) (s : NativeDisk) :
    Option NativeDisk :=
  (loadNative p lba count s).map fun (natLba, bounce) =>
    let bounce := overlay bounce (subOff lba) (count * 512) buf
    { disk := overlay s.disk (natLba * 4096) 4096 bounce, bounce := bounce }

/-! ### Sequences of requests -/

inductive SectorRequest
  | read (lba count : Nat)
  | write (lba count : Nat) (buf : Bytes)

def InPartition (p : Partition) (lba count : Nat) : Prop :=
  1 ≤ count ∧ count < 2 ^ 32 ∧ lba + count ≤ p.blockCount
  deriving Decidable

/-- The sectors are in one block of the disk, and their byte offset is below `2 ^ 64`. -/
def InOneBlock (lba count : Nat) : Prop := lba % 8 + count ≤ 8 ∧ lba < 2 ^ 55
  deriving Decidable

def SectorRequest.OneBlock : SectorRequest → Prop
  | .read lba count => InOneBlock lba count
  | .write lba count _ => InOneBlock lba count

structure Emulation extends NativeDisk where
  reference : Bytes

def emulationStep (p : Partition) (s : Emulation) : SectorRequest → Option Emulation
  | .read lba count =>
    if InPartition p lba count then
      (gptPartRead p lba count s.toNativeDisk).map fun r => { s with toNativeDisk := r.2 }
    else none
  | .write lba count buf =>
    if InPartition p lba count then
      (gptPartWrite p lba count buf s.toNativeDisk).map fun t =>
        { toNativeDisk := t, reference := overlay s.reference (lba * 512) (count * 512) buf }
    else none

def emulationStart (p : Partition) (disk bounce : Bytes) : Emulation :=
  { disk := disk, bounce := bounce, reference := view disk (p.lbaOffset * 4096) }

/-- The partition holds the reference array and everything else is as it was; a read returns the
bytes of the array, and a write changes its bytes and no others. -/
structure Emulates (p : Partition) (original : Bytes) (s : Emulation) : Prop where
  disk : s.disk = overlay original (p.lbaOffset * 4096) (p.blockCount * 512) s.reference
  reads : ∀ lba count, InPartition p lba count → InOneBlock lba count →
    (gptPartRead p lba count s.toNativeDisk).map Prod.fst =
      some (clip (count * 512) (view s.reference (lba * 512)))
  writes : ∀ lba count buf, InPartition p lba count → InOneBlock lba count →
    (gptPartWrite p lba count buf s.toNativeDisk).map NativeDisk.disk =
      some (overlay s.disk (p.lbaOffset * 4096 + lba * 512) (count * 512) buf)

section
variable {p : Partition} {first last lba count : Nat} {s : NativeDisk}

theorem loadNative_eq (hr : Registered p first last) (native : p.parentBs = 4096)
    (hi : InPartition p lba count) (block : InOneBlock lba count) :
    loadNative p lba count s = some (first + lba / 8,
      overlay s.bounce 0 4096 (view s.disk ((first + lba / 8) * 4096))) := by
  obtain ⟨pos, -, range⟩ := hi
  obtain ⟨-, lt⟩ := block
  have total := hr.blockCount_le
  have limit := hr.blockCount_lt
  have order := hr.order
  have hb := hr.bound
  rw [native] at total
  have sum : (lba + count) % word = lba + count := Nat.mod_eq_of_lt (by omega)
  have request : p.request lba count = some (first + lba / 8, 1) := by
    rw [Partition.request, sum, if_neg (by omega), if_neg (by omega), native, native_block,
      hr.offset, Nat.mod_eq_of_lt lt, Nat.mod_eq_of_lt (by omega)]
  rw [loadNative, request]
  rfl

theorem subOff_eq (lt : lba < 2 ^ 55) : subOff lba = lba % 8 * 512 := by
  have bytes : lba * 512 < word := by
    rw [word]
    omega
  rw [subOff, Nat.mod_eq_of_lt bytes]
  omega

theorem gptPartRead_eq (hr : Registered p first last) (native : p.parentBs = 4096)
    (hi : InPartition p lba count) (block : InOneBlock lba count) :
    (gptPartRead p lba count s).map Prod.fst =
      some (clip (count * 512) (view s.disk (first * 4096 + lba * 512))) := by
  rw [gptPartRead, loadNative_eq hr native hi block, map_some, map_some, Option.some.injEq]
  apply clip_congr
  intro i lt
  have fits := block.1
  rw [view, subOff_eq block.2, overlay_inside (Nat.zero_le _) (by omega), view, view]
  apply congrArg s.disk
  omega

theorem gptPartWrite_eq {buf : Bytes} (hr : Registered p first last)
    (native : p.parentBs = 4096) (hi : InPartition p lba count)
    (block : InOneBlock lba count) :
    (gptPartWrite p lba count buf s).map NativeDisk.disk =
      some (overlay s.disk (first * 4096 + lba * 512) (count * 512) buf) := by
  rw [gptPartWrite, loadNative_eq hr native hi block, map_some, map_some, Option.some.injEq]
  have fits := block.1
  have start : (first + lba / 8) * 4096 + lba % 8 * 512 = first * 4096 + lba * 512 := by omega
  have hl : overlay s.disk ((first + lba / 8) * 4096) 4096
      (overlay s.bounce 0 4096 (view s.disk ((first + lba / 8) * 4096))) = s.disk :=
    overlay_same fun i lt => overlay_inside (Nat.zero_le _) (by omega)
  dsimp only
  rw [subOff_eq block.2, overlay_overlay (by omega), hl, start]

end

section
variable {p : Partition} {first last : Nat} {original : Bytes} {s t : Emulation}

theorem emulates_of_disk (hr : Registered p first last) (native : p.parentBs = 4096)
    (hh : s.disk = overlay original (first * 4096) (p.blockCount * 512) s.reference) :
    Emulates p original s := by
  rw [← hr.offset] at hh
  refine ⟨hh, fun lba count hi block => ?_, fun lba count buf hi block => ?_⟩
  · rw [gptPartRead_eq hr native hi block, hh, hr.offset]
    congr 1
    apply clip_congr
    intro i lt
    have range := hi.2.2
    rw [view, overlay_inside (by omega) (by omega), view]
    apply congrArg s.reference
    omega
  · rw [gptPartWrite_eq hr native hi block, hr.offset]

theorem Emulates.step (hr : Registered p first last) (native : p.parentBs = 4096)
    (he : Emulates p original s) {request : SectorRequest} (block : request.OneBlock)
    (hs : emulationStep p s request = some t) : Emulates p original t := by
  apply emulates_of_disk hr native
  have hh := he.disk
  rw [hr.offset] at hh
  cases request with
  | read lba count =>
    rw [emulationStep] at hs
    split at hs
    · obtain ⟨r, hd, rfl⟩ := map_eq_some_iff.mp hs
      obtain ⟨hl, -, rfl⟩ := map_eq_some_iff.mp hd
      exact hh
    · cases hs
  | write lba count buf =>
    rw [emulationStep] at hs
    split at hs
    · next hi =>
      obtain ⟨r, hw, rfl⟩ := map_eq_some_iff.mp hs
      have hc := he.writes lba count buf hi block
      rw [hw, map_some, Option.some.injEq, hr.offset, hh] at hc
      have range := hi.2.2
      rw [hc]
      exact (overlay_overlay (by omega)).symm
    · cases hs

/-- After every sequence of requests that stay in one block of the disk, the partition is the
reference array. -/
theorem emulation_transparent (registered : Registered p first last) (native : p.parentBs = 4096)
    {bounce : Bytes} {requests : List SectorRequest}
    (run : RunWhere (emulationStep p) (fun _ request => request.OneBlock)
      (emulationStart p original bounce) requests s) :
    Emulates p original s := by
  refine run.invariant ?_ fun _ _ _ emulates block steps =>
    emulates.step registered native block steps
  apply emulates_of_disk registered native
  refine (overlay_same fun i _ => ?_).symm
  rw [← registered.offset]
  rfl

end

def nativePart : Partition := Partition.ofEntry 4096 10 20

theorem nativePart_registered : Registered nativePart 10 20 := ⟨rfl, .inr rfl, by decide, by decide⟩

theorem emulation_transparent_write : ∃ s : Emulation, Emulates nativePart (fun _ => 0) s ∧
      (gptPartRead nativePart 4 1 s.toNativeDisk).map Prod.fst = some (clip 512 fun _ => 7) := by
  have first : emulationStep nativePart (emulationStart nativePart (fun _ => 0) fun _ => 1)
      (.write 3 2 fun _ => 7) = some _ := rfl
  have block : (SectorRequest.write 3 2 fun _ => 7).OneBlock := by
    constructor <;> decide
  have emulates := emulation_transparent nativePart_registered rfl (RunWhere.nil.snoc block first)
  refine ⟨_, emulates, ?_⟩
  rw [emulates.reads 4 1 (by decide) (by decide), Option.some.injEq]
  apply clip_congr
  intro i small
  change overlay _ (3 * 512) (2 * 512) (fun _ => 7) (4 * 512 + i) = 7
  rw [overlay_inside (by omega) (by omega)]

/-- Two sectors from sector 7 on: the second comes from the memory behind the buffer, and a write
leaves it as it was on the disk. -/
theorem emulation_crosses : InPartition nativePart 7 2 ∧
    ((gptPartRead nativePart 7 2 ⟨fun _ => 0, fun _ => 1⟩).map fun r => r.1 512) = some 1 ∧
    ((gptPartWrite nativePart 7 2 (fun _ => 9) ⟨fun _ => 0, fun _ => 1⟩).map fun t =>
      t.disk (10 * 4096 + 8 * 512)) = some 0 := by
  refine ⟨by decide, by decide, by decide⟩

/-! ### Several partitions of one disk -/

/-- The disk and the buffer are shared; each partition has a reference array of its own. -/
structure SharedDisk (ι : Type) extends NativeDisk where
  reference : ι → Bytes

section
variable {ι : Type} [DecidableEq ι] {parts : ι → Partition} {first last : ι → Nat}
  {s t : SharedDisk ι}

def sharedStep (parts : ι → Partition) (s : SharedDisk ι) (call : ι × SectorRequest) :
    Option (SharedDisk ι) :=
  (emulationStep (parts call.1) ⟨s.toNativeDisk, s.reference call.1⟩ call.2).map fun t =>
    ⟨t.toNativeDisk, Function.update s.reference call.1 t.reference⟩

def sharedStart (parts : ι → Partition) (disk bounce : Bytes) : SharedDisk ι :=
  ⟨⟨disk, bounce⟩, fun i => view disk ((parts i).lbaOffset * 4096)⟩

/-- Every partition holds its array, and is read and written as this array. -/
def EmulatesAll (parts : ι → Partition) (s : SharedDisk ι) : Prop :=
  ∀ i, Emulates (parts i) s.disk ⟨s.toNativeDisk, s.reference i⟩

variable (registered : ∀ i, Registered (parts i) (first i) (last i))
  (native : ∀ i, (parts i).parentBs = 4096)
  (apart : ∀ i j, i ≠ j → last i < first j ∨ last j < first i)
include registered native apart

theorem EmulatesAll.step (all : EmulatesAll parts s) {call : ι × SectorRequest}
    (block : call.2.OneBlock) (step : sharedStep parts s call = some t) : EmulatesAll parts t := by
  obtain ⟨i, request⟩ := call
  obtain ⟨u, serves, rfl⟩ := map_eq_some_iff.mp step
  have here := ((all i).step (registered i) (native i) block serves).disk
  intro j
  apply emulates_of_disk (registered j) (native j)
  refine (overlay_same fun k lt => ?_).symm
  dsimp only
  by_cases eq : j = i
  · subst eq
    rw [Function.update_self, here, (registered j).offset, overlay_add lt]
  have size := (registered i).blockCount_le
  have size' := (registered j).blockCount_le
  have order := (registered i).order
  have order' := (registered j).order
  have away := apart i j (Ne.symm eq)
  have old := congrFun (all j).disk (first j * 4096 + k)
  rw [native] at size size'
  rw [(registered j).offset, overlay_add lt] at old
  rw [Function.update_of_ne eq, here, (registered i).offset, overlay_outside (by omega)]
  exact old.symm

/-- Partitions that do not overlap are independent, although all requests use one buffer. -/
theorem partitions_independent {disk bounce : Bytes} {calls : List (ι × SectorRequest)}
    (run : RunWhere (sharedStep parts) (fun _ call => call.2.OneBlock)
      (sharedStart parts disk bounce) calls s) : EmulatesAll parts s := by
  refine run.invariant (fun i => ?_) fun _ _ _ all block step =>
    all.step registered native apart block step
  apply emulates_of_disk (registered i) (native i)
  refine (overlay_same fun k _ => ?_).symm
  rw [← (registered i).offset]
  rfl

end

def twoParts (b : Bool) : Partition := bif b then Partition.ofEntry 4096 21 40 else nativePart

theorem partitions_independent_two : ∃ s : SharedDisk Bool,
    EmulatesAll twoParts s ∧ s.reference true = fun _ => 0 := by
  have step : sharedStep twoParts (sharedStart twoParts (fun _ => 0) fun _ => 1)
      (false, .write 3 2 fun _ => 7) = some _ := rfl
  refine ⟨_, @partitions_independent Bool _ twoParts (bif · then 21 else 10)
    (bif · then 40 else 20) _ (fun b => ?_) (fun b => ?_) (by decide) _ _ _
    (RunWhere.nil.snoc (by constructor <;> decide) step), rfl⟩ <;> cases b
  exacts [nativePart_registered, ⟨rfl, .inr rfl, by decide, by decide⟩, rfl, rfl]

end Aegis.Gpt
