import Aegis.Ext2BlockMap

/-! Contents of files: `ext2_read` and `ext2_write`. A file is its bytes up to its size; a block
that is missing reads as zeros. A write allocates the direct blocks that it needs, fills them
with zeros first, and leaves the blocks of all others alone. -/

namespace Aegis.Ext2

open ByteMemory BlockProgram Function List Nat Image Does Field
open ByteLayout (Byte)

section
variable (geo : Geometry)

def readLoop (inode : Bytes) (offset len : Nat) : Nat → List Byte → Fs (List Byte)
  | 0, _ => fail .hangs
  | turns + 1, out =>
    if len ≤ out.length then pure out
    else do
      let curOff := (offset + out.length) % 2 ^ 32
      let inBlock := curOff % geo.blockSize
      let canCopy := min (geo.blockSize - inBlock) (len - out.length)
      let blk ← ext2BlockNum geo inode (curOff / geo.blockSize)
      if blk = 0 then readLoop inode offset len turns (out ++ List.replicate canCopy 0)
      else
        match ← look blk with
        | none => pure out
        | some d =>
          readLoop inode offset len turns (out ++ (List.range canCopy).map fun i => d (inBlock + i))

def maxSize : Nat := 256 * 1024 * 1024

def ext2Read (ino offset len : Nat) : Fs (List Byte) := do
  let inode ← orStop (ext2ReadInode geo ino) failed
  if maxSize < iSize.get inode then fail eIo
  else if iSize.get inode ≤ offset then pure []
  else
    let len := if iSize.get inode < (offset + len) % 2 ^ 32 then iSize.get inode - offset else len
    readLoop geo inode offset len (len + 1) []

/-- The block to write to: it is there, or the loop ends by a `break`, or no block is left. -/
inductive WriteBlock
  | ready (inode : Bytes) (blk : Nat)
  | breaks (inode : Bytes)
  | full

def blockToWrite (inode : Bytes) (fileBlock : Nat) : Fs WriteBlock := do
  let blk ← ext2BlockNum geo inode fileBlock
  if blk ≠ 0 then pure (.ready inode blk)
  else if 12 ≤ fileBlock then pure (.breaks inode)
  else
    let blk ← ext2AllocBlock geo 0
    if blk = 0 then pure .full
    else
      let inode := (iBlock fileBlock).set inode blk
      match ← change blk fun _ => some fun _ => 0 with
      | none => pure (.breaks inode)
      | some _ => pure (.ready inode blk)

/-- The loop of `ext2_write`: the inode, `bytes_written`, and whether no block was left. -/
def writeLoop (buf : List Byte) (offset : Nat) : Nat → Bytes → Nat → Fs (Bytes × Nat × Bool)
  | 0, _, _ => fail .hangs
  | turns + 1, inode, written =>
    if buf.length ≤ written then pure (inode, written, false)
    else do
      let curOffset := (offset + written) % 2 ^ 32
      let inBlock := curOffset % geo.blockSize
      let canWrite := min (geo.blockSize - inBlock) (buf.length - written)
      match ← blockToWrite geo inode (curOffset / geo.blockSize) with
      | .full => pure (inode, written, true)
      | .breaks inode => pure (inode, written, false)
      | .ready inode blk =>
        match ← change blk fun d =>
            some (overlay d inBlock canWrite (view (ofList buf) written)) with
        | none => pure (inode, written, false)
        | some _ => writeLoop buf offset turns inode (written + canWrite)

def setSize (inode : Bytes) (size : Nat) : Bytes :=
  iBlocks.set (iSize.set inode size) ((size + 511) % 2 ^ 32 / 512)

def ext2Write (ino : Nat) (buf : List Byte) (offset : Nat) : Fs Nat :=
  if buf.length = 0 then pure 0
  else do
    let inode ← orStop (ext2ReadInode geo ino) failed
    let (new, written, full) ← writeLoop geo buf offset (buf.length + 1) inode 0
    let stop := (offset + written) % 2 ^ 32
    if full then
      ignore (ext2WriteInode geo ino (setSize new (max stop (iSize.get inode))))
      if written = 0 then fail eIo else pure written
    else
      ignore (ext2WriteInode geo ino (if iSize.get new < stop then setSize new stop else new))
      pure written

end

def Image.byteAt (geo : Geometry) (m : Image) (inode : Bytes) (p : Nat) : Byte :=
  if m.fileBlock geo inode (p / geo.blockSize) = 0 then 0
  else m.data (m.fileBlock geo inode (p / geo.blockSize)) (p % geo.blockSize)

section
variable {geo : Geometry} {m m' m'' : Image} {inode inode' : Bytes} {p k offset len turns : Nat}

def Readable (geo : Geometry) (m : Image) (inode : Bytes) (blocks : Nat) : Prop :=
  ∀ k < blocks, (m.fileBlock geo inode k ≠ 0 → geo.IsData (m.fileBlock geo inode k)) ∧
    ∀ q ∈ m.pointers geo inode k, q ≠ 0 → geo.IsData q

variable {n : Nat}

theorem range_map_append {f g : Nat → Byte} {c : Nat} (eq : ∀ i < c, g i = f (n + i)) :
    (range n).map f ++ (range c).map g = (range (n + c)).map f := by
  rw [range_add, map_append, map_map]
  refine congrArg _ (map_congr_left fun i mem => ?_)
  exact eq i (mem_range.mp mem)

theorem add_div_mod {bs cur i : Nat} (hi : i < bs - cur % bs) :
    (cur + i) / bs = cur / bs ∧ (cur + i) % bs = cur % bs + i := by
  have pos : 0 < bs := by omega
  have split := div_add_mod cur bs
  have lt : cur % bs + i < bs := by omega
  have hw : cur + i = bs * (cur / bs) + (cur % bs + i) := by omega
  constructor
  · rw [hw, mul_add_div pos, div_eq_of_lt lt, add_zero]
  · rw [hw, mul_add_mod, mod_eq_of_lt lt]

theorem readLoop_does (pos : 0 < geo.blockSize) (word : offset + len < 2 ^ 32)
    (hr : Readable geo m inode ((offset + len - 1) / geo.blockSize + 1)) (start : n ≤ len)
    (he : len < turns + n) :
    Does geo (readLoop geo inode offset len turns
        ((range n).map fun i => m.byteAt geo inode (offset + i))) m
      (.ok ((range len).map fun i => m.byteAt geo inode (offset + i))) m := by
  induction turns generalizing n with
  | zero => omega
  | succ turns ih =>
    rw [readLoop, length_map, length_range]
    by_cases done : len ≤ n
    · obtain rfl : n = len := le_antisymm start done
      rw [if_pos (le_refl n)]
      exact pure
    have here : offset + n ≤ offset + len - 1 := by omega
    obtain ⟨data, pointers⟩ := hr ((offset + n) / geo.blockSize)
      (lt_succ_of_le (Nat.div_le_div_right here))
    have room : (offset + n) % geo.blockSize < geo.blockSize := mod_lt _ pos
    simp only [if_neg done, mod_eq_of_lt (by omega : offset + n < 2 ^ 32)]
    generalize chunk : min (geo.blockSize - (offset + n) % geo.blockSize) (len - n) = c
    have hp : ∀ i < c, (offset + (n + i)) / geo.blockSize = (offset + n) / geo.blockSize ∧
        (offset + (n + i)) % geo.blockSize = (offset + n) % geo.blockSize + i := fun i less => by
      rw [← add_assoc]
      exact add_div_mod (by omega)
    have rest := ih (n := n + c) (by omega) (by omega)
    refine bind (ext2BlockNum_does pointers) ?_
    by_cases hole : m.fileBlock geo inode ((offset + n) / geo.blockSize) = 0
    · rw [if_pos hole]
      have hz : (replicate c (0 : Byte)) = (range c).map fun _ => 0 := by
        rw [map_const', length_range]
      rw [hz, range_map_append]
      · exact rest
      · intro i less
        rw [byteAt, (hp i less).1, if_pos hole]
    · rw [if_neg hole]
      refine bind (look_does (data hole)) ?_
      dsimp only
      rw [range_map_append]
      · exact rest
      · intro i less
        rw [byteAt, (hp i less).1, (hp i less).2, if_neg hole]

def Image.bytesFrom (geo : Geometry) (m : Image) (inode : Bytes) (offset len : Nat) : List Byte :=
  (List.range (min len (iSize.get inode - offset))).map fun i => m.byteAt geo inode (offset + i)

theorem ext2Read_does {ino : Nat} (hs : geo.Sound) (has : geo.HasInode ino)
    (size : iSize.get (m.inode ino) ≤ maxSize) (word : offset + len < 2 ^ 32)
    (hr : Readable geo m (m.inode ino) ((iSize.get (m.inode ino) - 1) / geo.blockSize + 1)) :
    Does geo (ext2Read geo ino offset len) m (.ok (m.bytesFrom geo (m.inode ino) offset len)) m := by
  have pos := hs.blockSize_pos
  refine bind (orStop_does (ext2ReadInode_does hs has)) ?_
  rw [if_neg (Nat.not_lt_of_le size), bytesFrom]
  by_cases past : iSize.get (m.inode ino) ≤ offset
  · rw [if_pos past, Nat.sub_eq_zero_of_le past, Nat.min_zero]
    exact pure
  have cut : (if iSize.get (m.inode ino) < (offset + len) % 2 ^ 32 then
      iSize.get (m.inode ino) - offset else len) = min len (iSize.get (m.inode ino) - offset) := by
    rw [mod_eq_of_lt word]
    split <;> omega
  simp only [if_neg past, cut]
  have hi : offset + min len (iSize.get (m.inode ino) - offset) ≤ iSize.get (m.inode ino) := by
    omega
  refine readLoop_does (n := 0) pos (by omega) (fun k lt => hr k ?_) (Nat.zero_le _) (by omega)
  refine Nat.lt_of_lt_of_le lt (succ_le_succ (Nat.div_le_div_right ?_))
  omega

def holes (inode : Bytes) (lo n : Nat) : Nat :=
  (List.range' lo n).countP fun k => (iBlock k).get inode == 0

theorem holes_succ {lo : Nat} : holes inode lo (n + 1) =
    (if (iBlock lo).get inode = 0 then 1 else 0) + holes inode (lo + 1) n := by
  rw [holes, holes, range'_succ, countP_cons, add_comm]
  simp only [beq_iff_eq]

theorem holes_congr {lo : Nat} (eq : ∀ k, lo ≤ k → (iBlock k).get inode' = (iBlock k).get inode) :
    holes inode' lo n = holes inode lo n :=
  countP_congr fun k mem => by rw [eq k (mem_range'_1.mp mem).1]

structure FileOn (geo : Geometry) (old : Nat → Prop) (m : Image) (inode : Bytes) : Prop where
  data : ∀ k < 12, (iBlock k).get inode ≠ 0 → geo.IsData ((iBlock k).get inode) ∧
    m.used .block ((iBlock k).get inode) = true ∧ ¬ old ((iBlock k).get inode)
  apart : ∀ j < 12, ∀ k < 12, (iBlock j).get inode = (iBlock k).get inode →
    (iBlock j).get inode ≠ 0 → j = k
  free : ∀ b, (geo.numbers .block).Has b → m.used .block b = false → geo.IsData b ∧ ¬ old b

structure Wrote (geo : Geometry) (old : Nat → Prop) (m : Image) (inode : Bytes) (m' : Image)
    (inode' : Bytes) (lo hi : Nat) (src : Nat → Byte) : Prop where
  file : FileOn geo old m' inode'
  inodes : m'.inode = m.inode
  bits : m'.used .inode = m.used .inode
  kept : ∀ b, old b → m'.data b = m.data b
  fields : ∀ f : Field, f.offset + f.width ≤ 40 ∨ 88 ≤ f.offset → f.get inode' = f.get inode
  bytes : ∀ p < 12 * geo.blockSize, m'.byteAt geo inode' p =
    if lo ≤ p ∧ p < hi then src p else m.byteAt geo inode p

section
variable {old : Nat → Prop} {lo mid hi b : Nat} {src : Nat → Byte}

theorem FileOn.wrote (file : FileOn geo old m inode) : Wrote geo old m inode m inode lo lo src where
  file := file
  inodes := rfl
  bits := rfl
  kept _ _ := rfl
  fields _ _ := rfl
  bytes p _ := by rw [if_neg (by omega)]

theorem Wrote.trans (first : Wrote geo old m inode m' inode' lo mid src) {inode'' : Bytes}
    (second : Wrote geo old m' inode' m'' inode'' mid hi src) (low : lo ≤ mid) (high : mid ≤ hi) :
    Wrote geo old m inode m'' inode'' lo hi src where
  file := second.file
  inodes := second.inodes.trans first.inodes
  bits := second.bits.trans first.bits
  kept b owned := (second.kept b owned).trans (first.kept b owned)
  fields f place := (second.fields f place).trans (first.fields f place)
  bytes p small := by
    rw [second.bytes p small, first.bytes p small]
    split_ifs <;> first | rfl | omega

theorem byteAt_direct (lt : p < 12 * geo.blockSize) : m.byteAt geo inode p =
    if (iBlock (p / geo.blockSize)).get inode = 0 then 0
    else m.data ((iBlock (p / geo.blockSize)).get inode) (p % geo.blockSize) := by
  have hd : p / geo.blockSize < 12 := Nat.div_lt_of_lt_mul (by rwa [mul_comm])
  rw [byteAt, fileBlock, if_pos hd]

theorem FileOn.fill (file : FileOn geo old m inode) (hs : geo.Sound) (lt : k < 12)
    {spot : Nat × Nat} (hole : (iBlock k).get inode = 0)
    (hn : m.pick geo .block (range geo.numGroups) = some spot) :
    Wrote geo old m inode ((m.take geo .block spot).2.setData (m.take geo .block spot).1 fun _ => 0)
      ((iBlock k).set inode (m.take geo .block spot).1) lo lo src := by
  obtain ⟨has, clear⟩ := pick_some hs hn
  obtain ⟨hv, free⟩ := file.free _ has clear
  have bits : (m.take geo .block spot).2.used .block =
      update (m.used .block) (m.take geo .block spot).1 true := take_used
  have inodeBits : (m.take geo .block spot).2.used .inode = m.used .inode :=
    take_used_of_ne (by decide)
  have data : (m.take geo .block spot).2.data = m.data := rfl
  have ha : (m.take geo .block spot).2.inode = m.inode := rfl
  generalize (m.take geo .block spot).2 = taken at *
  generalize (m.take geo .block spot).1 = blk at *
  have here : (iBlock k).get ((iBlock k).set inode blk) = blk := get_set hv.1.2
  have other : ∀ j, j ≠ k → (iBlock j).get ((iBlock k).set inode blk) = (iBlock j).get inode :=
    fun j hd => get_set_apart (iBlock_apart_iBlock hd)
  have hf : ∀ j < 12, (iBlock j).get inode ≠ 0 → (iBlock j).get inode ≠ blk :=
    fun j hi hp eq => by
      have hm := (file.data j hi hp).2.1
      rw [eq, clear] at hm
      cases hm
  refine ⟨⟨?_, ?_, ?_⟩, ha, inodeBits, ?_, ?_, ?_⟩
  · intro j hi hp
    rw [setData_used, bits]
    by_cases eq : j = k
    · rw [eq, here, update_self]
      exact ⟨hv, rfl, free⟩
    rw [other j eq] at hp ⊢
    rw [update_of_ne (hf j hi hp)]
    exact file.data j hi hp
  · intro i hc j he eq hp
    by_cases h1 : i = k <;> by_cases h2 : j = k
    · rw [h1, h2]
    · rw [h1, here, other j h2] at eq
      rw [h1, here, eq] at hp
      exact absurd eq.symm (hf j he hp)
    · rw [h2, here, other i h1] at eq
      rw [other i h1] at hp
      exact absurd eq (hf i hc hp)
    · rw [other i h1, other j h2] at eq
      rw [other i h1] at hp
      exact file.apart i hc j he eq hp
  · intro b has clear
    rw [setData_used, bits] at clear
    by_cases eq : b = blk
    · rw [eq, update_self] at clear
      cases clear
    · rw [update_of_ne eq] at clear
      exact file.free b has clear
  · intro b ho
    have hd : b ≠ blk := fun eq => free (eq ▸ ho)
    rw [setData_data, update_of_ne hd, data]
  · intro f hl
    refine get_set_apart ?_
    rw [Field.Apart, iBlock]
    dsimp only
    omega
  · intro p hi
    rw [if_neg (by omega), byteAt_direct hi, byteAt_direct hi]
    by_cases eq : p / geo.blockSize = k
    · rw [eq, here, hole, if_pos rfl, if_neg (ne_of_gt hv.1.1), setData_data, update_self]
    have hdr : p / geo.blockSize < 12 := Nat.div_lt_of_lt_mul (by rwa [mul_comm])
    rw [other _ eq]
    split
    · rfl
    · next hp =>
      rw [setData_data, update_of_ne (hf _ hdr hp), data]

theorem FileOn.overwrite (file : FileOn geo old m inode) {cur c : Nat} {bytes : Bytes}
    (pos : 0 < geo.blockSize) (lt : cur < 12 * geo.blockSize)
    (room : c ≤ geo.blockSize - cur % geo.blockSize)
    (hp : (iBlock (cur / geo.blockSize)).get inode = b) (used : b ≠ 0)
    (source : ∀ i < c, bytes i = src (cur + i)) :
    Wrote geo old m inode (m.setData b (clip geo.blockSize (overlay (m.data b)
      (cur % geo.blockSize) c bytes))) inode cur (cur + c) src := by
  have hd : ∀ p < 12 * geo.blockSize, p / geo.blockSize < 12 :=
    fun p hi => Nat.div_lt_of_lt_mul (by rwa [mul_comm])
  have here := file.data _ (hd cur lt)
  rw [hp] at here
  refine ⟨⟨file.data, file.apart, file.free⟩, rfl, rfl, fun q ho => ?_, fun _ _ => rfl, ?_⟩
  · refine update_of_ne (fun eq => ?_) _ _
    rw [eq] at ho
    exact (here used).2.2 ho
  · intro p hi
    rw [byteAt_direct hi, byteAt_direct hi, setData_data]
    have split := div_add_mod p geo.blockSize
    have splitCur := div_add_mod cur geo.blockSize
    have hw : p % geo.blockSize < geo.blockSize := mod_lt _ pos
    by_cases eq : p / geo.blockSize = cur / geo.blockSize
    · rw [eq] at split
      rw [eq, hp, if_neg used, if_neg used, update_self, clip_of_lt hw]
      by_cases range : cur ≤ p ∧ p < cur + c
      · rw [if_pos range, overlay_inside (by omega) (by omega), source _ (by omega)]
        congr 1
        omega
      · rw [if_neg range, overlay_outside (by omega)]
    · have away : ¬ (cur ≤ p ∧ p < cur + c) := fun range => by
        have hi : p - cur < geo.blockSize - cur % geo.blockSize := by omega
        have block := (add_div_mod hi).1
        rw [Nat.add_sub_cancel' range.1] at block
        exact eq block
      rw [if_neg away]
      split
      · rfl
      · next hn =>
        rw [update_of_ne fun he => eq (file.apart _ (hd p hi) _ (hd cur lt) (he.trans hp.symm) hn)]

end

/-! ### Allocation that does not fail -/

def Image.canAlloc (geo : Geometry) : Nat → Image → Bool
  | 0, _ => true
  | n + 1, m =>
    match m.pick geo .block (List.range geo.numGroups) with
    | none => false
    | some spot => canAlloc geo n (m.take geo .block spot).2

theorem canAlloc_succ (can : canAlloc geo (n + 1) m = true) :
    ∃ spot, m.pick geo .block (range geo.numGroups) = some spot ∧
      canAlloc geo n (m.take geo .block spot).2 = true := by
  rw [canAlloc] at can
  cases hf : m.pick geo .block (range geo.numGroups) with
  | none =>
    rw [hf] at can
    cases can
  | some spot =>
    rw [hf] at can
    exact ⟨spot, rfl, can⟩

theorem canAlloc_congr (bits : m'.used .block = m.used .block) (hc : m'.counters = m.counters) :
    Image.canAlloc geo n m' = Image.canAlloc geo n m := by
  induction n generalizing m m' with
  | zero => rfl
  | succ n ih =>
    have pick : m'.pick geo .block (range geo.numGroups) =
        m.pick geo .block (range geo.numGroups) := by
      rw [Image.pick, Image.pick, bits, hc]
    rw [Image.canAlloc, Image.canAlloc, pick]
    cases m.pick geo .block (range geo.numGroups) with
    | none => rfl
    | some spot =>
      refine ih ?_ ?_
      · rw [Image.take_used, Image.take_used, bits]
        rfl
      · rw [Image.take, Image.take, Image.setCounters_counters, Image.setCounters_counters, hc]

theorem canAlloc_setData {b : Nat} {d : Bytes} :
    canAlloc geo n (m.setData b d) = canAlloc geo n m := canAlloc_congr rfl rfl

section
variable {old : Nat → Prop} {src : Nat → Byte} {buf : List Byte}

theorem blockToWrite_does (file : FileOn geo old m inode) (hs : geo.Sound) (lt : k < 12)
    {n : Nat} (can : canAlloc geo ((if (iBlock k).get inode = 0 then 1 else 0) + n) m = true) :
    ∃ m' inode' b, Does geo (blockToWrite geo inode k) m (.ok (.ready inode' b)) m' ∧
      (iBlock k).get inode' = b ∧ b ≠ 0 ∧ geo.IsData b ∧
      (∀ j, k < j → (iBlock j).get inode' = (iBlock j).get inode) ∧
      (∀ lo src, Wrote geo old m inode m' inode' lo lo src) ∧
      canAlloc geo n m' = true := by
  have number : Does geo (ext2BlockNum geo inode k) m (.ok ((iBlock k).get inode)) m := by
    have hd : m.fileBlock geo inode k = (iBlock k).get inode := by
      rw [fileBlock, if_pos lt]
    rw [← hd]
    refine ext2BlockNum_does fun q mem => ?_
    rw [pointers, if_pos lt] at mem
    cases mem
  by_cases hole : (iBlock k).get inode = 0
  · rw [if_pos hole, add_comm] at can
    obtain ⟨spot, hf, can⟩ := canAlloc_succ can
    obtain ⟨has, clear⟩ := pick_some hs hf
    have hv := (file.free _ has clear).1
    have ht := ext2AllocBlock_does (m := m) hs
    rw [alloc, hf] at ht
    have hz : clip geo.blockSize (fun _ => 0) = fun _ => 0 := by
      funext i
      rw [clip]
      split <;> rfl
    have hc := change_does (m := (m.take geo .block spot).2) hs hv (f := fun _ => some fun _ => 0)
    simp only [hz] at hc
    refine ⟨_, _, _, bind number ?_, get_set hv.1.2, ne_of_gt hv.1.1, hv,
      fun j hl => get_set_apart (iBlock_apart_iBlock (by omega)),
      fun lo src => file.fill hs lt hole hf, ?_⟩
    · rw [hole, if_neg (by simp), if_neg (Nat.not_le_of_lt lt)]
      refine bind ht ?_
      rw [if_neg (ne_of_gt hv.1.1)]
      exact bind hc pure
    · rw [canAlloc_setData]
      exact can
  · rw [if_neg hole, zero_add] at can
    refine ⟨m, inode, _, bind number ?_, rfl, hole, (file.data k lt hole).1, fun _ _ => rfl,
      fun lo src => file.wrote, can⟩
    rw [if_pos hole]
    exact pure

def bufferAt (buf : List Byte) (offset : Nat) : Nat → Byte := fun p => ofList buf (p - offset)

theorem writeLoop_does (file : FileOn geo old m inode) (hs : geo.Sound)
    (fits : offset + buf.length ≤ 12 * geo.blockSize) {w : Nat} (start : w ≤ buf.length)
    (hn : buf.length < turns + w)
    (can : w < buf.length → canAlloc geo (holes inode ((offset + w) / geo.blockSize)
      ((offset + buf.length - 1) / geo.blockSize + 1 - (offset + w) / geo.blockSize)) m = true) :
    ∃ m' inode', Does geo (writeLoop geo buf offset turns inode w) m
        (.ok (inode', buf.length, false)) m' ∧
      Wrote geo old m inode m' inode' (offset + w) (offset + buf.length)
        (bufferAt buf offset) := by
  have pos := hs.blockSize_pos
  have hb := hs.blockSize_bounds
  induction turns generalizing m inode w with
  | zero => omega
  | succ turns ih =>
    rw [writeLoop]
    by_cases done : buf.length ≤ w
    · obtain rfl : w = buf.length := Nat.le_antisymm start done
      rw [if_pos done]
      exact ⟨m, inode, pure, file.wrote⟩
    have hr : w < buf.length := Nat.lt_of_not_le done
    simp only [if_neg done, mod_eq_of_lt (by omega : offset + w < 2 ^ 32)]
    generalize chunk : min (geo.blockSize - (offset + w) % geo.blockSize) (buf.length - w) = c
    have room : (offset + w) % geo.blockSize < geo.blockSize := mod_lt _ pos
    have lt : (offset + w) / geo.blockSize < 12 :=
      Nat.div_lt_of_lt_mul (by rw [Nat.mul_comm]; omega)
    have last : (offset + w) / geo.blockSize ≤ (offset + buf.length - 1) / geo.blockSize :=
      Nat.div_le_div_right (by omega)
    have count : (offset + buf.length - 1) / geo.blockSize + 1 - (offset + w) / geo.blockSize =
        (offset + buf.length - 1) / geo.blockSize - (offset + w) / geo.blockSize + 1 := by omega
    have he := can hr
    rw [count, holes_succ] at he
    obtain ⟨m₁, inode₁, b, got, hp, used, hv, hl, hw₁, can₁⟩ := blockToWrite_does file hs lt he
    have hc := change_does (m := m₁) hs hv (f := fun d =>
      some (overlay d ((offset + w) % geo.blockSize) c (view (ofList buf) w)))
    have source : ∀ i < c, view (ofList buf) w i =
        bufferAt buf offset (offset + w + i) := fun i _ => by
      rw [view, bufferAt]
      congr 1
      omega
    have hw₂ := (hw₁ (offset + w) (bufferAt buf offset)).file.overwrite (c := c) pos
      (by omega : offset + w < 12 * geo.blockSize) (by omega) hp used source
    obtain ⟨m₂, inode₂, rest, hw₃⟩ := ih hw₂.file (by omega : w + c ≤ buf.length)
      (by omega) fun more => by
        have next : (offset + (w + c)) / geo.blockSize = (offset + w) / geo.blockSize + 1 := by
          have split := div_add_mod (offset + w) geo.blockSize
          have hh : offset + (w + c) = geo.blockSize * ((offset + w) / geo.blockSize + 1) := by
            rw [mul_succ]
            omega
          rw [hh, Nat.mul_div_cancel_left _ pos]
        rw [next, canAlloc_setData, holes_congr fun k low => hl k low]
        have eq : (offset + buf.length - 1) / geo.blockSize + 1 -
            ((offset + w) / geo.blockSize + 1) =
            (offset + buf.length - 1) / geo.blockSize - (offset + w) / geo.blockSize := by omega
        rw [eq]
        exact can₁
    refine ⟨m₂, inode₂, bind got (bind hc rest), ?_⟩
    rw [← Nat.add_assoc] at hw₃
    exact ((hw₁ (offset + w) _).trans hw₂ (Nat.le_refl _) (by omega)).trans hw₃
      (by omega) (by omega)

theorem setSize_iSize {size : Nat} (word : size < 2 ^ 32) :
    iSize.get (setSize inode size) = size := by
  rw [setSize, get_set_apart (.inl (by decide))]
  exact get_set word

theorem setSize_iBlock {size : Nat} : (iBlock k).get (setSize inode size) = (iBlock k).get inode := by
  rw [setSize, get_set_apart (iBlock_apart (by decide)), get_set_apart (iBlock_apart (by decide))]

theorem ext2Write_does {ino : Nat} (file : FileOn geo old m (m.inode ino)) (hs : geo.Sound)
    (has : geo.HasInode ino) (fits : offset + buf.length ≤ 12 * geo.blockSize)
    (some : 0 < buf.length)
    (can : canAlloc geo (holes (m.inode ino) (offset / geo.blockSize)
      ((offset + buf.length - 1) / geo.blockSize + 1 - offset / geo.blockSize)) m = true) :
    ∃ m' inode', Does geo (ext2Write geo ino buf offset) m (.ok buf.length)
        (m'.setInode ino (if iSize.get (m.inode ino) < offset + buf.length then
          setSize inode' (offset + buf.length) else inode')) ∧
      Wrote geo old m (m.inode ino) m' inode' offset (offset + buf.length)
        (bufferAt buf offset) := by
  have hb := hs.blockSize_bounds
  obtain ⟨m', inode', loop, hw⟩ := writeLoop_does file hs fits
    (zero_le _) (lt_succ_self buf.length) fun _ => can
  refine ⟨m', inode', ?_, hw⟩
  rw [ext2Write, if_neg (ne_of_gt some)]
  refine bind (orStop_does (ext2ReadInode_does hs has)) (bind loop ?_)
  have size : iSize.get inode' = iSize.get (m.inode ino) := hw.fields _ (.inl (by decide))
  simp only [Bool.false_eq_true, if_false]
  rw [mod_eq_of_lt (by omega : offset + buf.length < 2 ^ 32), size]
  exact bind (ignore_does (ext2WriteInode_does hs has)) pure

end

end

end Aegis.Ext2
