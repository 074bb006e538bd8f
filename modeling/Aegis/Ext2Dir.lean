import Aegis.Ext2Image
import Aegis.RecordChain

/-! Directories of an ext2 volume: `ext2_dir_add_entry`, `ext2_dir_remove_entry`,
`ext2_readdir` and the search for a component in `ext2_open_ex`. All four walk the records of a
block by `rec_len` and give up at a record that is too short or leaves the block. -/

namespace Aegis.Ext2

open List hiding Chain
open ByteMemory BlockProgram RecordChain
open ByteLayout (Byte)

abbrev Name := List Byte

structure Dirent where
  inode : Nat
  recLen : Nat
  fileType : Nat
  name : Name
  deriving DecidableEq

def direntAt (d : Bytes) (p : Nat) : Dirent where
  inode := readLe d 4 p
  recLen := readLe d 2 (p + 4)
  fileType := readLe d 1 (p + 7)
  name := (range (readLe d 1 (p + 6))).map fun k => d (p + 8 + k)

def direntSize (nameLen : Nat) : Nat := (8 + nameLen + 3) / 4 * 4

def Dirent.Fits (r : Dirent) : Prop := direntSize r.name.length ≤ r.recLen ∧ r.recLen % 4 = 0
  deriving Decidable

theorem direntSize_ge (n : Nat) : 8 + n ≤ direntSize n := by
  rw [direntSize]
  omega

@[simp] theorem direntAt_name_length (d : Bytes) (p : Nat) :
    (direntAt d p).name.length = readLe d 1 (p + 6) := by
  simp [direntAt]

theorem direntAt_congr {d d' : Bytes} {p : Nat}
    (eq : ∀ i, p ≤ i → i < p + 8 + (direntAt d p).name.length → d' i = d i) :
    direntAt d' p = direntAt d p := by
  rw [direntAt_name_length] at eq
  have field : ∀ width offset, offset + width ≤ 8 →
      readLe d' width (p + offset) = readLe d width (p + offset) :=
    fun width offset room => readLe_congr fun i low high => eq i (by omega) (by omega)
  have inode := field 4 0 (by decide)
  have recLen := field 2 4 (by decide)
  have fileType := field 1 7 (by decide)
  have nameLen := field 1 6 (by decide)
  rw [add_zero] at inode
  simp only [direntAt, Dirent.mk.injEq]
  refine ⟨inode, recLen, fileType, ?_⟩
  rw [nameLen]
  refine map_congr_left fun k mem => eq _ (by omega) ?_
  have hi := mem_range.mp mem
  omega

def direntFormat : Format Dirent where
  read := direntAt
  len := Dirent.recLen
  Ok := Dirent.Fits
  frame d d' p fits same := direntAt_congr fun i low high => same i low <| by
    have size := Nat.le_trans (direntSize_ge _) fits.1
    omega

def scanDirents {σ β : Type} (bs : Nat) (d : Bytes) (header : Nat)
    (step : σ → Nat → Dirent → σ ⊕ β) (s : σ) (p : Nat) : σ ⊕ β :=
  scan direntFormat d header 8 bs step bs s p

/-! ### Writing entries -/

def putEntry (d : Bytes) (p child : Nat) (name : Name) (fileType : Nat) : Bytes :=
  overlay (writeLe (writeLe (writeLe d 4 p child) 1 (p + 6) name.length) 1 (p + 7) fileType)
    (p + 8) name.length (ofList name)

def setRecLen (d : Bytes) (p len : Nat) : Bytes := writeLe d 2 (p + 4) len

/-- A record has room if it is not in use, or if it can be split. The differences are unsigned
16-bit numbers. -/
def addStep (d : Bytes) (child : Nat) (name : Name) (fileType : Nat) (_ : Unit) (p : Nat)
    (r : Dirent) : Unit ⊕ Bytes :=
  let needed := direntSize name.length
  let actual := direntSize r.name.length
  let freeSpace := (r.recLen + 65536 - actual) % 65536
  if r.inode = 0 then
    if needed ≤ r.recLen then .inr (putEntry d p child name fileType) else .inl ()
  else if needed ≤ freeSpace then
    .inr (setRecLen (setRecLen (putEntry d (p + actual) child name fileType) (p + actual)
      freeSpace) p actual)
  else .inl ()

def addInBlock (bs : Nat) (d : Bytes) (child : Nat) (name : Name) (fileType : Nat) : Option Bytes :=
  (scanDirents bs d 1 (addStep d child name fileType) () 0).getRight?

def freshDirBlock (bs child : Nat) (name : Name) (fileType : Nat) : Bytes :=
  setRecLen (putEntry (fun _ => 0) 0 child name fileType) 0 (bs % 65536)

/-- The record with the name is merged into the one before it; the first record of a block is
marked unused instead. -/
def removeStep (d : Bytes) (name : Name) (prev : Option Nat) (p : Nat) (r : Dirent) :
    Option Nat ⊕ Bytes :=
  if r.inode ≠ 0 ∧ r.name = name then
    match prev with
    | some q => .inr (setRecLen d q (((direntAt d q).recLen + r.recLen) % 65536))
    | none => .inr (writeLe d 4 p 0)
  else .inl (some p)

def removeInBlock (bs : Nat) (d : Bytes) (name : Name) : Option Bytes :=
  (scanDirents bs d 1 (removeStep d name) none 0).getRight?

section
variable (geo : Geometry)

def Geometry.dirTurns (size : Nat) : Nat := size / geo.blockSize + 2

/-- The loop over the blocks of a directory in `ext2_dir_remove_entry` and `ext2_readdir`. -/
def overDirBlocks {σ β : Type} (dir : Bytes) (visit : σ → Nat → Fs (σ ⊕ β)) :
    Nat → σ → Nat → Nat → Fs (σ ⊕ β)
  | 0, _, _, _ => fail .hangs
  | turns + 1, s, pos, index =>
    if iSize.get dir ≤ pos then pure (.inl s)
    else do
      let blk ← ext2BlockNum geo dir index
      if blk = 0 then
        overDirBlocks dir visit turns s ((pos + geo.blockSize) % 2 ^ 32) (index + 1)
      else
        match ← visit s blk with
        | .inl s => overDirBlocks dir visit turns s ((pos + geo.blockSize) % 2 ^ 32) (index + 1)
        | .inr b => pure (.inr b)

def growDir (dir : Bytes) (index blk : Nat) : Bytes :=
  let dir := (iBlock index).set dir blk
  let dir := iSize.set dir ((iSize.get dir + geo.blockSize) % 2 ^ 32)
  iBlocks.set dir ((iBlocks.get dir + geo.blockSize / 512) % 2 ^ 32)

def addLoop (dirIno : Nat) (dir : Bytes) (child : Nat) (name : Name) (fileType : Nat) :
    Nat → Nat → Nat → Fs Unit
  | 0, _, _ => fail .hangs
  | turns + 1, pos, index =>
    if iSize.get dir < pos then fail failed
    else if pos = iSize.get dir then do
      let blk ← ext2AllocBlock geo 0
      if blk = 0 then fail failed
      else if 12 ≤ index then fail failed
      else
        let dir := growDir geo dir index blk
        match ← change blk fun _ => some (freshDirBlock geo.blockSize child name fileType) with
        | none => fail failed
        | some _ => ignore (ext2WriteInode geo dirIno dir)
    else do
      let blk ← ext2BlockNum geo dir index
      if blk = 0 then
        addLoop dirIno dir child name fileType turns ((pos + geo.blockSize) % 2 ^ 32) (index + 1)
      else
        match ← change blk fun d => addInBlock geo.blockSize d child name fileType with
        | none => fail failed
        | some d =>
          if (addInBlock geo.blockSize d child name fileType).isSome then
            ignore (ext2WriteInode geo dirIno dir)
          else
            addLoop dirIno dir child name fileType turns ((pos + geo.blockSize) % 2 ^ 32)
              (index + 1)

def eNameTooLong : Stop := .code (-36)

def ext2DirAddEntry (dirIno child : Nat) (name : Name) (fileType : Nat) : Fs Unit := do
  let dir ← orStop (ext2ReadInode geo dirIno) failed
  if name.length = 0 ∨ 255 < name.length then fail eNameTooLong
  else addLoop geo dirIno dir child name fileType (geo.dirTurns (iSize.get dir)) 0 0

def removeVisit (name : Name) (_ : Unit) (blk : Nat) : Fs (Unit ⊕ Unit) := do
  match ← change blk fun d => removeInBlock geo.blockSize d name with
  | none => fail failed
  | some d => pure (if (removeInBlock geo.blockSize d name).isSome then .inr () else .inl ())

/-- The length of the name is counted in 8 bits: the count never ends for a longer name. -/
def ext2DirRemoveEntry (dirIno : Nat) (name : Name) : Fs Unit := do
  let dir ← orStop (ext2ReadInode geo dirIno) failed
  if 255 < name.length then fail .hangs
  else
    match ← overDirBlocks geo dir (removeVisit geo name) (geo.dirTurns (iSize.get dir)) () 0 0 with
    | .inl _ => fail failed
    | .inr _ => pure ()

def ftDir : Nat := 2

def ftLink : Nat := 7

def direntType (fileType : Nat) : Nat :=
  if fileType = ftDir then 4 else if fileType = ftLink then 10 else 8

def readdirStep (index count : Nat) (_ : Nat) (r : Dirent) : Nat ⊕ (Name × Nat) :=
  if r.inode ≠ 0 then
    if count = index then .inr (r.name, direntType r.fileType) else .inl (count + 1)
  else .inl count

def readdirVisit (index count blk : Nat) : Fs (Nat ⊕ (Name × Nat)) := do
  match ← look blk with
  | none => fail failed
  | some d => pure (scanDirents geo.blockSize d 8 (readdirStep index) count 0)

def ext2Readdir (dirIno index : Nat) : Fs (Name × Nat) := do
  let dir ← orStop (ext2ReadInode geo dirIno) failed
  if fileKind dir ≠ kindDir then fail failed
  else
    match ← overDirBlocks geo dir (readdirVisit geo index) (geo.dirTurns (iSize.get dir)) 0 0 0 with
    | .inl _ => fail failed
    | .inr entry => pure entry

def searchStep (name : Name) (_ p : Nat) (r : Dirent) : Nat ⊕ Nat :=
  if r.inode ≠ 0 ∧ r.name = name then .inr r.inode else .inl (p + r.recLen)

/-- The search for a component in `ext2_open_ex`, in a directory that was read: the position
moves along with the record, and to the end of the block after the last one. -/
def searchLoop (dir : Bytes) (name : Name) : Nat → Nat → Fs (Option Nat)
  | 0, _ => fail .hangs
  | turns + 1, pos =>
    if iSize.get dir ≤ pos then pure none
    else do
      let fileBlock := pos / geo.blockSize
      let blk ← ext2BlockNum geo dir fileBlock
      if blk = 0 then pure none
      else
        match ← look blk with
        | none => fail failed
        | some d =>
          let start := pos % geo.blockSize
          match scanDirents geo.blockSize d 1 (searchStep name) start start with
          | .inr child => pure (some child)
          | .inl stop =>
            let pos := (pos + (stop - start)) % 2 ^ 32
            let blockEnd := (fileBlock + 1) * geo.blockSize % 2 ^ 32
            searchLoop dir name turns (if pos < blockEnd then blockEnd else pos)

def searchDir (dir : Bytes) (name : Name) : Fs (Option Nat) :=
  searchLoop geo dir name (geo.dirTurns (iSize.get dir)) 0

end

/-! ### One block

What the writers do to a block that is exactly tiled by records: it stays tiled, and one entry is
added or removed. -/

section
open List hiding Chain
open ByteMemory BlockProgram RecordChain Dirent
open ByteLayout (Byte)

structure Entry where
  name : Name
  inode : Nat
  fileType : Nat
  deriving DecidableEq

def Dirent.entry (r : Dirent) : Entry := ⟨r.name, r.inode, r.fileType⟩

def live (rs : List Dirent) : List Entry := (rs.filter fun r => r.inode ≠ 0).map Dirent.entry

def direntsOf (bs : Nat) (d : Bytes) : List Dirent :=
  match scanDirents bs d 1 (fun rs _ r => (.inl (rs ++ [r]) : List Dirent ⊕ Empty)) [] 0 with
  | .inl rs => rs

def Tiled (bs : Nat) (d : Bytes) : Prop := Chain direntFormat d 0 (direntsOf bs d) bs

instance : DecidablePred direntFormat.Ok := fun r => inferInstanceAs (Decidable r.Fits)

instance (bs : Nat) (d : Bytes) : Decidable (Tiled bs d) :=
  inferInstanceAs (Decidable (Chain _ _ _ _ _))

section
variable {bs p q child fileType len : Nat} {d d' : Bytes} {name : Name} {r : Dirent}
  {rs before after : List Dirent}

@[simp] theorem live_nil : live [] = [] := rfl

@[simp] theorem live_append : live (rs ++ after) = live rs ++ live after := by
  simp [live]

theorem live_cons_of_ne (used : r.inode ≠ 0) : live (r :: rs) = r.entry :: live rs := by
  simp [live, used]

theorem live_cons_of_eq (hu : r.inode = 0) : live (r :: rs) = live rs := by
  simp [live, hu]

@[simp] theorem direntFormat_read : direntFormat.read = direntAt := rfl

@[simp] theorem direntFormat_len : direntFormat.len r = r.recLen := rfl

@[simp] theorem direntFormat_ok : direntFormat.Ok r ↔ r.Fits := Iff.rfl

theorem fits_len (fits : r.Fits) : 8 ≤ r.recLen :=
  le_trans (le_trans (Nat.le_add_right 8 _) (direntSize_ge r.name.length)) fits.1

theorem ok_len (r : Dirent) (ok : direntFormat.Ok r) : 0 < direntFormat.len r :=
  lt_of_lt_of_le (by decide) (fits_len ok)

theorem scanDirents_chain {σ β : Type} {step : σ → Nat → Dirent → σ ⊕ β} {s : σ} {header : Nat}
    (hc : Chain direntFormat d p rs bs) (some : 0 < header) (lt : header ≤ 8) :
    scanDirents bs d header step s p = scanList direntFormat step s p rs := by
  refine scan_chain hc ?_ some fun r ok => ?_
  · have hb := hc.length_le ok_len
    omega
  · have hl := fits_len ok
    exact ⟨le_trans lt hl, hl⟩

section
variable (hc : Chain direntFormat d 0 rs bs)
include hc

theorem direntsOf_chain : direntsOf bs d = rs := by
  have loop : ∀ (rs acc : List Dirent) (p : Nat), scanList direntFormat
      (fun rs _ r => (.inl (rs ++ [r]) : List Dirent ⊕ Empty)) acc p rs = .inl (acc ++ rs) := by
    intro rs
    induction rs with
    | nil => exact fun acc p => by simp [scanList]
    | cons r rs ih => exact fun acc p => by simp [scanList, ih]
  rw [direntsOf, scanDirents_chain hc (by decide) (by decide), loop]
  rfl

theorem tiled_of_chain : Tiled bs d := by
  rw [Tiled, direntsOf_chain hc]
  exact hc

theorem Chain.clip : Chain direntFormat (clip bs d) 0 rs bs :=
  hc.congr fun _ _ high => clip_of_lt high

end

theorem direntAt_setRecLen (lt : len < 65536) :
    direntAt (setRecLen d p len) p = { direntAt d p with recLen := len } := by
  simp only [direntAt, setRecLen, mk.injEq]
  have hn : readLe (writeLe d 2 (p + 4) len) 1 (p + 6) = readLe d 1 (p + 6) :=
    readLe_writeLe_apart (by omega)
  refine ⟨readLe_writeLe_apart (by omega), readLe_writeLe_of_lt lt,
    readLe_writeLe_apart (by omega), ?_⟩
  rw [hn]
  exact map_congr_left fun k _ => overlay_outside (by omega)

theorem direntAt_unused : direntAt (writeLe d 4 p 0) p = { direntAt d p with inode := 0 } := by
  simp only [direntAt, mk.injEq]
  have hn : readLe (writeLe d 4 p 0) 1 (p + 6) = readLe d 1 (p + 6) :=
    readLe_writeLe_apart (by omega)
  refine ⟨readLe_writeLe_of_lt (by decide), readLe_writeLe_apart (by omega),
    readLe_writeLe_apart (by omega), ?_⟩
  rw [hn]
  exact map_congr_left fun k _ => overlay_outside (by omega)

theorem map_ofList (l : List Byte) : (range l.length).map (ofList l) = l := by
  refine ext_getElem (by simp) fun i _ hi => ?_
  simp [ofList, hi]

theorem direntAt_putEntry (word : child < 2 ^ 32) (hs : name.length < 256) (type : fileType < 256) :
    direntAt (putEntry d p child name fileType) p =
      ⟨child, (direntAt d p).recLen, fileType, name⟩ := by
  have field : ∀ width offset, offset + width ≤ 8 →
      readLe (putEntry d p child name fileType) width (p + offset) =
        readLe (writeLe (writeLe (writeLe d 4 p child) 1 (p + 6) name.length) 1 (p + 7) fileType)
          width (p + offset) :=
    fun width offset room => readLe_overlay_apart (by omega)
  have inode := field 4 0 (by decide)
  rw [add_zero] at inode
  simp only [direntAt, mk.injEq]
  refine ⟨?_, ?_, ?_, ?_⟩
  · rw [inode, readLe_writeLe_apart (by omega), readLe_writeLe_apart (by omega),
      readLe_writeLe_of_lt word]
  · rw [field 2 4 (by decide), readLe_writeLe_apart (by omega), readLe_writeLe_apart (by omega),
      readLe_writeLe_apart (by omega)]
  · rw [field 1 7 (by decide), readLe_writeLe_of_lt type]
  rw [field 1 6 (by decide), readLe_writeLe_apart (by omega), readLe_writeLe_of_lt hs]
  refine Eq.trans (map_congr_left fun k mem => ?_) (map_ofList name)
  exact overlay_add (mem_range.mp mem)

theorem putEntry_outside (ha : q < p ∨ p + 8 + name.length ≤ q) :
    putEntry d p child name fileType q = d q := by
  rw [putEntry, overlay_outside (by omega), writeLe, overlay_outside (by omega), writeLe,
    overlay_outside (by omega), writeLe, overlay_outside (by omega)]

theorem setRecLen_outside (ha : q < p + 4 ∨ p + 6 ≤ q) : setRecLen d p len q = d q :=
  overlay_outside (by omega)

def Unnamed (name : Name) (rs : List Dirent) : Prop :=
  ∀ r ∈ rs, ¬ (r.inode ≠ 0 ∧ r.name = name)

theorem unnamed_iff : Unnamed name rs ↔ name ∉ (live rs).map Entry.name := by
  simp only [Unnamed, live, entry, map_map, mem_map, mem_filter,
    decide_eq_true_eq, Function.comp_apply, not_exists]
  exact ⟨fun hu r hf => hu r hf.1.1 ⟨hf.1.2, hf.2⟩, fun ha r mem hf => ha r ⟨⟨mem, hf.1⟩, hf.2⟩⟩

theorem unnamed_or_first (name : Name) (rs : List Dirent) : Unnamed name rs ∨
    ∃ before r after, rs = before ++ r :: after ∧ Unnamed name before ∧ r.inode ≠ 0 ∧
      r.name = name := by
  cases hf : rs.find? fun r => r.inode ≠ 0 ∧ r.name = name with
  | none =>
    refine .inl fun r mem hn => ?_
    simpa [hn.1, hn.2] using find?_eq_none.mp hf r mem
  | some r =>
    obtain ⟨hn, before, after, split, he⟩ := find?_eq_some_iff_append.mp hf
    refine .inr ⟨before, r, after, split, fun r mem hn => ?_, ?_⟩
    · simpa [hn.1, hn.2] using he r mem
    · simpa using hn

theorem removeStep_unnamed (hu : Unnamed name rs) (prev : Option Nat) (p : Nat) :
    ∃ s, scanList direntFormat (removeStep d name) prev p rs = .inl s := by
  induction rs generalizing prev p with
  | nil => exact ⟨prev, rfl⟩
  | cons r rs ih =>
    have here : removeStep d name prev p r = .inl (some p) := if_neg (hu r mem_cons_self)
    rw [scanList, here]
    exact ih (fun r mem => hu r (mem_cons_of_mem _ mem)) _ _

theorem removeInBlock_none (hc : Chain direntFormat d 0 rs bs) (hu : Unnamed name rs) :
    removeInBlock bs d name = none := by
  obtain ⟨s, hp⟩ := removeStep_unnamed (d := d) hu none 0
  rw [removeInBlock, scanDirents_chain hc (by decide) (by decide), hp]
  rfl

theorem removeInBlock_some (hc : Chain direntFormat d 0 (before ++ r :: after) bs)
    (lt : bs < 65536) (hu : Unnamed name before) (used : r.inode ≠ 0)
    (hn : r.name = name) :
    ∃ d' rs, removeInBlock bs d name = some d' ∧ Chain direntFormat d' 0 rs bs ∧
      live rs = live before ++ live after := by
  have hs : removeInBlock bs d name =
      (scanList direntFormat (removeStep d name) none 0 (before ++ r :: after)).getRight? := by
    rw [removeInBlock, scanDirents_chain hc (by decide) (by decide)]
  rcases eq_nil_or_concat before with rfl | ⟨front, q, rfl⟩
  · -- the first record of the block
    obtain ⟨rfl, fits, rest⟩ := hc
    refine ⟨writeLe d 4 0 0, { direntAt d 0 with inode := 0 } :: after, ?_, ?_, ?_⟩
    · have here : removeStep d name none 0 (direntAt d 0) = .inr (writeLe d 4 0 0) :=
        if_pos ⟨used, hn⟩
      rw [hs, nil_append, scanList, direntFormat]
      simp only [here]
      rfl
    · refine ⟨direntAt_unused, fits, rest.congr fun i low _ => overlay_outside (.inr ?_)⟩
      have hl := fits_len fits
      simp only [direntFormat_len] at low hl
      omega
    · rw [live_cons_of_eq rfl]
      rfl
  · -- the record before it grows
    rw [concat_eq_append] at hc hu hs ⊢
    have split : front ++ [q] ++ r :: after = front ++ [q, r] ++ after := by simp
    have he : Unnamed name front := fun r mem => hu r (mem_append_left _ mem)
    obtain ⟨hp, front_inl⟩ := removeStep_unnamed (d := d) he none 0
    have last : ∀ prev p, removeStep d name prev p q = .inl (some p) := fun prev p =>
      if_neg (hu q (mem_append_right _ mem_cons_self))
    have records := hc
    rw [split] at records
    obtain ⟨start, -⟩ := chain_append.mp (chain_append.mp records).1
    obtain ⟨-, middle⟩ := chain_append.mp (chain_append.mp records).1
    obtain ⟨atQ, hf, atR, ht, stop⟩ := middle
    have hb := (chain_append.mp records).2.end_eq
    have lenQ := fits_len hf
    have lenR := fits_len ht
    have hw : (q.recLen + r.recLen) % 65536 = q.recLen + r.recLen := by
      refine Nat.mod_eq_of_lt ?_
      simp at hb
      omega
    rw [zero_add] at atQ
    refine ⟨setRecLen d (total direntFormat front) (q.recLen + r.recLen),
      front ++ [{ q with recLen := q.recLen + r.recLen }] ++ after, ?_, ?_, ?_⟩
    · rw [hs, append_assoc, scanList_append, front_inl]
      simp only [singleton_append, scanList, last, zero_add]
      have here : removeStep d name (some (total direntFormat front))
          (total direntFormat front + direntFormat.len q) r =
          .inr (setRecLen d (total direntFormat front) (q.recLen + r.recLen)) := by
        rw [removeStep, if_pos ⟨used, hn⟩, ← direntFormat_read, atQ, hw]
      rw [here]
      rfl
    · refine records.replace (fun i hd => ?_) ?_
      · refine setRecLen_outside ?_
        simp only [total_cons, total_nil, direntFormat_len] at hd
        omega
      · rw [zero_add]
        refine ⟨?_, ⟨le_trans hf.1 (Nat.le_add_right _ _), ?_⟩, ?_⟩
        · rw [direntFormat_read, direntAt_setRecLen (by omega), ← direntFormat_read, atQ]
        · have alignQ := hf.2
          have alignR := ht.2
          simp only
          omega
        · simp [Chain]
    · have ha : live [{ q with recLen := q.recLen + r.recLen }] = live [q] := by
        by_cases hg : q.inode = 0 <;> simp [live, entry, hg]
      rw [live_append, live_append, live_append, ha]

def Dirent.Room (n : Nat) (r : Dirent) : Prop :=
  if r.inode = 0 then n ≤ r.recLen else n + direntSize r.name.length ≤ r.recLen
  deriving Decidable

theorem freeSpace_eq (fits : r.Fits) (lt : r.recLen < 65536) :
    (r.recLen + 65536 - direntSize r.name.length) % 65536 =
      r.recLen - direntSize r.name.length := by
  have hi := fits.1
  omega

theorem addStep_full (fits : r.Fits) (lt : r.recLen < 65536)
    (full : ¬ r.Room (direntSize name.length)) :
    addStep d child name fileType () p r = .inl () := by
  rw [Dirent.Room] at full
  simp only [addStep, freeSpace_eq fits lt]
  have hi := fits.1
  split
  · next hu =>
    rw [if_pos hu] at full
    rw [if_neg full]
  · next used =>
    rw [if_neg used] at full
    rw [if_neg (by omega)]

theorem addStep_unused (unused : r.inode = 0) (room : direntSize name.length ≤ r.recLen) :
    addStep d child name fileType () p r = .inr (putEntry d p child name fileType) := by
  simp only [addStep, if_pos unused, if_pos room]

/-- A record in use keeps the space of its own name; the rest becomes a record of its own. -/
def splitDirent (d : Bytes) (p : Nat) (r : Dirent) (child : Nat) (name : Name) (fileType : Nat) :
    Bytes :=
  setRecLen (setRecLen (putEntry d (p + direntSize r.name.length) child name fileType)
    (p + direntSize r.name.length) (r.recLen - direntSize r.name.length)) p
    (direntSize r.name.length)

theorem addStep_splits (fits : r.Fits) (lt : r.recLen < 65536) (used : r.inode ≠ 0)
    (room : direntSize name.length + direntSize r.name.length ≤ r.recLen) :
    addStep d child name fileType () p r = .inr (splitDirent d p r child name fileType) := by
  simp only [addStep, if_neg used, freeSpace_eq fits lt]
  rw [if_pos (by omega), splitDirent]

theorem addStep_all_full (hc : Chain direntFormat d 0 (before ++ after) bs) (lt : bs < 65536)
    (full : ∀ r ∈ before, ¬ r.Room (direntSize name.length)) (p : Nat) :
    scanList direntFormat (addStep d child name fileType) () p before = .inl () := by
  have all : ∀ r ∈ before, r.Fits ∧ r.recLen < 65536 ∧ ¬ r.Room (direntSize name.length) := by
    intro r mem
    obtain ⟨fits, hi⟩ := hc.of_mem (mem_append_left _ mem)
    rw [direntFormat_len] at hi
    exact ⟨fits, by omega, full r mem⟩
  clear hc full
  induction before generalizing p with
  | nil => rfl
  | cons r rs ih =>
    obtain ⟨fits, lt, full⟩ := all r mem_cons_self
    rw [scanList, addStep_full fits lt full]
    exact ih _ fun r mem => all r (mem_cons_of_mem _ mem)

theorem addInBlock_none (hc : Chain direntFormat d 0 rs bs) (lt : bs < 65536)
    (full : ∀ r ∈ rs, ¬ r.Room (direntSize name.length)) :
    addInBlock bs d child name fileType = none := by
  rw [addInBlock, scanDirents_chain hc (by decide) (by decide)]
  rw [← append_nil rs] at hc
  rw [addStep_all_full hc lt full]
  rfl

theorem addInBlock_first {d' : Bytes} (hc : Chain direntFormat d 0 (before ++ r :: after) bs)
    (lt : bs < 65536) (full : ∀ r ∈ before, ¬ r.Room (direntSize name.length))
    (here : addStep d child name fileType () (total direntFormat before) r = .inr d') :
    addInBlock bs d child name fileType = some d' := by
  rw [addInBlock, scanDirents_chain hc (by decide) (by decide), scanList_append,
    addStep_all_full hc lt full]
  simp only [scanList, zero_add, here]
  rfl

section
variable (word : child < 2 ^ 32) (short : name.length < 256) (type : fileType < 256)
include word short type

theorem putEntry_chain (hc : Chain direntFormat d 0 (before ++ r :: after) bs)
    (room : direntSize name.length ≤ r.recLen) :
    Chain direntFormat (putEntry d (total direntFormat before) child name fileType) 0
      (before ++ [⟨child, r.recLen, fileType, name⟩] ++ after) bs := by
  rw [append_cons] at hc
  obtain ⟨atR, fits, -⟩ := (chain_append.mp (chain_append.mp hc).1).2
  have size := direntSize_ge name.length
  refine hc.replace (fun i he => putEntry_outside ?_) ?_
  · simp only [total_cons, total_nil, direntFormat_len] at he
    omega
  rw [zero_add] at atR ⊢
  refine ⟨?_, ⟨room, fits.2⟩, by simp [Chain]⟩
  rw [direntFormat_read, direntAt_putEntry word short type, ← direntFormat_read, atR]

/-- The record before the new one reads as it did, but for its length. -/
theorem splitDirent_chain (hc : Chain direntFormat d 0 (before ++ r :: after) bs)
    (room : direntSize name.length + direntSize r.name.length ≤ r.recLen) (lt : bs < 65536) :
    Chain direntFormat (splitDirent d (total direntFormat before) r child name fileType) 0
      (before ++ [{ r with recLen := direntSize r.name.length },
        ⟨child, r.recLen - direntSize r.name.length, fileType, name⟩] ++ after) bs := by
  have hi := (hc.of_mem (mem_append_right _ mem_cons_self)).2
  rw [append_cons] at hc
  obtain ⟨atR, fits, -⟩ := (chain_append.mp (chain_append.mp hc).1).2
  rw [direntFormat_len] at hi
  have size := direntSize_ge name.length
  have own := direntSize_ge r.name.length
  have aligned : direntSize r.name.length % 4 = 0 := by
    rw [direntSize]
    omega
  have alignedR := fits.2
  rw [splitDirent]
  refine hc.replace (fun i he => ?_) ?_
  · simp only [total_cons, total_nil, direntFormat_len] at he
    rw [setRecLen_outside (by omega), setRecLen_outside (by omega), putEntry_outside (by omega)]
  rw [zero_add] at atR ⊢
  generalize total direntFormat before = p at *
  rw [direntFormat_read] at atR
  refine ⟨?_, ⟨le_refl _, aligned⟩, ?_, ⟨Nat.le_sub_of_add_le room, ?_⟩, ?_⟩
  · rw [direntFormat_read, direntAt_setRecLen (by omega)]
    have kept : direntAt (setRecLen (putEntry d (p + direntSize r.name.length) child name
        fileType) (p + direntSize r.name.length) (r.recLen - direntSize r.name.length)) p =
        direntAt d p := direntAt_congr fun i _ high => by
      rw [atR] at high
      rw [setRecLen_outside (by omega), putEntry_outside (by omega)]
    rw [kept, atR]
  · have after : ∀ d, direntAt (setRecLen d p (direntSize r.name.length))
        (p + direntSize r.name.length) = direntAt d (p + direntSize r.name.length) :=
      fun d => direntAt_congr fun i low _ => setRecLen_outside (by omega)
    rw [direntFormat_read, direntFormat_len, after, direntAt_setRecLen (by omega),
      direntAt_putEntry word short type]
  · simp only
    omega
  · simp only [Chain, total_cons, total_nil, direntFormat_len]
    omega

theorem addInBlock_some (hc : Chain direntFormat d 0 (before ++ r :: after) bs)
    (lt : bs < 65536) (full : ∀ r ∈ before, ¬ r.Room (direntSize name.length))
    (room : r.Room (direntSize name.length)) (hp : child ≠ 0) :
    ∃ d' rs, addInBlock bs d child name fileType = some d' ∧ Chain direntFormat d' 0 rs bs ∧
      live rs = live before ++ live [r] ++ ⟨name, child, fileType⟩ :: live after := by
  rw [Dirent.Room] at room
  by_cases hu : r.inode = 0
  · rw [if_pos hu] at room
    refine ⟨_, _, addInBlock_first hc lt full (addStep_unused hu room),
      putEntry_chain word short type hc room, ?_⟩
    rw [live_append, live_append, live_cons_of_ne hp, live_cons_of_eq hu]
    simp [entry]
  · rw [if_neg hu] at room
    obtain ⟨fits, hi⟩ := hc.of_mem (mem_append_right _ mem_cons_self)
    rw [direntFormat_len] at hi
    refine ⟨_, _, addInBlock_first hc lt full (addStep_splits fits (by omega) hu room),
      splitDirent_chain word short type hc room lt, ?_⟩
    simp [live, entry, hu, hp]

end

theorem freshDirBlock_chain (lt : bs < 65536) (ha : bs % 4 = 0)
    (room : direntSize name.length ≤ bs) (word : child < 2 ^ 32) (hs : name.length < 256)
    (type : fileType < 256) :
    Chain direntFormat (freshDirBlock bs child name fileType) 0 [⟨child, bs, fileType, name⟩] bs := by
  refine ⟨?_, ⟨room, ha⟩, by simp [Chain]⟩
  rw [freshDirBlock, Nat.mod_eq_of_lt lt, direntFormat_read, direntAt_setRecLen lt,
    direntAt_putEntry word hs type]

def lookup (es : List Entry) (name : Name) : Option Nat :=
  (es.find? fun e => e.name = name).map Entry.inode

theorem scanList_readdir {index count : Nat} (low : count ≤ index) (p : Nat) :
    scanList direntFormat (readdirStep index) count p rs = match (live rs)[index - count]? with
      | some e => .inr (e.name, direntType e.fileType)
      | none => .inl (count + (live rs).length) := by
  induction rs generalizing count p with
  | nil => rfl
  | cons r rs ih =>
    rw [scanList, readdirStep]
    by_cases hu : r.inode = 0
    · simp only [hu, ne_eq, not_true_eq_false, if_false, live_cons_of_eq hu, ih low]
    simp only [ne_eq, hu, not_false_eq_true, if_true, live_cons_of_ne hu]
    by_cases here : count = index
    · simp [here, entry]
    have next : index - count = index - (count + 1) + 1 := by omega
    simp only [here, if_false, ih (by omega : count + 1 ≤ index), next,
      getElem?_cons_succ, length_cons]
    rw [add_right_comm, add_assoc]

theorem scanList_search (p : Nat) :
    scanList direntFormat (searchStep name) p p rs = match lookup (live rs) name with
      | some ino => .inr ino
      | none => .inl (p + total direntFormat rs) := by
  induction rs generalizing p with
  | nil => rfl
  | cons r rs ih =>
    rw [scanList, searchStep]
    by_cases hu : r.inode = 0
    · simp only [hu, ne_eq, not_true_eq_false, false_and, if_false, live_cons_of_eq hu,
        direntFormat_len, ih, total_cons, add_assoc]
    by_cases hn : r.name = name
    · simp [hu, hn, live_cons_of_ne hu, lookup, entry]
    have skip : lookup (r.entry :: live rs) name = lookup (live rs) name := by
      simp [lookup, entry, hn]
    simp only [hn, and_false, if_false, live_cons_of_ne hu, skip, direntFormat_len, ih,
      total_cons, add_assoc]

end

end

end Aegis.Ext2
