import Aegis.ByteLayout
import Aegis.Traced

/-! How `elf_load` (kernel/proc/elf.c) reads an image. What the loader does depends on the
image alone: its decisions are the offsets it reads, the segments it places, in order, until
it stops, and the result it returns. The parameter `len` is never looked at. The image is
kernel memory from `data` on, so offsets are taken modulo `2 ^ 64`; `kva_alloc_pages` and
`vmm_map_user_page` are taken to return. -/

namespace Aegis.Elf

open List Nat Traced

open ByteLayout (Byte)

abbrev Image := Nat → Byte

abbrev Reading := Traced Nat

def readByte (img : Image) (off : Nat) : Reading Byte :=
  .touch (off % 2 ^ 64) (img (off % 2 ^ 64))

def readField (img : Image) : Nat → Nat → Reading Nat
  | 0, _ => pure 0
  | n + 1, off => do
    let low ← readByte img off
    let high ← readField img n (off + 1)
    return low.toNat + 256 * high

def readBytes (img : Image) : Nat → Nat → Reading Unit
  | 0, _ => pure ()
  | n + 1, off => do
    let _ ← readByte img off
    readBytes img n (off + 1)

def readString (img : Image) : Nat → Nat → Reading (List Byte)
  | 0, _ => pure []
  | n + 1, off => do
    let c ← readByte img off
    if c = 0 then return []
    let rest ← readString img n (off + 1)
    return c :: rest

def ptLoad : Nat := 1
def ptInterp : Nat := 3
def etExec : Nat := 2
def etDyn : Nat := 3
def emX86 : Nat := 0x3E
def elfclass64 : Byte := 2

def byteDiffers (img : Image) (off : Nat) (c : Byte) : Reading Bool := do
  let b ← readByte img off
  return b != c

def badMagic (img : Image) : Reading Bool :=
  .orElse (byteDiffers img 0 0x7F) <| .orElse (byteDiffers img 1 0x45) <|
    .orElse (byteDiffers img 2 0x4C) (byteDiffers img 3 0x46)

def badTarget (img : Image) : Reading Bool :=
  .orElse (byteDiffers img 4 elfclass64) <|
    .orElse (do let t ← readField img 2 16; return t != etExec && t != etDyn)
      (do let m ← readField img 2 18; return m != emX86)

def scanInterp (img : Image) (phoff : Nat) : Nat → Nat → Reading (List Byte)
  | 0, _ => pure []
  | n + 1, i => do
    let type ← readField img 4 (phoff + 56 * i)
    if type ≠ ptInterp then scanInterp img phoff n (i + 1)
    else
      let filesz ← readField img 8 (phoff + 56 * i + 32)
      let plen := if filesz = 0 ∨ 255 < filesz then 255 else filesz
      let offset ← readField img 8 (phoff + 56 * i + 8)
      readString img plen offset

structure Segment where
  vaddr : Nat
  vaBase : Nat
  vaOffset : Nat
  pageCount : Nat
  offset : Nat
  filesz : Nat
  memsz : Nat
  writable : Bool
  deriving DecidableEq

/-- The layout of a segment; `base` is added to its address in 64 bits. -/
def Segment.make (base vaddr offset filesz memsz flags : Nat) : Segment :=
  let va := (vaddr + base) % 2 ^ 64
  { vaddr := vaddr
    vaBase := va / 4096 * 4096
    vaOffset := va % 4096
    pageCount := (va % 4096 + memsz + 4095) / 4096
    offset := offset
    filesz := filesz
    memsz := memsz
    writable := flags / 2 % 2 == 1 }

def Segment.pages (seg : Segment) : List Nat :=
  (List.range seg.pageCount).map fun j => (seg.vaBase + j * 4096) % 2 ^ 64

inductive Verdict
  | skip
  | refuse
  | load (seg : Segment)

def examine (img : Image) (base ph : Nat) : Reading Verdict := do
  let type ← readField img 4 ph
  if type ≠ ptLoad then return .skip
  let vaddr ← readField img 8 (ph + 16)
  let memsz ← readField img 8 (ph + 40)
  if 2 ^ 32 < memsz then return .refuse
  let filesz ← readField img 8 (ph + 32)
  if memsz < filesz then return .refuse
  let offset ← readField img 8 (ph + 8)
  readBytes img filesz offset
  let flags ← readField img 4 (ph + 4)
  return .load (.make base vaddr offset filesz memsz flags)

/-- The segments that are placed, and whether the loop ran to its end. -/
def loadLoop (img : Image) (base phoff : Nat) : Nat → Nat → Reading (List Segment × Bool)
  | 0, _ => pure ([], true)
  | n + 1, i => do
    match ← examine img base (phoff + 56 * i) with
    | .skip => loadLoop img base phoff n (i + 1)
    | .refuse => return ([], false)
    | .load seg =>
      let rest ← loadLoop img base phoff n (i + 1)
      return (seg :: rest.1, rest.2)

structure LoadResult where
  entry : Nat
  brk : Nat
  phdrVa : Nat
  phdrCount : Nat
  base : Nat
  interp : List Byte

def segEnd (base : Nat) (placed : List Segment) : Nat :=
  placed.foldl (fun stop seg => max stop ((seg.vaddr + base + seg.memsz) % 2 ^ 64)) 0

def finishLoad (img : Image) (base phoff phnum : Nat) (interp : List Byte) :
    List Segment × Bool → Reading (List Segment × Option LoadResult)
  | (placed, false) => return (placed, none)
  | ([], true) => return ([], none)
  | (first :: rest, true) => do
    let entry ← readField img 8 24
    return (first :: rest, some
      { entry := (entry + base) % 2 ^ 64
        brk := (segEnd base (first :: rest) + 4095) % 2 ^ 64 / 4096 * 4096
        phdrVa := (first.vaddr + base + phoff) % 2 ^ 64
        phdrCount := phnum
        base := base
        interp := interp })

def elfSegments (img : Image) (base : Nat) : Reading (List Segment × Option LoadResult) := do
  if ← badMagic img then return ([], none)
  if ← badTarget img then return ([], none)
  let phoff ← readField img 8 32
  let phnum ← readField img 2 56
  let interp ← scanInterp img phoff phnum 0
  let placed ← loadLoop img base phoff phnum 0
  finishLoad img base phoff phnum interp placed

def field (img : Image) (n off : Nat) : Nat := (readField img n off).value

def ePhoff (img : Image) : Nat := field img 8 32
def ePhnum (img : Image) : Nat := field img 2 56

section
variable (img : Image) (len i : Nat)

def phdr : Nat := ePhoff img + 56 * i

def pType : Nat := field img 4 (phdr img i)
def pFlags : Nat := field img 4 (phdr img i + 4)
def pOffset : Nat := field img 8 (phdr img i + 8)
def pVaddr : Nat := field img 8 (phdr img i + 16)
def pFilesz : Nat := field img 8 (phdr img i + 32)
def pMemsz : Nat := field img 8 (phdr img i + 40)

def segmentAt (base : Nat) : Segment :=
  .make base (pVaddr img i) (pOffset img i) (pFilesz img i) (pMemsz img i) (pFlags img i)

def Refused : Prop :=
  pType img i = ptLoad ∧ (2 ^ 32 < pMemsz img i ∨ pMemsz img i < pFilesz img i)

def Visits : Prop := ∀ j < i, ¬ Refused img j

def Scans : Prop := ∀ j < i, pType img j ≠ ptInterp

def Inside (off n : Nat) : Prop := ∀ k < n, (off + k) % 2 ^ 64 < len

def HasMagic : Prop := img 0 = 0x7F ∧ img 1 = 0x45 ∧ img 2 = 0x4C ∧ img 3 = 0x46

def HasTarget : Prop :=
  img 4 = elfclass64 ∧ (field img 2 16 = etExec ∨ field img 2 16 = etDyn) ∧ field img 2 18 = emX86

def Accepted : Prop := HasMagic img ∧ HasTarget img

/-- The bytes that the header checks look at lie in the image, each only if the checks before
it pass, and so do the fields of an accepted header. -/
def HeaderInside : Prop :=
  (0 < len ∧ (img 0 = 0x7F → 1 < len ∧ (img 1 = 0x45 → 2 < len ∧ (img 2 = 0x4C → 3 < len)))) ∧
    (HasMagic img →
      (4 < len ∧ (img 4 = elfclass64 → 17 < len ∧
        (field img 2 16 = etExec ∨ field img 2 16 = etDyn → 19 < len))) ∧
      (HasTarget img → 57 < len))

def interpLen (filesz : Nat) : Nat := if filesz = 0 ∨ 255 < filesz then 255 else filesz

/-- The fields and the path that the scan reads of an interpreter header. -/
def InterpInside : Prop :=
  Inside len (phdr img i + 32) 8 ∧ Inside len (phdr img i + 8) 8 ∧
    ∀ c < interpLen (pFilesz img i),
      (∀ d < c, img ((pOffset img i + d) % 2 ^ 64) ≠ 0) → (pOffset img i + c) % 2 ^ 64 < len

/-- The fields and the file bytes that the loop reads of a loaded header. -/
def LoadInside : Prop :=
  Inside len (phdr img i + 16) 8 ∧ Inside len (phdr img i + 40) 8 ∧
    (pMemsz img i ≤ 2 ^ 32 → Inside len (phdr img i + 32) 8 ∧
      (pFilesz img i ≤ pMemsz img i → Inside len (phdr img i + 8) 8 ∧
        Inside len (pOffset img i) (pFilesz img i) ∧ Inside len (phdr img i + 4) 4))

end

def Segment.InUserHalf (seg : Segment) : Prop :=
  seg.pageCount = 0 ∨ seg.vaBase + seg.pageCount * 4096 ≤ 0x00007FFFFFFFFFFF

section
variable {img : Image} {len off n i base phoff : Nat}

theorem within_readField : (readField img n off).Within (· < len) ↔ Inside len off n := by
  induction n generalizing off with
  | zero => simp [readField, Inside]
  | succ n ih =>
    simp only [readField, readByte, within_bind, within_touch, within_pure, ih, and_true]
    rw [Inside, Inside, forall_lt_succ_left]
    simp only [Nat.add_zero, Nat.add_assoc, Nat.add_comm 1]

theorem within_readBytes : (readBytes img n off).Within (· < len) ↔ Inside len off n := by
  induction n generalizing off with
  | zero => simp [readBytes, Inside]
  | succ n ih =>
    simp only [readBytes, readByte, within_bind, within_touch, ih]
    rw [Inside, Inside, forall_lt_succ_left]
    simp only [Nat.add_zero, Nat.add_assoc, Nat.add_comm 1]

theorem within_readString : (readString img n off).Within (· < len) ↔
      ∀ c < n, (∀ d < c, img ((off + d) % 2 ^ 64) ≠ 0) → (off + c) % 2 ^ 64 < len := by
  induction n generalizing off with
  | zero => simp [readString]
  | succ n ih =>
    simp only [readString, readByte, within_bind, within_touch, within_ite,
      within_pure, ih, and_true, implies_true, true_and]
    rw [forall_lt_succ_left]
    simp only [touch_value, forall_lt_succ_left, Nat.add_zero, Nat.not_lt_zero,
      false_implies, implies_true, true_implies, and_imp, Nat.add_assoc, Nat.add_comm 1]
    refine and_congr_right fun _ => ?_
    constructor
    · exact fun hl c lt h1 rest => hl h1 c lt rest
    · exact fun hl h1 c lt rest => hl c lt h1 rest

theorem within_scanInterp : (scanInterp img (ePhoff img) n i).Within (· < len) ↔
      ∀ j < n, (∀ l < j, pType img (i + l) ≠ ptInterp) → Inside len (phdr img (i + j)) 4 ∧
          (pType img (i + j) = ptInterp → InterpInside img len (i + j)) := by
  induction n generalizing i with
  | zero => simp [scanInterp]
  | succ n ih =>
    have hr : (scanInterp img (ePhoff img) (n + 1) i).Within (· < len) ↔
        Inside len (phdr img i) 4 ∧ (pType img i ≠ ptInterp →
          (scanInterp img (ePhoff img) n (i + 1)).Within (· < len)) ∧
          (pType img i = ptInterp → InterpInside img len i) := by
      simp only [scanInterp, within_bind, within_ite, within_readField,
        within_readString, ne_eq, not_not]
      rfl
    rw [hr, ih, forall_lt_succ_left]
    simp only [forall_lt_succ_left, Nat.add_zero, Nat.not_lt_zero, false_implies, implies_true,
      true_implies, and_imp, Nat.add_assoc, Nat.add_comm 1]
    constructor
    · rintro ⟨type, hl, interp⟩
      exact ⟨⟨type, interp⟩, fun k lt h1 rest => hl h1 k lt rest⟩
    · rintro ⟨⟨type, interp⟩, hl⟩
      exact ⟨type, fun h1 k lt rest => hl k lt h1 rest, interp⟩

theorem within_examine : (examine img base (phdr img i)).Within (· < len) ↔
      Inside len (phdr img i) 4 ∧ (pType img i = ptLoad → LoadInside img len i) := by
  simp only [examine, within_bind, within_ite, within_readField, within_readBytes,
    within_pure, implies_true, true_and, and_true, not_not, not_lt, ne_eq]
  rfl

theorem examine_value : (examine img base (phdr img i)).value = if pType img i ≠ ptLoad then .skip
      else if 2 ^ 32 < pMemsz img i then .refuse
      else if pMemsz img i < pFilesz img i then .refuse
      else .load (segmentAt img i base) := by
  simp only [examine, bind_value, ite_value, pure_value]
  rfl

theorem examine_cases (img : Image) (base i : Nat) :
    (Refused img i ∧ (examine img base (phdr img i)).value = .refuse) ∨
      (¬ Refused img i ∧ pType img i ≠ ptLoad ∧ (examine img base (phdr img i)).value = .skip) ∨
      (¬ Refused img i ∧ pType img i = ptLoad ∧
        (examine img base (phdr img i)).value = .load (segmentAt img i base)) := by
  rw [examine_value]
  by_cases load : pType img i = ptLoad
  · by_cases hl : 2 ^ 32 < pMemsz img i
    · exact .inl ⟨⟨load, .inl hl⟩, by rw [if_neg (not_not.mpr load), if_pos hl]⟩
    rw [if_neg (not_not.mpr load), if_neg hl]
    by_cases hs : pMemsz img i < pFilesz img i
    · exact .inl ⟨⟨load, .inr hs⟩, if_pos hs⟩
    · exact .inr (.inr ⟨fun hr => hr.2.elim hl hs, load, if_neg hs⟩)
  · exact .inr (.inl ⟨fun hr => load hr.1, load, if_pos load⟩)

theorem within_loadLoop : (loadLoop img base (ePhoff img) n i).Within (· < len) ↔
      ∀ j < n, (∀ l < j, ¬ Refused img (i + l)) → Inside len (phdr img (i + j)) 4 ∧
          (pType img (i + j) = ptLoad → LoadInside img len (i + j)) := by
  induction n generalizing i with
  | zero => simp [loadLoop]
  | succ n ih =>
    have hn : (loadLoop img base (ePhoff img) (n + 1) i).Within (· < len) ↔
        (examine img base (phdr img i)).Within (· < len) ∧ (¬ Refused img i →
          (loadLoop img base (ePhoff img) n (i + 1)).Within (· < len)) := by
      rw [loadLoop, within_bind, ← phdr]
      refine and_congr_right fun _ => ?_
      rcases examine_cases img base i with ⟨hr, verdict⟩ | ⟨fine, -, verdict⟩ | ⟨fine, -, verdict⟩
      · simp [verdict, hr]
      · simp [verdict, fine]
      · simp [verdict, fine]
    rw [hn, ih, within_examine, forall_lt_succ_left]
    simp only [forall_lt_succ_left, Nat.add_zero, Nat.not_lt_zero, false_implies, implies_true,
      true_implies, and_imp, Nat.add_assoc, Nat.add_comm 1]
    refine and_congr_right fun _ => ?_
    constructor
    · exact fun hl k lt h1 rest => hl h1 k lt rest
    · exact fun hl h1 k lt rest => hl k lt h1 rest

theorem loadLoop_value : (∀ seg, seg ∈ (loadLoop img base (ePhoff img) n i).value.1 ↔
      ∃ j < n, (∀ l < j + 1, ¬ Refused img (i + l)) ∧ pType img (i + j) = ptLoad ∧
        seg = segmentAt img (i + j) base) ∧
      ((loadLoop img base (ePhoff img) n i).value.2 = true ↔ ∀ j < n, ¬ Refused img (i + j)) := by
  induction n generalizing i with
  | zero => simp [loadLoop]
  | succ n ih =>
    obtain ⟨hm, ends⟩ := ih (i := i + 1)
    simp only [forall_lt_succ_left, Nat.add_assoc, Nat.add_comm 1] at hm ends
    rw [loadLoop, bind_value, ← phdr, forall_lt_succ_left]
    simp only [exists_lt_succ_left, forall_lt_succ_left, Nat.add_zero, Nat.not_lt_zero,
      false_implies, implies_true, and_true]
    rcases examine_cases img base i with ⟨hr, verdict⟩ | ⟨fine, other, verdict⟩ |
      ⟨fine, load, verdict⟩
    · simp [verdict, hr]
    · simp [verdict, fine, other, ends, hm]
    · simp [verdict, fine, load, ends, hm]

theorem within_badMagic : (badMagic img).Within (· < len) ↔
      0 < len ∧ (img 0 = 0x7F → 1 < len ∧ (img 1 = 0x45 → 2 < len ∧ (img 2 = 0x4C → 3 < len))) := by
  simp [badMagic, byteDiffers, readByte]

theorem badMagic_value : (badMagic img).value = false ↔ HasMagic img := by
  simp [badMagic, byteDiffers, readByte, HasMagic]

theorem inside_pair : Inside len off 2 ↔ off % 2 ^ 64 < len ∧ (off + 1) % 2 ^ 64 < len := by
  constructor
  · exact fun hi => ⟨hi 0 (by decide), hi 1 (by decide)⟩
  rintro ⟨h1, h2⟩ k lt
  match k, lt with
  | 0, _ => exact h1
  | 1, _ => exact h2

theorem within_badTarget : (badTarget img).Within (· < len) ↔
      4 < len ∧ (img 4 = elfclass64 → 17 < len ∧
        (field img 2 16 = etExec ∨ field img 2 16 = etDyn → 19 < len)) := by
  have type : 16 < len ∧ 17 < len ↔ 17 < len := by omega
  have machine : 18 < len ∧ 19 < len ↔ 19 < len := by omega
  simp [badTarget, byteDiffers, readByte, within_readField, inside_pair, field, type, machine,
    ← or_iff_not_imp_left]

theorem badTarget_value : (badTarget img).value = false ↔ HasTarget img := by
  simp [badTarget, byteDiffers, readByte, HasTarget, field, ← or_iff_not_imp_left]

theorem inside_of_header (long : 57 < len) (low : off + n ≤ 58) : Inside len off n := by
  intro k lt
  rw [mod_eq_of_lt (by omega)]
  omega

theorem accepted_iff :
    Accepted img ↔ (badMagic img).value = false ∧ (badTarget img).value = false := by
  rw [badMagic_value, badTarget_value, Accepted]

variable {placed : List Segment × Bool}

theorem within_finishLoad {p : Nat} {interp : List Byte} (long : 57 < len) :
    (finishLoad img base phoff p interp placed).Within (· < len) := by
  have entry : Inside len 24 8 := inside_of_header long (by decide)
  obtain ⟨_ | ⟨h1, rest⟩, _ | _⟩ := placed
  · simp [finishLoad]
  · simp [finishLoad]
  · simp [finishLoad]
  · simp [finishLoad, within_readField, entry]

theorem finishLoad_value {p : Nat} {interp : List Byte} :
    (finishLoad img base phoff p interp placed).value.1 = placed.1 ∧
      ((finishLoad img base phoff p interp placed).value.2 = none ↔
        placed.2 = false ∨ placed.1 = []) := by
  obtain ⟨_ | ⟨h1, rest⟩, _ | _⟩ := placed
  · simp [finishLoad]
  · simp [finishLoad]
  · simp [finishLoad]
  · simp [finishLoad]

theorem within_elfSegments :
    (elfSegments img base).Within (· < len) ↔ HeaderInside img len ∧ (Accepted img →
      (scanInterp img (ePhoff img) (ePhnum img) 0).Within (· < len) ∧
        (loadLoop img base (ePhoff img) (ePhnum img) 0).Within (· < len)) := by
  have header : HeaderInside img len ↔ (badMagic img).Within (· < len) ∧
      ((badMagic img).value = false → (badTarget img).Within (· < len) ∧
        ((badTarget img).value = false → 57 < len)) := by
    rw [within_badMagic, badMagic_value, within_badTarget, badTarget_value, HeaderInside]
  rw [header, accepted_iff]
  cases magic : (badMagic img).value with
  | true => simp [elfSegments, magic]
  | false =>
    cases target : (badTarget img).value with
    | true => simp [elfSegments, magic, target]
    | false =>
      simp only [elfSegments, within_bind, magic, target, Bool.false_eq_true, if_false,
        within_readField, true_implies, and_self]
      constructor
      · rintro ⟨h1, h2, -, hp, scan, loop, -⟩
        have long : 57 < len := by simpa using (inside_pair.mp hp).2
        exact ⟨⟨h1, h2, long⟩, scan, loop⟩
      · rintro ⟨⟨h1, h2, long⟩, scan, loop⟩
        exact ⟨h1, h2, inside_of_header long (by decide), inside_of_header long (by decide),
          scan, loop, within_finishLoad long⟩

theorem elfSegments_value (img : Image) (base : Nat) :
    (¬ Accepted img → (elfSegments img base).value = ([], none)) ∧ (Accepted img →
        (elfSegments img base).value.1 = (loadLoop img base (ePhoff img) (ePhnum img) 0).value.1 ∧
        ((elfSegments img base).value.2 = none ↔
          (loadLoop img base (ePhoff img) (ePhnum img) 0).value.2 = false ∨
            (loadLoop img base (ePhoff img) (ePhnum img) 0).value.1 = [])) := by
  rw [accepted_iff]
  cases magic : (badMagic img).value with
  | true => simp [elfSegments, magic]
  | false =>
    cases target : (badTarget img).value with
    | true => simp [elfSegments, magic, target]
    | false =>
      refine ⟨fun rejected => absurd ⟨rfl, rfl⟩ rejected, fun _ => ?_⟩
      simp only [elfSegments, bind_value, magic, target, Bool.false_eq_true, if_false]
      exact finishLoad_value

end

/-- What the loader owes an untrusted image: it reads only below `len`, every page it maps lies
in the user half, and if it returns an error it has mapped nothing. -/
structure Confined (img : Image) (len base : Nat) : Prop where
  reads : (elfSegments img base).Within (· < len)
  maps : ∀ seg ∈ (elfSegments img base).value.1, ∀ va ∈ seg.pages, va + 4096 ≤ 0x00007FFFFFFFFFFF
  errors : (elfSegments img base).value.2 = none →
    ∀ seg ∈ (elfSegments img base).value.1, seg.pages = []

/-- The images that the loader can be given: whatever its loops come to lies in the image, the
segments it places lie in the user half, and the sizes of no header are refused after a segment
was placed. -/
structure WellPlaced (img : Image) (len base : Nat) : Prop where
  header : HeaderInside img len
  interp : Accepted img → ∀ i < ePhnum img, Scans img i →
    Inside len (phdr img i) 4 ∧ (pType img i = ptInterp → InterpInside img len i)
  loads : Accepted img → ∀ i < ePhnum img, Visits img i →
    Inside len (phdr img i) 4 ∧ (pType img i = ptLoad → LoadInside img len i)
  user : Accepted img → ∀ i < ePhnum img, Visits img i → ¬ Refused img i →
    pType img i = ptLoad → (segmentAt img i base).InUserHalf
  refused : Accepted img → ∀ i < ePhnum img, Visits img i → Refused img i →
    ∀ j < i, pType img j = ptLoad → (segmentAt img j base).pageCount = 0

open Segment

theorem Segment.pages_user {base hv offset hf hm flags : Nat} (lt : hm ≤ 2 ^ 32) :
    (∀ va ∈ (make base hv offset hf hm flags).pages, va + 4096 ≤ 0x00007FFFFFFFFFFF) ↔
      (make base hv offset hf hm flags).InUserHalf := by
  simp only [pages, Segment.InUserHalf, make, forall_mem_map, mem_range]
  have hb : (hv + base) % 2 ^ 64 < 2 ^ 64 := mod_lt _ (by decide)
  generalize (hv + base) % 2 ^ 64 = va at *
  have pages : (va % 4096 + hm + 4095) / 4096 ≤ 2 ^ 21 := by omega
  generalize (va % 4096 + hm + 4095) / 4096 = count at *
  constructor
  · intro all
    by_cases none : count = 0
    · exact .inl none
    have h1 := all 0 (by omega)
    have last := all (count - 1) (by omega)
    omega
  · rintro (none | low) j hl
    · omega
    · omega

theorem pages_eq_nil {seg : Segment} : seg.pages = [] ↔ seg.pageCount = 0 := by
  simp [pages]

section
variable {img : Image} {len base i : Nat}

theorem visits_succ : (∀ l < i + 1, ¬ Refused img l) ↔ Visits img i ∧ ¬ Refused img i := by
  rw [forall_lt_succ_right]
  rfl

theorem mem_elfSegments (base : Nat) (ok : Accepted img) (seg : Segment) :
    seg ∈ (elfSegments img base).value.1 ↔ ∃ i < ePhnum img, Visits img i ∧ ¬ Refused img i ∧
      pType img i = ptLoad ∧ seg = segmentAt img i base := by
  rw [((elfSegments_value img base).2 ok).1, loadLoop_value.1]
  simp only [Nat.zero_add, visits_succ, and_assoc]

theorem exists_first_refused {n : Nat} (hf : ¬ ∀ i < n, ¬ Refused img i) :
    ∃ i < n, Visits img i ∧ Refused img i := by
  induction n with
  | zero => exact absurd (fun i lt => absurd lt (not_lt_zero i)) hf
  | succ n ih =>
    by_cases hv : Visits img n
    · have last : Refused img n := by
        by_contra fine
        exact hf (visits_succ.mpr ⟨hv, fine⟩)
      exact ⟨n, lt_succ_self n, hv, last⟩
    · obtain ⟨i, lt, h1⟩ := ih hv
      exact ⟨i, lt_succ_of_lt lt, h1⟩

theorem elfSegments_fails (base : Nat) (ok : Accepted img) :
    (elfSegments img base).value.2 = none ↔ (∃ i < ePhnum img, Visits img i ∧ Refused img i) ∨
      (elfSegments img base).value.1 = [] := by
  have value := (elfSegments_value img base).2 ok
  rw [value.2, ← value.1, ← Bool.not_eq_true, loadLoop_value.2]
  simp only [Nat.zero_add]
  refine or_congr_left ⟨exists_first_refused, ?_⟩
  rintro ⟨i, lt, -, hr⟩ all
  exact all i lt hr

theorem pages_user_at (fine : ¬ Refused img i) (load : pType img i = ptLoad) :
    (∀ va ∈ (segmentAt img i base).pages, va + 4096 ≤ 0x00007FFFFFFFFFFF) ↔
      (segmentAt img i base).InUserHalf := by
  refine pages_user ?_
  by_contra large
  exact fine ⟨load, .inl (Nat.lt_of_not_le large)⟩

end

/-- The loader keeps its promise exactly for the images that are well placed: it checks neither
offsets against `len` nor addresses against the user half, and it undoes nothing. -/
theorem elf_load_confined_iff (img : Image) (len base : Nat) :
    Confined img len base ↔ WellPlaced img len base := by
  constructor
  · rintro ⟨reads, maps, errors⟩
    obtain ⟨header, loops⟩ := within_elfSegments.mp reads
    refine ⟨header, fun accepted => ?_, fun accepted => ?_, ?_, ?_⟩
    · simpa only [Nat.zero_add, Scans] using within_scanInterp.mp (loops accepted).1
    · simpa only [Nat.zero_add, Visits] using within_loadLoop.mp (loops accepted).2
    · intro accepted i small visits fine load
      rw [← pages_user_at fine load]
      exact maps _ ((mem_elfSegments base accepted _).mpr ⟨i, small, visits, fine, load, rfl⟩)
    · intro accepted i small visits refused j below load
      have fails := (elfSegments_fails base accepted).mpr (.inl ⟨i, small, visits, refused⟩)
      have placed := (mem_elfSegments base accepted _).mpr ⟨j, Nat.lt_trans below small,
        fun l earlier => visits l (Nat.lt_trans earlier below), visits j below, load, rfl⟩
      exact pages_eq_nil.mp (errors fails _ placed)
  · rintro ⟨header, interp, loads, user, refused⟩
    refine ⟨within_elfSegments.mpr ⟨header, fun accepted => ⟨?_, ?_⟩⟩, ?_, ?_⟩
    · exact within_scanInterp.mpr (by simpa only [Nat.zero_add, Scans] using interp accepted)
    · exact within_loadLoop.mpr (by simpa only [Nat.zero_add, Visits] using loads accepted)
    · intro seg placed
      by_cases accepted : Accepted img
      · obtain ⟨i, small, visits, fine, load, rfl⟩ := (mem_elfSegments base accepted seg).mp placed
        exact (pages_user_at fine load).mpr (user accepted i small visits fine load)
      · rw [(elfSegments_value img base).1 accepted] at placed
        exact absurd placed not_mem_nil
    · intro fails seg placed
      by_cases accepted : Accepted img
      · obtain ⟨j, small', visits', fine, load, rfl⟩ :=
          (mem_elfSegments base accepted seg).mp placed
        rcases (elfSegments_fails base accepted).mp fails with ⟨i, small, visits, bad⟩ | none
        · have below : j < i := by
            by_contra above
            rcases Nat.eq_or_lt_of_le (Nat.le_of_not_lt above) with rfl | later
            · exact fine bad
            · exact visits' i later bad
          exact pages_eq_nil.mpr (refused accepted i small visits bad j below load)
        · rw [none] at placed
          exact absurd placed not_mem_nil
      · rw [(elfSegments_value img base).1 accepted] at placed
        exact absurd placed not_mem_nil

/-- An image of 120 bytes with one program header: its segment is a page of the kernel half, and
its single file byte lies behind the end of the image. -/
def kernelHalfImage : Image := fun off =>
  match off with
  | 0 => 0x7F
  | 1 => 0x45
  | 2 => 0x4C
  | 3 => 0x46
  | 4 => 2
  | 16 => 2
  | 18 => 0x3E
  | 32 => 64
  | 56 => 1
  | 64 => 1
  | 73 => 1
  | 85 => 0x80
  | 86 => 0xFF
  | 87 => 0xFF
  | 96 => 1
  | 105 => 0x10
  | _ => 0

theorem elf_load_maps_kernel_half :
    (elfSegments kernelHalfImage 0).value.1.map Segment.pages = [[0xFFFF800000000000]] ∧
      256 ∈ (elfSegments kernelHalfImage 0).trace ∧
      (elfSegments kernelHalfImage 0).value.2.isSome ∧ ¬ Confined kernelHalfImage 120 0 := by
  have pages : (elfSegments kernelHalfImage 0).value.1.map Segment.pages =
      [[0xFFFF800000000000]] := by
    decide +kernel
  have behind : 256 ∈ (elfSegments kernelHalfImage 0).trace := by decide +kernel
  exact ⟨pages, behind, by decide +kernel,
    fun confined => absurd (confined.reads 256 behind) (by decide)⟩

end Aegis.Elf
