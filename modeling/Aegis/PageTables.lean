import Aegis.Vmm
import Aegis.TableMemory

/-! The user page tables word by word (kernel/mm/vmm.c).
Physical memory gives for each frame its 512 words of 64 bits, and the window of the source
is direct access to a frame. Virtual addresses are numbers, physical addresses and flags are
words. The functions below are translated from the source; the tree of tables that the words
spell comes in only through `Rep`. TLB invalidation is left out. -/

namespace Aegis.PageTables

open RadixTree TableMemory List Memory
open Memory (Pmm InUse pmmAllocPage pmmFreePage allocTable freePages)

abbrev Word := BitVec 64

abbrev Phys := TableMemory.Memory Word × Pmm

def vmmFlagPresent : Word := 0x1
def vmmFlagWritable : Word := 0x2
def vmmFlagUser : Word := 0x4
def vmmFlagWc : Word := 0x8
def vmmFlagUcminus : Word := 0x10
def ptePs : Word := 0x80

def archPteAddr (e : Word) : Word := e &&& 0x000FFFFFFFFFF000

def hasFlag (e flag : Word) : Bool := e &&& flag != 0

def frameOf (phys : Word) : Nat := phys.toNat / 4096

def physOf (frame : Nat) : Word := BitVec.ofNat 64 (4096 * frame)

def pml4Idx (virt : Nat) : Nat := virt / 2 ^ 39 % 512
def pdptIdx (virt : Nat) : Nat := virt / 2 ^ 30 % 512
def pdIdx (virt : Nat) : Nat := virt / 2 ^ 21 % 512
def ptIdx (virt : Nat) : Nat := virt / 2 ^ 12 % 512

def allocCleared (s : Phys) : Option (Nat × Phys) :=
  (allocTable s.2).map fun a => (a.1, fill s.1 a.1 0, a.2)

def ensureTablePhys (parent idx : Nat) (extraFlags : Word) (s : Phys) : Option (Nat × Phys) :=
  let entry := s.1 parent idx
  if hasFlag entry vmmFlagPresent then some (frameOf (archPteAddr entry), s)
  else
    (allocCleared s).map fun (child, s) =>
      (child, write s.1 parent idx
        (physOf child ||| (vmmFlagPresent ||| vmmFlagWritable ||| extraFlags)), s.2)

def vmmCreateUserPml4 (master : Nat) (s : Phys) : Option (Nat × Phys) :=
  (allocCleared s).map fun (pml4, s) =>
    (pml4, Function.update s.1 pml4 fun i =>
      if 256 ≤ i ∧ i < 512 then s.1 master i else s.1 pml4 i, s.2)

/-- `none` is -1, when there is no frame for a table, or the panic on a present entry. -/
def vmmMapUserPageNolock (pml4 virt : Nat) (phys flags : Word) (s : Phys) : Option Phys := do
  let (pdpt, s) ← ensureTablePhys pml4 (pml4Idx virt) vmmFlagUser s
  let (pd, s) ← ensureTablePhys pdpt (pdptIdx virt) vmmFlagUser s
  let (pt, s) ← ensureTablePhys pd (pdIdx virt) vmmFlagUser s
  if hasFlag (s.1 pt (ptIdx virt)) vmmFlagPresent then none
  else some (write s.1 pt (ptIdx virt) (phys ||| (flags ||| vmmFlagPresent)), s.2)

/-- Panics on addresses that are not page aligned and when there is no frame for a table. -/
def vmmMapUserPage (pml4 virt : Nat) (phys flags : Word) (s : Phys) : Option Phys :=
  if virt % 4096 ≠ 0 then none
  else if phys &&& 0xFFF ≠ 0 then none
  else vmmMapUserPageNolock pml4 virt phys flags s

section
variable (mem : TableMemory.Memory Word)

/-- The walk that the four functions below start with: the table of the last level. -/
def userTable (pml4 virt : Nat) : Option Nat :=
  let pml4e := mem pml4 (pml4Idx virt)
  if !hasFlag pml4e vmmFlagPresent then none
  else
    let pdpte := mem (frameOf (archPteAddr pml4e)) (pdptIdx virt)
    if !hasFlag pdpte vmmFlagPresent then none
    else
      let pde := mem (frameOf (archPteAddr pdpte)) (pdIdx virt)
      if !hasFlag pde vmmFlagPresent || hasFlag pde ptePs then none
      else some (frameOf (archPteAddr pde))

def vmmPhysOfUser (pml4 virt : Nat) : Word :=
  match userTable mem pml4 virt with
  | none => 0
  | some pt =>
    let pte := mem pt (ptIdx virt)
    if hasFlag pte vmmFlagPresent then archPteAddr pte else 0

def vmmPhysOfUserRaw (pml4 virt : Nat) : Word :=
  match userTable mem pml4 virt with
  | none => 0
  | some pt =>
    let pte := mem pt (ptIdx virt)
    if pte ≠ 0 then archPteAddr pte else 0

def vmmUnmapUserPage (pml4 virt : Nat) :
    TableMemory.Memory Word :=
  match userTable mem pml4 virt with
  | none => mem
  | some pt =>
    if hasFlag (mem pt (ptIdx virt)) vmmFlagPresent then write mem pt (ptIdx virt) 0 else mem

def vmmSetUserProt (pml4 virt : Nat) (flags : Word) :
    TableMemory.Memory Word × Int :=
  match userTable mem pml4 virt with
  | none => (mem, -1)
  | some pt =>
    let old := mem pt (ptIdx virt)
    if !hasFlag old vmmFlagPresent && flags == 0 then (mem, 0)
    else if !hasFlag old vmmFlagPresent then (mem, -1)
    else
      let phys := archPteAddr old
      (write mem pt (ptIdx virt) (if flags = 0 then phys else phys ||| flags), 0)

def freePt (pt : Nat) (p : Pmm) : Pmm :=
  (List.range 512).foldl (fun p l =>
    let pte := mem pt l
    if pte = 0 then p
    else if archPteAddr pte = 0 then p
    else pmmFreePage p (frameOf (archPteAddr pte))) p

def freePd (pd : Nat) (p : Pmm) : Pmm :=
  (List.range 512).foldl (fun p k =>
    let pde := mem pd k
    if !hasFlag pde vmmFlagPresent then p
    else if hasFlag pde ptePs then p
    else
      let pt := frameOf (archPteAddr pde)
      pmmFreePage (freePt mem pt p) pt) p

def freePdpt (pdpt : Nat) (p : Pmm) : Pmm :=
  (List.range 512).foldl (fun p j =>
    let pdpte := mem pdpt j
    if !hasFlag pdpte vmmFlagPresent then p
    else if hasFlag pdpte ptePs then p
    else
      let pd := frameOf (archPteAddr pdpte)
      pmmFreePage (freePd mem pd p) pd) p

def vmmFreeUserPml4 (pml4 : Nat) (p : Pmm) : Pmm :=
  let p := (List.range 256).foldl (fun p i =>
    let pml4e := mem pml4 i
    if !hasFlag pml4e vmmFlagPresent then p
    else
      let pdpt := frameOf (archPteAddr pml4e)
      pmmFreePage (freePdpt mem pdpt p) pdpt) p
  pmmFreePage p pml4

end

section
variable {e pa flags : Word} {frame : Nat}

/-- A page-aligned physical address that fits into the address field of an entry. -/
def IsAddr (pa : Word) : Prop := archPteAddr pa = pa
  deriving Decidable

def IsFlags (flags : Word) : Prop := archPteAddr flags = 0
  deriving Decidable

theorem archPteAddr_or (a b : Word) : archPteAddr (a ||| b) = archPteAddr a ||| archPteAddr b :=
  BitVec.and_or_distrib_right ..

theorem hasFlag_or (a b flag : Word) :
    hasFlag (a ||| b) flag = (hasFlag a flag || hasFlag b flag) := by
  have split : (a ||| b) &&& flag = (a &&& flag) ||| (b &&& flag) := BitVec.and_or_distrib_right ..
  rw [Bool.eq_iff_iff]
  simp only [hasFlag, split, bne_iff_ne, ne_eq, BitVec.ofNat_eq_ofNat, BitVec.or_eq_zero_iff,
    Bool.or_eq_true, not_and_or]

theorem archPteAddr_addr (addr : IsAddr pa) (bare : IsFlags flags) :
    archPteAddr (pa ||| flags) = pa := by
  rw [archPteAddr_or, addr, bare]
  exact BitVec.or_zero

theorem hasFlag_addr {flag : Word} (addr : IsAddr pa) (low : archPteAddr flag = 0) :
    hasFlag pa flag = false := by
  have none : pa &&& flag = 0 := by
    rw [← addr, archPteAddr, BitVec.and_assoc, BitVec.and_comm (0x000FFFFFFFFFF000 : Word)]
    exact (congrArg (pa &&& ·) low).trans BitVec.and_zero
  simp [hasFlag, none]

theorem archPteAddr_isAddr (e : Word) : IsAddr (archPteAddr e) := by
  rw [IsAddr, archPteAddr, archPteAddr, BitVec.and_assoc, BitVec.and_self]

theorem frameOf_physOf (lt : frame < 2 ^ 40) : frameOf (physOf frame) = frame := by
  rw [frameOf, physOf, BitVec.toNat_ofNat, Nat.mod_eq_of_lt (by omega),
    Nat.mul_div_cancel_left _ (by decide)]

theorem addrMask_bit (i : Nat) :
    (0x000FFFFFFFFFF000 : Word).getLsbD i = (decide (12 ≤ i) && decide (i < 52)) := by
  by_cases lt : i < 64
  · exact (by decide : ∀ i : Fin 64, (0x000FFFFFFFFFF000 : Word).getLsbD i =
      (decide (12 ≤ i.val) && decide (i.val < 52))) ⟨i, lt⟩
  rw [BitVec.getLsbD_of_ge _ _ (by omega)]
  simp
  omega

theorem physOf_isAddr (lt : frame < 2 ^ 40) : IsAddr (physOf frame) := by
  apply BitVec.eq_of_getLsbD_eq
  intro i _
  rw [archPteAddr, BitVec.getLsbD_and, addrMask_bit, physOf, BitVec.getLsbD_ofNat,
    show 4096 * frame = 2 ^ 12 * frame from rfl, Nat.testBit_two_pow_mul]
  by_cases low : 12 ≤ i
  · by_cases high : i < 52
    · simp [low, high]
    have clear : frame.testBit (i - 12) = false :=
      Nat.testBit_lt_two_pow (lt.trans_le (Nat.pow_le_pow_right (by decide) (by omega)))
    simp [clear]
  · simp [low]

end

/-- An entry of an inner table: it names a table, or it is not present. -/
def Points (e : Word) : Option Nat → Prop
  | none => hasFlag e vmmFlagPresent = false
  | some g => hasFlag e vmmFlagPresent = true ∧ hasFlag e ptePs = false ∧
      frameOf (archPteAddr e) = g

/-- How `ensure_table_phys` and the copying loops read an inner entry. -/
def follow (e : Word) : Option Nat :=
  if hasFlag e vmmFlagPresent then some (frameOf (archPteAddr e)) else none

/-- The lookups also stop at a large page in the second last level. -/
def followUser (level : Nat) (e : Word) : Option Nat :=
  if !hasFlag e vmmFlagPresent || (level == 1 && hasFlag e ptePs) then none
  else some (frameOf (archPteAddr e))

/-- Teardown skips large pages below the root. -/
def followFree (level : Nat) (e : Word) : Option Nat :=
  if !hasFlag e vmmFlagPresent || (level != 3 && hasFlag e ptePs) then none
  else some (frameOf (archPteAddr e))

def tableEntry (g : Nat) : Word :=
  physOf g ||| (vmmFlagPresent ||| vmmFlagWritable ||| vmmFlagUser)

def installPte (phys flags old : Word) : Option Word :=
  if hasFlag old vmmFlagPresent then none else some (phys ||| (flags ||| vmmFlagPresent))

def pteFrames (pte : Word) : List Nat :=
  if pte = 0 then [] else if archPteAddr pte = 0 then [] else [frameOf (archPteAddr pte)]

theorem follow_eq (e : Word) (o : Option Nat) (points : Points e o) : follow e = o := by
  cases o with
  | none => simp [follow, show hasFlag e vmmFlagPresent = false from points]
  | some g => simp [follow, points.1, points.2.2]

theorem followUser_eq (level : Nat) (e : Word) (o : Option Nat) (points : Points e o) :
    followUser level e = o := by
  cases o with
  | none => simp [followUser, show hasFlag e vmmFlagPresent = false from points]
  | some g => simp [followUser, points.1, points.2.1, points.2.2]

theorem followFree_eq (level : Nat) (e : Word) (o : Option Nat) (points : Points e o) :
    followFree level e = o := by
  cases o with
  | none => simp [followFree, show hasFlag e vmmFlagPresent = false from points]
  | some g => simp [followFree, points.1, points.2.1, points.2.2]

theorem points_zero : Points 0 none := (by decide : hasFlag 0 vmmFlagPresent = false)

theorem points_tableEntry {g : Nat} (lt : g < 2 ^ 40) : Points (tableEntry g) (some g) := by
  have addr := physOf_isAddr lt
  have bare : IsFlags (vmmFlagPresent ||| vmmFlagWritable ||| vmmFlagUser) := by decide
  refine ⟨?_, ?_, ?_⟩
  · rw [tableEntry, hasFlag_or]
    exact Bool.or_eq_true_iff.mpr (.inr (by decide))
  · rw [tableEntry, hasFlag_or, hasFlag_addr addr (by decide)]
    decide
  · rw [tableEntry, archPteAddr_addr addr bare, frameOf_physOf lt]

theorem allocTable_supply (p : Pmm) (g : Nat) (p' : Pmm) (ht : allocTable p = some (g, p')) :
    Points (tableEntry g) (some g) ∧ ¬ InUse p g ∧ ∀ x, InUse p' x ↔ x = g ∨ InUse p x := by
  obtain ⟨lt, hf, hg⟩ := allocTable_inUse ht
  exact ⟨points_tableEntry (lt.trans (by decide)), hf, hg⟩

theorem ensureTablePhys_eq (parent idx : Nat) (s : Phys) :
    ensureTablePhys parent idx vmmFlagUser s =
      ensure follow allocTable 0 tableEntry parent idx s := by
  unfold ensureTablePhys ensure follow
  by_cases hp : hasFlag (s.1 parent idx) vmmFlagPresent = true
  · simp [hp]
  · simp [hp, allocCleared, Function.comp_def, tableEntry]

section
variable (virt : Nat)

theorem index_pml4 : index 512 3 (virt / 4096) = pml4Idx virt := by
  simp only [index, pml4Idx]
  omega

theorem index_pdpt : index 512 2 (virt / 4096) = pdptIdx virt := by
  simp only [index, pdptIdx]
  omega

theorem index_pd : index 512 1 (virt / 4096) = pdIdx virt := by
  simp only [index, pdIdx]
  omega

theorem index_pt : index 512 0 (virt / 4096) = ptIdx virt := by
  simp only [index, ptIdx]
  omega

theorem vmmMapUserPageNolock_eq (pml4 : Nat) (phys flags : Word) (s : Phys) :
    vmmMapUserPageNolock pml4 virt phys flags s =
      descend follow allocTable 0 tableEntry (installPte phys flags) 512 3 pml4 (virt / 4096) s := by
  simp only [vmmMapUserPageNolock, descend, ensureTablePhys_eq, Nat.reduceAdd, index_pml4,
    index_pdpt, index_pd, index_pt, bind, installPte]
  congr 1
  funext a
  congr 1
  funext b
  congr 1
  funext c
  split
  · rfl
  · rfl

theorem userTable_eq (mem : TableMemory.Memory Word) (pml4 : Nat) :
    userTable mem pml4 virt = walkTable followUser 512 mem 3 pml4 (virt / 4096) := by
  simp only [userTable, walkTable, Nat.reduceAdd, index_pml4, index_pdpt, index_pd, followUser]
  by_cases h1 : hasFlag (mem pml4 (pml4Idx virt)) vmmFlagPresent = true
  · simp only [h1]
    by_cases h2 : hasFlag (mem (frameOf (archPteAddr (mem pml4 (pml4Idx virt))))
        (pdptIdx virt)) vmmFlagPresent = true
    · simp [h2]
    · simp [h2]
  · simp [h1]

end

theorem foldl_freePages (l : List Nat) (g : Nat → List Nat) (p : Pmm) :
    l.foldl (fun p x => freePages p (g x)) p = freePages p (l.flatMap g) := by
  induction l generalizing p with
  | nil => rfl
  | cons x l ih => rw [foldl_cons, ih, flatMap_cons, freePages, freePages, freePages,
      foldl_append]

theorem freePages_append (p : Pmm) (l : List Nat) (g : Nat) :
    freePages p (l ++ [g]) = pmmFreePage (freePages p l) g := by
  simp [freePages]

theorem freePt_eq (mem : TableMemory.Memory Word) (pt : Nat) (p : Pmm) :
    freePt mem pt p = freePages p (gather followFree pteFrames 512 mem 0 512 pt) := by
  rw [freePt, gather, ← foldl_freePages]
  congr 1
  funext p l
  simp only [pteFrames]
  split
  · rfl
  split
  · rfl
  · rfl

theorem freeSlot_eq {level : Nat} (middle : level ≠ 3) (e : Word) (p : Pmm)
    {free : Nat → Pmm → Pmm} {b : Nat → List Nat}
    (eq : ∀ t p, free t p = freePages p (b t)) :
    (if !hasFlag e vmmFlagPresent then p else if hasFlag e ptePs then p
      else pmmFreePage (free (frameOf (archPteAddr e)) p) (frameOf (archPteAddr e))) =
      freePages p (match followFree level e with
        | none => []
        | some g => b g ++ [g]) := by
  by_cases hp : hasFlag e vmmFlagPresent = true
  · by_cases hl : hasFlag e ptePs = true
    · simp [followFree, hp, hl, middle, freePages]
    · simp [followFree, hp, hl, eq, freePages_append]
  · simp [followFree, hp, freePages]

section
variable (mem : TableMemory.Memory Word)

theorem freePd_eq (pd : Nat) (p : Pmm) :
    freePd mem pd p = freePages p (gather followFree pteFrames 512 mem 1 512 pd) := by
  rw [freePd, gather, ← foldl_freePages]
  congr 1
  funext p k
  exact freeSlot_eq (by decide) (mem pd k) p (freePt_eq mem)

theorem freePdpt_eq (pdpt : Nat) (p : Pmm) :
    freePdpt mem pdpt p = freePages p (gather followFree pteFrames 512 mem 2 512 pdpt) := by
  rw [freePdpt, gather, ← foldl_freePages]
  congr 1
  funext p j
  exact freeSlot_eq (by decide) (mem pdpt j) p (freePd_eq mem)

theorem vmmFreeUserPml4_eq (pml4 : Nat) (p : Pmm) :
    vmmFreeUserPml4 mem pml4 p =
      freePages p (gather followFree pteFrames 512 mem 3 256 pml4 ++ [pml4]) := by
  rw [freePages_append, gather, ← foldl_freePages, vmmFreeUserPml4]
  congr 2
  funext p i
  by_cases hp : hasFlag (mem pml4 i) vmmFlagPresent = true
  · simp [followFree, hp, freePdpt_eq, freePages_append]
  · simp [followFree, hp, freePages]

end

/-- The words from the root `pml4` on spell the tree `t` of user tables, and its tables are
allocated, apart from each other and from the frames in `rest`. -/
structure Spells (s : Phys) (pml4 : Nat) (rest : List Nat) (t : Table Nat Word 3) : Prop where
  rep : Rep Points 512 s.1 3 256 pml4 t
  owned : Memory.Owned s.2 (pml4 :: tables 512 3 256 t ++ rest)

def entry (t : Table Nat Word 3) (page : Nat) : Word := look 512 0 3 t page

section
variable {s s' : Phys} {pml4 virt : Nat} {rest : List Nat} {t : Table Nat Word 3}
  {phys flags : Word}

theorem Spells.distinct (hs : Spells s pml4 rest t) : (pml4 :: tables 512 3 256 t).Nodup :=
  (nodup_append.mp hs.owned.nodup).1

theorem Spells.live (hs : Spells s pml4 rest t) {g : Nat}
    (hm : g ∈ pml4 :: tables 512 3 256 t) : InUse s.2 g :=
  .inl (hs.owned.live g (mem_append_left rest hm)).1

theorem page_lt (user : virt < 2 ^ 47) : virt / 4096 < userPages := by
  simp only [userPages]
  omega

theorem index_user (user : virt < 2 ^ 47) : index 512 3 (virt / 4096) < 256 :=
  index_page (page_lt user)

section
variable (hs : Spells s pml4 rest t)
include hs

section
variable (user : virt < 2 ^ 47)
include user

theorem Spells.userTable : userTable s.1 pml4 virt = leafTable 512 3 pml4 t (virt / 4096) := by
  rw [userTable_eq]
  exact hs.rep.walkTable_eq (by decide) followUser_eq (index_user user)

theorem Spells.word {pt : Nat} (hf : PageTables.userTable s.1 pml4 virt = some pt) :
    s.1 pt (ptIdx virt) = entry t (virt / 4096) := by
  rw [hs.userTable user] at hf
  rw [← index_pt]
  exact hs.rep.word (by decide) (index_user user) hf

theorem Spells.no_table (ha : PageTables.userTable s.1 pml4 virt = none) :
    entry t (virt / 4096) = 0 := by
  rw [hs.userTable user] at ha
  exact look_of_leafTable_none ha

theorem Spells.physOfUser : vmmPhysOfUser s.1 pml4 virt =
      if hasFlag (entry t (virt / 4096)) vmmFlagPresent then archPteAddr (entry t (virt / 4096))
      else 0 := by
  rw [vmmPhysOfUser]
  cases hf : PageTables.userTable s.1 pml4 virt with
  | none =>
    rw [hs.no_table user hf]
    rfl
  | some pt => simp only [hs.word user hf]

theorem Spells.physOfUserRaw :
    vmmPhysOfUserRaw s.1 pml4 virt = archPteAddr (entry t (virt / 4096)) := by
  rw [vmmPhysOfUserRaw]
  cases hf : PageTables.userTable s.1 pml4 virt with
  | none =>
    rw [hs.no_table user hf]
    rfl
  | some pt =>
    simp only [hs.word user hf]
    split
    · rfl
    next zero =>
    rw [not_not.mp zero]
    rfl

end

end

theorem allocs_allocated {p p' : Pmm} {new : List Nat} (ht : Allocs allocTable p new p') :
    p'.allocated = new.reverse ++ p.allocated := by
  induction ht with
  | nil => rfl
  | cons h1 _ ih =>
    unfold allocTable at h1
    split at h1
    · cases h1
    next hf =>
    have eq := Option.some.inj h1
    obtain ⟨zero, -⟩ | ⟨-, -, rfl⟩ := pmmAllocPage_cases eq
    · rw [eq] at hf
      exact absurd zero hf
    · rw [ih]
      simp

/-- A mapping in words is a planted entry in the tree: the entry of its page is new, all
others stay, and so do the upper half of the root and the words of every other frame that
was in use. -/
theorem Spells.map (hs : Spells s pml4 rest t) (user : virt < 2 ^ 47)
    (done : vmmMapUserPageNolock pml4 virt phys flags s = some s') :
    ∃ t', Spells s' pml4 rest t' ∧ hasFlag (entry t (virt / 4096)) vmmFlagPresent = false ∧
      entry t' (virt / 4096) = phys ||| (flags ||| vmmFlagPresent) ∧
      (∀ q < userPages, q ≠ virt / 4096 → entry t' q = entry t q) ∧
      (∀ i, 256 ≤ i → s'.1 pml4 i = s.1 pml4 i) ∧
      (∀ g, InUse s.2 g → g ∉ pml4 :: tables 512 3 256 t → s'.1 g = s.1 g) ∧
      ∃ new, Allocs allocTable s.2 new s'.2 ∧
        (tables 512 3 256 t').Perm (new ++ tables 512 3 256 t) := by
  rw [vmmMapUserPageNolock_eq] at done
  obtain ⟨mem', p'⟩ := s'
  obtain ⟨t', planted, rep, others, upper⟩ := Rep.descend (by decide) points_zero follow_eq
    allocTable_supply hs.rep hs.distinct (fun g => hs.live) (index_user user) done
  obtain ⟨made, rest'⟩ := look_plant (by decide) planted
  obtain ⟨new, taken, order⟩ : ∃ new, Allocs allocTable s.2 new p' ∧
      (tables 512 3 256 t').Perm (new ++ tables 512 3 256 t) :=
    tables_plant (by decide) (index_user user) planted
  obtain ⟨vacant, word⟩ : hasFlag (entry t (virt / 4096)) vmmFlagPresent = false ∧
      phys ||| (flags ||| vmmFlagPresent) = entry t' (virt / 4096) := by
    unfold installPte at made
    split at made
    · cases made
    · next absent => exact ⟨by simpa [entry] using absent, Option.some.inj made⟩
  refine ⟨t', ⟨rep, ?_⟩, vacant, word.symm, fun q small other => ?_, fun i high => ?_, others,
    new, taken, order⟩
  · refine Memory.Owned.perm ?_ (Memory.Owned.custody.allocs taken hs.owned)
    calc new ++ (pml4 :: tables 512 3 256 t ++ rest)
        _ |>.Perm (pml4 :: (new ++ (tables 512 3 256 t ++ rest))) := perm_middle
        _ |>.Perm (pml4 :: ((new ++ tables 512 3 256 t) ++ rest)) := by rw [append_assoc]
        _ |>.Perm (pml4 :: tables 512 3 256 t' ++ rest) := (order.symm.append_right rest).cons pml4
  · exact rest' q fun path => other ((samePath_page (page_lt user) small).mp path)
  · exact upper i (by have := index_user user; omega)

def rewriteEntry (mem : TableMemory.Memory Word) (pml4 virt : Nat) (h : Word → Word) :
    TableMemory.Memory Word :=
  match userTable mem pml4 virt with
  | none => mem
  | some pt => write mem pt (ptIdx virt) (h (mem pt (ptIdx virt)))

def unmapPte (old : Word) : Word :=
  if hasFlag old vmmFlagPresent then 0 else old

def protPte (flags old : Word) : Word :=
  if hasFlag old vmmFlagPresent then
    if flags = 0 then archPteAddr old else archPteAddr old ||| flags
  else old

theorem unmapPte_zero : unmapPte 0 = 0 := by decide

theorem protPte_zero (flags : Word) : protPte flags 0 = 0 := if_neg (by decide)

theorem vmmUnmapUserPage_eq (mem : TableMemory.Memory Word) (pml4 virt : Nat) :
    vmmUnmapUserPage mem pml4 virt = rewriteEntry mem pml4 virt unmapPte := by
  unfold vmmUnmapUserPage rewriteEntry unmapPte
  cases userTable mem pml4 virt with
  | none => rfl
  | some pt =>
    dsimp only
    split
    · rfl
    · exact (write_self ..).symm

theorem vmmSetUserProt_eq (mem : TableMemory.Memory Word) (pml4 virt : Nat) (flags : Word) :
    (vmmSetUserProt mem pml4 virt flags).1 = rewriteEntry mem pml4 virt (protPte flags) := by
  unfold vmmSetUserProt rewriteEntry protPte
  cases userTable mem pml4 virt with
  | none => rfl
  | some pt =>
    by_cases hp : hasFlag (mem pt (ptIdx virt)) vmmFlagPresent = true
    · simp [hp]
    simp only [hp, Bool.not_false, Bool.true_and, if_true]
    split
    · simp
    · simp

theorem Spells.rewrite (hs : Spells s pml4 rest t) (user : virt < 2 ^ 47) {h : Word → Word}
    (hx : h 0 = 0) :
    ∃ t', Spells (rewriteEntry s.1 pml4 virt h, s.2) pml4 rest t' ∧
      entry t' (virt / 4096) = h (entry t (virt / 4096)) ∧
      (∀ q < userPages, q ≠ virt / 4096 → entry t' q = entry t q) ∧
      (∀ i, rewriteEntry s.1 pml4 virt h pml4 i = s.1 pml4 i) ∧
      (tables 512 3 256 t').Perm (tables 512 3 256 t) := by
  have perm : (tables 512 3 256 (adjust 512 h 3 t (virt / 4096))).Perm (tables 512 3 256 t) :=
    tables_adjust (by decide) hx (index_user user)
  have self : entry (adjust 512 h 3 t (virt / 4096)) (virt / 4096) = h (entry t (virt / 4096)) :=
    look_adjust_self hx
  have ho (q : Nat) (lt : q < userPages) (other : q ≠ virt / 4096) :
      entry (adjust 512 h 3 t (virt / 4096)) q = entry t q :=
    look_adjust_other (by decide) fun path =>
      other ((samePath_page (page_lt user) lt).mp path)
  have how : Memory.Owned s.2 (pml4 :: tables 512 3 256 (adjust 512 h 3 t (virt / 4096)) ++ rest) :=
    hs.owned.perm ((perm.symm.append_right rest).cons pml4)
  refine ⟨adjust 512 h 3 t (virt / 4096), ⟨?_, how⟩, self, ho, fun i => ?_, perm⟩
  · unfold rewriteEntry
    rw [hs.userTable user]
    cases hf : leafTable 512 3 pml4 t (virt / 4096) with
    | none =>
      rw [adjust_of_leafTable_none hf]
      exact hs.rep
    | some pt =>
      rw [← index_pt]
      exact hs.rep.write (by decide) hs.distinct (index_user user) hf
  · unfold rewriteEntry
    rw [hs.userTable user]
    cases hf : leafTable 512 3 pml4 t (virt / 4096) with
    | none => rfl
    | some pt =>
      have hb := leafTable_mem_tables (by decide) (index_user user) hf
      have hn : pml4 ≠ pt := fun eq =>
        (nodup_cons.mp hs.distinct).1 (eq ▸ hb)
      exact congrFun (write_other hn) i

end

end Aegis.PageTables
