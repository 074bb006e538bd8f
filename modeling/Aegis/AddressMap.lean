import Aegis.LabelledRun
import Aegis.PageTables

/-! The user page tables as a map from pages to frames.
A run maps, protects and unmaps pages of one address space that `vmm_create_user_pml4` has
made. What the map should be is read off the log of the run: the address last mapped at a
page and not unmapped since. The words agree with it in every run that unmaps only pages
whose entry is zero or present: `vmm_unmap_user_page` leaves an entry that `PROT_NONE` has
made not present. -/

namespace Aegis.PageTables

open LabelledRun RadixTree TableMemory Function List Option
open Memory (Pmm pmmAllocPage pmmFreePage allocTable freePages userPages)

inductive PtOp
  | map (virt : Nat) (phys flags : Word)
  | prot (virt : Nat) (flags : Word)
  | unmap (virt : Nat)

def PtOp.virt : PtOp → Nat
  | .map virt _ _ | .prot virt _ | .unmap virt => virt

structure PtState where
  phys : Phys
  log : List PtOp

def ptStep (pml4 : Nat) (s : PtState) (op : PtOp) : Option PtState :=
  match op with
  | .map virt phys flags =>
    (vmmMapUserPage pml4 virt phys flags s.phys).map fun p => ⟨p, op :: s.log⟩
  | .prot virt flags =>
    some ⟨((vmmSetUserProt s.phys.1 pml4 virt flags).1, s.phys.2), op :: s.log⟩
  | .unmap virt => some ⟨(vmmUnmapUserPage s.phys.1 pml4 virt, s.phys.2), op :: s.log⟩

/-- The address last mapped at a page and not unmapped since, 0 if there is none. -/
def lastMapped : List PtOp → Nat → Word
  | [], _ => 0
  | .map virt phys _ :: log, q => if q = virt / 4096 then phys else lastMapped log q
  | .prot _ _ :: log, q => lastMapped log q
  | .unmap virt :: log, q => if q = virt / 4096 then 0 else lastMapped log q

def presentAt : List PtOp → Nat → Bool
  | [], _ => false
  | .map virt _ _ :: log, q => if q = virt / 4096 then true else presentAt log q
  | .prot virt flags :: log, q =>
    if q = virt / 4096 then presentAt log q && flags != 0 else presentAt log q
  | .unmap virt :: log, q => if q = virt / 4096 then false else presentAt log q

/-- The word of an address in the tables, 0 where a table is missing. -/
def pteAt (mem : TableMemory.Memory Word) (pml4 virt : Nat) : Word :=
  match userTable mem pml4 virt with
  | none => 0
  | some pt => mem pt (ptIdx virt)

/-- Pages of the user half are mapped where the entry is zero, to a non-zero address that
the entry gives back; new flags are 0 or have PRESENT and leave the address alone; a page is
unmapped when its entry is zero or present. -/
def PtOk (pml4 : Nat) (s : PtState) : PtOp → Prop
  | .map virt phys flags => virt % 4096 = 0 ∧ virt < 2 ^ 47 ∧ pteAt s.phys.1 pml4 virt = 0 ∧
      phys ≠ 0 ∧ archPteAddr (phys ||| flags) = phys
  | .prot virt flags => virt < 2 ^ 47 ∧ (flags = 0 ∨ hasFlag flags vmmFlagPresent = true) ∧
      (hasFlag (pteAt s.phys.1 pml4 virt) vmmFlagPresent = true →
        archPteAddr (archPteAddr (pteAt s.phys.1 pml4 virt) ||| flags) =
          archPteAddr (pteAt s.phys.1 pml4 virt))
  | .unmap virt => virt < 2 ^ 47 ∧ (pteAt s.phys.1 pml4 virt = 0 ∨
      hasFlag (pteAt s.phys.1 pml4 virt) vmmFlagPresent = true)

instance (pml4 : Nat) (s : PtState) (op : PtOp) : Decidable (PtOk pml4 s op) := by
  rcases op <;> (dsimp only [PtOk]; infer_instance)

/-- The invariant of a run: the entries of the tree agree with the log, the upper half of
the root is `kernel`, and the tables are the frames allocated since the start. -/
structure MapInv (pml4 : Nat) (kernel : Nat → Word) (rest start : List Nat) (s : PtState)
    (t : Table Nat Word 3) : Prop where
  spells : Spells s.phys pml4 rest t
  upper : ∀ i, 256 ≤ i → i < 512 → s.phys.1 pml4 i = kernel i
  addr : ∀ q < userPages, archPteAddr (entry t q) = lastMapped s.log q
  present : ∀ q < userPages, hasFlag (entry t q) vmmFlagPresent = presentAt s.log q
  zero : ∀ q < userPages, lastMapped s.log q = 0 → entry t q = 0
  made : ∃ new, s.phys.2.allocated = new ++ start ∧ new.Perm (pml4 :: tables 512 3 256 t)

def MapHolds (pml4 : Nat) (kernel : Nat → Word) (rest start : List Nat) (s : PtState) : Prop :=
  ∃ t, MapInv pml4 kernel rest start s t

section
variable {pml4 virt : Nat} {rest start : List Nat} {t : Table Nat Word 3} {s s' : PtState}
  {kernel : Nat → Word} {p : Phys} {op : PtOp} {q : Nat} {flags : Word}

theorem Spells.pteAt (hs : Spells p pml4 rest t) (user : virt < 2 ^ 47) :
    pteAt p.1 pml4 virt = entry t (virt / 4096) := by
  rw [PageTables.pteAt]
  cases hf : PageTables.userTable p.1 pml4 virt with
  | none => exact (hs.no_table user hf).symm
  | some pt => exact hs.word user hf

theorem vmmCreateUserPml4_spells {master : Nat} {s₀ s₁ : Phys}
    (owned : Memory.Owned s₀.2 rest) (inUse : master ∈ rest)
    (created : vmmCreateUserPml4 master s₀ = some (pml4, s₁)) :
    MapInv pml4 (s₀.1 master) rest s₀.2.allocated ⟨s₁, []⟩ (empty 0 3) := by
  obtain ⟨⟨f, s⟩, taken, same⟩ := map_eq_some_iff.mp created
  obtain ⟨⟨g, p⟩, alloc, same'⟩ := map_eq_some_iff.mp taken
  cases same'
  cases same
  have fresh : master ≠ g := by
    rintro rfl
    exact (allocTable_supply _ _ _ alloc).2.1 (.inl (owned.live master inUse).1)
  have allocs : Allocs allocTable s₀.2 [g] p := .cons alloc (.nil p)
  have none : tables 512 3 256 (empty 0 3 : Table Nat Word 3) = [] := tables_empty
  refine ⟨⟨?_, ?_⟩, fun i low high => ?_, fun q _ => ?_, fun q _ => ?_, fun q _ _ => look_empty,
    [g], ?_, by rw [none]⟩
  · intro i small
    have word : (update (fill s₀.1 g 0) g fun i =>
        if 256 ≤ i ∧ i < 512 then fill s₀.1 g 0 master i else fill s₀.1 g 0 g i) g i = 0 := by
      rw [update_self, if_neg (by omega), fill, update_self]
    dsimp only
    rw [word]
    exact ⟨points_zero, fun child slot => by cases slot⟩
  · rw [none]
    exact Memory.Owned.custody.allocs allocs owned
  · dsimp only
    rw [update_self, if_pos ⟨low, high⟩, fill, update_of_ne fresh]
  · rw [entry, look_empty]
    rfl
  · rw [entry, look_empty]
    rfl
  · exact allocs_allocated allocs

theorem lastMapped_other {log : List PtOp} (other : q ≠ op.virt / 4096) :
    lastMapped (op :: log) q = lastMapped log q := by
  cases op with
  | map virt phys flags => exact if_neg other
  | prot virt flags => rfl
  | unmap virt => exact if_neg other

theorem presentAt_other {log : List PtOp} (other : q ≠ op.virt / 4096) :
    presentAt (op :: log) q = presentAt log q := by
  cases op with
  | map virt phys flags => exact if_neg other
  | prot virt flags => exact if_neg other
  | unmap virt => exact if_neg other

theorem MapInv.extend {t' : Table Nat Word 3} (inv : MapInv pml4 kernel rest start s t)
    (hs : Spells p pml4 rest t') (upper : ∀ i, 256 ≤ i → p.1 pml4 i = s.phys.1 pml4 i)
    (ho : ∀ q < userPages, q ≠ op.virt / 4096 → entry t' q = entry t q)
    (made : ∃ new, p.2.allocated = new ++ start ∧ new.Perm (pml4 :: tables 512 3 256 t'))
    (addr : archPteAddr (entry t' (op.virt / 4096)) = lastMapped (op :: s.log) (op.virt / 4096))
    (hp : hasFlag (entry t' (op.virt / 4096)) vmmFlagPresent =
      presentAt (op :: s.log) (op.virt / 4096))
    (zero : lastMapped (op :: s.log) (op.virt / 4096) = 0 → entry t' (op.virt / 4096) = 0) :
    MapInv pml4 kernel rest start ⟨p, op :: s.log⟩ t' := by
  refine ⟨hs, fun i low high => (upper i low).trans (inv.upper i low high), ?_, ?_, ?_, made⟩
  · intro q lt
    by_cases here : q = op.virt / 4096
    · rw [here, addr]
    · rw [ho q lt here, lastMapped_other here]
      exact inv.addr q lt
  · intro q lt
    by_cases here : q = op.virt / 4096
    · rw [here, hp]
    · rw [ho q lt here, presentAt_other here]
      exact inv.present q lt
  · intro q lt none
    by_cases here : q = op.virt / 4096
    · rw [here]
      exact zero (here ▸ none)
    rw [lastMapped_other here] at none
    rw [ho q lt here]
    exact inv.zero q lt none

theorem vmmMapUserPage_nolock {phys : Word} {p' : Phys}
    (hm : vmmMapUserPage pml4 virt phys flags p = some p') :
    vmmMapUserPageNolock pml4 virt phys flags p = some p' := by
  unfold vmmMapUserPage at hm
  split at hm
  · cases hm
  split at hm
  · cases hm
  · exact hm

section
variable (inv : MapInv pml4 kernel rest start s t)
include inv

theorem MapInv.map {phys : Word} (ha : PtOk pml4 s (.map virt phys flags))
    (hv : ptStep pml4 s (.map virt phys flags) = some s') :
    ∃ t', MapInv pml4 kernel rest start s' t' ∧
      ∀ q < userPages, q ≠ virt / 4096 → entry t' q = entry t q := by
  obtain ⟨-, user, -, hn, hp⟩ := ha
  obtain ⟨p, hm, rfl⟩ := map_eq_some_iff.mp hv
  obtain ⟨t', hs, -, word, ho, upper, -, new, ht, order⟩ :=
    inv.spells.map user (vmmMapUserPage_nolock hm)
  have addr : archPteAddr (phys ||| (flags ||| vmmFlagPresent)) = phys := by
    rw [← BitVec.or_assoc, archPteAddr_or, hp]
    exact BitVec.or_zero
  refine ⟨t', inv.extend hs upper ho ?_ ?_ ?_ ?_, ho⟩
  · obtain ⟨old, list, perm⟩ := inv.made
    refine ⟨new.reverse ++ old, ?_, ?_⟩
    · rw [allocs_allocated ht, list, append_assoc]
    · exact ((new.reverse_perm).append perm).trans (perm_middle.trans (order.symm.cons pml4))
  · simp only [PtOp.virt, lastMapped, if_true, word]
    exact addr
  · simp only [PtOp.virt, presentAt, if_true, word, hasFlag_or,
      show hasFlag vmmFlagPresent vmmFlagPresent = true by decide, Bool.or_true]
  · intro none
    simp only [PtOp.virt, lastMapped, if_true] at none
    exact absurd none hn

theorem MapInv.prot (ha : PtOk pml4 s (.prot virt flags))
    (hm : ptStep pml4 s (.prot virt flags) = some s') :
    ∃ t', MapInv pml4 kernel rest start s' t' ∧
      ∀ q < userPages, q ≠ virt / 4096 → entry t' q = entry t q := by
  obtain ⟨user, kind, hc⟩ := ha
  rw [inv.spells.pteAt user] at hc
  cases hm
  obtain ⟨t', hs, word, ho, upper, order⟩ := inv.spells.rewrite user (protPte_zero flags)
  rw [← vmmSetUserProt_eq] at hs upper
  have low : ∀ e : Word, hasFlag (archPteAddr e) vmmFlagPresent = false := fun e =>
    hasFlag_addr (archPteAddr_isAddr e) (by decide)
  refine ⟨t', inv.extend hs (fun i _ => upper i) ho ?_ ?_ ?_ ?_, ho⟩
  · obtain ⟨old, list, perm⟩ := inv.made
    exact ⟨old, list, perm.trans (order.symm.cons pml4)⟩
  · rw [PtOp.virt, lastMapped, ← inv.addr _ (page_lt user), word, protPte]
    split
    · next hp =>
      split
      · exact archPteAddr_isAddr _
      · exact hc hp
    · rfl
  · rw [PtOp.virt, presentAt, if_pos rfl, ← inv.present _ (page_lt user), word, protPte]
    split
    · next hp =>
      split
      · next none => simp [low, none]
      next some =>
      rw [hasFlag_or, low, kind.resolve_left some, hp]
      simpa using some
    · next hb => simp [hb]
  · intro none
    rw [PtOp.virt, lastMapped] at none
    rw [PtOp.virt, word, inv.zero _ (page_lt user) none, protPte_zero]

theorem MapInv.unmap (ha : PtOk pml4 s (.unmap virt)) (hm : ptStep pml4 s (.unmap virt) = some s') :
    ∃ t', MapInv pml4 kernel rest start s' t' ∧
      ∀ q < userPages, q ≠ virt / 4096 → entry t' q = entry t q := by
  obtain ⟨user, hw⟩ := ha
  cases hm
  obtain ⟨t', hs, word, ho, upper, order⟩ := inv.spells.rewrite user unmapPte_zero
  rw [← vmmUnmapUserPage_eq] at hs upper
  have gone : entry t' (virt / 4096) = 0 := by
    rw [inv.spells.pteAt user] at hw
    rw [word]
    rcases hw with zero | hp
    · rw [zero, unmapPte_zero]
    · rw [unmapPte, if_pos hp]
  refine ⟨t', inv.extend hs (fun i _ => upper i) ho ?_ ?_ ?_ fun _ => gone, ho⟩
  · obtain ⟨old, list, perm⟩ := inv.made
    exact ⟨old, list, perm.trans (order.symm.cons pml4)⟩
  · rw [PtOp.virt, gone, lastMapped, if_pos rfl]
    rfl
  · rw [PtOp.virt, gone, presentAt, if_pos rfl]
    rfl

theorem MapInv.step (ha : PtOk pml4 s op) (hm : ptStep pml4 s op = some s') :
    ∃ t', MapInv pml4 kernel rest start s' t' ∧
      ∀ q < userPages, q ≠ op.virt / 4096 → entry t' q = entry t q := by
  cases op with
  | map virt phys flags => exact inv.map ha hm
  | prot virt flags => exact inv.prot ha hm
  | unmap virt => exact inv.unmap ha hm

theorem MapInv.pteFrames_eq (lt : q < userPages) : pteFrames (entry t q) =
      if lastMapped s.log q = 0 then [] else [frameOf (lastMapped s.log q)] := by
  have addr := inv.addr q lt
  by_cases none : lastMapped s.log q = 0
  · rw [inv.zero q lt none, if_pos none]
    rfl
  · have used : entry t q ≠ 0 := fun zero => none (by rw [← addr, zero]; rfl)
    rw [pteFrames, if_neg used, addr, if_neg none]

end

end

theorem freePages_freed (p : Pmm) (l : List Nat) :
    (freePages p l).freed = l.reverse ++ p.freed := by
  have one (p : Pmm) (f : Nat) : (pmmFreePage p f).freed = f :: p.freed := by
    simp only [pmmFreePage]
    split
    · rfl
    split
    · rfl
    split
    · rfl
    · rfl
  induction l generalizing p with
  | nil => rfl
  | cons f l ih =>
    rw [freePages, foldl_cons, ← freePages, ih, one]
    simp

/-- The tables of an address space are a finite map. From `vmm_create_user_pml4` on, in every
run whose operations meet `PtOk`: a lookup returns the address last mapped at the page and
not unmapped since, the lookup of present pages does so while the page is present, the
upper half of the root stays what the master table had, an operation changes no entry of
another page, a mapping fails only when no table can be allocated, and teardown frees each
frame that was allocated for a table once and the frame of each mapped page once. -/
theorem page_tables_are_map {master pml4 : Nat} {rest : List Nat} {s₀ s₁ : Phys}
    (owned : Memory.Owned s₀.2 rest) (inUse : master ∈ rest)
    (created : vmmCreateUserPml4 master s₀ = some (pml4, s₁)) {ops : List PtOp} {s : PtState}
    (run : RunWhere (ptStep pml4) (PtOk pml4) ⟨s₁, []⟩ ops s) :
    (∀ virt < 2 ^ 47, vmmPhysOfUserRaw s.phys.1 pml4 virt = lastMapped s.log (virt / 4096) ∧
        vmmPhysOfUser s.phys.1 pml4 virt =
          if presentAt s.log (virt / 4096) then lastMapped s.log (virt / 4096) else 0) ∧
      (∀ i, 256 ≤ i → i < 512 → s.phys.1 pml4 i = s₀.1 master i) ∧
      (∀ op s', PtOk pml4 s op → ptStep pml4 s op = some s' →
        ∀ virt < 2 ^ 47, virt / 4096 ≠ op.virt / 4096 →
          pteAt s'.phys.1 pml4 virt = pteAt s.phys.1 pml4 virt) ∧
      (∀ op, PtOk pml4 s op → ptStep pml4 s op = none →
        ∃ new last, new.length < 3 ∧ Allocs allocTable s.phys.2 new last ∧ allocTable last = none) ∧
      ∃ made released : List Nat, s.phys.2.allocated = made ++ s₀.2.allocated ∧ made.Nodup ∧
        (vmmFreeUserPml4 s.phys.1 pml4 s.phys.2).freed = released.reverse ++ s.phys.2.freed ∧
        released.Perm (made ++ (List.range userPages).flatMap fun q =>
          if lastMapped s.log q = 0 then [] else [frameOf (lastMapped s.log q)]) := by
  obtain ⟨t, inv⟩ : MapHolds pml4 (s₀.1 master) rest s₀.2.allocated s := by
    refine run.invariant ⟨_, vmmCreateUserPml4_spells owned inUse created⟩ ?_
    rintro _ _ _ ⟨_, inv⟩ admitted moves
    exact (inv.step admitted moves).imp fun _ kept => kept.1
  refine ⟨fun virt user => ⟨?_, ?_⟩, inv.upper, fun op s' admitted moves virt user other => ?_,
    fun op admitted failed => ?_, ?_⟩
  · rw [inv.spells.physOfUserRaw user, inv.addr _ (page_lt user)]
  · rw [inv.spells.physOfUser user, inv.addr _ (page_lt user), inv.present _ (page_lt user)]
  · obtain ⟨t', inv', same⟩ := inv.step admitted moves
    rw [inv'.spells.pteAt user, inv.spells.pteAt user, same _ (page_lt user) other]
  · cases op with
    | map virt phys flags =>
      obtain ⟨aligned, user, vacant, -, apart⟩ := admitted
      have addr : IsAddr phys := apart ▸ archPteAddr_isAddr (phys ||| flags)
      have low : phys &&& 0xFFF = 0 := by
        have := hasFlag_addr addr (show archPteAddr 0xFFF = 0 by decide)
        simpa [hasFlag] using this
      rw [ptStep, map_eq_none_iff, vmmMapUserPage, if_neg (by simpa using aligned),
        if_neg (by simpa using low), vmmMapUserPageNolock_eq] at failed
      rcases plant_none (Rep.descend_none (by decide) points_zero follow_eq allocTable_supply
        inv.spells.rep (fun g => inv.spells.live) (index_user user) failed) with dry | refused
      · exact dry
      have zero : entry t (virt / 4096) = 0 := by rw [← inv.spells.pteAt user, vacant]
      rw [entry] at zero
      rw [zero] at refused
      have absent : hasFlag 0#64 vmmFlagPresent = false := by decide
      exact absurd refused (by simp [installPte, absent])
    | prot virt flags => cases failed
    | unmap virt => cases failed
  · obtain ⟨made, list, perm⟩ := inv.made
    refine ⟨made, frames 512 pteFrames 3 256 t ++ [pml4], list,
      perm.nodup_iff.mpr inv.spells.distinct, ?_, ?_⟩
    · rw [vmmFreeUserPml4_eq, freePages_freed, inv.spells.rep.gather followFree_eq]
    have keys : (frames 512 pteFrames 3 256 t).Perm (tables 512 3 256 t ++
        (List.range (256 * 512 ^ 3)).flatMap fun q => pteFrames (look 512 0 3 t q)) :=
      frames_perm_keys (0 : Word) rfl (by decide)
    have same : ((List.range (256 * 512 ^ 3)).flatMap fun q => pteFrames (look 512 0 3 t q)) =
        (List.range userPages).flatMap fun q =>
          if lastMapped s.log q = 0 then [] else [frameOf (lastMapped s.log q)] :=
      flatMap_congr fun q member => inv.pteFrames_eq (mem_range.mp member)
    rw [same] at keys
    calc frames 512 pteFrames 3 256 t ++ [pml4]
        _ |>.Perm (pml4 :: frames 512 pteFrames 3 256 t) := perm_append_singleton ..
        _ |>.Perm (pml4 :: (tables 512 3 256 t ++ _)) := keys.cons pml4
        _ |>.Perm (made ++ _) := perm.symm.append_right _

def bootPhys : Phys :=
  (fun f i => if f = 1 ∧ i = 511 then 0x8003 else 0,
    ⟨fun f => f ≤ 1, fun f => if f = 1 then 1 else 0, [], []⟩)

def freshPhys : Phys := ((vmmCreateUserPml4 1 bootPhys).getD (0, bootPhys)).2

theorem freshPhys_created : vmmCreateUserPml4 1 bootPhys = some (2, freshPhys) := by
  obtain ⟨⟨root, s⟩, made⟩ := isSome_iff_exists.mp
    (by decide +kernel : (vmmCreateUserPml4 1 bootPhys).isSome)
  have two : ((vmmCreateUserPml4 1 bootPhys).getD (0, bootPhys)).1 = 2 := by decide +kernel
  rw [made] at two
  rw [freshPhys, made]
  exact congrArg some (Prod.ext two rfl)

def mapOps : List PtOp :=
  [.map 0x400000 0x9000 0x6, .map 0x7FFFFFFFE000 0xA000 0x8000000000000004, .prot 0x400000 0,
    .unmap 0x7FFFFFFFE000]

theorem page_tables_are_map_two_pages :
    vmmPhysOfUserRaw (reached (guarded (ptStep 2) (PtOk 2)) ⟨freshPhys, []⟩ mapOps).phys.1 2
        0x400ABC = 0x9000 ∧
      vmmPhysOfUser (reached (guarded (ptStep 2) (PtOk 2)) ⟨freshPhys, []⟩ mapOps).phys.1 2
        0x400ABC = 0 ∧
      (reached (guarded (ptStep 2) (PtOk 2)) ⟨freshPhys, []⟩ mapOps).phys.1 2 511 = 0x8003 := by
  have run := runWhere_of_exec (exec_eq_reached (by decide +kernel :
    (exec (guarded (ptStep 2) (PtOk 2)) ⟨freshPhys, []⟩ mapOps).isSome))
  have owned : Memory.Owned bootPhys.2 [1] := ⟨by simp, rfl, by simp [bootPhys, Memory.pmmMaxPages]⟩
  obtain ⟨lookups, upper, -⟩ := page_tables_are_map owned (.head _) freshPhys_created run
  obtain ⟨raw, present⟩ := lookups 0x400ABC (by decide)
  have last : lastMapped (reached (guarded (ptStep 2) (PtOk 2)) ⟨freshPhys, []⟩ mapOps).log
      (0x400ABC / 4096) = 0x9000 := by
    decide +kernel
  have gone : presentAt (reached (guarded (ptStep 2) (PtOk 2)) ⟨freshPhys, []⟩ mapOps).log
      (0x400ABC / 4096) = false := by
    decide +kernel
  rw [last] at raw
  rw [gone] at present
  exact ⟨raw, present, upper 511 (by decide) (by decide)⟩

def protUnmap : List PtOp := [.map 0x400000 0x9000 0x6, .prot 0x400000 0, .unmap 0x400000]

/-- The entry without flags survives the unmapping: the lookup still finds its frame, and
teardown frees it. -/
theorem unmap_keeps_unprotected_entry :
    ∃ s, Run (ptStep 2) ⟨freshPhys, []⟩ protUnmap s ∧ lastMapped s.log (0x400000 / 4096) = 0 ∧
      vmmPhysOfUserRaw s.phys.1 2 0x400000 = 0x9000 :=
  exists_run

end Aegis.PageTables
