import Aegis.AddressMap

/-! Copying an address space for fork (`vmm_copy_user_pages`, kernel/mm/vmm.c). The source is
read table by table while the destination grows by lazy mappings, and both lie in one
physical memory. The window lock is given up and taken again every 32 pages; nothing else
runs in between here. -/

namespace Aegis.PageTables

open RadixTree TableMemory Function List Option
open Memory (Pmm InUse pmmAllocPage userPages allocTable)

/-- The bits of an entry that are copied as its flags, with the NX bit. -/
def pteFlagBits : Word := 0x8000000000000FFF

def copyPte (dst va : Nat) (pte : Word) (s : Phys) : Option Phys :=
  if !hasFlag pte vmmFlagPresent then some s
  else if !hasFlag pte vmmFlagUser then some s
  else if hasFlag pte (vmmFlagWc ||| vmmFlagUcminus) then some s
  else
    let srcPhys := pte &&& ~~~pteFlagBits
    let flags := pte &&& pteFlagBits
    let alloc := pmmAllocPage s.2
    if alloc.1 = 0 then none
    else
      vmmMapUserPageNolock dst va (physOf alloc.1) flags
        (update s.1 alloc.1 (s.1 (frameOf srcPhys)), alloc.2)

def copyPt (dst pml4i pdpti pdi pt : Nat) (s : Phys) : Option Phys :=
  (List.range 512).foldlM (fun s pti =>
    copyPte dst (pml4i <<< 39 ||| pdpti <<< 30 ||| pdi <<< 21 ||| pti <<< 12) (s.1 pt pti) s) s

def copyPd (dst pml4i pdpti pd : Nat) (s : Phys) : Option Phys :=
  (List.range 512).foldlM (fun s pdi =>
    let pde := s.1 pd pdi
    if !hasFlag pde vmmFlagPresent then some s
    else copyPt dst pml4i pdpti pdi (frameOf (archPteAddr pde)) s) s

def copyPdpt (dst pml4i pdpt : Nat) (s : Phys) : Option Phys :=
  (List.range 512).foldlM (fun s pdpti =>
    let pdpte := s.1 pdpt pdpti
    if !hasFlag pdpte vmmFlagPresent then some s
    else copyPd dst pml4i pdpti (frameOf (archPteAddr pdpte)) s) s

def vmmCopyUserPages (src dst : Nat) (s : Phys) : Option Phys :=
  (List.range 256).foldlM (fun s pml4i =>
    let pml4e := s.1 src pml4i
    if !hasFlag pml4e vmmFlagPresent then some s
    else copyPdpt dst pml4i (frameOf (archPteAddr pml4e)) s) s

/-- The entries that are copied: present, open to the user, and not mapping a device. -/
def forkCopies (pte : Word) : Bool :=
  hasFlag pte vmmFlagPresent && hasFlag pte vmmFlagUser &&
    !hasFlag pte (vmmFlagWc ||| vmmFlagUcminus)

theorem foldlM_congr {α β : Type} {f g : α → β → Option α} {l : List β} {a : α}
    (eq : ∀ x ∈ l, ∀ a, f a x = g a x) : l.foldlM f a = l.foldlM g a := by
  induction l generalizing a with
  | nil => rfl
  | cons x l ih =>
    rw [foldlM_cons, foldlM_cons, eq x mem_cons_self]
    congr 1
    funext b
    exact ih fun y hm => eq y (.tail _ hm)

theorem shiftLeft_or_digit (a n : Nat) {b : Nat} (hd : b < 512) :
    a <<< (n + 9) ||| b <<< n = (a * 512 + b) <<< n := by
  have hb : b < 2 ^ 9 := hd
  rw [Nat.add_comm n, Nat.shiftLeft_add, ← Nat.shiftLeft_or_distrib,
    ← Nat.shiftLeft_add_eq_or_of_lt hb, Nat.shiftLeft_eq a]

section
variable (dst : Nat) (s : Phys)

theorem copyPt_eq {i j k : Nat} (pt : Nat) (h2 : j < 512) (ht : k < 512) :
    copyPt dst i j k pt s = visitAll follow (fun q => copyPte dst (q <<< 12)) 512 0 512 pt
      ((i * 512 + j) * 512 + k) s := by
  refine foldlM_congr fun l hm s => ?_
  rw [shiftLeft_or_digit i 30 h2, shiftLeft_or_digit _ 21 ht,
    shiftLeft_or_digit _ 12 (mem_range.mp hm)]

theorem copyPd_eq {i j : Nat} (pd : Nat) (h2 : j < 512) :
    copyPd dst i j pd s = visitAll follow (fun q => copyPte dst (q <<< 12)) 512 1 512 pd
      (i * 512 + j) s := by
  refine foldlM_congr fun k hm s => ?_
  cases hp : hasFlag (s.1 pd k) vmmFlagPresent with
  | false => simp [follow, hp]
  | true => simpa [follow, hp] using copyPt_eq dst s _ h2 (mem_range.mp hm)

theorem copyPdpt_eq (i pdpt : Nat) : copyPdpt dst i pdpt s =
      visitAll follow (fun q => copyPte dst (q <<< 12)) 512 2 512 pdpt i s := by
  refine foldlM_congr fun j hm s => ?_
  cases hp : hasFlag (s.1 pdpt j) vmmFlagPresent with
  | false => simp [follow, hp]
  | true => simpa [follow, hp] using copyPd_eq dst s _ (mem_range.mp hm)

theorem vmmCopyUserPages_eq (src : Nat) : vmmCopyUserPages src dst s =
      visitAll follow (fun q => copyPte dst (q <<< 12)) 512 3 256 src 0 s := by
  refine foldlM_congr fun i _ s => ?_
  cases hp : hasFlag (s.1 src i) vmmFlagPresent with
  | false => simp [follow, hp]
  | true => simpa [follow, hp] using copyPdpt_eq dst s i _

end

theorem copyPte_skips {dst va : Nat} {pte : Word} (s : Phys) (hs : forkCopies pte = false) :
    copyPte dst va pte s = some s := by
  unfold forkCopies at hs
  unfold copyPte
  split
  · rfl
  split
  · rfl
  split
  · rfl
  · simp_all

theorem copyPte_copies {dst va : Nat} {pte : Word} {s s' : Phys} (hc : forkCopies pte = true)
    (done : copyPte dst va pte s = some s') :
    ∃ f p, pmmAllocPage s.2 = (f, p) ∧ f ≠ 0 ∧
      vmmMapUserPageNolock dst va (physOf f) (pte &&& pteFlagBits)
        (update s.1 f (s.1 (frameOf (pte &&& ~~~pteFlagBits))), p) = some s' := by
  simp only [forkCopies, Bool.and_eq_true, Bool.not_eq_true'] at hc
  obtain ⟨⟨hp, user⟩, device⟩ := hc
  simp only [copyPte, hp, user, device, Bool.not_true, Bool.false_eq_true, if_false] at done
  split at done
  · cases done
  · next hf => exact ⟨_, _, rfl, hf, done⟩

/-- The source of a copy: its words spell a tree of tables, next to the root `dst` of the
copy; the frames of its leaves are not free and none is the root of the copy; and the bits of
a copied entry that are neither address nor flags are clear. -/
structure CopySource (s : Phys) (src dst : Nat) (t : Table Nat Word 3) : Prop where
  spells : Spells s src [dst] t
  frames : ∀ q < userPages, entry t q ≠ 0 →
    InUse s.2 (frameOf (archPteAddr (entry t q))) ∧ frameOf (archPteAddr (entry t q)) ≠ dst
  clear : ∀ q < userPages, forkCopies (entry t q) = true → entry t q &&& 0x7FF0000000000000 = 0

/-- The invariant of the loops when the pages below `k` are done. The copy is the tree `t'`;
`data` are the frames of its leaves, and `place q` is the one for page `q`. -/
structure Copying (s₀ : Phys) (dst : Nat) (rest : List Nat) (t : Table Nat Word 3) (k : Nat)
    (s : Phys) (t' : Table Nat Word 3) (data : List Nat) (place : Nat → Nat) : Prop where
  spells : Spells s dst (data ++ rest) t'
  fresh : ∀ g ∈ tables 512 3 256 t' ++ data, ¬ InUse s₀.2 g
  grows : ∀ g, InUse s₀.2 g → InUse s.2 g
  kept : ∀ g, InUse s₀.2 g → g ≠ dst → s.1 g = s₀.1 g
  copies : ∀ q < k, forkCopies (entry t q) = true → place q ∈ data ∧
    entry t' q = physOf (place q) ||| (entry t q &&& pteFlagBits) ∧
    s.1 (place q) = s₀.1 (frameOf (archPteAddr (entry t q)))
  apart : ∀ q < k, ∀ r < k, forkCopies (entry t q) = true → forkCopies (entry t r) = true →
    q ≠ r → place q ≠ place r
  others : ∀ q < userPages, (q < k → forkCopies (entry t q) = false) → entry t' q = 0

def CopiedBelow (s₀ : Phys) (dst : Nat) (rest : List Nat) (t : Table Nat Word 3) (k : Nat)
    (s : Phys) : Prop :=
  ∃ t' data place, Copying s₀ dst rest t k s t' data place

section
variable {s₀ s s' : Phys} {src dst k : Nat} {rest data : List Nat} {t t' : Table Nat Word 3}
  {place : Nat → Nat}

theorem Copying.pass (hp : Copying s₀ dst rest t k s t' data place)
    (hs : forkCopies (entry t k) = false) :
    Copying s₀ dst rest t (k + 1) s t' data place := by
  have he (q : Nat) (hb : q < k + 1) (hc : forkCopies (entry t q) = true) : q < k := by
    have other : q ≠ k := by
      rintro rfl
      rw [hs] at hc
      cases hc
    omega
  refine { hp with copies := ?_, apart := ?_, others := ?_ }
  · exact fun q hb hc => hp.copies q (he q hb hc) hc
  · exact fun q low r low' hc hc' =>
      hp.apart q (he q low hc) r (he r low' hc') hc hc'
  · exact fun q lt none => hp.others q lt fun hb => none (by omega)

theorem Copying.take {f : Nat} {p : Pmm} (hc : Copying s₀ dst rest t k s t' data place)
    (ht : pmmAllocPage s.2 = (f, p)) (hf : f ≠ 0) (content : Nat → Word) :
    Spells (update s.1 f content, p) dst ((f :: data) ++ rest) t' ∧
      f ∉ dst :: tables 512 3 256 t' ++ (data ++ rest) := by
  obtain ⟨-, free, -⟩ := Memory.pmmAllocPage_inUse ht hf
  have ho : f ∉ dst :: tables 512 3 256 t' ++ (data ++ rest) := fun hm =>
    free (.inl (hc.spells.owned.live f hm).1)
  refine ⟨⟨hc.spells.rep.congr fun g hm => ?_, ?_⟩, ho⟩
  · have other : g ≠ f := fun eq => ho (eq ▸ mem_append_left _ hm)
    exact update_of_ne other ..
  · exact (Memory.Owned.custody.alloc hc.spells.owned ht hf).perm perm_middle.symm

variable {pte : Word}

theorem pte_split (clear : pte &&& 0x7FF0000000000000 = 0) :
    pte &&& ~~~pteFlagBits = archPteAddr pte := by
  have bits : ~~~pteFlagBits = (0x000FFFFFFFFFF000 : Word) ||| 0x7FF0000000000000 := by decide
  rw [bits, BitVec.and_or_distrib_left, clear]
  exact BitVec.or_zero

theorem bit_of_present (hp : hasFlag pte vmmFlagPresent = true) : pte.getLsbD 0 = true := by
  by_contra unset
  have clear : pte.getLsbD 0 = false := by simpa using unset
  have zero : pte &&& vmmFlagPresent = 0 := by
    apply BitVec.eq_of_getLsbD_eq
    intro i _
    rw [BitVec.getLsbD_and, show vmmFlagPresent = 1#64 from rfl, BitVec.getLsbD_one]
    by_cases low : i = 0
    · rw [low, clear]
      rfl
    · simp [low]
  simp [hasFlag, zero] at hp

theorem pte_flags (hp : hasFlag pte vmmFlagPresent = true) :
    pte &&& pteFlagBits ||| vmmFlagPresent = pte &&& pteFlagBits := by
  have bit := bit_of_present hp
  apply BitVec.eq_of_getLsbD_eq
  intro i _
  rw [BitVec.getLsbD_or, BitVec.getLsbD_and, show vmmFlagPresent = 1#64 from rfl,
    BitVec.getLsbD_one]
  by_cases low : i = 0
  · subst low
    rw [bit]
    decide
  · simp [low]

section
variable {f : Nat} {t₁ : Table Nat Word 3} (hc : Copying s₀ dst rest t k s t' data place)
include hc

theorem Copying.copies_succ (lt : k < userPages) (new : f ∉ data)
    (word : entry t₁ k = physOf f ||| (entry t k &&& pteFlagBits))
    (others : ∀ q < userPages, q ≠ k → entry t₁ q = entry t' q)
    (content : ∀ g ∈ f :: data,
      s'.1 g = update s.1 f (s₀.1 (frameOf (archPteAddr (entry t k)))) g) :
    ∀ q < k + 1, forkCopies (entry t q) = true → update place k f q ∈ f :: data ∧
      entry t₁ q = physOf (update place k f q) ||| (entry t q &&& pteFlagBits) ∧
      s'.1 (update place k f q) = s₀.1 (frameOf (archPteAddr (entry t q))) := by
  intro q hb copied
  by_cases here : q = k
  · subst here
    rw [update_self, content f mem_cons_self, update_self]
    exact ⟨.head _, word, rfl⟩
  · obtain ⟨hm, old, he⟩ := hc.copies q (by omega) copied
    have hv : place q ≠ f := fun eq => new (eq ▸ hm)
    rw [update_of_ne here, others q (by omega) here, content _ (.tail _ hm), update_of_ne hv]
    exact ⟨.tail _ hm, old, he⟩

theorem Copying.apart_succ (new : f ∉ data) :
    ∀ q < k + 1, ∀ r < k + 1, forkCopies (entry t q) = true → forkCopies (entry t r) = true →
      q ≠ r → update place k f q ≠ update place k f r := by
  have fresh (q : Nat) (hb : q < k + 1) (copied : forkCopies (entry t q) = true) (other : q ≠ k) :
      place q ≠ f := fun eq => new (eq ▸ (hc.copies q (by omega) copied).1)
  intro q low r low' hd₁ hd₂ hq
  by_cases here : q = k
  · have ht : r ≠ k := fun eq => hq (here.trans eq.symm)
    rw [here, update_self, update_of_ne ht]
    exact (fresh r low' hd₂ ht).symm
  · by_cases ht : r = k
    · rw [ht, update_self, update_of_ne here]
      exact fresh q low hd₁ here
    · rw [update_of_ne here, update_of_ne ht]
      exact hc.apart q (by omega) r (by omega) hd₁ hd₂ hq

theorem Copying.others_succ (hd : forkCopies (entry t k) = true)
    (others : ∀ q < userPages, q ≠ k → entry t₁ q = entry t' q) :
    ∀ q < userPages, (q < k + 1 → forkCopies (entry t q) = false) → entry t₁ q = 0 := by
  intro q hw none
  have ht : q ≠ k := by
    rintro rfl
    rw [none (by omega)] at hd
    cases hd
  rw [others q hw ht]
  exact hc.others q hw fun hb => none (by omega)

end

theorem Copying.copy (hc : Copying s₀ dst rest t k s t' data place) (lt : k < userPages)
    (hd : forkCopies (entry t k) = true)
    (used : InUse s₀.2 (frameOf (archPteAddr (entry t k))))
    (other : frameOf (archPteAddr (entry t k)) ≠ dst)
    (clear : entry t k &&& 0x7FF0000000000000 = 0)
    (done : copyPte dst (k <<< 12) (entry t k) s = some s') :
    CopiedBelow s₀ dst rest t (k + 1) s' := by
  obtain ⟨f, p, hk, hf, hj⟩ := copyPte_copies hd done
  obtain ⟨-, free, hg⟩ := Memory.pmmAllocPage_inUse hk hf
  have hp : hasFlag (entry t k) vmmFlagPresent = true := by
    simp only [forkCopies, Bool.and_eq_true] at hd
    exact hd.1.1
  rw [pte_split clear, hc.kept _ used other] at hj
  obtain ⟨hs, hl⟩ := hc.take hk hf _
  have user : k <<< 12 < 2 ^ 47 := by
    simp only [userPages, Nat.shiftLeft_eq] at lt ⊢
    omega
  have page : k <<< 12 / 4096 = k := by
    rw [Nat.shiftLeft_eq]
    omega
  obtain ⟨t₁, hs₁, -, word, ho, -, eq, new, ha, order⟩ := hs.map user hj
  rw [page] at word ho
  rw [pte_flags hp] at word
  obtain ⟨hu, more⟩ := Memory.allocs_inUse ha
  dsimp only at eq hu more
  have grows (g : Nat) (pre : InUse s₀.2 g) : InUse p g := (hg g).mpr (.inr (hc.grows g pre))
  have hr : ¬ InUse s₀.2 f := fun pre => free (hc.grows f pre)
  -- the frames with data are in use and are no tables of the copy
  have content (g : Nat) (hm : g ∈ f :: data) :
      s'.1 g = update s.1 f (s₀.1 (frameOf (archPteAddr (entry t k)))) g := by
    refine eq g ?_ fun hi => ?_
    · exact .inl (hs.owned.live g (mem_append_right _ (mem_append_left _ hm))).1
    · exact (nodup_append.mp hs.owned.nodup).2.2 g hi g (mem_append_left _ hm) rfl
  have hn : f ∉ data := fun hm => hl (mem_append_right _ (mem_append_left _ hm))
  refine ⟨t₁, f :: data, update place k f, hs₁, fun g hm pre => ?_,
    fun g pre => more g (grows g pre), fun g pre hq => ?_,
    hc.copies_succ lt hn word ho content, hc.apart_succ hn, hc.others_succ hd ho⟩
  · rcases mem_append.mp hm with table | leaf
    · rcases mem_append.mp (order.subset table) with made | old
      · exact hu g made (grows g pre)
      · exact hc.fresh g (mem_append_left _ old) pre
    · rcases mem_cons.mp leaf with rfl | old
      · exact hr pre
      · exact hc.fresh g (mem_append_right _ old) pre
  · have hv : g ≠ f := fun eq => hr (eq ▸ pre)
    rw [eq g (grows g pre), update_of_ne hv, hc.kept g pre hq]
    rintro hi
    rcases mem_cons.mp hi with root | table
    · exact hq root
    · exact hc.fresh g (mem_append_left _ table) pre

theorem CopySource.start (source : CopySource s src dst t)
    (vacant : ∀ i < 256, hasFlag (s.1 dst i) vmmFlagPresent = false) :
    Copying s dst (src :: tables 512 3 256 t) t 0 s (empty 0 3) [] id := by
  have none : tables 512 3 256 (empty 0 3 : Table Nat Word 3) = [] := tables_empty
  refine ⟨⟨fun i small => ⟨vacant i small, fun child slot => by cases slot⟩, ?_⟩, ?_,
    fun _ used => used, fun _ _ _ => rfl, by simp, by simp, fun _ _ _ => look_empty⟩
  · rw [none]
    exact source.spells.owned.perm (perm_append_singleton ..)
  · rw [none]
    simp

theorem CopySource.copied (source : CopySource s src dst t)
    (vacant : ∀ i < 256, hasFlag (s.1 dst i) vmmFlagPresent = false)
    (done : vmmCopyUserPages src dst s = some s') :
    CopiedBelow s dst (src :: tables 512 3 256 t) t userPages s' := by
  rw [vmmCopyUserPages_eq] at done
  have notDst (g : Nat) (member : g ∈ src :: tables 512 3 256 t) : g ≠ dst :=
    (nodup_append.mp source.spells.owned.nodup).2.2 g member dst (.head _)
  have agree : ∀ key < 256 * 512 ^ 3,
      look 512 0 3 t key = entry t (0 * 512 ^ (3 + 1) + key) := fun key _ => by
    rw [Nat.zero_mul, Nat.zero_add]
    rfl
  have inside : 0 * 512 ^ (3 + 1) + 256 * 512 ^ 3 ≤ userPages := by decide
  have all : CopiedBelow s dst (src :: tables 512 3 256 t) t
      (0 * 512 ^ (3 + 1) + 256 * 512 ^ 3) s' := by
    refine Rep.visitAll follow_eq ?_ ?_ ?_ (by decide) source.spells.rep agree inside
      ⟨_, _, _, source.start vacant⟩ done
    · rintro k - s₁ zero ⟨t', data, place, copying⟩
      exact ⟨t', data, place, copying.pass (by rw [zero]; decide)⟩
    · rintro k small s₁ s₂ ⟨t', data, place, copying⟩ moves
      cases copied : forkCopies (entry t k) with
      | false =>
        cases (copyPte_skips s₁ copied).symm.trans moves
        exact ⟨t', data, place, copying.pass copied⟩
      | true =>
        have nonzero : entry t k ≠ 0 := by
          rintro zero
          rw [zero] at copied
          exact absurd copied (by decide)
        obtain ⟨used, other⟩ := source.frames k small nonzero
        exact copying.copy small copied used other (source.clear k small copied) moves
    · rintro k s₁ ⟨t', data, place, copying⟩ g member
      exact copying.kept g (source.spells.live member) (notDst g member)
  exact all

theorem copied_entry {f : Nat} (lt : f < 2 ^ 40) (pte : Word) :
    frameOf (archPteAddr (physOf f ||| (pte &&& pteFlagBits))) = f ∧
      (physOf f ||| (pte &&& pteFlagBits)) &&& pteFlagBits = pte &&& pteFlagBits ∧
      hasFlag (physOf f ||| (pte &&& pteFlagBits)) vmmFlagPresent = hasFlag pte vmmFlagPresent := by
  have addr := physOf_isAddr lt
  have bare : IsFlags (pte &&& pteFlagBits) := by
    rw [IsFlags, archPteAddr, BitVec.and_assoc]
    exact BitVec.and_zero
  have low : physOf f &&& pteFlagBits = 0 := by
    simpa [hasFlag] using hasFlag_addr addr (show archPteAddr pteFlagBits = 0 by decide)
  have flag : pte &&& pteFlagBits &&& vmmFlagPresent = pte &&& vmmFlagPresent := by
    rw [BitVec.and_assoc]
    rfl
  refine ⟨?_, ?_, ?_⟩
  · rw [archPteAddr_addr addr bare, frameOf_physOf lt]
  · rw [BitVec.and_or_distrib_right, low, BitVec.and_assoc, BitVec.and_self]
    exact BitVec.zero_or
  · rw [hasFlag_or, hasFlag_addr addr (by decide), Bool.false_or, hasFlag, flag]
    rfl

theorem Copying.entry_eq (ha : Copying s₀ dst rest t userPages s t' data place) {q : Nat}
    (lt : q < userPages) :
    hasFlag (entry t' q) vmmFlagPresent = forkCopies (entry t q) ∧ (forkCopies (entry t q) = true →
        entry t' q &&& pteFlagBits = entry t q &&& pteFlagBits ∧
        frameOf (archPteAddr (entry t' q)) = place q) ∧
      (entry t' q ≠ 0 → forkCopies (entry t q) = true) := by
  cases hc : forkCopies (entry t q) with
  | false =>
    rw [ha.others q lt fun _ => hc]
    exact ⟨by decide, nofun, fun hn => absurd rfl hn⟩
  | true =>
    obtain ⟨hm, word, -⟩ := ha.copies q lt hc
    have live := ha.spells.owned.live _ (mem_append_right _ (mem_append_left _ hm))
    have hb : place q < 2 ^ 40 := live.2.2.2.trans (by decide)
    obtain ⟨frame, flags, hp⟩ := copied_entry hb (entry t q)
    rw [← word] at frame flags hp
    refine ⟨hp.trans ?_, fun _ => ⟨flags, frame⟩, fun _ => rfl⟩
    simp only [forkCopies, Bool.and_eq_true] at hc
    exact hc.1.1

end

def leafFrame (mem : TableMemory.Memory Word) (pml4 virt : Nat) : Nat :=
  frameOf (archPteAddr (pteAt mem pml4 virt))

/-- Fork copies exactly. If `vmm_copy_user_pages` returns 0, an address of the copy is present
iff the source has a present user leaf there that maps no device; the copied leaf has the
flags of the source and its content, in a frame that no other leaf of the two address spaces
uses; and the tables of the source and the contents of its leaves are as before. -/
theorem fork_copies_exactly {s s' : Phys} {src dst : Nat} {t : Table Nat Word 3}
    (source : CopySource s src dst t)
    (vacant : ∀ i < 256, hasFlag (s.1 dst i) vmmFlagPresent = false)
    (done : vmmCopyUserPages src dst s = some s') :
    (∀ virt < 2 ^ 47,
      hasFlag (pteAt s'.1 dst virt) vmmFlagPresent = forkCopies (pteAt s.1 src virt) ∧
      (forkCopies (pteAt s.1 src virt) = true →
        pteAt s'.1 dst virt &&& pteFlagBits = pteAt s.1 src virt &&& pteFlagBits ∧
        s'.1 (leafFrame s'.1 dst virt) = s.1 (leafFrame s.1 src virt) ∧
        ∀ other < 2 ^ 47,
          (pteAt s'.1 src other ≠ 0 → leafFrame s'.1 src other ≠ leafFrame s'.1 dst virt) ∧
          (pteAt s'.1 dst other ≠ 0 → other / 4096 ≠ virt / 4096 →
            leafFrame s'.1 dst other ≠ leafFrame s'.1 dst virt))) ∧
      (∀ virt < 2 ^ 47, pteAt s'.1 src virt = pteAt s.1 src virt ∧ (pteAt s.1 src virt ≠ 0 →
          s'.1 (leafFrame s.1 src virt) = s.1 (leafFrame s.1 src virt))) ∧
      ∀ g ∈ src :: tables 512 3 256 t, s'.1 g = s.1 g := by
  obtain ⟨t', data, place, copying⟩ := source.copied vacant done
  have notDst (g : Nat) (member : g ∈ src :: tables 512 3 256 t) : g ≠ dst :=
    (nodup_append.mp source.spells.owned.nodup).2.2 g member dst (.head _)
  have words (g : Nat) (member : g ∈ src :: tables 512 3 256 t) : s'.1 g = s.1 g :=
    copying.kept g (source.spells.live member) (notDst g member)
  have order : (dst :: tables 512 3 256 t' ++ (data ++ src :: tables 512 3 256 t)).Perm
      (src :: tables 512 3 256 t ++ (dst :: tables 512 3 256 t' ++ data)) := by
    rw [← append_assoc]
    exact perm_append_comm
  have sourceAfter : Spells s' src (dst :: tables 512 3 256 t' ++ data) t :=
    ⟨source.spells.rep.congr words, copying.spells.owned.perm order⟩
  have before (virt : Nat) (user : virt < 2 ^ 47) := source.spells.pteAt user
  have after (virt : Nat) (user : virt < 2 ^ 47) := sourceAfter.pteAt user
  have copy (virt : Nat) (user : virt < 2 ^ 47) := copying.spells.pteAt user
  refine ⟨fun virt user => ?_, fun virt user => ?_, words⟩
  · rw [copy virt user, before virt user]
    obtain ⟨present, leaf, -⟩ := copying.entry_eq (page_lt user)
    refine ⟨present, fun copied => ?_⟩
    obtain ⟨flags, frame⟩ := leaf copied
    obtain ⟨member, -, content⟩ := copying.copies _ (page_lt user) copied
    have unused := copying.fresh _ (mem_append_right _ member)
    refine ⟨flags, ?_, fun other user' => ⟨fun nonzero same => ?_, fun nonzero apart => ?_⟩⟩
    · rw [leafFrame, leafFrame, copy virt user, before virt user, frame, content]
    · rw [leafFrame, leafFrame, after other user', copy virt user, frame] at same
      rw [after other user'] at nonzero
      exact unused (same ▸ (source.frames _ (page_lt user') nonzero).1)
    · rw [copy other user'] at nonzero
      obtain ⟨-, leaf', used⟩ := copying.entry_eq (page_lt user')
      rw [leafFrame, leafFrame, copy other user', copy virt user, frame, (leaf' (used nonzero)).2]
      exact copying.apart _ (page_lt user') _ (page_lt user) (used nonzero) copied apart
  · rw [leafFrame, before virt user, after virt user]
    refine ⟨rfl, fun nonzero => ?_⟩
    obtain ⟨used, other⟩ := source.frames _ (page_lt user) nonzero
    exact copying.kept _ used other

/-- The master table is in frame 1, frame 0x40 has data, and frames from 0x41 on are not free. -/
def forkBoot : Phys :=
  (fun f i => if f = 0x40 ∧ i = 7 then 0xABCD else 0,
    ⟨fun f => f ≤ 1 ∨ 0x40 ≤ f, fun f => if f = 1 then 1 else 0, [], []⟩)

/-- Two address spaces with roots 2 and 3; the second maps frame 0x40 and a device. -/
def forkSetup : Option Phys := do
  let dst ← vmmCreateUserPml4 1 forkBoot
  let src ← vmmCreateUserPml4 1 dst.2
  let s ← vmmMapUserPage 3 0x400000 0x40000 0x6 src.2
  vmmMapUserPage 3 0x500000 0xFD000000 0xE s

def forkPhys : Phys := forkSetup.getD forkBoot

theorem forkPhys_source : ∃ t, CopySource forkPhys 3 2 t := by
  obtain ⟨⟨dst, s₁⟩, first⟩ := isSome_iff_exists.mp
    (by decide +kernel : (vmmCreateUserPml4 1 forkBoot).isSome)
  have setup : forkSetup = some forkPhys := by
    obtain ⟨s, made⟩ := isSome_iff_exists.mp (by decide +kernel : forkSetup.isSome)
    rw [forkPhys, made]
    rfl
  have roots : (vmmCreateUserPml4 1 forkBoot).map Prod.fst = some 2 ∧
      ((vmmCreateUserPml4 1 forkBoot).bind fun d => vmmCreateUserPml4 1 d.2).map Prod.fst =
        some 3 := by
    decide +kernel
  simp only [forkSetup, first, bind, bind_some] at setup roots
  obtain ⟨⟨src, s₂⟩, second, setup⟩ := bind_eq_some_iff.mp setup
  obtain ⟨s₃, page, device⟩ := bind_eq_some_iff.mp setup
  simp only [second, map_some, Option.some.injEq] at roots
  obtain ⟨rfl, rfl⟩ := roots
  have owned : Memory.Owned forkBoot.2 [1] := ⟨by simp, rfl, by simp [forkBoot, Memory.pmmMaxPages]⟩
  have two := vmmCreateUserPml4_spells owned (.head _) first
  have three := vmmCreateUserPml4_spells two.spells.owned (by simp) second
  obtain ⟨t₁, spells₁, -, word₁, others₁, -⟩ :=
    three.spells.map (by decide) (vmmMapUserPage_nolock page)
  obtain ⟨t₂, spells₂, -, word₂, others₂, -⟩ :=
    spells₁.map (by decide) (vmmMapUserPage_nolock device)
  have leaves (q : Nat) (small : q < userPages) : entry t₂ q = 0 ∨ entry t₂ q = 0x40007 ∨
      entry t₂ q = 0xFD00000F := by
    by_cases here : q = 0x500000 / 4096
    · exact .inr (.inr (here ▸ word₂))
    rw [others₂ q small here]
    by_cases there : q = 0x400000 / 4096
    · exact .inr (.inl (there ▸ word₁))
    · rw [others₁ q small there]
      exact .inl look_empty
  have busy : forkPhys.2.bitmap 0x40 = true ∧ forkPhys.2.bitmap 0xFD000 = true := by decide +kernel
  refine ⟨t₂, ⟨spells₂.rep, ?_⟩, fun q small nonzero => ?_, fun q small _ => ?_⟩
  · obtain ⟨nodup, reserved, live⟩ := spells₂.owned
    have part : (3 :: tables 512 3 256 t₂ ++ [2]).Sublist
        (3 :: tables 512 3 256 t₂ ++ (2 :: tables 512 3 256 (empty 0 3) ++ [1])) :=
      List.Sublist.append_left (by simp) _
    exact ⟨nodup.sublist part, reserved, fun f member => live f (part.subset member)⟩
  · rcases leaves q small with zero | page | device
    · exact absurd zero nonzero
    · rw [page]
      exact ⟨.inl busy.1, by decide⟩
    · rw [device]
      exact ⟨.inl busy.2, by decide⟩
  · rcases leaves q small with zero | page | device
    · rw [zero]
      decide
    · rw [page]
      decide
    · rw [device]
      decide

theorem fork_copies_page_not_device : ∃ s', vmmCopyUserPages 3 2 forkPhys = some s' ∧
      hasFlag (pteAt s'.1 2 0x400000) vmmFlagPresent = true ∧
      s'.1 (leafFrame s'.1 2 0x400000) 7 = 0xABCD ∧
      hasFlag (pteAt s'.1 2 0x500000) vmmFlagPresent = false := by
  obtain ⟨t, source⟩ := forkPhys_source
  obtain ⟨s', done⟩ := isSome_iff_exists.mp
    (by decide +kernel : (vmmCopyUserPages 3 2 forkPhys).isSome)
  have copied : forkCopies (pteAt forkPhys.1 3 0x400000) = true := by decide +kernel
  have skipped : forkCopies (pteAt forkPhys.1 3 0x500000) = false := by decide +kernel
  have word : forkPhys.1 (leafFrame forkPhys.1 3 0x400000) 7 = 0xABCD := by decide +kernel
  obtain ⟨leaves, -⟩ := fork_copies_exactly source (by decide +kernel) done
  obtain ⟨present, -, content, -⟩ := (leaves 0x400000 (by decide)).imp_right (· copied)
  refine ⟨s', done, present.trans copied, ?_, (leaves 0x500000 (by decide)).1.trans skipped⟩
  rw [content, word]

end Aegis.PageTables
