import Aegis.LabelledRun
import Aegis.MmapFree
import Aegis.Vmm

/-! The kernel virtual allocator (kernel/mm/kva.c).
Every address here is a multiple of 4096 and is given by its page number, so addresses are
below `2 ^ 52`. The master page table is the radix tree of the user tables with all 512
slots of the PML4; the 2 MiB pages of the kernel image are on no path of a page at or above
`KVA_BASE` and are left out. `live` is a history variable: the ranges handed out and not
yet freed. -/

namespace Aegis.Memory

open RadixTree LabelledRun List Option Pte FreeRange

def kvaBase : Nat := 0xFFFFFFFF80800

def addressPages : Nat := 2 ^ 52

def kvaFreeMax : Nat := 128

def freelistAlloc (l : List FreeRange) (n : Nat) : Nat × List FreeRange :=
  mmapFreeAlloc l n

/-- A range that directly precedes an entry joins it without a look at a second neighbour. -/
def freelistInsert (l : List FreeRange) (va n : Nat) : List FreeRange :=
  match firstWhere (fun _ e => e.stop = va ∨ va + n = e.base) 0 l with
  | none => if l.length < kvaFreeMax then l ++ [⟨va, n⟩] else l
  | some (i, e) =>
    if e.stop = va then growUp l i ⟨e.base, e.len + n⟩ else l.set i ⟨va, e.len + n⟩

/-- `none` is the panic on a page that is not mapped. -/
def vmmPhysOf (s : Space) (page : Nat) : Option Nat :=
  if (s.pte page).flags.present then some (s.pte page).frame else none

def vmmUnmapPage (s : Space) (page : Nat) : Option Space :=
  if (s.pte page).flags.present then some (vmmUnmapUserPage s page) else none

/-- The walk of `vmm_map_user_page` in the master table; `none` is a panic. -/
def vmmMapPage (p : Pmm) (s : Space) (page frame : Nat) (flags : PteFlags) :
    Option (Pmm × Space) :=
  vmmMapUserPage p s page frame flags

def kvaFlags : PteFlags := ⟨false, true, false, false⟩

/-- The loop of `kva_alloc_pages`: a new frame for each of `n` pages from `page` on. -/
def backPages : Nat → Nat → Pmm × Space → Option (Pmm × Space)
  | 0, _, m => some m
  | n + 1, page, (p, s) =>
    let (frame, p) := pmmAllocPage p
    if frame = 0 then none
    else (vmmMapPage p s page frame kvaFlags).bind (backPages n (page + 1))

def unbackPages : Nat → Nat → Pmm × Space → Option (Pmm × Space)
  | 0, _, m => some m
  | n + 1, page, (p, s) =>
    (vmmPhysOf s page).bind fun frame =>
      (vmmUnmapPage s page).bind fun s => unbackPages n (page + 1) (pmmFreePage p frame, s)

structure Kva where
  next : Nat
  free : List FreeRange
  pmm : Pmm
  master : Space
  live : List FreeRange

def takeRange (k : Kva) (n : Nat) : Nat × Kva :=
  let (base, free) := freelistAlloc k.free n
  if base = 0 then (k.next, { k with next := (k.next + n) % addressPages })
  else (base, { k with free := free })

def kvaAllocPages (k : Kva) (n : Nat) : Option (Nat × Kva) :=
  if n = 0 then some (0, k)
  else
    let (base, k) := takeRange k n
    (backPages n base (k.pmm, k.master)).map fun m =>
      (base, { k with pmm := m.1, master := m.2, live := ⟨base, n⟩ :: k.live })

def kvaFreePages (k : Kva) (va n : Nat) : Option Kva :=
  (unbackPages n va (k.pmm, k.master)).map fun m =>
    { k with
      pmm := m.1
      master := m.2
      free := freelistInsert k.free va n
      live := k.live.erase ⟨va, n⟩ }

inductive KvaCall
  | alloc (n : Nat)
  | free (va n : Nat)

def kvaStep (k : Kva) : KvaCall → Option Kva
  | .alloc n => (kvaAllocPages k n).map Prod.snd
  | .free va n => kvaFreePages k va n

/-- A call allocates at least one page and does not move the bump pointer to the end of
the address space; a range is freed with the base and the count of a live one. -/
def KvaAdmitted (k : Kva) : KvaCall → Prop
  | .alloc n => 0 < n ∧ ((freelistAlloc k.free n).1 ≠ 0 ∨ k.next + n < addressPages)
  | .free va n => ⟨va, n⟩ ∈ k.live

instance (k : Kva) (call : KvaCall) : Decidable (KvaAdmitted k call) := by
  rcases call <;> (dsimp only [KvaAdmitted]; infer_instance)

def InKva (page : Nat) : Prop :=
  kvaBase ≤ page ∧ page < addressPages

/-- The frames of the master table: its root, its tables and the frames of its entries. -/
def kernelHeld (s : Space) : List Nat :=
  s.root :: frames 512 (pteOwned []) 3 512 s.top

structure KvaReady (rest : List Nat) (k : Kva) : Prop where
  next : k.next = kvaBase
  free : k.free = []
  live : k.live = []
  unmapped : ∀ q, InKva q → k.master.pte q = Pte.zero
  owned : Owned k.pmm (kernelHeld k.master ++ rest)

section
variable {s s' : Space} {p p' : Pmm} {page q frame n : Nat} {flags : PteFlags} {rest : List Nat}

theorem samePath_kva (hi : InKva page) (hi' : InKva q) : SamePath 512 3 q page ↔ q = page := by
  simp only [InKva, kvaBase, addressPages] at hi hi'
  simp only [SamePath]
  omega

theorem index_kernel (page : Nat) : index 512 3 page < 512 := Nat.mod_lt _ (by decide)

theorem vmmMapPage_pte (hi : InKva page) (hm : vmmMapPage p s page frame flags = some (p', s')) :
    s'.pte page = ⟨frame, { flags with present := true }⟩ ∧
      ∀ q, InKva q → q ≠ page → s'.pte q = s.pte q := by
  obtain ⟨⟨top, last⟩, hp, eq⟩ := map_eq_some_iff.mp hm
  cases eq
  obtain ⟨made, ho⟩ := look_plant (by omega) hp
  split at made
  · cases made
  · refine ⟨(some.inj made).symm, fun q hi' other => ?_⟩
    exact ho q fun path => other ((samePath_kva hi hi').mp path)

theorem vmmUnmapPage_pte (hi : InKva page) (gone : vmmUnmapPage s page = some s') :
    (s.pte page).flags.present = true ∧ s' = vmmUnmapUserPage s page ∧
      s'.pte page = zero ∧ ∀ q, InKva q → q ≠ page → s'.pte q = s.pte q := by
  unfold vmmUnmapPage at gone
  split at gone
  · next hp =>
    cases gone
    refine ⟨hp, rfl, by rw [pte_unmap, if_pos hp], fun q hi' other => ?_⟩
    exact look_adjust_other (by omega) fun path => other ((samePath_kva hi hi').mp path)
  · cases gone

theorem pteOwned_of_used {pte : Pte} (used : pte ≠ zero) : pteOwned [] pte = [pte.frame] := by
  simp [pteOwned, used]

theorem backPages_mapsFresh (hb : backPages n page (p, s) = some (p', s')) :
    MapsFresh kvaFlags n page (p, s) (p', s') := by
  induction n generalizing page p s with
  | zero =>
    cases hb
    exact .nil
  | succ n ih =>
    rcases taken : pmmAllocPage p with ⟨frame, mid⟩
    simp only [backPages, taken] at hb
    split at hb
    · cases hb
    next hf =>
    obtain ⟨next, hm, hd⟩ := bind_eq_some_iff.mp hb
    exact .cons taken hf hm (ih hd)

theorem backPages_spec (owned : Owned p (kernelHeld s ++ rest))
    (inside : ∀ q, page ≤ q → q < page + n → InKva q)
    (vacant : ∀ q, page ≤ q → q < page + n → s.pte q = zero)
    (backed : backPages n page (p, s) = some (p', s')) :
    Owned p' (kernelHeld s' ++ rest) ∧ ∀ q, InKva q →
      (page ≤ q → q < page + n → (s'.pte q).flags.present = true) ∧
        (¬ (page ≤ q ∧ q < page + n) → s'.pte q = s.pte q) := by
  have fresh := backPages_mapsFresh backed
  clear backed
  generalize start : (p, s) = m at fresh
  generalize stop : (p', s') = m' at fresh
  induction fresh generalizing p s with
  | nil =>
    cases start.trans stop.symm
    exact ⟨owned, fun q _ => ⟨fun low high => by omega, fun _ => rfl⟩⟩
  | @cons n page _ _ frame mid next last taken found mapped _ ih =>
    cases start
    obtain ⟨next, t⟩ := next
    obtain ⟨entry, others⟩ := vmmMapPage_pte (inside page (by omega) (by omega)) mapped
    have used : t.pte page ≠ zero := ne_zero_of_present (by simp [entry])
    have first : Owned next (kernelHeld t ++ rest) := by
      refine Owned.custody.mapSlot (index_kernel page) (vacant page (by omega) (by omega)) mapped ?_
      rw [pteOwned_of_used used, entry]
      exact owned.alloc taken found
    have later (q : Nat) (low : page + 1 ≤ q) (high : q < page + 1 + n) : InKva q :=
      inside q (by omega) (by omega)
    obtain ⟨last, pages⟩ := ih first later (fun q low high => by
      rw [others q (later q low high) (by omega)]
      exact vacant q (by omega) (by omega)) rfl stop
    refine ⟨last, fun q inside' => ⟨fun low high => ?_, fun outside => ?_⟩⟩
    · by_cases here : q = page
      · rw [(pages q inside').2 (by omega), here, entry]
      · exact (pages q inside').1 (by omega) (by omega)
    · rw [(pages q inside').2 (by omega), others q inside' (by omega)]

/-- Backing a vacant range fails only when the frame allocator runs dry within four
allocations a page: the frame of the page and three tables. -/
theorem backPages_none (hi : ∀ q, page ≤ q → q < page + n → InKva q)
    (hv : ∀ q, page ≤ q → q < page + n → s.pte q = zero)
    (hf : backPages n page (p, s) = none) :
    ∃ l last, l.length < 4 * n ∧ Allocs allocTable p l last ∧ allocTable last = none := by
  induction n generalizing page p s with
  | zero => cases hf
  | succ n ih =>
    rcases alloc : pmmAllocPage p with ⟨frame, mid⟩
    simp only [backPages, alloc] at hf
    split at hf
    · next dry => exact ⟨[], p, by simp, .nil p, by simp [allocTable, alloc, dry]⟩
    next some =>
    have h1 : allocTable p = Option.some (frame, mid) := by simp [allocTable, alloc, some]
    cases hm : vmmMapPage mid s page frame kvaFlags with
    | none =>
      rcases plant_none (map_eq_none_iff.mp hm) with ⟨new, last, few, tables, dry⟩ | hr
      · exact ⟨frame :: new, last, by simp only [length_cons]; omega, .cons h1 tables, dry⟩
      have zero : look 512 zero 3 s.top page = zero :=
        hv page (by omega) (by omega)
      rw [zero] at hr
      cases hr
    | some r =>
      obtain ⟨next, t⟩ := r
      obtain ⟨-, ho⟩ := vmmMapPage_pte (hi page (by omega) (by omega)) hm
      obtain ⟨⟨top, hn⟩, hp, eq⟩ := map_eq_some_iff.mp hm
      cases eq
      obtain ⟨new, few, tables, -⟩ := plant_allocs hp
      simp only [hm, bind_some] at hf
      obtain ⟨l, last, hw, ha, dry⟩ := ih (fun q low high => hi q (by omega) (by omega))
        (fun q low high => by
          rw [ho q (hi q (by omega) (by omega)) (by omega)]
          exact hv q (by omega) (by omega)) hf
      refine ⟨frame :: (new ++ l), last, ?_, .cons h1 (tables.append ha), dry⟩
      simp only [length_cons, length_append]
      omega

theorem unbackPages_spec (ho : Owned p (kernelHeld s ++ rest))
    (hi : ∀ q, page ≤ q → q < page + n → InKva q)
    (gone : unbackPages n page (p, s) = some (p', s')) :
    Owned p' (kernelHeld s' ++ rest) ∧ ∀ q, InKva q → (page ≤ q → q < page + n → s'.pte q = zero) ∧
        (¬ (page ≤ q ∧ q < page + n) → s'.pte q = s.pte q) := by
  induction n generalizing page p s with
  | zero =>
    cases gone
    exact ⟨ho, fun q _ => ⟨fun low high => by omega, fun _ => rfl⟩⟩
  | succ n ih =>
    obtain ⟨frame, phys, hu⟩ := bind_eq_some_iff.mp gone
    obtain ⟨t, hc, hd⟩ := bind_eq_some_iff.mp hu
    obtain ⟨hp, rfl, zero, ht⟩ := vmmUnmapPage_pte (hi page (by omega) (by omega)) hc
    obtain rfl : (s.pte page).frame = frame := by
      rw [vmmPhysOf, if_pos hp] at phys
      exact some.inj phys
    have h1 : Owned (pmmFreePage p (s.pte page).frame)
        (kernelHeld (vmmUnmapUserPage s page) ++ rest) := by
      have out := Owned.custody.unmapSlot (index_kernel page) hp ho
      rw [pteOwned_of_used (ne_zero_of_present hp)] at out
      exact Owned.free out
    obtain ⟨last, pages⟩ := ih h1 (fun q low high => hi q (by omega) (by omega)) hd
    refine ⟨last, fun q hi' => ⟨fun low high => ?_, fun outside => ?_⟩⟩
    · by_cases here : q = page
      · rw [(pages q hi').2 (by omega), here, zero]
      · exact (pages q hi').1 (by omega) (by omega)
    · rw [(pages q hi').2 (by omega), ht q hi' (by omega)]

theorem unbackPages_isSome (hi : ∀ q, page ≤ q → q < page + n → InKva q)
    (hp : ∀ q, page ≤ q → q < page + n → (s.pte q).flags.present = true) :
    (unbackPages n page (p, s)).isSome := by
  induction n generalizing page p s with
  | zero => rfl
  | succ n ih =>
    have here := hp page (by omega) (by omega)
    have gone : vmmUnmapPage s page = some (vmmUnmapUserPage s page) := if_pos here
    obtain ⟨-, -, -, ho⟩ := vmmUnmapPage_pte (hi page (by omega) (by omega)) gone
    simp only [unbackPages, vmmPhysOf, here, if_true, gone, bind_some]
    refine ih (fun q low high => hi q (by omega) (by omega)) fun q low high => ?_
    rw [ho q (hi q (by omega) (by omega)) (by omega)]
    exact hp q (by omega) (by omega)

end

section
variable {l : List FreeRange} {va n : Nat}

theorem freelistAlloc_spec (list : FreeList l) (wide : 0 < n) : FreeList (freelistAlloc l n).2 ∧
      (∀ q, InFree (freelistAlloc l n).2 q → InFree l q) ∧
      ((freelistAlloc l n).1 ≠ 0 → ∀ q, (freelistAlloc l n).1 ≤ q →
        q < (freelistAlloc l n).1 + n → InFree l q ∧ ¬ InFree (freelistAlloc l n).2 q) :=
  mmapFreeAlloc_spec list wide

theorem freelistInsert_spec (list : FreeList l) (hp : ∀ x ∈ l, FreeRange.Apart ⟨va, n⟩ x)
    (wide : 0 < n) :
    FreeList (freelistInsert l va n) ∧ ∀ q, InFree (freelistInsert l va n) q →
      InFree l q ∨ (va ≤ q ∧ q < va + n) := by
  rw [freelistInsert]
  cases search : firstWhere (fun _ e => e.stop = va ∨ va + n = e.base) 0 l with
  | none =>
    simp only
    split
    · exact list.appended hp wide
    · exact ⟨list, fun q => .inl⟩
  | some hf =>
    obtain ⟨i, e⟩ := hf
    obtain ⟨-, entry, test⟩ := firstWhere_some search
    simp only
    split
    · next hb =>
      obtain ⟨hg, cover⟩ := list.joined entry hp (.inl ⟨rfl, rfl⟩) hb
      obtain ⟨free, hc⟩ := (growUp_merges entry).spec hg
      exact ⟨free, fun q hi => cover q (hc q hi)⟩
    · next hn =>
      have ha := (of_decide_eq_true test).resolve_left hn
      obtain ⟨hg, cover⟩ := list.joined entry hp (.inr ⟨rfl, rfl⟩) ha
      rw [Nat.add_comm] at hg cover
      have order := (perm_of_getElem? entry).2 ⟨va, e.len + n⟩
      exact ⟨hg.perm order.symm, fun q hi => cover q ((inFree_perm order).mp hi)⟩

theorem FreeRange.apart_of_disjoint {a b : FreeRange} (hp : 0 < a.len) (proper' : 0 < b.len)
    (hd : ∀ q, a.base ≤ q → q < a.stop → ¬ (b.base ≤ q ∧ q < b.stop)) : a.Apart b := by
  have h1 := hd a.base
  have h2 := hd b.base
  simp only [FreeRange.Apart, stop] at *
  omega

end

structure Kva.Sound (rest : List Nat) (k : Kva) : Prop where
  live : FreeList k.live
  free : FreeList k.free
  disjoint : ∀ q, InFree k.live q → ¬ InFree k.free q
  within : ∀ q, InFree k.live q ∨ InFree k.free q → kvaBase ≤ q ∧ q < k.next
  bump : kvaBase ≤ k.next ∧ k.next < addressPages
  owned : Owned k.pmm (kernelHeld k.master ++ rest)
  mapped : ∀ q, InKva q → InFree k.live q → (k.master.pte q).flags.present = true
  unmapped : ∀ q, InKva q → ¬ InFree k.live q → k.master.pte q = Pte.zero

theorem Kva.Sound.inKva {rest : List Nat} {k : Kva} (hs : k.Sound rest) {q : Nat}
    (live : InFree k.live q) : InKva q :=
  ⟨(hs.within q (.inl live)).1, (hs.within q (.inl live)).2.trans hs.bump.2⟩

structure Kva.Taken (k k' : Kva) (base n : Nat) : Prop where
  pmm : k'.pmm = k.pmm
  master : k'.master = k.master
  live : k'.live = k.live
  free : FreeList k'.free
  fewer : ∀ q, InFree k'.free q → InFree k.free q
  bump : k.next ≤ k'.next ∧ k'.next < addressPages
  fresh : ∀ q, base ≤ q → q < base + n →
    ¬ InFree k.live q ∧ ¬ InFree k'.free q ∧ kvaBase ≤ q ∧ q < k'.next

section
variable {k k' : Kva} {rest : List Nat} {base n va : Nat}

theorem Kva.Sound.take (hs : k.Sound rest) (ha : KvaAdmitted k (.alloc n))
    (ht : takeRange k n = (base, k')) : k.Taken k' base n := by
  obtain ⟨free, hf, range⟩ := freelistAlloc_spec hs.free ha.1
  simp only [takeRange] at ht
  split at ht
  · next miss =>
    have room := ha.2.resolve_left (fun hit => hit miss)
    have next : (k.next + n) % addressPages = k.next + n := Nat.mod_eq_of_lt room
    cases ht
    rw [next]
    refine ⟨rfl, rfl, rfl, hs.free, fun q => id, ⟨Nat.le_add_right .., room⟩, fun q low high => ?_⟩
    have ho : ¬ (InFree k.live q ∨ InFree k.free q) := fun hi => by
      have := (hs.within q hi).2
      omega
    obtain ⟨live, free⟩ := not_or.mp ho
    have := hs.bump.1
    exact ⟨live, free, by omega, high⟩
  · next hit =>
    cases ht
    refine ⟨rfl, rfl, rfl, free, hf, ⟨le_refl _, hs.bump.2⟩, fun q low high => ?_⟩
    obtain ⟨was, gone⟩ := range hit q low high
    exact ⟨fun live => hs.disjoint q live was, gone, hs.within q (.inr was)⟩

theorem Kva.Taken.inKva (ht : k.Taken k' base n) {q : Nat} (low : base ≤ q)
    (high : q < base + n) : InKva q := by
  obtain ⟨-, -, ha, hb⟩ := ht.fresh q low high
  exact ⟨ha, hb.trans ht.bump.2⟩

theorem Kva.Sound.alloc (hs : k.Sound rest) (ha : KvaAdmitted k (.alloc n))
    (done : kvaAllocPages k n = some (base, k')) : k'.Sound rest := by
  have wide : 0 < n := ha.1
  rcases range : takeRange k n with ⟨start, mid⟩
  have ht := hs.take ha range
  simp only [kvaAllocPages, range, if_neg wide.ne'] at done
  obtain ⟨⟨p, s⟩, hc, eq⟩ := map_eq_some_iff.mp done
  obtain ⟨rfl, rfl⟩ := Prod.mk.inj eq
  rw [ht.pmm, ht.master] at hc
  obtain ⟨ho, pages⟩ := backPages_spec hs.owned (fun q => ht.inKva)
    (fun q low high => hs.unmapped q (ht.inKva low high) (ht.fresh q low high).1) hc
  rw [ht.live]
  refine ⟨?_, ht.free, ?_, ?_, ?_, ho, ?_, ?_⟩
  · refine FreeList.cons_iff.mpr ⟨⟨wide, fun e hl => ?_⟩, hs.live⟩
    refine apart_of_disjoint wide (hs.live.proper e hl) fun q low high hi => ?_
    exact (ht.fresh q low high).1 ⟨e, hl, hi⟩
  · intro q live
    rcases inFree_cons.mp live with new | old
    · exact (ht.fresh q new.1 new.2).2.1
    · exact fun free => hs.disjoint q old (ht.fewer q free)
  · rintro q (live | free)
    · rcases inFree_cons.mp live with new | old
      · exact (ht.fresh q new.1 new.2).2.2
      · have hb := hs.within q (.inl old)
        exact ⟨hb.1, hb.2.trans_le ht.bump.1⟩
    · have hb := hs.within q (.inr (ht.fewer q free))
      exact ⟨hb.1, hb.2.trans_le ht.bump.1⟩
  · exact ⟨hs.bump.1.trans ht.bump.1, ht.bump.2⟩
  · intro q hi live
    by_cases new : start ≤ q ∧ q < start + n
    · exact (pages q hi).1 new.1 new.2
    · rw [(pages q hi).2 new]
      exact hs.mapped q hi ((inFree_cons.mp live).resolve_left new)
  · intro q hi dead
    obtain ⟨new, old⟩ := not_or.mp (inFree_cons.not.mp dead)
    rw [(pages q hi).2 new]
    exact hs.unmapped q hi old

theorem Kva.Sound.release (hs : k.Sound rest) (hl : ⟨va, n⟩ ∈ k.live)
    (done : kvaFreePages k va n = some k') : k'.Sound rest := by
  obtain ⟨⟨p, s⟩, gone, rfl⟩ := map_eq_some_iff.mp done
  have out := perm_cons_erase hl
  obtain ⟨⟨wide, ht⟩, live⟩ := FreeList.cons_iff.mp (hs.live.perm out)
  have ha (q : Nat) (low : va ≤ q) (high : q < va + n) : InFree k.live q := ⟨_, hl, low, high⟩
  obtain ⟨how, pages⟩ := unbackPages_spec hs.owned
    (fun q low high => hs.inKva (ha q low high)) gone
  have hp : ∀ e ∈ k.free, FreeRange.Apart ⟨va, n⟩ e := fun e entry =>
    apart_of_disjoint wide (hs.free.proper e entry) fun q low high hi =>
      hs.disjoint q (ha q low high) ⟨e, entry, hi⟩
  obtain ⟨free, cover⟩ := freelistInsert_spec hs.free hp wide
  have hd (q : Nat) (kept : InFree (k.live.erase ⟨va, n⟩) q) :
      InFree k.live q ∧ ¬ (va ≤ q ∧ q < va + n) := by
    refine ⟨(inFree_perm out).mpr (inFree_cons.mpr (.inr kept)), fun hi => ?_⟩
    obtain ⟨e, entry, low, high⟩ := kept
    have := ht e entry
    simp only [FreeRange.Apart, stop] at this high
    omega
  refine ⟨live, free, ?_, ?_, hs.bump, how, ?_, ?_⟩
  · intro q kept hn
    obtain ⟨old, ho⟩ := hd q kept
    rcases cover q hn with pre | new
    · exact hs.disjoint q old pre
    · exact ho new
  · rintro q (kept | hn)
    · exact hs.within q (.inl (hd q kept).1)
    rcases cover q hn with pre | new
    · exact hs.within q (.inr pre)
    · exact hs.within q (.inl (ha q new.1 new.2))
  · intro q hi kept
    obtain ⟨old, ho⟩ := hd q kept
    rw [(pages q hi).2 ho]
    exact hs.mapped q hi old
  · intro q hi dead
    by_cases hc : va ≤ q ∧ q < va + n
    · exact (pages q hi).1 hc.1 hc.2
    rw [(pages q hi).2 hc]
    refine hs.unmapped q hi fun old => ?_
    exact (inFree_cons.mp ((inFree_perm out).mp old)).elim hc dead

theorem Kva.Sound.step {call : KvaCall} (hs : k.Sound rest) (ha : KvaAdmitted k call)
    (hm : kvaStep k call = some k') : k'.Sound rest := by
  cases call with
  | alloc n =>
    obtain ⟨⟨base, last⟩, done, rfl⟩ := map_eq_some_iff.mp hm
    exact hs.alloc ha done
  | free va n => exact hs.release ha hm

theorem KvaReady.sound (hr : KvaReady rest k) : k.Sound rest := by
  have none (q : Nat) : ¬ InFree [] q := fun ⟨e, hl, _⟩ => not_mem_nil hl
  refine ⟨?_, ?_, ?_, ?_, ?_, hr.owned, ?_, fun q hi _ => hr.unmapped q hi⟩
  · rw [hr.live]
    exact ⟨.nil, by simp⟩
  · rw [hr.free]
    exact ⟨.nil, by simp⟩
  · rw [hr.live]
    exact fun q live => absurd live (none q)
  · rw [hr.live, hr.free]
    exact fun q hi => absurd hi (by simp [none q])
  · rw [hr.next]
    decide
  · rw [hr.live]
    exact fun q _ live => absurd live (none q)

theorem Kva.Sound.frame_inj (hs : k.Sound rest) {q q' : Nat} (hi : InKva q)
    (hi' : InKva q') (live : InFree k.live q) (live' : InFree k.live q')
    (eq : (k.master.pte q').frame = (k.master.pte q).frame) : q' = q := by
  have used := ne_zero_of_present (hs.mapped q hi live)
  have used' := ne_zero_of_present (hs.mapped q' hi' live')
  have nodup : (frames 512 (pteOwned []) 3 512 k.master.top).Nodup :=
    (nodup_cons.mp (nodup_append.mp hs.owned.nodup).1).2
  rw [← samePath_kva hi hi']
  have ht := mem_pteOwned used' (not_mem_nil (a := (k.master.pte q').frame))
  rw [eq] at ht
  exact samePath_of_mem (by omega) (pteOwned_zero []) (index_kernel q) (index_kernel q') nodup
    (mem_pteOwned used not_mem_nil) ht

end

/-- In every run of allocations and of frees of live ranges, from the allocator as
`kva_init` leaves it: live ranges and free entries are non-empty, apart from each other and
inside `[KVA_BASE, s_kva_next)`; an allocation returns pages that no live range has; every
live page is mapped, to a frame that no other live page has; no other page at or above
`KVA_BASE` is mapped; freeing a live range never panics, and an allocation panics only when
fewer than four frames a page are left. -/
theorem kva_ranges_apart {rest : List Nat} {start k : Kva} {calls : List KvaCall}
    (ready : KvaReady rest start) (run : RunWhere kvaStep KvaAdmitted start calls k) :
    (k.live ++ k.free).Pairwise FreeRange.Apart ∧
      (∀ e ∈ k.live ++ k.free, 0 < e.len ∧ kvaBase ≤ e.base ∧ e.stop ≤ k.next) ∧
      (∀ n base k', KvaAdmitted k (.alloc n) → kvaAllocPages k n = some (base, k') →
        ∀ q, base ≤ q → q < base + n → ¬ InFree k.live q) ∧
      (∀ q, InFree k.live q → (k.master.pte q).flags.present = true ∧
        ∀ q', InFree k.live q' → (k.master.pte q').frame = (k.master.pte q).frame → q' = q) ∧
      (∀ q, InKva q → ¬ InFree k.live q → k.master.pte q = Pte.zero) ∧
      (∀ e ∈ k.live, (kvaFreePages k e.base e.len).isSome) ∧
      ∀ n, KvaAdmitted k (.alloc n) → kvaAllocPages k n = none →
        ∃ taken last, taken.length < 4 * n ∧ Allocs allocTable k.pmm taken last ∧
          allocTable last = none := by
  have sound : k.Sound rest := run.invariant ready.sound fun _ _ _ => Kva.Sound.step
  refine ⟨pairwise_append.mpr ⟨sound.live.apart, sound.free.apart, fun a live b free => ?_⟩,
    fun e listed => ?_, fun n base k' admitted done q low high => ?_, fun q live => ?_,
    sound.unmapped, fun e live => ?_, fun n admitted failed => ?_⟩
  · refine FreeRange.apart_of_disjoint (sound.live.proper a live) (sound.free.proper b free) ?_
    exact fun q low high inside => sound.disjoint q ⟨a, live, low, high⟩ ⟨b, free, inside⟩
  · have proper : 0 < e.len := (mem_append.mp listed).elim (sound.live.proper e)
      (sound.free.proper e)
    have bounds (q : Nat) (low : e.base ≤ q) (high : q < e.stop) : kvaBase ≤ q ∧ q < k.next :=
      sound.within q ((mem_append.mp listed).imp (fun live => ⟨e, live, low, high⟩)
        fun free => ⟨e, free, low, high⟩)
    have first := bounds e.base
    have last := bounds (e.stop - 1)
    simp only [FreeRange.stop] at *
    omega
  · rcases range : takeRange k n with ⟨first, mid⟩
    obtain rfl : first = base := by
      simp only [kvaAllocPages, range, if_neg admitted.1.ne'] at done
      obtain ⟨m, -, same⟩ := map_eq_some_iff.mp done
      exact congrArg Prod.fst same
    exact ((sound.take admitted range).fresh q low high).1
  · refine ⟨sound.mapped q (sound.inKva live) live, fun q' live' same => ?_⟩
    exact sound.frame_inj (sound.inKva live) (sound.inKva live') live live' same
  · have listed (q : Nat) (low : e.base ≤ q) (high : q < e.base + e.len) : InFree k.live q :=
      ⟨e, live, low, high⟩
    rw [kvaFreePages, isSome_map]
    exact unbackPages_isSome (fun q low high => sound.inKva (listed q low high))
      fun q low high => sound.mapped q (sound.inKva (listed q low high)) (listed q low high)
  · rcases range : takeRange k n with ⟨first, mid⟩
    have taken := sound.take admitted range
    simp only [kvaAllocPages, range, if_neg admitted.1.ne'] at failed
    rw [map_eq_none_iff, taken.pmm, taken.master] at failed
    exact backPages_none (fun q => taken.inKva)
      (fun q low high => sound.unmapped q (taken.inKva low high) (taken.fresh q low high).1) failed

def bootKva : Kva where
  next := kvaBase
  free := []
  pmm := ⟨fun f => f ≤ 1, fun f => if f = 1 then 1 else 0, [], []⟩
  master := ⟨1, empty Pte.zero 3⟩
  live := []

theorem bootKva_ready : KvaReady [] bootKva where
  next := rfl
  free := rfl
  live := rfl
  unmapped _ _ := look_empty
  owned := by
    have none : frames 512 (pteOwned []) 3 512 bootKva.master.top = [] :=
      frames_empty (pteOwned_zero [])
    rw [kernelHeld, none]
    exact ⟨by simp, rfl, by simp [bootKva, pmmMaxPages]⟩

def reuseCalls : List KvaCall :=
  [.alloc 2, .alloc 1, .alloc 1, .free kvaBase 2, .free (kvaBase + 2) 1, .alloc 3]

theorem kva_ranges_apart_reused : (reached (guarded kvaStep KvaAdmitted) bootKva reuseCalls).live =
        [⟨kvaBase, 3⟩, ⟨kvaBase + 3, 1⟩] ∧
      ((reached (guarded kvaStep KvaAdmitted) bootKva reuseCalls).master.pte (kvaBase + 3)).frame ≠
      ((reached (guarded kvaStep KvaAdmitted) bootKva reuseCalls).master.pte
        (kvaBase + 2)).frame := by
  have run := runWhere_of_exec (exec_eq_reached (by decide +kernel :
    (exec (guarded kvaStep KvaAdmitted) bootKva reuseCalls).isSome))
  have live : (reached (guarded kvaStep KvaAdmitted) bootKva reuseCalls).live =
      [⟨kvaBase, 3⟩, ⟨kvaBase + 3, 1⟩] := by
    decide +kernel
  obtain ⟨-, -, -, own, -⟩ := kva_ranges_apart bootKva_ready run
  refine ⟨live, fun same => ?_⟩
  have here : InFree (reached (guarded kvaStep KvaAdmitted) bootKva reuseCalls).live
      (kvaBase + 2) := live ▸ ⟨⟨kvaBase, 3⟩, by decide, by decide, by decide⟩
  have there : InFree (reached (guarded kvaStep KvaAdmitted) bootKva reuseCalls).live
      (kvaBase + 3) := live ▸ ⟨⟨kvaBase + 3, 1⟩, by decide, by decide, by decide⟩
  exact absurd ((own _ here).2 _ there same) (by decide)

/-! ### No page is lost -/

def pagesIn (l : List FreeRange) : Nat := (l.map len).sum

def TakenBack (k : Kva) : KvaCall → Prop
  | .alloc _ => True
  | .free va n => k.free.length < kvaFreeMax ∨ Adjacent k.free va n

instance (k : Kva) (call : KvaCall) : Decidable (TakenBack k call) := by
  rcases call <;> (dsimp only [TakenBack]; infer_instance)

/-- Every page below the bump pointer is in a live range or in the free list. -/
def Kva.Whole (k : Kva) : Prop := kvaBase + pagesIn k.live + pagesIn k.free = k.next

section
variable {l l' : List FreeRange} {e : FreeRange} {i va n : Nat} {k : Kva}

@[simp] theorem pagesIn_cons : pagesIn (e :: l) = e.len + pagesIn l := by
  simp [pagesIn]

theorem pagesIn_perm (eq : l.Perm l') : pagesIn l = pagesIn l' := (eq.map len).sum_nat

theorem pagesIn_set (entry : l[i]? = some e) (va n : Nat) :
    pagesIn (l.set i ⟨va, n⟩) + e.len = pagesIn l + n := by
  obtain ⟨before, after⟩ := perm_of_getElem? entry
  rw [pagesIn_perm before, pagesIn_perm (after _), pagesIn_cons, pagesIn_cons]
  dsimp only
  omega

theorem Merges.pagesIn_eq (merges : Merges l l') : pagesIn l' = pagesIn l := by
  rcases merges with plain | ⟨a, b, rest, before, -, after⟩
  · exact (pagesIn_perm plain).symm
  · rw [pagesIn_perm before, pagesIn_perm after]
    simp [Nat.add_assoc]

theorem pagesIn_insert (room : l.length < kvaFreeMax ∨ Adjacent l va n) :
    pagesIn (freelistInsert l va n) = pagesIn l + n := by
  rw [freelistInsert]
  cases search : firstWhere (fun _ e => e.stop = va ∨ va + n = e.base) 0 l with
  | none =>
    have alone := firstWhere_none search
    have short := room.resolve_right fun ⟨e, mem, meets⟩ => of_decide_eq_false (alone e mem) meets
    simp [short, pagesIn]
  | some found =>
    obtain ⟨i, e⟩ := found
    obtain ⟨-, entry, -⟩ := firstWhere_some search
    rw [Nat.sub_zero] at entry
    dsimp only
    split
    · rw [(growUp_merges entry).pagesIn_eq, pagesIn_perm (perm_of_getElem? entry).1]
      simp [Nat.add_right_comm]
    · have set := pagesIn_set entry va (e.len + n)
      omega

theorem pagesIn_alloc (hit : (freelistAlloc l n).1 ≠ 0) :
    pagesIn (freelistAlloc l n).2 + n = pagesIn l := by
  rw [freelistAlloc, mmapFreeAlloc] at *
  cases search : bestFit n 0 none l with
  | none => simp [search] at hit
  | some found =>
    obtain ⟨i, e⟩ := found
    obtain ⟨-, entry, long⟩ := (bestFit_some search).resolve_left (by simp)
    rw [Nat.sub_zero] at entry
    dsimp only
    split
    · next exact =>
      rw [← pagesIn_perm (swapRemove_perm entry), pagesIn_cons, Nat.add_comm, exact]
    · have set := pagesIn_set entry (e.base + n) (e.len - n)
      omega

theorem Kva.Whole.take (whole : k.Whole) (admitted : KvaAdmitted k (.alloc n)) :
    kvaBase + pagesIn (takeRange k n).2.live + pagesIn (takeRange k n).2.free + n =
      (takeRange k n).2.next := by
  rw [Whole] at whole
  simp only [takeRange]
  split <;> dsimp only
  · next miss =>
    have room := admitted.2.resolve_left fun hit => hit miss
    rw [Nat.mod_eq_of_lt room]
    omega
  · next hit =>
    have taken := pagesIn_alloc hit
    omega

end

/-- No page of the address space is lost as long as the free list takes in what is freed. -/
theorem kva_pages_kept {rest : List Nat} {start k : Kva} {calls : List KvaCall}
    (ready : KvaReady rest start)
    (run : RunWhere kvaStep (fun k call => KvaAdmitted k call ∧ TakenBack k call) start calls k) :
    k.Whole := by
  refine run.invariant ?_ fun k call k' whole ok step => ?_
  · rw [Kva.Whole, ready.next, ready.live, ready.free]
    rfl
  cases call with
  | alloc n =>
    have sum := whole.take ok.1
    obtain ⟨⟨base, last⟩, done, rfl⟩ := map_eq_some_iff.mp step
    rcases range : takeRange k n with ⟨start, mid⟩
    simp only [kvaAllocPages, range, if_neg ok.1.1.ne'] at done sum
    obtain ⟨m, -, eq⟩ := map_eq_some_iff.mp done
    obtain ⟨rfl, rfl⟩ := Prod.mk.inj eq
    rw [Kva.Whole, pagesIn_cons]
    dsimp only
    omega
  | free va n =>
    obtain ⟨m, -, rfl⟩ := map_eq_some_iff.mp step
    have live := pagesIn_perm (perm_cons_erase ok.1)
    rw [pagesIn_cons] at live
    rw [Kva.Whole] at *
    dsimp only at live ⊢
    rw [pagesIn_insert ok.2]
    omega

theorem kva_pages_kept_reused : ∃ k, RunWhere kvaStep (fun k call => KvaAdmitted k call ∧
    TakenBack k call) bootKva reuseCalls k ∧ k.Whole ∧ pagesIn k.free = 0 :=
  exists_runWhere_with (fun _ => kva_pages_kept bootKva_ready)

end Aegis.Memory
