import Aegis.Pmm

/-! User page tables. A table entry is split into its frame and its flags; the four levels
are a radix tree with 512 slots a table, of which the user half of the PML4 has 256. Virtual
addresses are page numbers here: every caller passes page-aligned addresses below `2 ^ 47`.
The kernel half of the PML4 and the TLB are left out. -/

namespace Aegis.Memory

open RadixTree List Option

structure PteFlags where
  present : Bool
  writable : Bool
  user : Bool
  nx : Bool
  deriving DecidableEq

def PteFlags.none : PteFlags := ⟨false, false, false, false⟩

structure Pte where
  frame : Nat
  flags : PteFlags
  deriving DecidableEq

def Pte.zero : Pte := ⟨0, .none⟩

structure Space where
  root : Nat
  top : Table Nat Pte 3

def userPages : Nat := 256 * 512 ^ 3

def Space.pte (s : Space) (page : Nat) : Pte :=
  look 512 Pte.zero 3 s.top page

def allocTable (p : Pmm) : Option (Nat × Pmm) :=
  if (pmmAllocPage p).1 = 0 then none else some (pmmAllocPage p)

def vmmCreateUserPml4 (p : Pmm) : Option (Space × Pmm) :=
  (allocTable p).map fun a => (⟨a.1, empty Pte.zero 3⟩, a.2)

/-- `none` is a panic: no frame for a table, or the page is present already. -/
def vmmMapUserPage (p : Pmm) (s : Space) (page frame : Nat) (flags : PteFlags) :
    Option (Pmm × Space) :=
  let install (old : Pte) : Option Pte :=
    if old.flags.present then none else some ⟨frame, { flags with present := true }⟩
  (plant 512 Pte.zero allocTable install 3 s.top page p).map fun r => (r.2, { s with top := r.1 })

def vmmPhysOfUser (s : Space) (page : Nat) : Nat :=
  if (s.pte page).flags.present then (s.pte page).frame else 0

def vmmPhysOfUserRaw (s : Space) (page : Nat) : Nat :=
  if s.pte page = Pte.zero then 0 else (s.pte page).frame

def vmmUnmapUserPage (s : Space) (page : Nat) : Space :=
  { s with top := adjust 512 (fun old => if old.flags.present then Pte.zero else old) 3 s.top page }

/-- With no flags at all the frame stays in an entry that is not present. -/
def vmmSetUserProt (s : Space) (page : Nat) (flags : PteFlags) : Space :=
  { s with
    top := adjust 512 (fun old => if old.flags.present then ⟨old.frame, flags⟩ else old) 3 s.top
      page }

def pteFrame (pte : Pte) : List Nat :=
  if pte = Pte.zero then [] else if pte.frame = 0 then [] else [pte.frame]

def vmmFreeUserPml4 (p : Pmm) (s : Space) : Pmm :=
  freePages p (frames 512 pteFrame 3 256 s.top ++ [s.root])

def vmmFreeUserPages (p : Pmm) (s : Space) : Pmm × Space :=
  (freePages p (leaves 512 pteFrame 3 256 s.top), { s with top := wipe Pte.zero 3 s.top })

/-- The frame an entry owns: none for the frames that belong to a shared object. -/
def pteOwned (shared : List Nat) (pte : Pte) : List Nat :=
  if pte = Pte.zero ∨ pte.frame ∈ shared then [] else [pte.frame]

/-- The frames of an address space: its root, its tables and the pages it owns. -/
def Space.held (shared : List Nat) (s : Space) : List Nat :=
  s.root :: frames 512 (pteOwned shared) 3 256 s.top

open Pte

open Space

section
variable {s s' : Space} {p p' : Pmm} {page other frame : Nat} {flags : PteFlags}
  {shared rest : List Nat}

@[simp] theorem pteOwned_zero (shared : List Nat) : pteOwned shared zero = [] := by
  simp [pteOwned]

theorem samePath_page (lt : page < userPages) (lt' : other < userPages) :
    SamePath 512 3 other page ↔ other = page :=
  samePath_iff_of_lt (by simp [userPages] at lt'; omega) (by simp [userPages] at lt; omega)

theorem index_page (lt : page < userPages) : index 512 3 page < 256 := by
  simp only [userPages] at lt
  simp only [index]
  omega

theorem allocTable_inUse {g : Nat} (ht : allocTable p = some (g, p')) :
    g < pmmMaxPages ∧ ¬ InUse p g ∧ ∀ x, InUse p' x ↔ x = g ∨ InUse p x := by
  unfold allocTable at ht
  split at ht
  · cases ht
  next hf =>
  have eq := some.inj ht
  exact pmmAllocPage_inUse eq (by simpa [eq] using hf)

theorem allocs_inUse {new : List Nat} (ht : Allocs allocTable p new p') :
    (∀ g ∈ new, ¬ InUse p g) ∧ ∀ g, InUse p g → InUse p' g := by
  induction ht with
  | nil => exact ⟨by simp, fun _ used => used⟩
  | cons h1 _ ih =>
    obtain ⟨-, fresh, hg⟩ := allocTable_inUse h1
    refine ⟨fun g mem used => ?_, fun g used => ih.2 g ((hg g).mpr (.inr used))⟩
    rcases mem_cons.mp mem with rfl | hl
    · exact fresh used
    · exact ih.1 g hl ((hg g).mpr (.inr used))

theorem vmmMapUserPage_pte (lt : page < userPages)
    (hm : vmmMapUserPage p s page frame flags = some (p', s')) :
    s'.pte page = ⟨frame, { flags with present := true }⟩ ∧ (s.pte page).flags.present = false ∧
      ∀ q < userPages, q ≠ page → s'.pte q = s.pte q := by
  obtain ⟨⟨top, last⟩, hp, eq⟩ := map_eq_some_iff.mp hm
  cases eq
  obtain ⟨made, rest⟩ := look_plant (by omega) hp
  split at made
  · cases made
  next ha =>
  refine ⟨(some.inj made).symm, by simpa [pte] using ha, fun q hb other => ?_⟩
  exact rest q fun path => other ((samePath_page lt hb).mp path)

theorem vmmMapUserPage_keeps (hm : vmmMapUserPage p s page frame flags = some (p', s')) :
    s'.pte page = ⟨frame, { flags with present := true }⟩ ∧
      (∀ q, (s.pte q).flags.present = true → s'.pte q = s.pte q) ∧
      ∀ g, InUse p g → InUse p' g := by
  obtain ⟨⟨top, last⟩, hl, eq⟩ := map_eq_some_iff.mp hm
  cases eq
  obtain ⟨made, ho⟩ := look_plant (by decide) hl
  obtain ⟨new, -, ht, -⟩ := plant_allocs hl
  split at made
  · cases made
  next ha =>
  refine ⟨(some.inj made).symm, fun q hp => ho q fun path => ?_, (allocs_inUse ht).2⟩
  have eq : s.pte q = s.pte page := look_samePath (by decide) path
  rw [eq] at hp
  exact ha hp

/-- The loop that gives each of `n` pages from `page` on a new frame. -/
inductive MapsFresh (flags : PteFlags) : Nat → Nat → Pmm × Space → Pmm × Space → Prop
  | nil {page m} : MapsFresh flags 0 page m m
  | cons {n page p s frame mid next last} (taken : pmmAllocPage p = (frame, mid))
      (found : frame ≠ 0) (mapped : vmmMapUserPage mid s page frame flags = some next)
      (rest : MapsFresh flags n (page + 1) next last) : MapsFresh flags (n + 1) page (p, s) last

variable {n : Nat} {m m' : Pmm × Space}

section
variable (fresh : MapsFresh flags n page m m')
include fresh

theorem MapsFresh.frames : (∀ g, InUse m.1 g → InUse m'.1 g) ∧
      (∀ q, (m.2.pte q).flags.present = true → m'.2.pte q = m.2.pte q) ∧
      ∀ i < n, ((m'.2.pte (page + i)).flags.present = true ∧ (m'.2.pte (page + i)).frame ≠ 0) ∧
        ¬ InUse m.1 (m'.2.pte (page + i)).frame ∧ InUse m'.1 (m'.2.pte (page + i)).frame := by
  induction fresh with
  | nil => exact ⟨fun _ used => used, fun _ _ => rfl, nofun⟩
  | @cons n page p s frame mid next last ht hf hm rest ih =>
    obtain ⟨-, free, hg⟩ := pmmAllocPage_inUse ht hf
    obtain ⟨entry, kept, more⟩ := vmmMapUserPage_keeps hm
    obtain ⟨hr, hk, hl⟩ := ih
    have hw (g : Nat) (pre : InUse p g) : InUse next.1 g := more g ((hg g).mpr (.inr pre))
    refine ⟨fun g pre => hr g (hw g pre), fun q present => ?_, fun i lt => ?_⟩
    · have eq := kept q present
      rw [hk q (by rw [eq]; exact present), eq]
    cases i with
    | zero =>
      rw [Nat.add_zero, hk page (by rw [entry]), entry]
      exact ⟨⟨rfl, hf⟩, free, hr frame (more frame ((hg frame).mpr (.inl rfl)))⟩
    | succ i =>
      rw [Nat.add_comm i, ← Nat.add_assoc]
      obtain ⟨mappedNow, hu, now⟩ := hl i (Nat.lt_of_succ_lt_succ lt)
      exact ⟨mappedNow, fun pre => hu (hw _ pre), now⟩

theorem MapsFresh.apart (i j : Nat) (lt : i < n) (lt' : j < n)
    (eq : (m'.2.pte (page + i)).frame = (m'.2.pte (page + j)).frame) :
    i = j := by
  induction fresh generalizing i j with
  | nil => exact absurd lt (Nat.not_lt_zero i)
  | @cons n page p s frame mid next last ht hf hm rest ih =>
    obtain ⟨-, -, hg⟩ := pmmAllocPage_inUse ht hf
    obtain ⟨entry, -, more⟩ := vmmMapUserPage_keeps hm
    obtain ⟨-, hk, hl⟩ := rest.frames
    have head : last.2.pte (page + 0) = ⟨frame, { flags with present := true }⟩ := by
      rw [Nat.add_zero, hk page (by rw [entry]), entry]
    -- the later frames were not in use when the first one was
    have tail (k : Nat) (hi : k < n) : (last.2.pte (page + (k + 1))).frame ≠ frame := by
      rw [Nat.add_comm k, ← Nat.add_assoc]
      intro h1
      exact (hl k hi).2.1 (h1 ▸ more frame ((hg frame).mpr (.inl rfl)))
    cases i with
    | zero =>
      cases j with
      | zero => rfl
      | succ j =>
        rw [head] at eq
        exact absurd eq.symm (tail j (Nat.lt_of_succ_lt_succ lt'))
    | succ i =>
      cases j with
      | zero =>
        rw [head] at eq
        exact absurd eq (tail i (Nat.lt_of_succ_lt_succ lt))
      | succ j =>
        rw [Nat.add_comm i, Nat.add_comm j, ← Nat.add_assoc, ← Nat.add_assoc] at eq
        rw [ih i j (Nat.lt_of_succ_lt_succ lt) (Nat.lt_of_succ_lt_succ lt') eq]

theorem MapsFresh.others (hi : page + n ≤ userPages) (lt : other < userPages)
    (ha : other < page ∨ page + n ≤ other) :
    m'.2.pte other = m.2.pte other := by
  induction fresh with
  | nil => rfl
  | cons _ _ hm _ ih =>
    obtain ⟨-, -, ho⟩ := vmmMapUserPage_pte (by omega) hm
    rw [ih (by omega) (by omega)]
    exact ho other lt (by omega)

end

theorem vmmMapUserPage_root (hm : vmmMapUserPage p s page frame flags = some (p', s')) :
    s'.root = s.root := by
  obtain ⟨r, -, eq⟩ := map_eq_some_iff.mp hm
  rw [← (Prod.mk.inj eq).2]

theorem pte_unmap : (vmmUnmapUserPage s page).pte page =
    if (s.pte page).flags.present then zero else s.pte page :=
  look_adjust_self rfl

theorem pte_unmap_other (lt : page < userPages) (lt' : other < userPages)
    (ha : other ≠ page) : (vmmUnmapUserPage s page).pte other = s.pte other :=
  look_adjust_other (by omega) fun path => ha ((samePath_page lt lt').mp path)

theorem pte_setProt : (vmmSetUserProt s page flags).pte page =
    if (s.pte page).flags.present then ⟨(s.pte page).frame, flags⟩ else s.pte page :=
  look_adjust_self rfl

theorem pte_setProt_other (lt : page < userPages) (lt' : other < userPages)
    (ha : other ≠ page) : (vmmSetUserProt s page flags).pte other = s.pte other :=
  look_adjust_other (by omega) fun path => ha ((samePath_page lt lt').mp path)

theorem pte_freeUserPages : (vmmFreeUserPages p s).2.pte page = zero := look_wipe

theorem Pte.ne_zero_of_present {pte : Pte} (hp : pte.flags.present = true) : pte ≠ zero := by
  rintro rfl
  cases hp

theorem mem_pteOwned {pte : Pte} (used : pte ≠ zero) (own : pte.frame ∉ shared) :
    pte.frame ∈ pteOwned shared pte := by
  rw [pteOwned, if_neg (not_or.mpr ⟨used, own⟩)]
  exact mem_singleton_self _

theorem Space.mem_held (lt : page < userPages) (used : s.pte page ≠ zero)
    (own : (s.pte page).frame ∉ shared) : (s.pte page).frame ∈ s.held shared :=
  mem_cons_of_mem _
    (mem_frames_of_look (by omega) (pteOwned_zero shared) (index_page lt) (mem_pteOwned used own))

theorem Space.pte_inj (lt : page < userPages) (lt' : other < userPages)
    (nodup : (s.held shared).Nodup) (used : s.pte page ≠ zero)
    (used' : s.pte other ≠ zero) (own : (s.pte page).frame ∉ shared)
    (eq : (s.pte other).frame = (s.pte page).frame) : other = page := by
  rw [← samePath_page lt lt']
  have ht := mem_pteOwned used' (eq ▸ own)
  rw [eq] at ht
  exact samePath_of_mem (by omega) (pteOwned_zero shared) (index_page lt) (index_page lt')
    (nodup_cons.mp nodup).2 (mem_pteOwned used own) ht

theorem held_congr {shared' : List Nat} (same : ∀ q < userPages, s.pte q ≠ zero →
      ((s.pte q).frame ∈ shared ↔ (s.pte q).frame ∈ shared')) :
    s.held shared = s.held shared' := by
  refine congrArg (s.root :: ·) (frames_congr zero (by omega) fun q small => ?_)
  by_cases zero : s.pte q = zero
  · rw [pte] at zero
    rw [zero, pteOwned_zero, pteOwned_zero]
  have iff := same q small zero
  rw [pte] at iff
  simp only [pteOwned, iff]

theorem Space.live_of_owned (ho : Owned p (s.held shared ++ rest)) (lt : page < userPages)
    (used : s.pte page ≠ zero) (own : (s.pte page).frame ∉ shared) :
    p.bitmap (s.pte page).frame = true ∧ (s.pte page).frame ≠ 0 := by
  have live := ho.live _ (mem_append_left rest (s.mem_held lt used own))
  exact ⟨live.1, live.2.2.1⟩

theorem frames_pteFrame (hb : ∀ q < userPages, s.pte q ≠ zero → (s.pte q).frame ≠ 0) :
    frames 512 pteFrame 3 256 s.top = frames 512 (pteOwned []) 3 256 s.top := by
  refine frames_congr zero (by omega) fun q lt => ?_
  have used := hb q lt
  rw [pte] at used
  by_cases zero : look 512 zero 3 s.top q = zero
  · simp [zero, pteFrame]
  · simp [pteFrame, pteOwned, zero, used zero]

section
variable {account : Pmm → List Nat → Prop} (hc : Custody account)
include hc

theorem Custody.allocs {new held : List Nat} (ht : Allocs allocTable p new p')
    (start : account p held) : account p' (new ++ held) := by
  induction ht generalizing held with
  | nil => exact start
  | @cons p mid last f new ht _ ih =>
    rw [allocTable] at ht
    split at ht
    · cases ht
    next some =>
    have eq := Option.some.inj ht
    have next := hc.alloc start eq (by simpa [eq] using some)
    exact hc.perm perm_middle (ih next)

/-- A new entry below one of the first `m` slots of the root: the account takes over the
entry and the tables made on the way. -/
theorem Custody.mapSlot {m : Nat} (hi : index 512 3 page < m) (hv : s.pte page = zero)
    (hm : vmmMapUserPage p s page frame flags = some (p', s'))
    (start : account p (pteOwned shared (s'.pte page) ++
      (s.root :: frames 512 (pteOwned shared) 3 m s.top ++ rest))) :
    account p' (s'.root :: frames 512 (pteOwned shared) 3 m s'.top ++ rest) := by
  have root := vmmMapUserPage_root hm
  obtain ⟨⟨top, last⟩, hp, eq⟩ := map_eq_some_iff.mp hm
  cases eq
  obtain ⟨new, ht, perm⟩ := frames_plant (by omega) (pteOwned_zero shared) hi hp
  refine hc.perm (perm_iff_count.mpr fun f => ?_) (hc.allocs ht start)
  have count := perm.count_eq f
  rw [pte] at hv
  simp only [hv, pteOwned_zero, pte, nil_append, count_append, count_cons] at count ⊢
  omega

theorem Custody.map (lt : page < userPages) (hv : s.pte page = zero)
    (hm : vmmMapUserPage p s page frame flags = some (p', s'))
    (start : account p (pteOwned shared (s'.pte page) ++ (s.held shared ++ rest))) :
    account p' (s'.held shared ++ rest) :=
  hc.mapSlot (index_page lt) hv hm start

theorem Custody.unmapSlot {m : Nat} (hi : index 512 3 page < m)
    (hp : (s.pte page).flags.present = true)
    (start : account p (s.root :: frames 512 (pteOwned shared) 3 m s.top ++ rest)) :
    account p (pteOwned shared (s.pte page) ++ ((vmmUnmapUserPage s page).root ::
      frames 512 (pteOwned shared) 3 m (vmmUnmapUserPage s page).top ++ rest)) := by
  refine hc.perm (perm_iff_count.mpr fun f => ?_) start
  have perm := frames_adjust (f := fun old : Pte => if old.flags.present then zero else old)
    (t := s.top) (by omega) rfl (pteOwned_zero shared) hi
  have count := perm.count_eq f
  rw [pte] at hp
  simp only [hp, if_true, pteOwned_zero, pte, vmmUnmapUserPage,
    nil_append, count_append, count_cons] at count ⊢
  omega

theorem Custody.unmap (lt : page < userPages) (hp : (s.pte page).flags.present = true)
    (start : account p (s.held shared ++ rest)) :
    account p (pteOwned shared (s.pte page) ++ ((vmmUnmapUserPage s page).held shared ++ rest)) :=
  hc.unmapSlot (index_page lt) hp start

theorem Custody.setProt (lt : page < userPages) (hb : s.pte page ≠ zero → (s.pte page).frame ≠ 0)
    (start : account p (s.held shared ++ rest)) :
    account p ((vmmSetUserProt s page flags).held shared ++ rest) := by
  refine hc.perm (perm_iff_count.mpr fun f => ?_) start
  have perm := frames_adjust
    (f := fun old : Pte => if old.flags.present then ⟨old.frame, flags⟩ else old)
    (t := s.top) (by omega) rfl (pteOwned_zero shared) (index_page lt)
  have kept : pteOwned shared (if (s.pte page).flags.present then ⟨(s.pte page).frame, flags⟩
      else s.pte page) = pteOwned shared (s.pte page) := by
    split
    · next hp =>
      have used := ne_zero_of_present hp
      have hs : (⟨(s.pte page).frame, flags⟩ : Pte) ≠ zero := fun zero =>
        hb used (congrArg frame zero)
      simp only [pteOwned, used, hs]
    · rfl
  have count := perm.count_eq f
  rw [pte] at kept
  simp only [kept, held, vmmSetUserProt, count_append, count_cons] at count ⊢
  omega

theorem Custody.freeUserPml4 (start : account p (s.held [] ++ rest)) :
    account (vmmFreeUserPml4 p s) rest := by
  have hb : ∀ q < userPages, s.pte q ≠ zero → (s.pte q).frame ≠ 0 := fun q lt used =>
    (s.live_of_owned (hc.owned start) lt used not_mem_nil).2
  rw [vmmFreeUserPml4, frames_pteFrame hb]
  refine hc.freePages (hc.perm (List.Perm.append_right rest ?_) start)
  exact (perm_append_singleton _ _).symm

theorem Custody.freeUserPages (start : account p (s.held [] ++ rest)) :
    account (vmmFreeUserPages p s).1 ((vmmFreeUserPages p s).2.held [] ++ rest) := by
  have hb : ∀ q < userPages, s.pte q ≠ zero → (s.pte q).frame ≠ 0 := fun q lt used =>
    (s.live_of_owned (hc.owned start) lt used not_mem_nil).2
  have hw : ∀ q < userPages, (vmmFreeUserPages p s).2.pte q ≠ zero →
      ((vmmFreeUserPages p s).2.pte q).frame ≠ 0 := fun q _ used => absurd pte_freeUserPages used
  have perm := frames_wipe (w := 512) (m := 256) (t := s.top) (show pteFrame zero = [] from rfl)
  rw [frames_pteFrame hb] at perm
  refine hc.freePages (hc.perm (perm_iff_count.mpr fun f => ?_) start)
  have count := perm.count_eq f
  have kept := congrArg (List.count f) (frames_pteFrame hw)
  simp only [held, vmmFreeUserPages, count_append, count_cons] at count kept ⊢
  omega

end

end

end Aegis.Memory
