import Aegis.RadixTree

/-! The physical frame allocator: one bit and one reference count for each frame of the
first 4 GiB. Frames are named by their number, so the alignment checks of the source cannot
fail; frame 0 is the failure value of an allocation. `allocated` and `freed` are history
variables: the frames handed out and the frames given to `pmm_free_page`, latest first. -/

namespace Aegis.Memory

open Function List

structure Pmm where
  bitmap : Nat → Bool
  refcount : Nat → Nat
  allocated : List Nat
  freed : List Nat

def pmmMaxPages : Nat := 1048576

/-- The lowest clear bit; the source scans byte by byte, which is the same order. -/
def firstClear (bitmap : Nat → Bool) : Nat → Nat → Option Nat
  | 0, _ => none
  | fuel + 1, i => if bitmap i then firstClear bitmap fuel (i + 1) else some i

def pmmAllocPage (p : Pmm) : Nat × Pmm :=
  match firstClear p.bitmap pmmMaxPages 0 with
  | none => (0, p)
  | some i =>
    (i, { p with
      bitmap := update p.bitmap i true
      refcount := update p.refcount i 1
      allocated := i :: p.allocated })

/-- Take one reference away; the frame becomes free with the last one. -/
def dropRef (p : Pmm) (i : Nat) : Pmm :=
  { p with
    refcount := update p.refcount i (p.refcount i - 1)
    bitmap := if p.refcount i - 1 = 0 then update p.bitmap i false else p.bitmap }

def pmmFreePage (p : Pmm) (i : Nat) : Pmm :=
  let p := { p with freed := i :: p.freed }
  if pmmMaxPages ≤ i then p
  else if p.bitmap i = false then p
  else if p.refcount i = 0 then p
  else dropRef p i

structure Owned (p : Pmm) (held : List Nat) : Prop where
  nodup : held.Nodup
  reserved : p.bitmap 0 = true
  live : ∀ f ∈ held, p.bitmap f = true ∧ p.refcount f = 1 ∧ f ≠ 0 ∧ f < pmmMaxPages

def InUse (p : Pmm) (g : Nat) : Prop :=
  p.bitmap g = true ∨ pmmMaxPages ≤ g

/-- Besides, every frame ever handed out is either still held or was freed, once for each
time it was handed out, and what was freed is free. -/
structure Ledger (p : Pmm) (held : List Nat) : Prop extends Owned p held where
  balance : p.allocated.Perm (p.freed ++ held)
  returned : ∀ f ∈ p.freed, f ∉ held → p.bitmap f = false

structure Custody (account : Pmm → List Nat → Prop) : Prop where
  perm {p : Pmm} {held held' : List Nat} : held.Perm held' → account p held → account p held'
  owned {p : Pmm} {held : List Nat} : account p held → Owned p held
  alloc {p p' : Pmm} {held : List Nat} {f : Nat} :
    account p held → pmmAllocPage p = (f, p') → f ≠ 0 → account p' (f :: held)
  free {p : Pmm} {held : List Nat} {f : Nat} :
    account p (f :: held) → account (pmmFreePage p f) held

variable {f : Nat} {p' : Pmm}

theorem firstClear_spec {bitmap : Nat → Bool} {fuel i : Nat}
    (hf : firstClear bitmap fuel i = some f) : bitmap f = false ∧ f < i + fuel := by
  induction fuel generalizing i with
  | zero => cases hf
  | succ fuel ih =>
    rw [firstClear] at hf
    split at hf
    · have hd := ih hf
      exact ⟨hd.1, by omega⟩
    next clear =>
    cases hf
    exact ⟨by simpa using clear, by omega⟩

theorem pmmAllocPage_cases {p : Pmm} (ht : pmmAllocPage p = (f, p')) :
    (f = 0 ∧ p' = p) ∨ (p.bitmap f = false ∧ f < pmmMaxPages ∧ p' = { p with
      bitmap := update p.bitmap f true
      refcount := update p.refcount f 1
      allocated := f :: p.allocated }) := by
  rw [pmmAllocPage] at ht
  cases hf : firstClear p.bitmap pmmMaxPages 0 with
  | none =>
    simp only [hf, Prod.mk.injEq] at ht
    exact .inl ⟨ht.1.symm, ht.2.symm⟩
  | some i =>
    simp only [hf, Prod.mk.injEq] at ht
    obtain ⟨rfl, rfl⟩ := ht
    have clear := firstClear_spec hf
    exact .inr ⟨clear.1, by omega, rfl⟩

theorem pmmAllocPage_inUse {p : Pmm} {g : Nat} (ht : pmmAllocPage p = (g, p')) (some : g ≠ 0) :
    g < pmmMaxPages ∧ ¬ InUse p g ∧ ∀ x, InUse p' x ↔ x = g ∨ InUse p x := by
  obtain ⟨zero, -⟩ | ⟨clear, lt, rfl⟩ := pmmAllocPage_cases ht
  · exact absurd zero some
  refine ⟨lt, ?_, fun x => ?_⟩
  · rintro (set | ho)
    · rw [clear] at set
      cases set
    · omega
  · by_cases eq : x = g <;> simp [InUse, eq]

theorem pmmAllocPage_failed {p : Pmm} (hr : p.bitmap 0 = true)
    (ht : pmmAllocPage p = (0, p')) : p' = p := by
  rcases pmmAllocPage_cases ht with ⟨-, eq⟩ | ⟨clear, -⟩
  · exact eq
  · rw [hr] at clear
    cases clear

theorem Owned.perm {p : Pmm} {held held' : List Nat} (eq : held.Perm held')
    (ho : Owned p held) : Owned p held' :=
  ⟨eq.nodup_iff.mp ho.nodup, ho.reserved, fun f mem => ho.live f (eq.mem_iff.mpr mem)⟩

theorem Owned.sublist {p : Pmm} {held held' : List Nat} (hf : held'.Sublist held)
    (ho : Owned p held) : Owned p held' :=
  ⟨ho.nodup.sublist hf, ho.reserved, fun f mem => ho.live f (hf.subset mem)⟩

theorem Owned.alloc {p : Pmm} {held : List Nat} (ho : Owned p held)
    (ht : pmmAllocPage p = (f, p')) (some : f ≠ 0) : Owned p' (f :: held) := by
  rcases pmmAllocPage_cases ht with ⟨none, -⟩ | ⟨clear, lt, rfl⟩
  · exact absurd none some
  have hf : f ∉ held := fun mem => by
    rw [(ho.live f mem).1] at clear
    cases clear
  refine ⟨nodup_cons.mpr ⟨hf, ho.nodup⟩, ?_, fun g mem => ?_⟩
  · simpa only [update_of_ne (Ne.symm some)] using ho.reserved
  rcases mem_cons.mp mem with rfl | old
  · simp [some, lt]
  · have other : g ≠ f := fun eq => hf (eq ▸ old)
    simpa only [update_of_ne other] using ho.live g old

theorem pmmFreePage_single {p : Pmm}
    (live : p.bitmap f = true ∧ p.refcount f = 1 ∧ f ≠ 0 ∧ f < pmmMaxPages) :
    pmmFreePage p f = { p with
      refcount := update p.refcount f 0
      bitmap := update p.bitmap f false
      freed := f :: p.freed } := by
  simp [pmmFreePage, dropRef, live.1, live.2.1, not_le.mpr live.2.2.2]

theorem Owned.free {p : Pmm} {held : List Nat} (ho : Owned p (f :: held)) :
    Owned (pmmFreePage p f) held := by
  obtain ⟨gone, nodup⟩ := nodup_cons.mp ho.nodup
  have live := ho.live f mem_cons_self
  rw [pmmFreePage_single live]
  refine ⟨nodup, ?_, fun g mem => ?_⟩
  · simpa only [update_of_ne (Ne.symm live.2.2.1)] using ho.reserved
  · have other : g ≠ f := fun eq => gone (eq ▸ mem)
    simpa only [update_of_ne other] using ho.live g (mem_cons_of_mem f mem)

theorem Owned.custody : Custody Owned := ⟨Owned.perm, id, Owned.alloc, Owned.free⟩

theorem Ledger.alloc {p : Pmm} {held : List Nat} (ledger : Ledger p held)
    (ht : pmmAllocPage p = (f, p')) (some : f ≠ 0) : Ledger p' (f :: held) := by
  have ho := ledger.toOwned.alloc ht some
  rcases pmmAllocPage_cases ht with ⟨none, -⟩ | ⟨-, -, rfl⟩
  · exact absurd none some
  refine ⟨ho, (ledger.balance.cons f).trans perm_middle.symm, fun g hf gone => ?_⟩
  obtain ⟨other, gone⟩ := not_or.mp (mem_cons.not.mp gone)
  simpa only [update_of_ne other] using ledger.returned g hf gone

theorem Ledger.free {p : Pmm} {held : List Nat} (ledger : Ledger p (f :: held)) :
    Ledger (pmmFreePage p f) held := by
  have ho := ledger.toOwned.free
  rw [pmmFreePage_single (ledger.live f mem_cons_self)] at ho ⊢
  refine ⟨ho, ledger.balance.trans perm_middle, fun g hf gone => ?_⟩
  by_cases eq : g = f
  · simp [eq]
  have pre := ledger.returned g ((mem_cons.mp hf).resolve_left eq)
    (mem_cons.not.mpr (not_or.mpr ⟨eq, gone⟩))
  simpa only [update_of_ne eq] using pre

theorem Ledger.custody : Custody Ledger :=
  ⟨fun eq ledger => ⟨ledger.toOwned.perm eq, ledger.balance.trans (eq.append_left _),
      fun f hf gone => ledger.returned f hf (eq.mem_iff.not.mpr gone)⟩,
    Ledger.toOwned, Ledger.alloc, Ledger.free⟩

section
variable {account : Pmm → List Nat → Prop} {p : Pmm} {held : List Nat}

def freePages (p : Pmm) (frames : List Nat) : Pmm :=
  frames.foldl pmmFreePage p

theorem Custody.freePages (hc : Custody account) {frames : List Nat}
    (start : account p (frames ++ held)) : account (freePages p frames) held := by
  induction frames generalizing p with
  | nil => exact start
  | cons f frames ih => exact ih (hc.free start)

end

end Aegis.Memory
