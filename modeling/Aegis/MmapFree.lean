import Mathlib.Data.List.Perm.Basic
import Mathlib.Algebra.GroupWithZero.Nat

/-! The list of free address ranges that `sys_munmap` fills and `sys_mmap` takes from: at
most 64 ranges in no order. Insertion joins a range with at most two neighbours, allocation
takes the front of the smallest range that is long enough, and a range is deleted by moving
the last one into its place. As sets of ranges, the results are described up to order. -/

namespace Aegis.Memory

open List

structure FreeRange where
  base : Nat
  len : Nat
  deriving DecidableEq

def FreeRange.stop (e : FreeRange) : Nat :=
  e.base + e.len

def mmapFreeMax : Nat := 64

def swapRemove {α : Type} (l : List α) (j : Nat) : List α :=
  match l.getLast? with
  | none => []
  | some last => (l.set j last).dropLast

def firstWhere (test : Nat → FreeRange → Bool) : Nat → List FreeRange → Option (Nat × FreeRange)
  | _, [] => none
  | i, e :: rest => if test i e then some (i, e) else firstWhere test (i + 1) rest

/-- Entry `i` now ends at `e.stop`; take in an entry that starts there. -/
def growUp (l : List FreeRange) (i : Nat) (e : FreeRange) : List FreeRange :=
  match firstWhere (fun j f => j ≠ i ∧ e.stop = f.base) 0 l with
  | none => l.set i e
  | some (j, f) => swapRemove (l.set i { e with len := e.len + f.len }) j

/-- Entry `i` now starts at `e.base`; let an entry that ends there take it in. -/
def growDown (l : List FreeRange) (i : Nat) (e : FreeRange) : List FreeRange :=
  match firstWhere (fun j f => j ≠ i ∧ f.stop = e.base) 0 l with
  | none => l.set i e
  | some (j, f) => swapRemove ((l.set i e).set j { f with len := f.len + e.len }) i

def mmapFreeInsert (l : List FreeRange) (base len : Nat) : List FreeRange :=
  match firstWhere (fun _ e => e.stop = base ∨ base + len = e.base) 0 l with
  | none => if l.length < mmapFreeMax then l ++ [⟨base, len⟩] else l
  | some (i, e) =>
    if e.stop = base then growUp l i ⟨e.base, e.len + len⟩
    else growDown l i ⟨base, e.len + len⟩

def bestLen : Option (Nat × FreeRange) → Nat
  | none => 2 ^ 64 - 1
  | some best => best.2.len

/-- The scan for the smallest range of at least `len`; it stops at an exact fit. -/
def bestFit (len : Nat) : Nat → Option (Nat × FreeRange) → List FreeRange →
    Option (Nat × FreeRange)
  | _, best, [] => best
  | i, best, e :: rest =>
    if len ≤ e.len ∧ e.len < bestLen best then
      if e.len = len then some (i, e) else bestFit len (i + 1) (some (i, e)) rest
    else bestFit len (i + 1) best rest

def mmapFreeAlloc (l : List FreeRange) (len : Nat) : Nat × List FreeRange :=
  match bestFit len 0 none l with
  | none => (0, l)
  | some (i, e) =>
    (e.base, if e.len = len then swapRemove l i else l.set i ⟨e.base + len, e.len - len⟩)

def FreeRange.Apart (a b : FreeRange) : Prop :=
  a.stop ≤ b.base ∨ b.stop ≤ a.base
  deriving Decidable

structure FreeList (l : List FreeRange) : Prop where
  apart : l.Pairwise FreeRange.Apart
  proper : ∀ e ∈ l, 0 < e.len

theorem FreeRange.Apart.symm {a b : FreeRange} (ha : a.Apart b) : b.Apart a := Or.symm ha

instance : Std.Symm FreeRange.Apart :=
  ⟨fun _ _ => .symm⟩

open FreeList

open FreeRange

section
variable {l rest result : List FreeRange} {e f : FreeRange} {i j base len : Nat}

theorem FreeList.perm (eq : l.Perm result) (list : FreeList l) : FreeList result :=
  ⟨(eq.pairwise_iff FreeRange.Apart.symm).mp list.apart,
    fun e mem => list.proper e (eq.mem_iff.mpr mem)⟩

theorem FreeList.cons_iff :
    FreeList (e :: rest) ↔ (0 < e.len ∧ ∀ x ∈ rest, e.Apart x) ∧ FreeList rest := by
  constructor
  · intro list
    obtain ⟨h1, ho⟩ := pairwise_cons.mp list.apart
    exact ⟨⟨list.proper e mem_cons_self, h1⟩, ho,
      fun x mem => list.proper x (mem_cons_of_mem e mem)⟩
  · rintro ⟨⟨hp, h1⟩, list⟩
    refine ⟨pairwise_cons.mpr ⟨h1, list.apart⟩, fun x mem => ?_⟩
    rcases mem_cons.mp mem with rfl | old
    · exact hp
    · exact list.proper x old

theorem swapRemove_perm {α : Type} {l : List α} {x : α} {j : Nat} (hf : l[j]? = some x) :
    (x :: swapRemove l j).Perm l := by
  rcases l.eq_nil_or_concat with rfl | ⟨init, last, rfl⟩
  · cases hf
  rw [concat_eq_append] at hf ⊢
  simp only [swapRemove, List.getLast?_concat]
  by_cases inner : j < init.length
  · rw [List.getElem?_append_left inner] at hf
    obtain ⟨_, rfl⟩ := List.getElem?_eq_some_iff.mp hf
    rw [set_append_left _ _ inner, dropLast_concat]
    calc init[j] :: init.set j last
        _ |>.Perm (init[j] :: last :: init.eraseIdx j) :=
          (set_perm_cons_eraseIdx inner last).cons _
        _ |>.Perm (last :: init[j] :: init.eraseIdx j) := .swap _ _ _
        _ |>.Perm (last :: init) := (getElem_cons_eraseIdx_perm inner).cons _
        _ |>.Perm (init ++ [last]) := (perm_append_singleton _ _).symm
  · have lt : j < (init ++ [last]).length := (List.getElem?_eq_some_iff.mp hf).1
    have hn : j = init.length := by simp at lt; omega
    subst hn
    simp only [List.getElem?_concat_length, Option.some.injEq] at hf
    rw [set_append_right _ _ (Nat.le_refl _), Nat.sub_self, set_cons_zero, dropLast_concat,
      ← hf]
    exact (perm_append_singleton _ _).symm

variable {k : Nat} {b : FreeRange}

theorem firstWhere_some {test : Nat → FreeRange → Bool} (hf : firstWhere test k l = some (i, e)) :
    k ≤ i ∧ l[i - k]? = some e ∧ test i e = true := by
  induction l generalizing k with
  | nil => cases hf
  | cons x rest ih =>
    rw [firstWhere] at hf
    split at hf
    · next hp =>
      cases hf
      simp [hp]
    · obtain ⟨hl, entry, hp⟩ := ih hf
      refine ⟨by omega, ?_, hp⟩
      rw [show i - k = (i - (k + 1)) + 1 by omega, getElem?_cons_succ]
      exact entry

theorem perm_of_getElem? {α : Type} {l : List α} {x : α} {i : Nat} (hf : l[i]? = some x) :
    l.Perm (x :: l.eraseIdx i) ∧ ∀ y, (l.set i y).Perm (y :: l.eraseIdx i) := by
  obtain ⟨lt, rfl⟩ := List.getElem?_eq_some_iff.mp hf
  exact ⟨(getElem_cons_eraseIdx_perm lt).symm, set_perm_cons_eraseIdx lt⟩

theorem eraseIdx_perm_cons {α : Type} [DecidableEq α] {l : List α} {y : α} {i j : Nat}
    (hf : l[j]? = some y) (other : j ≠ i) :
    (l.eraseIdx i).Perm (y :: (l.eraseIdx i).erase y) :=
  perm_cons_erase (mem_eraseIdx_iff_getElem?.mpr ⟨j, other, hf⟩)

/-- The ranges of `l` in another order, or with one of them joined to the range it ends at. -/
def Merges (l result : List FreeRange) : Prop :=
  l.Perm result ∨ ∃ a b rest, l.Perm (a :: b :: rest) ∧ a.stop = b.base ∧
    result.Perm (⟨a.base, a.len + b.len⟩ :: rest)

theorem growUp_merges (ht : l[i]? = some f) : Merges (e :: l.eraseIdx i) (growUp l i e) := by
  rw [growUp]
  cases search : firstWhere (fun j f => j ≠ i ∧ e.stop = f.base) 0 l with
  | none => exact .inl ((perm_of_getElem? ht).2 e).symm
  | some hf =>
    obtain ⟨j, next⟩ := hf
    obtain ⟨-, entry, test⟩ := firstWhere_some search
    obtain ⟨other, meet⟩ := of_decide_eq_true test
    have rest := eraseIdx_perm_cons (i := i) entry other
    refine .inr ⟨e, next, _, rest.cons e, meet, ?_⟩
    have kept : (l.set i ⟨e.base, e.len + next.len⟩)[j]? = some next := by
      rw [getElem?_set_ne (Ne.symm other)]
      exact entry
    have both : (next :: swapRemove (l.set i ⟨e.base, e.len + next.len⟩) j).Perm
        (next :: ⟨e.base, e.len + next.len⟩ :: (l.eraseIdx i).erase next) :=
      (swapRemove_perm kept).trans (((perm_of_getElem? ht).2 _).trans
        ((rest.cons _).trans (.swap _ _ _)))
    exact both.cons_inv

theorem growDown_merges (ht : l[i]? = some f) : Merges (e :: l.eraseIdx i) (growDown l i e) := by
  have lt := (List.getElem?_eq_some_iff.mp ht).1
  rw [growDown]
  cases search : firstWhere (fun j f => j ≠ i ∧ f.stop = e.base) 0 l with
  | none => exact .inl ((perm_of_getElem? ht).2 e).symm
  | some hf =>
    obtain ⟨j, prev⟩ := hf
    obtain ⟨-, entry, test⟩ := firstWhere_some search
    obtain ⟨other, meet⟩ := of_decide_eq_true test
    have rest := eraseIdx_perm_cons (i := i) entry other
    refine .inr ⟨prev, e, _, (rest.cons e).trans (.swap _ _ _), meet, ?_⟩
    have kept : (l.set i e)[j]? = some prev := by
      rw [List.getElem?_set_ne (Ne.symm other)]
      exact entry
    have left : ((l.set i e).set j ⟨prev.base, prev.len + e.len⟩)[i]? = some e := by
      rw [List.getElem?_set_ne other, List.getElem?_set_self lt]
    have ho : ((l.set i e).eraseIdx j).Perm (e :: (l.eraseIdx i).erase prev) :=
      ((perm_of_getElem? kept).1.symm.trans (((perm_of_getElem? ht).2 e).trans
        ((rest.cons e).trans (.swap _ _ _)))).cons_inv
    have both : (e :: swapRemove ((l.set i e).set j ⟨prev.base, prev.len + e.len⟩) i).Perm
        (e :: ⟨prev.base, prev.len + e.len⟩ :: (l.eraseIdx i).erase prev) :=
      (swapRemove_perm left).trans (((perm_of_getElem? kept).2 _).trans
        ((ho.cons _).trans (.swap _ _ _)))
    exact both.cons_inv

theorem FreeRange.Apart.join {a x : FreeRange} (meet : a.stop = b.base) (hp : 0 < x.len)
    (h1 : a.Apart x) (h2 : b.Apart x) : (⟨a.base, a.len + b.len⟩ : FreeRange).Apart x := by
  simp only [FreeRange.Apart, stop] at *
  omega

theorem FreeList.merge {a : FreeRange} (meet : a.stop = b.base) (list : FreeList (a :: b :: rest)) :
    FreeList (⟨a.base, a.len + b.len⟩ :: rest) := by
  obtain ⟨⟨hp, h1⟩, tail⟩ := cons_iff.mp list
  obtain ⟨⟨-, h2⟩, last⟩ := cons_iff.mp tail
  refine cons_iff.mpr ⟨⟨Nat.add_pos_left hp _, fun x mem => ?_⟩, last⟩
  exact .join meet (last.proper x mem) (h1 x (.tail _ mem)) (h2 x mem)

def InFree (l : List FreeRange) (va : Nat) : Prop :=
  ∃ e ∈ l, e.base ≤ va ∧ va < e.stop

theorem inFree_perm {va : Nat} (eq : l.Perm result) : InFree l va ↔ InFree result va := by
  simp only [InFree, eq.mem_iff]

theorem inFree_cons {va : Nat} :
    InFree (e :: rest) va ↔ (e.base ≤ va ∧ va < e.stop) ∨ InFree rest va := by
  simp [InFree]

def Adjacent (l : List FreeRange) (base len : Nat) : Prop :=
  ∃ e ∈ l, e.stop = base ∨ base + len = e.base
  deriving Decidable

theorem firstWhere_none {test : FreeRange → Bool}
    (ha : firstWhere (fun _ e => test e) k l = none) : ∀ e ∈ l, test e = false := by
  induction l generalizing k with
  | nil => nofun
  | cons x rest ih =>
    rw [firstWhere] at ha
    split at ha
    · cases ha
    next hf =>
    intro e mem
    rcases mem_cons.mp mem with rfl | old
    · simpa using hf
    · exact ih ha e old

theorem mmapFreeInsert_full (ha : ¬ Adjacent l base len) (full : ¬ l.length < mmapFreeMax) :
    mmapFreeInsert l base len = l := by
  rw [mmapFreeInsert]
  cases search : firstWhere (fun _ e => e.stop = base ∨ base + len = e.base) 0 l with
  | none => simp [full]
  | some hf =>
    obtain ⟨-, entry, test⟩ := firstWhere_some search
    exact absurd ⟨hf.2, mem_of_getElem? entry, of_decide_eq_true test⟩ ha

theorem inFree_merge {a : FreeRange} {va : Nat} (meet : a.stop = b.base)
    (hi : InFree (⟨a.base, a.len + b.len⟩ :: rest) va) : InFree (a :: b :: rest) va := by
  rw [inFree_cons, inFree_cons]
  rcases inFree_cons.mp hi with hm | old
  · simp only [stop] at meet hm ⊢
    omega
  · exact .inr (.inr old)

theorem Merges.spec (h : Merges l result) (list : FreeList l) :
    FreeList result ∧ ∀ va, InFree result va → InFree l va := by
  rcases h with plain | ⟨a, b, rest, ho, meet, hm⟩
  · exact ⟨list.perm plain, fun va => (inFree_perm plain).mpr⟩
  exact ⟨((list.perm ho).merge meet).perm hm.symm, fun va hi =>
    (inFree_perm ho).mpr (inFree_merge meet ((inFree_perm hm).mp hi))⟩

theorem FreeList.appended (list : FreeList l) (ha : ∀ x ∈ l, FreeRange.Apart ⟨base, len⟩ x)
    (wide : 0 < len) : FreeList (l ++ [⟨base, len⟩]) ∧ ∀ va, InFree (l ++ [⟨base, len⟩]) va →
      InFree l va ∨ (base ≤ va ∧ va < base + len) := by
  have hp : FreeList (⟨base, len⟩ :: l) := cons_iff.mpr ⟨⟨wide, ha⟩, list⟩
  have order := perm_append_singleton (⟨base, len⟩ : FreeRange) l
  refine ⟨hp.perm order.symm, fun va hi => ?_⟩
  exact (inFree_cons.mp ((inFree_perm order).mp hi)).symm

theorem FreeList.joined {a new : FreeRange} (list : FreeList l) (entry : l[i]? = some e)
    (hc : ∀ x ∈ l, new.Apart x) (ends : a = e ∧ b = new ∨ a = new ∧ b = e)
    (meet : a.stop = b.base) : FreeList (⟨a.base, a.len + b.len⟩ :: l.eraseIdx i) ∧
      ∀ va, InFree (⟨a.base, a.len + b.len⟩ :: l.eraseIdx i) va →
        InFree l va ∨ (new.base ≤ va ∧ va < new.stop) := by
  have out := (perm_of_getElem? entry).1
  obtain ⟨⟨hp, ho⟩, rest⟩ := cons_iff.mp (list.perm out)
  have ha : ∀ x ∈ l.eraseIdx i, new.Apart x := fun x mem => hc x (out.symm.subset (.tail _ mem))
  refine ⟨cons_iff.mpr ⟨⟨?_, fun x mem => .join meet (rest.proper x mem) ?_ ?_⟩, rest⟩,
    fun va hi => ?_⟩
  · obtain ⟨rfl, -⟩ | ⟨-, rfl⟩ := ends
    · exact Nat.add_pos_left hp _
    · exact Nat.add_pos_right _ hp
  · obtain ⟨rfl, -⟩ | ⟨rfl, -⟩ := ends
    · exact ho x mem
    · exact ha x mem
  · obtain ⟨-, rfl⟩ | ⟨-, rfl⟩ := ends
    · exact ha x mem
    · exact ho x mem
  rw [inFree_perm out, inFree_cons]
  rcases inFree_cons.mp hi with hj | old
  · obtain ⟨rfl, rfl⟩ | ⟨rfl, rfl⟩ := ends <;> simp only [stop] at meet hj ⊢ <;> omega
  · exact .inl (.inr old)

theorem mmapFreeInsert_spec (list : FreeList l) (hd : ∀ x ∈ l, FreeRange.Apart ⟨base, len⟩ x)
    (hp : 0 < len ∨ Adjacent l base len) :
    FreeList (mmapFreeInsert l base len) ∧ ∀ va, InFree (mmapFreeInsert l base len) va →
      InFree l va ∨ (base ≤ va ∧ va < base + len) := by
  rw [mmapFreeInsert]
  cases search : firstWhere (fun _ e => e.stop = base ∨ base + len = e.base) 0 l with
  | none =>
    have hl := firstWhere_none search
    have wide : 0 < len := hp.resolve_right fun ⟨e, mem, hm⟩ =>
      of_decide_eq_false (hl e mem) hm
    simp only
    split
    · exact list.appended hd wide
    · exact ⟨list, fun va => .inl⟩
  | some hf =>
    obtain ⟨i, e⟩ := hf
    obtain ⟨-, entry, test⟩ := firstWhere_some search
    simp only
    split
    · next hb =>
      obtain ⟨hg, cover⟩ := list.joined entry hd (.inl ⟨rfl, rfl⟩) hb
      obtain ⟨free, hc⟩ := (growUp_merges entry).spec hg
      exact ⟨free, fun va hi => cover va (hc va hi)⟩
    · next hn =>
      have ha := (of_decide_eq_true test).resolve_left hn
      obtain ⟨hg, cover⟩ := list.joined entry hd (.inr ⟨rfl, rfl⟩) ha
      rw [Nat.add_comm] at hg cover
      obtain ⟨free, hc⟩ := (growDown_merges entry).spec hg
      exact ⟨free, fun va hi => cover va (hc va hi)⟩

theorem bestFit_some {best : Option (Nat × FreeRange)} (hf : bestFit len k best l = some (i, e)) :
    best = some (i, e) ∨ (k ≤ i ∧ l[i - k]? = some e ∧ len ≤ e.len) := by
  induction l generalizing k best with
  | nil => exact .inl hf
  | cons x rest ih =>
    rw [bestFit] at hf
    split at hf
    · next fits =>
      split at hf
      · cases hf
        exact .inr (by simp [fits.1])
      rcases ih hf with here | ⟨hl, entry, long⟩
      · cases here
        exact .inr (by simp [fits.1])
      · refine .inr ⟨by omega, ?_, long⟩
        rwa [show i - k = (i - (k + 1)) + 1 by omega, getElem?_cons_succ]
    · rcases ih hf with here | ⟨hl, entry, long⟩
      · exact .inl here
      · refine .inr ⟨by omega, ?_, long⟩
        rwa [show i - k = (i - (k + 1)) + 1 by omega, getElem?_cons_succ]

theorem mmapFreeAlloc_spec (list : FreeList l) (wide : 0 < len) : FreeList (mmapFreeAlloc l len).2 ∧
      (∀ va, InFree (mmapFreeAlloc l len).2 va → InFree l va) ∧
      ((mmapFreeAlloc l len).1 ≠ 0 → ∀ va, (mmapFreeAlloc l len).1 ≤ va →
        va < (mmapFreeAlloc l len).1 + len → InFree l va ∧ ¬ InFree (mmapFreeAlloc l len).2 va) := by
  rw [mmapFreeAlloc]
  cases search : bestFit len 0 none l with
  | none => exact ⟨list, fun va => id, fun taken => absurd rfl taken⟩
  | some found =>
    obtain ⟨i, e⟩ := found
    rcases bestFit_some search with start | ⟨-, entry, long⟩
    · cases start
    rw [Nat.sub_zero] at entry
    have out := (perm_of_getElem? entry).1
    obtain ⟨⟨properE, others⟩, rest⟩ := cons_iff.mp (list.perm out)
    have clear : ∀ va, e.base ≤ va → va < e.stop → ¬ InFree (l.eraseIdx i) va := by
      rintro va lower upper ⟨x, mem, bounds⟩
      have apart := others x mem
      simp only [FreeRange.Apart] at apart
      omega
    simp only [inFree_perm out, inFree_cons]
    split
    · next exact =>
      have gone : (swapRemove l i).Perm (l.eraseIdx i) :=
        ((swapRemove_perm entry).trans out).cons_inv
      simp only [inFree_perm gone]
      refine ⟨rest.perm gone.symm, fun va => .inr, fun _ va lower upper => ?_⟩
      have inside : va < e.stop := by rw [FreeRange.stop]; omega
      exact ⟨.inl ⟨lower, inside⟩, clear va lower inside⟩
    · next more =>
      have cut := (perm_of_getElem? entry).2 ⟨e.base + len, e.len - len⟩
      have stop : e.base + len + (e.len - len) = e.stop := by rw [FreeRange.stop]; omega
      simp only [inFree_perm cut, inFree_cons]
      refine ⟨perm cut.symm (cons_iff.mpr ⟨⟨by simp only; omega, ?_⟩, rest⟩),
        fun va => ?_, fun _ va lower upper => ?_⟩
      · intro x mem
        have apart := others x mem
        simp only [FreeRange.Apart] at apart ⊢
        rw [FreeRange.stop]
        simp only
        omega
      · refine Or.imp_left fun bounds => ?_
        rw [FreeRange.stop] at bounds
        simp only at bounds
        omega
      · have inside : va < e.stop := by omega
        refine ⟨.inl ⟨lower, inside⟩, ?_⟩
        rintro (bounds | old)
        · omega
        · exact clear va lower inside old

def FreeAligned (l : List FreeRange) : Prop :=
  ∀ e ∈ l, e.base % 4096 = 0 ∧ e.len % 4096 = 0

theorem FreeAligned.perm (eq : l.Perm result) (ha : FreeAligned l) : FreeAligned result :=
  fun e mem => ha e (eq.mem_iff.mpr mem)

theorem freeAligned_cons : FreeAligned (e :: rest) ↔
    (e.base % 4096 = 0 ∧ e.len % 4096 = 0) ∧ FreeAligned rest := by
  simp [FreeAligned]

theorem Merges.aligned (h : Merges l result) (ha : FreeAligned l) : FreeAligned result := by
  rcases h with plain | ⟨a, b, rest, ho, meet, hm⟩
  · exact ha.perm plain
  have split := ha.perm ho
  refine FreeAligned.perm hm.symm ?_
  simp only [freeAligned_cons] at split ⊢
  exact ⟨by omega, split.2.2⟩

theorem mmapFreeInsert_aligned (ha : FreeAligned l) (start : base % 4096 = 0)
    (hw : len % 4096 = 0) : FreeAligned (mmapFreeInsert l base len) := by
  rw [mmapFreeInsert]
  cases search : firstWhere (fun _ e => e.stop = base ∨ base + len = e.base) 0 l with
  | none =>
    simp only
    split
    · exact FreeAligned.perm (perm_append_singleton _ _).symm
        (freeAligned_cons.mpr ⟨⟨start, hw⟩, ha⟩)
    · exact ha
  | some hf =>
    obtain ⟨i, e⟩ := hf
    obtain ⟨-, entry, -⟩ := firstWhere_some search
    have parts := freeAligned_cons.mp (ha.perm (perm_of_getElem? entry).1)
    have hl : (e.len + len) % 4096 = 0 := by omega
    simp only
    split
    · exact (growUp_merges entry).aligned (freeAligned_cons.mpr ⟨⟨parts.1.1, hl⟩, parts.2⟩)
    · exact (growDown_merges entry).aligned (freeAligned_cons.mpr ⟨⟨start, hl⟩, parts.2⟩)

theorem mmapFreeAlloc_aligned (ha : FreeAligned l) (hw : len % 4096 = 0) :
    (mmapFreeAlloc l len).1 % 4096 = 0 ∧ FreeAligned (mmapFreeAlloc l len).2 := by
  rw [mmapFreeAlloc]
  cases search : bestFit len 0 none l with
  | none => exact ⟨rfl, ha⟩
  | some hf =>
    obtain ⟨i, e⟩ := hf
    rcases bestFit_some search with start | ⟨-, entry, long⟩
    · cases start
    rw [Nat.sub_zero] at entry
    have parts := freeAligned_cons.mp (ha.perm (perm_of_getElem? entry).1)
    refine ⟨parts.1.1, ?_⟩
    simp only
    split
    · have gone := ((swapRemove_perm entry).trans (perm_of_getElem? entry).1).cons_inv
      exact parts.2.perm gone.symm
    · exact FreeAligned.perm ((perm_of_getElem? entry).2 _).symm
        (freeAligned_cons.mpr ⟨⟨by simp only; omega, by simp only; omega⟩, parts.2⟩)

end

end Aegis.Memory
