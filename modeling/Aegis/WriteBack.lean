import Mathlib.Data.List.Basic

/-! A write-back cache: `n` lines in front of a store. A live line stands for the cell its tag
names, and what it holds need not be in the store yet if it is dirty. `content` is what a
reader of the cell has to get. The cache is coherent if no two live lines have one tag and a
line that is not dirty agrees with the store; every operation of the cache is one of the five
here, with what it does to the content. -/

namespace Aegis.WriteBack

structure Line (κ β : Type) where
  tag : κ
  live : Bool
  dirty : Bool
  data : β

structure Cache (κ β : Type) where
  line : Nat → Line κ β
  store : κ → β

variable {κ β : Type} {n i j : Nat} {c : Cache κ β} {k q : κ} {d : β} {l : Line κ β}

namespace Cache

def setLine (c : Cache κ β) (i : Nat) (l : Line κ β) : Cache κ β :=
  ⟨Function.update c.line i l, c.store⟩

theorem setLine_self : (c.setLine i l).line i = l := Function.update_self ..

theorem setLine_of_ne (other : j ≠ i) : (c.setLine i l).line j = c.line j :=
  Function.update_of_ne other ..

def Keeps (c : Cache κ β) (i : Nat) (k : κ) : Prop :=
  (c.line i).live = true ∧ (c.line i).tag = k

theorem keeps_setLine_self : (c.setLine i l).Keeps i k ↔ l.live = true ∧ l.tag = k := by
  rw [Keeps, setLine_self]

theorem keeps_setLine_of_ne (other : j ≠ i) : (c.setLine i l).Keeps j k ↔ c.Keeps j k := by
  rw [Keeps, Keeps, setLine_of_ne other]

variable [DecidableEq κ]

def flush (c : Cache κ β) (i : Nat) : Cache κ β :=
  ⟨Function.update c.line i ⟨(c.line i).tag, (c.line i).live, false, (c.line i).data⟩,
    Function.update c.store (c.line i).tag (c.line i).data⟩

def fill (c : Cache κ β) (i : Nat) (k : κ) : Cache κ β :=
  c.setLine i ⟨k, true, false, c.store k⟩

instance (c : Cache κ β) (i : Nat) (k : κ) : Decidable (c.Keeps i k) :=
  inferInstanceAs (Decidable (_ ∧ _))

def find (n : Nat) (c : Cache κ β) (k : κ) : Option Nat :=
  (List.range n).find? fun i => decide (c.Keeps i k)

def content (n : Nat) (c : Cache κ β) (k : κ) : β :=
  match find n c k with
  | some i => (c.line i).data
  | none => c.store k

end Cache

open Cache Function

variable [DecidableEq κ]

structure Coherent (n : Nat) (c : Cache κ β) : Prop where
  unique : ∀ i < n, ∀ j < n, ∀ k, c.Keeps i k → c.Keeps j k → i = j
  clean : ∀ i < n, (c.line i).live = true → (c.line i).dirty = false →
    (c.line i).data = c.store (c.line i).tag

theorem find_some (hf : find n c k = some i) : i < n ∧ c.Keeps i k :=
  ⟨List.mem_range.mp (List.mem_of_find?_eq_some hf),
    of_decide_eq_true (List.find?_some (p := fun i => decide (c.Keeps i k)) hf)⟩

theorem find_none : find n c k = none ↔ ∀ i < n, ¬ c.Keeps i k := by
  simp [find]

theorem Coherent.find_eq (ho : Coherent n c) (hi : i < n) (hl : c.Keeps i k) :
    find n c k = some i := by
  cases hf : find n c k with
  | none => exact absurd hl (find_none.mp hf i hi)
  | some j =>
    obtain ⟨lt, ht⟩ := find_some hf
    rw [ho.unique j lt i hi k ht hl]

theorem Coherent.content_line (ho : Coherent n c) (hi : i < n) (hl : c.Keeps i k) :
    content n c k = (c.line i).data := by
  rw [content, ho.find_eq hi hl]

theorem content_absent (ha : ∀ i < n, ¬ c.Keeps i k) : content n c k = c.store k := by
  rw [content, find_none.mpr ha]

theorem Coherent.content_clean (ho : Coherent n c)
    (hc : ∀ i < n, c.Keeps i k → (c.line i).dirty = false) : content n c k = c.store k := by
  cases hf : find n c k with
  | none => exact content_absent (find_none.mp hf)
  | some i =>
    obtain ⟨hi, hl⟩ := find_some hf
    rw [ho.content_line hi hl, ho.clean i hi hl.1 (hc i hi hl), hl.2]

theorem flush_self : (c.flush i).line i =
    ⟨(c.line i).tag, (c.line i).live, false, (c.line i).data⟩ :=
  update_self ..

theorem flush_of_ne (other : j ≠ i) : (c.flush i).line j = c.line j := update_of_ne other ..

theorem flush_store_self : (c.flush i).store (c.line i).tag = (c.line i).data := update_self ..

theorem flush_store (other : q ≠ (c.line i).tag) : (c.flush i).store q = c.store q :=
  update_of_ne other ..

section
variable (ho : Coherent n c)
include ho

theorem Coherent.rewrite (hi : i < n) (hl : c.Keeps i k) (live : l.live = true)
    (tag : l.tag = k) (hd : l.dirty = true) :
    Coherent n (c.setLine i l) ∧ content n (c.setLine i l) = update (content n c) k l.data := by
  have eq : ∀ j q, (c.setLine i l).Keeps j q ↔ c.Keeps j q := fun j q => by
    by_cases here : j = i
    · rw [here, keeps_setLine_self, Keeps, live, tag, hl.1, hl.2]
    · exact keeps_setLine_of_ne here
  have after : Coherent n (c.setLine i l) := by
    refine ⟨fun a lt b lt' q h1 h2 =>
      ho.unique a lt b lt' q ((eq a q).mp h1) ((eq b q).mp h2),
      fun j lt he hc => ?_⟩
    by_cases here : j = i
    · rw [here, setLine_self, hd] at hc
      cases hc
    · rw [setLine_of_ne here] at he hc ⊢
      exact ho.clean j lt he hc
  refine ⟨after, funext fun q => ?_⟩
  by_cases cell : q = k
  · rw [cell, update_self, after.content_line hi ((eq i k).mpr hl), setLine_self]
  rw [update_of_ne cell]
  cases hf : find n c q with
  | none =>
    have ha := find_none.mp hf
    rw [content_absent ha, content_absent fun j lt ht =>
      ha j lt ((eq j q).mp ht)]
    rfl
  | some j =>
    obtain ⟨lt, ht⟩ := find_some hf
    have other : j ≠ i := fun here => cell (by rw [← ht.2, here, hl.2])
    rw [ho.content_line lt ht, after.content_line lt ((eq j q).mpr ht), setLine_of_ne other]

theorem Coherent.flush (hi : i < n) (live : (c.line i).live = true) :
    Coherent n (c.flush i) ∧ content n (c.flush i) = content n c := by
  have eq : ∀ j q, (c.flush i).Keeps j q ↔ c.Keeps j q := fun j q => by
    by_cases here : j = i
    · rw [here, Keeps, Keeps, flush_self]
    · rw [Keeps, Keeps, flush_of_ne here]
  have data : ∀ j, ((c.flush i).line j).data = (c.line j).data := fun j => by
    by_cases here : j = i
    · rw [here, flush_self]
    · rw [flush_of_ne here]
  have other : ∀ j < n, j ≠ i → (c.line j).live = true → (c.line j).tag ≠ (c.line i).tag :=
    fun j lt here ha he =>
      here (ho.unique j lt i hi _ ⟨ha, he⟩ ⟨live, rfl⟩)
  have after : Coherent n (c.flush i) := by
    refine ⟨fun a lt b lt' q h1 h2 =>
      ho.unique a lt b lt' q ((eq a q).mp h1) ((eq b q).mp h2),
      fun j lt ha hc => ?_⟩
    by_cases here : j = i
    · rw [here, flush_self]
      exact flush_store_self.symm
    rw [flush_of_ne here] at ha hc ⊢
    rw [ho.clean j lt ha hc]
    exact (flush_store (other j lt here ha)).symm
  refine ⟨after, funext fun q => ?_⟩
  cases hf : find n c q with
  | none =>
    have hb := find_none.mp hf
    have cell : q ≠ (c.line i).tag := fun he => hb i hi ⟨live, he.symm⟩
    rw [content_absent hb, content_absent fun j lt ht =>
      hb j lt ((eq j q).mp ht)]
    exact flush_store cell
  | some j =>
    obtain ⟨lt, ht⟩ := find_some hf
    rw [ho.content_line lt ht, after.content_line lt ((eq j q).mpr ht), data]

theorem Coherent.retire (hc : (c.line i).live = true → (c.line i).dirty = false)
    (dead : l.live = false) :
    Coherent n (c.setLine i l) ∧ content n (c.setLine i l) = content n c := by
  have gone : ∀ q, ¬ (c.setLine i l).Keeps i q := fun q hl => by
    rw [keeps_setLine_self, dead] at hl
    exact Bool.false_ne_true hl.1
  have kept : ∀ j q, (c.setLine i l).Keeps j q → j ≠ i ∧ c.Keeps j q := fun j q hl => by
    have other : j ≠ i := fun here => gone q (here ▸ hl)
    exact ⟨other, (keeps_setLine_of_ne other).mp hl⟩
  have after : Coherent n (c.setLine i l) := by
    refine ⟨fun a lt b lt' q h1 h2 =>
      ho.unique a lt b lt' q (kept a q h1).2 (kept b q h2).2,
      fun j lt ha hf => ?_⟩
    have other := (kept j _ ⟨ha, rfl⟩).1
    rw [setLine_of_ne other] at ha hf ⊢
    exact ho.clean j lt ha hf
  refine ⟨after, funext fun q => ?_⟩
  by_cases ht : ∃ j < n, j ≠ i ∧ c.Keeps j q
  · obtain ⟨j, lt, other, hl⟩ := ht
    rw [ho.content_line lt hl,
      after.content_line lt ((keeps_setLine_of_ne other).mpr hl), setLine_of_ne other]
  · rw [content_absent fun j lt hl => ht ⟨j, lt, kept j q hl⟩]
    refine (ho.content_clean fun j lt hl => ?_).symm
    by_cases here : j = i
    · rw [here] at hl ⊢
      exact hc hl.1
    · exact absurd ⟨j, lt, here, hl⟩ ht

theorem Coherent.fill (hi : i < n) (hc : (c.line i).live = true → (c.line i).dirty = false)
    (ha : ∀ j < n, ¬ c.Keeps j k) :
    Coherent n (c.fill i k) ∧ content n (c.fill i k) = content n c := by
  have here : ∀ q, (c.fill i k).Keeps i q ↔ k = q := fun q => by
    rw [Cache.fill, keeps_setLine_self]
    exact and_iff_right rfl
  have after : Coherent n (c.fill i k) := by
    refine ⟨fun a lt b lt' q h1 h2 => ?_, fun j lt alive fresh => ?_⟩
    · by_cases left : a = i <;> by_cases right : b = i
      · rw [left, right]
      · rw [left, here q] at h1
        rw [Cache.fill, keeps_setLine_of_ne right] at h2
        exact absurd (h1 ▸ h2) (ha b lt')
      · rw [right, here q] at h2
        rw [Cache.fill, keeps_setLine_of_ne left] at h1
        exact absurd (h2 ▸ h1) (ha a lt)
      · rw [Cache.fill, keeps_setLine_of_ne left] at h1
        rw [Cache.fill, keeps_setLine_of_ne right] at h2
        exact ho.unique a lt b lt' q h1 h2
    · by_cases own : j = i
      · rw [own, Cache.fill, setLine_self]
        rfl
      · rw [Cache.fill, setLine_of_ne own] at alive fresh ⊢
        exact ho.clean j lt alive fresh
  refine ⟨after, funext fun q => ?_⟩
  by_cases cell : k = q
  · subst cell
    rw [after.content_line hi ((here k).mpr rfl), content_absent ha, Cache.fill, setLine_self]
  by_cases ht : ∃ j < n, j ≠ i ∧ c.Keeps j q
  · obtain ⟨j, lt, other, hl⟩ := ht
    rw [ho.content_line lt hl,
      after.content_line lt ((keeps_setLine_of_ne other).mpr hl), Cache.fill,
      setLine_of_ne other]
  · have none : ∀ j < n, ¬ (c.fill i k).Keeps j q := fun j lt hl => by
      by_cases own : j = i
      · rw [own, here q] at hl
        exact cell hl
      · exact ht ⟨j, lt, own, (keeps_setLine_of_ne own).mp hl⟩
    rw [content_absent none]
    refine (ho.content_clean fun j lt hl => ?_).symm
    by_cases own : j = i
    · rw [own] at hl ⊢
      exact hc hl.1
    · exact absurd ⟨j, lt, own, hl⟩ ht

end

end Aegis.WriteBack
