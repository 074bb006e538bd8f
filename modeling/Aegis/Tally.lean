import Mathlib.Data.List.Nodup
import Mathlib.Algebra.Order.BigOperators.Group.List
import Mathlib.Algebra.Order.Group.Nat
import Mathlib.Algebra.GroupWithZero.Nat

/-! Counting over a list without repetitions while one of its elements changes. The change
is stated as an equation between sums, so that no subtraction is needed. -/

namespace Aegis.Tally

open List

variable {α : Type*} {l : List α} {a : α}

section Sum
variable {f g : α → Nat}

theorem sum_change (nodup : l.Nodup) (mem : a ∈ l) (he : ∀ b ∈ l, b ≠ a → g b = f b) :
    (l.map g).sum + f a = (l.map f).sum + g a := by
  induction l with
  | nil => cases mem
  | cons b l ih =>
    obtain ⟨hn, ne⟩ := nodup_cons.mp nodup
    simp only [map_cons, sum_cons]
    by_cases here : b = a
    · subst here
      have rest : l.map g = l.map f := map_congr_left fun x hl =>
        he x (.tail _ hl) fun eq => hn (eq ▸ hl)
      rw [rest]
      omega
    · have tail := ih ne ((mem_cons.mp mem).resolve_left (Ne.symm here))
        fun x hl => he x (.tail _ hl)
      have head := he b (.head _) here
      omega

theorem le_sum (mem : a ∈ l) : f a ≤ (l.map f).sum := le_sum_of_mem (mem_map_of_mem mem)

end Sum

section Count
variable {p q : α → Bool}

theorem countP_eq_sum : l.countP p = (l.map fun b => (p b).toNat).sum := by
  induction l with
  | nil => rfl
  | cons b l ih =>
    rw [countP_cons, ih, map_cons, sum_cons, add_comm]
    cases p b <;> rfl

theorem countP_change (nodup : l.Nodup) (mem : a ∈ l) (eq : ∀ b ∈ l, b ≠ a → q b = p b) :
    l.countP q + (p a).toNat = l.countP p + (q a).toNat := by
  rw [countP_eq_sum, countP_eq_sum]
  exact @sum_change α l a (fun b => (p b).toNat) (fun b => (q b).toNat) nodup mem
    fun b hi other => congrArg Bool.toNat (eq b hi other)

theorem eq_of_countP_eq_one {b : α} (one : l.countP p = 1) (mem : a ∈ l) (hc : p a = true)
    (hm' : b ∈ l) (counted' : p b = true) : b = a := by
  rw [countP_eq_length_filter, length_eq_one_iff] at one
  obtain ⟨c, only⟩ := one
  have h1 : a ∈ l.filter p := mem_filter.mpr ⟨mem, hc⟩
  have h2 : b ∈ l.filter p := mem_filter.mpr ⟨hm', counted'⟩
  rw [only, mem_singleton] at h1 h2
  exact h2.trans h1.symm

theorem countP_erase [DecidableEq α] (mem : a ∈ l) :
    (l.erase a).countP p + (p a).toNat = l.countP p := by
  rw [(perm_cons_erase mem).countP_eq p, countP_cons]
  cases p a <;> rfl

end Count

end Aegis.Tally
