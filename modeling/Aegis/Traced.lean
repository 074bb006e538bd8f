import Mathlib.Logic.Basic

/-! Computations that note what they touch. A `Traced` value carries the list of the places
that were looked at for it, in order, and `Within` says that all of them are allowed. What a
computation touches can be read off step by step: that is what the rules here are for. -/

namespace Aegis

structure Traced (ι α : Type) where
  value : α
  trace : List ι

namespace Traced

variable {ι α β : Type}

instance : Monad (Traced ι) where
  pure a := ⟨a, []⟩
  bind x f := ⟨(f x.value).value, x.trace ++ (f x.value).trace⟩

def touch (i : ι) (a : α) : Traced ι α := ⟨a, [i]⟩

def Within (ok : ι → Prop) (x : Traced ι α) : Prop := ∀ i ∈ x.trace, ok i

def orElse (x y : Traced ι Bool) : Traced ι Bool := do
  if ← x then pure true else y

section
variable {ok : ι → Prop} {x y : Traced ι α} {f : α → Traced ι β} {a : α} {i : ι} {c : Prop}
  [Decidable c]

@[simp] theorem pure_value : (pure a : Traced ι α).value = a := rfl

@[simp] theorem bind_value : (x >>= f).value = (f x.value).value := rfl

@[simp] theorem touch_value : (touch i a).value = a := rfl

@[simp] theorem ite_value : (if c then x else y).value = if c then x.value else y.value := by
  split
  · rfl
  · rfl

@[simp] theorem within_pure : Within ok (pure a : Traced ι α) :=
  fun _ mem => absurd mem List.not_mem_nil

@[simp] theorem within_bind : Within ok (x >>= f) ↔ Within ok x ∧ Within ok (f x.value) :=
  List.forall_mem_append

@[simp] theorem within_touch : Within ok (touch i a) ↔ ok i := List.forall_mem_singleton

@[simp] theorem within_ite :
    Within ok (if c then x else y) ↔ (c → Within ok x) ∧ (¬ c → Within ok y) := by
  split
  · next hh => simp [hh]
  · next hf => simp [hf]

end

section
variable {ok : ι → Prop} {x y : Traced ι Bool}

@[simp] theorem orElse_value : (orElse x y).value = (x.value || y.value) := by
  cases test : x.value with
  | true => simp [orElse, test]
  | false => simp [orElse, test]

@[simp] theorem within_orElse :
    Within ok (orElse x y) ↔ Within ok x ∧ (x.value = false → Within ok y) := by
  cases test : x.value with
  | true => simp [orElse, test]
  | false => simp [orElse, test]

end

end Traced

end Aegis
