import Mathlib.Data.List.Basic
import Mathlib.Algebra.GroupWithZero.Nat

/-! Runs of a partial transition function with labelled steps.
A label carries every choice of the step, so `step s a` is a function; `none` is
a step that is not enabled or that never returns. `RunWhere` keeps only the runs
whose steps all meet a condition on the state before the step and on the label. -/

namespace Aegis.LabelledRun

open Option

variable {σ α : Type*}

inductive RunWhere (step : σ → α → Option σ) (ok : σ → α → Prop) (s : σ) : List α → σ → Prop
  | nil : RunWhere step ok s [] s
  | snoc {labels : List α} {t u : σ} {a : α} :
      RunWhere step ok s labels t → ok t a → step t a = some u →
      RunWhere step ok s (labels ++ [a]) u

def Run (step : σ → α → Option σ) : σ → List α → σ → Prop :=
  RunWhere step (fun _ _ => True)

def exec (step : σ → α → Option σ) : σ → List α → Option σ
  | s, [] => some s
  | s, a :: labels => (step s a).bind fun t => exec step t labels

def reached (step : σ → α → Option σ) (s : σ) (labels : List α) : σ :=
  (exec step s labels).getD s

variable {step : σ → α → Option σ} {ok : σ → α → Prop} {s t u : σ} {labels : List α} {P : σ → Prop}

theorem RunWhere.head {a : α} (hh : ok s a) (h1 : step s a = some t)
    (rest : RunWhere step ok t labels u) : RunWhere step ok s (a :: labels) u := by
  induction rest with
  | nil => simpa using RunWhere.nil.snoc hh h1
  | snoc _ okLast last ih => simpa using ih.snoc okLast last

theorem run_of_exec (h : exec step s labels = some t) : Run step s labels t := by
  induction labels generalizing s with
  | nil =>
    rw [exec, Option.some.injEq] at h
    exact h ▸ .nil
  | cons a labels ih =>
    obtain ⟨mid, h1, rest⟩ := bind_eq_some_iff.mp h
    exact RunWhere.head trivial h1 (ih rest)

theorem exec_eq_reached (he : (exec step s labels).isSome := by decide +kernel) :
    exec step s labels = some (reached step s labels) := by
  obtain ⟨last, ends⟩ := isSome_iff_exists.mp he
  rw [reached, ends, getD_some]

theorem reached_of_any {check : σ → Bool} (hp : (exec step s labels).any check = true) :
    exec step s labels = some (reached step s labels) ∧ check (reached step s labels) = true := by
  obtain ⟨last, ends, hh⟩ := (any_eq_true ..).mp hp
  rw [reached, ends]
  exact ⟨rfl, hh⟩

def guarded (step : σ → α → Option σ) (ok : σ → α → Prop) [∀ s a, Decidable (ok s a)] (s : σ)
    (a : α) : Option σ :=
  if ok s a then step s a else none

theorem runWhere_of_exec [∀ s a, Decidable (ok s a)] (h : exec (guarded step ok) s labels = some t) :
    RunWhere step ok s labels t := by
  induction labels generalizing s with
  | nil =>
    rw [exec, Option.some.injEq] at h
    exact h ▸ .nil
  | cons a labels ih =>
    obtain ⟨mid, h1, rest⟩ := bind_eq_some_iff.mp h
    unfold guarded at h1
    split at h1
    · next hh => exact RunWhere.head hh h1 (ih rest)
    · cases h1

/-- A run on fixed labels, by evaluation: what is computed of its last state gives the rest. -/
theorem exists_run_of {Q : σ → Prop} (P : σ → Prop) [DecidablePred P]
    (hg : ∀ t, Run step s labels t → P t → Q t)
    (hp : (exec step s labels).any (fun t => decide (P t)) = true := by decide +kernel) :
    ∃ t, Run step s labels t ∧ Q t := by
  obtain ⟨last, ends, hh⟩ := (any_eq_true ..).mp hp
  have run := run_of_exec ends
  exact ⟨last, run, hg last run (of_decide_eq_true hh)⟩

theorem exists_run [DecidablePred P]
    (hp : (exec step s labels).any (fun t => decide (P t)) = true := by decide +kernel) :
    ∃ t, Run step s labels t ∧ P t :=
  exists_run_of P (fun _ _ => id) hp

theorem exists_runWhere_of [∀ s a, Decidable (ok s a)] {Q : σ → Prop} (P : σ → Prop)
    [DecidablePred P]
    (hg : ∀ t, RunWhere step ok s labels t → P t → Q t)
    (hp : (exec (guarded step ok) s labels).any (fun t => decide (P t)) = true := by
      decide +kernel) :
    ∃ t, RunWhere step ok s labels t ∧ Q t := by
  obtain ⟨last, ends, hh⟩ := (any_eq_true ..).mp hp
  have run := runWhere_of_exec ends
  exact ⟨last, run, hg last run (of_decide_eq_true hh)⟩

theorem exists_runWhere [∀ s a, Decidable (ok s a)] [DecidablePred P]
    (hp : (exec (guarded step ok) s labels).any (fun t => decide (P t)) = true := by
      decide +kernel) :
    ∃ t, RunWhere step ok s labels t ∧ P t :=
  exists_runWhere_of P (fun _ _ => id) hp

theorem exists_runWhere_with [∀ s a, Decidable (ok s a)] {R : σ → Prop} [DecidablePred P]
    (hs : ∀ t, RunWhere step ok s labels t → R t)
    (hp : (exec (guarded step ok) s labels).any (fun t => decide (P t)) = true := by
      decide +kernel) :
    ∃ t, RunWhere step ok s labels t ∧ R t ∧ P t :=
  exists_runWhere_of P (fun t run hh => ⟨hs t run, hh⟩) hp

/-- The induction rule for safety: a state predicate that every admitted step keeps
holds in every state a run reaches. -/
theorem RunWhere.invariant {inv : σ → Prop} (run : RunWhere step ok s labels u) (start : inv s)
    (hk : ∀ t a u, inv t → ok t a → step t a = some u → inv u) : inv u := by
  induction run with
  | nil => exact start
  | snoc _ hh last ih => exact hk _ _ _ ih hh last

/-- A run that ends inside `P` but starts outside has a last step into `P`. -/
theorem RunWhere.entered (run : RunWhere step ok s labels u) (out : ¬ P s) (inside : P u) :
    ∃ before a after t v, labels = before ++ a :: after ∧ RunWhere step ok s before t ∧ ¬ P t ∧
      step t a = some v ∧ P v ∧ RunWhere step (fun t _ => P t) v after u := by
  induction run with
  | nil => exact absurd inside out
  | @snoc labels t u a front _ last ih =>
    by_cases mid : P t
    · obtain ⟨before, b, after, r, v, rfl, head, far, enters, there, rest⟩ := ih mid
      exact ⟨before, b, after ++ [a], r, v, by simp, head, far, enters, there, rest.snoc mid last⟩
    · exact ⟨labels, a, [], t, u, rfl, front, mid, last, inside, .nil⟩

theorem RunWhere.mono {ok' : σ → α → Prop} (run : RunWhere step ok s labels u)
    (weaker : ∀ t a, ok t a → ok' t a) : RunWhere step ok' s labels u := by
  induction run with
  | nil => exact .nil
  | snoc _ hh last ih => exact .snoc ih (weaker _ _ hh) last

end Aegis.LabelledRun
