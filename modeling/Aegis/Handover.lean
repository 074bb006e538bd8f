import Aegis.LabelledRun

/-! Queues of things that live in numbered slots. A step may take a slot for something new, put
what is in a slot into the queue, or hand it out. Since slots are used again, a thing is named by
its slot and the number of times the slot was taken before. -/

namespace Aegis.Handover

open LabelledRun List

variable {σ α : Type*}

structure Queue (σ α : Type*) where
  step : σ → α → Option σ
  takes : σ → α → Option Nat
  joins : σ → α → Option Nat
  leaves : σ → α → Option Nat
  waiting : σ → List Nat

/-- A state with its history: what joined the queue and what was handed out. -/
structure Logged (σ : Type*) where
  state : σ
  uses : Nat → Nat
  joined : List (Nat × Nat)
  handed : List (Nat × Nat)

def bump (uses : Nat → Nat) : Option Nat → Nat → Nat
  | some i => Function.update uses i (uses i + 1)
  | none => uses

def tag (uses : Nat → Nat) (slots : List Nat) : List (Nat × Nat) := slots.map fun i => (i, uses i)

theorem tag_append (uses : Nat → Nat) (slots more : List Nat) :
    tag uses (slots ++ more) = tag uses slots ++ tag uses more :=
  map_append

theorem tag_bump {uses : Nat → Nat} {t : Option Nat} {slots : List Nat}
    (ha : ∀ i ∈ t, i ∉ slots) : tag (bump uses t) slots = tag uses slots := by
  refine map_congr_left fun j mem => ?_
  cases t with
  | none => rfl
  | some i =>
    have other : j ≠ i := fun here => ha i rfl (here ▸ mem)
    rw [bump, Function.update_of_ne other]

namespace Queue

variable (q : Queue σ α)

def logged (h : Logged σ) (a : α) : Option (Logged σ) :=
  (q.step h.state a).map fun t =>
    { state := t
      uses := bump h.uses (q.takes h.state a)
      joined := h.joined ++ tag h.uses (q.joins h.state a).toList
      handed := h.handed ++ tag h.uses (q.leaves h.state a).toList }

def InOrder (h : Logged σ) : Prop := h.joined = h.handed ++ tag h.uses (q.waiting h.state)
  deriving Decidable

def Sound (good : σ → Prop) (h : Logged σ) : Prop := good h.state ∧ q.InOrder h

variable {q}

theorem inOrder_of_run {ok : σ → α → Prop} {good : σ → Prop}
    (keeps : ∀ {s a t}, good s → q.step s a = some t → good t)
    (balanced : ∀ {s a t}, good s → ok s a → q.step s a = some t →
      (q.leaves s a).toList ++ q.waiting t = q.waiting s ++ (q.joins s a).toList)
    (hf : ∀ {s a i}, ok s a → q.takes s a = some i → i ∉ q.waiting s ++ (q.joins s a).toList)
    {s : σ} {uses : Nat → Nat} {labels : List α} {h : Logged σ} (hg : good s)
    (he : q.waiting s = [])
    (run : RunWhere q.logged (fun h a => ok h.state a) ⟨s, uses, [], []⟩ labels h) :
    q.InOrder h := by
  suffices both : q.Sound good h from both.2
  refine run.invariant ⟨hg, by simp [InOrder, he, tag]⟩ fun h a u inOrder kept step => ?_
  obtain ⟨t, hv, rfl⟩ := Option.map_eq_some_iff.mp step
  refine ⟨keeps inOrder.1 hv, ?_⟩
  have hm := balanced inOrder.1 kept hv
  have ha : ∀ i ∈ q.takes h.state a, i ∉ q.waiting t := fun i ht mem =>
    hf kept ht (hm ▸ mem_append_right _ mem)
  calc h.joined ++ tag h.uses (q.joins h.state a).toList
      = h.handed ++ tag h.uses (q.waiting h.state ++ (q.joins h.state a).toList) := by
        rw [inOrder.2, append_assoc, tag_append]
    _ = h.handed ++ tag h.uses ((q.leaves h.state a).toList ++ q.waiting t) := by rw [hm]
    _ = _ := by rw [tag_bump ha, append_assoc, tag_append]

end Queue

end Aegis.Handover
