import Mathlib.Data.List.Basic

/-! Programs that work on a store of blocks and on some variables. A program looks at a block,
may put another one in its place, and goes on with what it saw; it may also stop with an error.
A handler says what an access does to a state; the same program can be run on the blocks
themselves and on whatever keeps them. If one handler simulates another access by access, it
does so program by program.

What a program means can be said over an abstract state that the store stands for; the rules
for this follow the program. -/

namespace Aegis

open List

/-- `put` gives the block to store, if any, for the block that is seen; `none` is a block that
could not be read. -/
inductive BlockProgram (κ ε β α : Type) : Type
  | done (a : α) : BlockProgram κ ε β α
  | fail (e : ε) : BlockProgram κ ε β α
  | vars (change : κ → κ) (next : κ → BlockProgram κ ε β α) : BlockProgram κ ε β α
  | access (b : Nat) (put : Option β → Option β) (next : Option β → BlockProgram κ ε β α) :
    BlockProgram κ ε β α

abbrev BlockHandler (σ β : Type) := σ → Nat → (Option β → Option β) → Option β × σ

structure Disk (κ β : Type) where
  vars : κ
  blocks : Nat → β

namespace BlockProgram

variable {κ ε β α γ σ τ A : Type}

def bind : BlockProgram κ ε β α → (α → BlockProgram κ ε β γ) → BlockProgram κ ε β γ
  | done a, f => f a
  | fail e, _ => fail e
  | vars change next, f => vars change fun k => (next k).bind f
  | access b put next, f => access b put fun d => (next d).bind f

instance : Monad (BlockProgram κ ε β) where
  pure := done
  bind := bind

def attempt : BlockProgram κ ε β α → BlockProgram κ ε β (Except ε α)
  | done a => done (.ok a)
  | fail e => done (.error e)
  | vars change next => vars change fun k => (next k).attempt
  | access b put next => access b put fun d => (next d).attempt

def look (b : Nat) : BlockProgram κ ε β (Option β) := access b (fun _ => none) done

def change (b : Nat) (f : β → Option β) : BlockProgram κ ε β (Option β) :=
  access b (fun d => d.bind f) done

def getVars : BlockProgram κ ε β κ := vars id done

def modifyVars (f : κ → κ) : BlockProgram κ ε β Unit := vars f fun _ => done ()

def exec (h : BlockHandler σ β) : BlockProgram κ ε β α → κ → σ → Except ε α × κ × σ
  | done a, k, s => (.ok a, k, s)
  | fail e, k, s => (.error e, k, s)
  | vars change next, k, s => exec h (next k) (change k) s
  | access b put next, k, s => exec h (next (h s b put).1) k (h s b put).2

def trace (h : BlockHandler σ β) : BlockProgram κ ε β α → κ → σ → List Nat
  | done _, _, _ => []
  | fail _, _, _ => []
  | vars change next, k, s => trace h (next k) (change k) s
  | access b put next, k, s => b :: trace h (next (h s b put).1) k (h s b put).2

/-- A store that can be read everywhere and keeps what `norm` leaves of a block. -/
def flat (norm : β → β) : BlockHandler (Nat → β) β := fun s b put =>
  (some (s b), match put (some (s b)) with
    | none => s
    | some d => Function.update s b (norm d))

def run (norm : β → β) (p : BlockProgram κ ε β α) (d : Disk κ β) : Except ε α × Disk κ β :=
  let r := exec (flat norm) p d.vars d.blocks
  (r.1, ⟨r.2.1, r.2.2⟩)

def touched (norm : β → β) (p : BlockProgram κ ε β α) (d : Disk κ β) : List Nat :=
  trace (flat norm) p d.vars d.blocks

section
variable {h : BlockHandler σ β} {l : BlockHandler τ β} {p : BlockProgram κ ε β α} {k : κ} {s : σ}
  {t : τ}

/-- A relation with a budget: each access to a block that is allowed costs one. -/
theorem exec_simulates {n : Nat} (R : Nat → σ → τ → Prop) (ok : Nat → Prop)
    (hs : ∀ n s t b put, R (n + 1) s t → ok b →
      (h s b put).1 = (l t b put).1 ∧ R n (h s b put).2 (l t b put).2)
    (start : R (n + (trace h p k s).length) s t) (ha : ∀ b ∈ trace l p k t, ok b) :
    (exec h p k s).1 = (exec l p k t).1 ∧ (exec h p k s).2.1 = (exec l p k t).2.1 ∧
      R n (exec h p k s).2.2 (exec l p k t).2.2 := by
  induction p generalizing k s t with
  | done _ | fail _ => exact ⟨rfl, rfl, start⟩
  | vars hc next ih => exact ih _ start ha
  | access b put next ih =>
    rw [trace] at start ha
    obtain ⟨eq, after⟩ := hs _ s t b put start (ha b mem_cons_self)
    rw [exec, exec, eq]
    rw [eq] at after
    exact ih _ after fun q mem => ha q (mem_cons_of_mem b mem)

end

/-! ### Running on the blocks -/

section
variable {norm : β → β} {p : BlockProgram κ ε β α} {f : α → BlockProgram κ ε β γ} {d : Disk κ β}
  {b : Nat} {a : α} {e : ε} {g : β → Option β}

theorem run_bind : run norm (p >>= f) d = match run norm p d with
    | (.ok a, d) => run norm (f a) d
    | (.error e, d) => (.error e, d) := by
  obtain ⟨k, s⟩ := d
  change run norm (p.bind f) ⟨k, s⟩ = _
  induction p generalizing k s with
  | done a => rfl
  | fail e => rfl
  | vars change next ih => exact ih k (change k) s
  | access b put next ih => exact ih (flat norm s b put).1 k (flat norm s b put).2

theorem touched_bind : touched norm (p >>= f) d = touched norm p d ++ match run norm p d with
    | (.ok a, d) => touched norm (f a) d
    | (.error _, _) => [] := by
  obtain ⟨k, s⟩ := d
  change touched norm (p.bind f) ⟨k, s⟩ = _
  induction p generalizing k s with
  | done a => rfl
  | fail e => rfl
  | vars change next ih => exact ih k (change k) s
  | access b put next ih =>
    exact congrArg (b :: ·) (ih (flat norm s b put).1 k (flat norm s b put).2)

theorem run_attempt : run norm p.attempt d = (.ok (run norm p d).1, (run norm p d).2) := by
  obtain ⟨k, s⟩ := d
  induction p generalizing k s with
  | done a => rfl
  | fail e => rfl
  | vars hc next ih => exact ih k (hc k) s
  | access b put next ih => exact ih (flat norm s b put).1 k (flat norm s b put).2

theorem touched_attempt : touched norm p.attempt d = touched norm p d := by
  obtain ⟨k, s⟩ := d
  induction p generalizing k s with
  | done a => rfl
  | fail e => rfl
  | vars hc next ih => exact ih k (hc k) s
  | access b put next ih =>
    exact congrArg (b :: ·) (ih (flat norm s b put).1 k (flat norm s b put).2)

theorem run_change : run norm (change b g : BlockProgram κ ε β _) d =
    (.ok (some (d.blocks b)), match g (d.blocks b) with
      | none => d
      | some x => ⟨d.vars, Function.update d.blocks b (norm x)⟩) := by
  simp only [run, change, exec, flat, Option.bind_some]
  cases g (d.blocks b) with
  | none => rfl
  | some x => rfl

end

/-- Run on a store that stands for `a`, the program ends with `r` and the store stands for
`a'`. Only blocks that are allowed are accessed. -/
def Means (norm : β → β) (ok : Nat → Prop) (R : Disk κ β → A → Prop) (p : BlockProgram κ ε β α)
    (a : A) (r : Except ε α) (a' : A) : Prop :=
  ∀ d, R d a → (run norm p d).1 = r ∧ R (run norm p d).2 a' ∧ ∀ b ∈ touched norm p d, ok b

section
variable {norm : β → β} {ok : Nat → Prop} {R : Disk κ β → A → Prop} {p : BlockProgram κ ε β α}
  {f : α → BlockProgram κ ε β γ} {a a' a'' : A} {x : α} {e : ε} {r : Except ε γ}

theorem Means.pure : Means norm ok R (Pure.pure x : BlockProgram κ ε β α) a (.ok x) a :=
  fun _ hr => ⟨rfl, hr, fun _ mem => absurd mem not_mem_nil⟩

theorem Means.fail : Means norm ok R (BlockProgram.fail e : BlockProgram κ ε β α) a (.error e) a :=
  fun _ hr => ⟨rfl, hr, fun _ mem => absurd mem not_mem_nil⟩

theorem Means.bind (h1 : Means norm ok R p a (.ok x) a')
    (rest : Means norm ok R (f x) a' r a'') : Means norm ok R (p >>= f) a r a'' := by
  intro d hr
  obtain ⟨hs, after, blocks⟩ := h1 d hr
  obtain ⟨result', after', blocks'⟩ := rest _ after
  have split : run norm p d = (.ok x, (run norm p d).2) := by rw [← hs]
  rw [run_bind, touched_bind, split]
  refine ⟨result', after', fun b mem => ?_⟩
  exact (mem_append.mp mem).elim (blocks b) (blocks' b)

theorem Means.attempt {r : Except ε α} (means : Means norm ok R p a r a') :
    Means norm ok R p.attempt a (.ok r) a' := by
  intro d hr
  obtain ⟨hs, after, blocks⟩ := means d hr
  rw [run_attempt, touched_attempt, hs]
  exact ⟨rfl, after, blocks⟩

end

end BlockProgram

end Aegis
