import Aegis.ByteMemory

/-! Chains of records of varying length in a memory of bytes: each record starts where the one
before it ends. A reader goes from record to record and stops early at one that does not make
sense; over a chain it sees every record. -/

namespace Aegis.RecordChain

open ByteMemory List

/-- How a record is read, its length, and which records can stand in a chain; such a record is
given by its own bytes. -/
structure Format (ρ : Type) where
  read : Bytes → Nat → ρ
  len : ρ → Nat
  Ok : ρ → Prop
  frame : ∀ m m' p, Ok (read m p) → (∀ i, p ≤ i → i < p + len (read m p) → m' i = m i) →
    read m' p = read m p

variable {ρ σ β : Type} (F : Format ρ)

def Chain (m : Bytes) : Nat → List ρ → Nat → Prop
  | p, [], q => p = q
  | p, r :: rs, q => F.read m p = r ∧ F.Ok r ∧ Chain m (p + F.len r) rs q

def Chain.decide [DecidableEq ρ] [DecidablePred F.Ok] (m : Bytes) :
    (p : Nat) → (rs : List ρ) → (q : Nat) → Decidable (Chain F m p rs q)
  | p, [], q => inferInstanceAs (Decidable (p = q))
  | p, r :: rs, q =>
    have := Chain.decide m (p + F.len r) rs q
    inferInstanceAs (Decidable (F.read m p = r ∧ F.Ok r ∧ Chain F m (p + F.len r) rs q))

instance [DecidableEq ρ] [DecidablePred F.Ok] (m : Bytes) (p : Nat) (rs : List ρ) (q : Nat) :
    Decidable (Chain F m p rs q) := Chain.decide F m p rs q

def total (rs : List ρ) : Nat := (rs.map F.len).sum

/-- A reader: `header` bytes must be left, and a record has at least `least` bytes. -/
def scan (m : Bytes) (header least q : Nat) (step : σ → Nat → ρ → σ ⊕ β) : Nat → σ → Nat → σ ⊕ β
  | 0, s, _ => .inl s
  | n + 1, s, p =>
    if q < p + header then .inl s
    else
      let r := F.read m p
      if F.len r < least ∨ q < p + F.len r then .inl s
      else match step s p r with
        | .inl s => scan m header least q step n s (p + F.len r)
        | .inr b => .inr b

def scanList (step : σ → Nat → ρ → σ ⊕ β) : σ → Nat → List ρ → σ ⊕ β
  | s, _, [] => .inl s
  | s, p, r :: rs => match step s p r with
    | .inl s => scanList step s (p + F.len r) rs
    | .inr b => .inr b

section
variable {F} {m m' : Bytes} {p q n : Nat} {r : ρ} {rs ss : List ρ} {s s' : σ} {b : β}
  {step : σ → Nat → ρ → σ ⊕ β}

@[simp] theorem total_nil : total F [] = 0 := rfl

@[simp] theorem total_cons : total F (r :: rs) = F.len r + total F rs := by
  simp [total]

@[simp] theorem total_append : total F (rs ++ ss) = total F rs + total F ss := by
  simp [total]

theorem Chain.end_eq (chain : Chain F m p rs q) : q = p + total F rs := by
  induction rs generalizing p with
  | nil => exact chain.symm
  | cons r rs ih =>
    rw [ih chain.2.2, total_cons, add_assoc]

theorem chain_append : Chain F m p (rs ++ ss) q ↔
    Chain F m p rs (p + total F rs) ∧ Chain F m (p + total F rs) ss q := by
  induction rs generalizing p with
  | nil => simp [Chain]
  | cons r rs ih => simp [Chain, ih, add_assoc, and_assoc]

theorem Chain.congr (chain : Chain F m p rs q) (eq : ∀ i, p ≤ i → i < q → m' i = m i) :
    Chain F m' p rs q := by
  induction rs generalizing p with
  | nil => exact chain
  | cons r rs ih =>
    obtain ⟨rfl, ok, rest⟩ := chain
    have hb := rest.end_eq
    have kept := F.frame m m' p ok fun i low high => eq i low (by omega)
    refine ⟨kept, ok, ih rest fun i low high => eq i (by omega) high⟩

theorem Chain.of_mem (chain : Chain F m p rs q) (mem : r ∈ rs) : F.Ok r ∧ p + F.len r ≤ q := by
  induction rs generalizing p with
  | nil => cases mem
  | cons r' rs ih =>
    obtain ⟨-, ok, rest⟩ := chain
    have hb := rest.end_eq
    rcases mem_cons.mp mem with rfl | hl
    · exact ⟨ok, by omega⟩
    · have hf := ih rest hl
      exact ⟨hf.1, by omega⟩

theorem Chain.replace {pre mid mid' after : List ρ} (chain : Chain F m p (pre ++ mid ++ after) q)
    (ho : ∀ i, (i < p + total F pre ∨ p + total F pre + total F mid ≤ i) → m' i = m i)
    (hi : Chain F m' (p + total F pre) mid' (p + total F pre + total F mid)) :
    Chain F m' p (pre ++ mid' ++ after) q := by
  obtain ⟨front, back⟩ := chain_append.mp chain
  obtain ⟨start, -⟩ := chain_append.mp front
  have length := hi.end_eq
  have eq : total F mid' = total F mid := by omega
  rw [total_append, ← add_assoc] at back
  rw [chain_append, chain_append, total_append, eq, ← add_assoc]
  exact ⟨⟨start.congr fun i _ high => ho i (.inl high), hi⟩,
    back.congr fun i low _ => ho i (.inr low)⟩

theorem Chain.length_le (pos : ∀ r, F.Ok r → 0 < F.len r) (chain : Chain F m p rs q) :
    p + rs.length ≤ q := by
  induction rs generalizing p with
  | nil => exact le_of_eq chain
  | cons r rs ih =>
    obtain ⟨rfl, ok, rest⟩ := chain
    have more := pos _ ok
    have hb := ih rest
    rw [length_cons]
    omega

theorem scan_chain {header hl : Nat} (chain : Chain F m p rs q) (fuel : rs.length ≤ n)
    (some : 0 < header) (hr : ∀ r, F.Ok r → header ≤ F.len r ∧ hl ≤ F.len r) :
    scan F m header hl q step n s p = scanList F step s p rs := by
  induction rs generalizing p s n with
  | nil =>
    obtain rfl : p = q := chain
    cases n with
    | zero => rfl
    | succ n => rw [scan, if_pos (by omega), scanList]
  | cons r rs ih =>
    obtain ⟨rfl, ok, rest⟩ := chain
    obtain ⟨wide, long⟩ := hr _ ok
    have hb := rest.end_eq
    rw [length_cons] at fuel
    obtain ⟨n, rfl⟩ : ∃ k, n = k + 1 := ⟨n - 1, by omega⟩
    rw [scan, if_neg (by omega)]
    dsimp only
    rw [if_neg (by omega), scanList]
    cases step s p (F.read m p) with
    | inl s => exact ih rest (by omega)
    | inr b => rfl

theorem scanList_append : scanList F step s p (rs ++ ss) = match scanList F step s p rs with
    | .inl s => scanList F step s (p + total F rs) ss
    | .inr b => .inr b := by
  induction rs generalizing s p with
  | nil => simp [scanList]
  | cons r rs ih =>
    rw [cons_append, scanList, scanList]
    cases step s p r with
    | inl s => simp only [ih, total_cons, add_assoc]
    | inr b => rfl

end

end Aegis.RecordChain
