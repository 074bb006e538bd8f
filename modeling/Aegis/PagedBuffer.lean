import Aegis.TableMemory

/-! A buffer whose pages of `c` words lie in frames of a memory: page `i` is in frame
`place i`. Seen through the pages the buffer is a function of the position, and writing a
range of positions changes the function there and nowhere else. -/

namespace Aegis.PagedBuffer

open TableMemory Nat

variable {ω : Type} {c n : Nat} {place : Nat → Nat} {mem : Memory ω} {pages : Nat → Prop}

def peek (c : Nat) (place : Nat → Nat) (mem : Memory ω) (k : Nat) : ω :=
  mem (place (k / c)) (k % c)

def poke (c : Nat) (place : Nat → Nat) (mem : Memory ω) (k : Nat) (x : ω) : Memory ω :=
  write mem (place (k / c)) (k % c) x

def pokes (c : Nat) (place : Nat → Nat) (start m : Nat) (x : Nat → ω) (mem : Memory ω) :
    Memory ω :=
  (List.range m).foldl (fun mem k => poke c place mem (start + k) (x k)) mem

def Apart (pages : Nat → Prop) (place : Nat → Nat) : Prop :=
  ∀ i j, pages i → pages j → place i = place j → i = j

theorem page_lt_of_lt {k : Nat} (hi : k < n * c) : k / c < n :=
  Nat.div_lt_of_lt_mul (by rwa [Nat.mul_comm])

variable {start m : Nat} {x : Nat → ω}

theorem pokes_succ : pokes c place start (m + 1) x mem =
      poke c place (pokes c place start m x mem) (start + m) (x m) := by
  simp [pokes, List.range_succ]

theorem pokes_congr {y : Nat → ω} (eq : ∀ i < m, x i = y i) :
    pokes c place start m x mem = pokes c place start m y mem := by
  induction m with
  | zero => rfl
  | succ m ih =>
    rw [pokes_succ, pokes_succ, eq m (lt_succ_self m), ih fun i lt => eq i (lt_succ_of_lt lt)]

theorem pokes_add {m' : Nat} : pokes c place start (m + m') x mem =
      pokes c place (start + m) m' (fun k => x (m + k)) (pokes c place start m x mem) := by
  induction m' with
  | zero => rfl
  | succ m' ih => rw [← Nat.add_assoc, pokes_succ, pokes_succ, ih, Nat.add_assoc]

theorem pokes_page (hi : start % c + m ≤ c) :
    pokes c (fun _ => place (start / c)) (start % c) m x mem = pokes c place start m x mem := by
  induction m with
  | zero => rfl
  | succ m ih =>
    have low : start % c + m < c := hi
    have offset : (start + m) % c = start % c + m := by
      rw [add_mod, mod_eq_of_lt (Nat.lt_of_le_of_lt (Nat.le_add_left ..) low), mod_eq_of_lt low]
    have page : (start + m) / c = start / c := by
      have hw := div_add_mod start c
      have : start + m = c * (start / c) + (start % c + m) := by omega
      rw [this, mul_add_div (by omega), div_eq_of_lt low, Nat.add_zero]
    rw [pokes_succ, pokes_succ, ih (by omega), poke, poke, offset, page, mod_eq_of_lt low]

theorem peek_poke (ha : Apart pages place) {k l : Nat} {x : ω} (hi : pages (k / c))
    (hi' : pages (l / c)) :
    peek c place (poke c place mem k x) l = if l = k then x else peek c place mem l := by
  by_cases eq : l = k
  · rw [if_pos eq, eq, peek, poke, write_same, if_pos rfl]
  rw [if_neg eq, peek, poke]
  by_cases page : place (l / c) = place (k / c)
  · have he := ha _ _ hi' hi page
    have offset : l % c ≠ k % c := fun equal' =>
      eq (by rw [← div_add_mod l c, ← div_add_mod k c, he, equal'])
    rw [page, write_same, if_neg offset, peek, page]
  · rw [write_other page, peek]

theorem peek_pokes (ha : Apart pages place) {l : Nat} (hi : ∀ i < m, pages ((start + i) / c))
    (hi' : pages (l / c)) :
    peek c place (pokes c place start m x mem) l =
      if start ≤ l ∧ l < start + m then x (l - start) else peek c place mem l := by
  induction m with
  | zero => rw [pokes, List.range_zero, List.foldl_nil, if_neg (by omega)]
  | succ m ih =>
    rw [pokes_succ, peek_poke ha (hi m (lt_succ_self m)) hi',
      ih fun i lt => hi i (lt_succ_of_lt lt)]
    by_cases last : l = start + m
    · rw [if_pos last, if_pos (by omega), last, Nat.add_sub_cancel_left]
    rw [if_neg last]
    by_cases pre : start ≤ l ∧ l < start + m
    · rw [if_pos pre, if_pos (by omega)]
    · rw [if_neg pre, if_neg (by omega)]

theorem pokes_other {g : Nat} (hi : ∀ i < m, pages ((start + i) / c))
    (ho : ∀ i, pages i → g ≠ place i) : pokes c place start m x mem g = mem g := by
  induction m with
  | zero => rfl
  | succ m ih =>
    rw [pokes_succ, poke, write_other (ho _ (hi m (lt_succ_self m))),
      ih fun i lt => hi i (lt_succ_of_lt lt)]

end Aegis.PagedBuffer
