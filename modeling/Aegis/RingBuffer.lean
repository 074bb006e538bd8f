import Mathlib.Data.List.Basic

/-! Ring buffers that are filled and drained by block copies.
A ring of `cap` cells is a function on cell numbers. `takeOut` and `putIn` copy in
two pieces around the end of the array; `stored` is the queue they implement, read
off cell by cell modulo `cap`. -/

namespace Aegis.RingBuffer

open Function List Nat

variable {α : Type*}

def slice (cells : Nat → α) (start n : Nat) : List α :=
  (List.range n).map fun i => cells (start + i)

def blit (cells : Nat → α) (start : Nat) (source : Nat → α) (n : Nat) : Nat → α :=
  fun i => if start ≤ i ∧ i < start + n then source (i - start) else cells i

/-- The `count` values of the ring that starts at cell `first`, oldest first. -/
def stored (cap : Nat) (cells : Nat → α) (first count : Nat) : List α :=
  (List.range count).map fun i => cells ((first + i) % cap)

def takeOut (cap : Nat) (cells : Nat → α) (pos n : Nat) : List α :=
  let first := if cap - pos > n then n else cap - pos
  slice cells pos first ++ if first < n then slice cells 0 (n - first) else []

def putIn (cap : Nat) (cells : Nat → α) (pos : Nat) (source : Nat → α) (n : Nat) : Nat → α :=
  let first := if cap - pos > n then n else cap - pos
  let once := blit cells pos source first
  if first < n then blit once 0 (fun i => source (first + i)) (n - first) else once

@[simp] theorem length_stored (cap : Nat) (cells : Nat → α) (first count : Nat) :
    (stored cap cells first count).length = count := by
  simp [stored]

@[simp] theorem slice_zero (cells : Nat → α) (start : Nat) : slice cells start 0 = [] := rfl

variable {cap : Nat}

theorem stored_split (cells : Nat → α) (first m n : Nat) : stored cap cells first (m + n) =
      stored cap cells first m ++ stored cap cells ((first + m) % cap) n := by
  simp only [stored, range_add, map_append, map_map]
  congr 1
  apply map_congr_left
  intro i _
  simp [mod_add_mod, Nat.add_assoc]

variable {first n : Nat}

theorem stored_eq_slice (cells : Nat → α) (fits : first + n ≤ cap) :
    stored cap cells first n = slice cells first n := by
  apply map_congr_left
  intro i hi
  rw [mod_eq_of_lt (by have := mem_range.mp hi; omega)]

theorem takeOut_eq (cells : Nat → α) {pos : Nat} (hi : pos < cap) (lt : n ≤ cap) :
    takeOut cap cells pos n = stored cap cells pos n := by
  unfold takeOut
  by_cases hs : cap - pos > n
  · simp only [hs, if_true, Nat.lt_irrefl, if_false, append_nil]
    exact (stored_eq_slice cells (by omega)).symm
  obtain ⟨rest, rfl⟩ : ∃ rest, n = (cap - pos) + rest := ⟨n - (cap - pos), by omega⟩
  have hw : (pos + (cap - pos)) % cap = 0 := by
    rw [Nat.add_sub_cancel' (by omega), mod_self]
  have h2 : (if cap - pos < cap - pos + rest then
      slice cells 0 (cap - pos + rest - (cap - pos)) else []) = slice cells 0 rest := by
    rw [Nat.add_sub_cancel_left]
    split
    · rfl
    · next none => rw [show rest = 0 by omega, slice_zero]
  simp only [hs, if_false]
  rw [stored_split, hw, stored_eq_slice cells (by omega : pos + (cap - pos) ≤ cap),
    stored_eq_slice cells (by omega : 0 + rest ≤ cap), h2]

theorem putIn_apply (cells source : Nat → α) {pos i : Nat} (hi : pos < cap) (lt : n ≤ cap)
    (offset : i < cap) :
    putIn cap cells pos source n ((pos + i) % cap) =
      if i < n then source i else cells ((pos + i) % cap) := by
  have hp : (pos + i) % cap = if pos + i < cap then pos + i else pos + i - cap := by
    split
    · next hb => exact mod_eq_of_lt hb
    · next ha => rw [mod_eq_sub_mod (by omega), mod_eq_of_lt (by omega)]
  rw [hp]
  -- the first copy reaches the end of the cells or takes all values
  have first : (if cap - pos > n then n else cap - pos) = min n (cap - pos) := by
    split <;> omega
  simp only [putIn, first, ite_apply, blit]
  split_ifs <;> first | omega | rfl | exact congrArg source (by omega)

theorem stored_putIn (cells source : Nat → α) {count : Nat} (hi : first < cap)
    (room : count + n ≤ cap) :
    stored cap (putIn cap cells ((first + count) % cap) source n) first (count + n) =
      stored cap cells first count ++ slice source 0 n := by
  have hp : (first + count) % cap < cap := mod_lt _ (by omega)
  simp only [stored, slice, range_add, map_append, map_map]
  congr 1
  · apply map_congr_left
    intro i old
    have ho : i < count := mem_range.mp old
    -- an old cell lies `cap - count` cells after the place of the write, or more
    have hb : (first + i) % cap = ((first + count) % cap + (cap - count + i)) % cap := by
      rw [mod_add_mod, show first + count + (cap - count + i) = first + i + cap by omega,
        add_mod_right]
    rw [hb, putIn_apply cells source hp (by omega) (by omega), if_neg (by omega)]
  · apply map_congr_left
    intro i new
    have newer : i < n := mem_range.mp new
    have ha : (first + (count + i)) % cap = ((first + count) % cap + i) % cap := by
      rw [mod_add_mod, Nat.add_assoc]
    simp only [comp_apply, Nat.zero_add]
    rw [ha, putIn_apply cells source hp (by omega) (by omega), if_pos newer]

theorem stored_update (cells : Nat → α) {count : Nat} (room : count < cap) (v : α) :
    stored cap (update cells ((first + count) % cap) v) first (count + 1) =
      stored cap cells first count ++ [v] := by
  rw [stored, range_succ, map_append, map_singleton, update_self, stored]
  congr 1
  apply map_congr_left
  intro i old
  have ho : i < count := mem_range.mp old
  apply update_of_ne
  intro eq
  have gap := sub_mod_eq_zero_of_mod_eq eq.symm
  rw [Nat.add_sub_add_left, mod_eq_of_lt (by omega)] at gap
  omega

end Aegis.RingBuffer
