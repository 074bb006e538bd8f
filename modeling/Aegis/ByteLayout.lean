import Mathlib.Data.List.Basic
import Mathlib.Data.Nat.Basic
import Mathlib.Algebra.GroupWithZero.Nat

/-! Data laid out in a memory of bytes, some of which may not be readable: words of a fixed
size with the least significant byte first, strings that end with a zero byte, and sequences
of both. `Holds mem va l` says that the bytes `l` can be read from `va` on; each reader gets
back what was laid out. -/

namespace Aegis.ByteLayout

open List Nat

abbrev Byte := BitVec 8

def Holds (mem : Nat → Option Byte) : Nat → List Byte → Prop
  | _, [] => True
  | va, b :: l => mem va = some b ∧ Holds mem (va + 1) l

def leBytes : Nat → Nat → List Byte
  | 0, _ => []
  | n + 1, v => BitVec.ofNat 8 v :: leBytes n (v / 256)

def readLe (mem : Nat → Option Byte) : Nat → Nat → Option Nat
  | 0, _ => some 0
  | n + 1, va => do
    let low ← mem va
    let high ← readLe mem n (va + 1)
    some (low.toNat + 256 * high)

def readString (mem : Nat → Option Byte) : Nat → Nat → Option (List Byte)
  | 0, _ => none
  | fuel + 1, va => do
    let b ← mem va
    if b = 0 then some [] else (readString mem fuel (va + 1)).map (b :: ·)

def wordBytes (ws : List Nat) : List Byte := ws.flatMap (leBytes 8)

def readWords (mem : Nat → Option Byte) : Nat → Nat → Option (List Nat)
  | 0, _ => some []
  | n + 1, va => do
    let w ← readLe mem 8 va
    (readWords mem n (va + 8)).map (w :: ·)

/-- The words before the first zero, which is one of the next `fuel` words. -/
def readUntilZero (mem : Nat → Option Byte) : Nat → Nat → Option (List Nat)
  | 0, _ => none
  | fuel + 1, va => do
    let w ← readLe mem 8 va
    if w = 0 then some [] else (readUntilZero mem fuel (va + 8)).map (w :: ·)

def readPairs (mem : Nat → Option Byte) : Nat → Nat → Option (List (Nat × Nat))
  | 0, _ => none
  | fuel + 1, va => do
    let key ← readLe mem 8 va
    if key = 0 then some []
    else
      let value ← readLe mem 8 (va + 8)
      (readPairs mem fuel (va + 16)).map ((key, value) :: ·)

def pairWords (ps : List (Nat × Nat)) : List Nat := ps.flatMap fun p => [p.1, p.2]

def pack (ss : List (List Byte)) : List Byte := ss.flatMap (· ++ [0])

def starts : Nat → List (List Byte) → List Nat
  | _, [] => []
  | va, s :: ss => va :: starts (va + (s.length + 1)) ss

def extents : Nat → List (List Byte) → List (Nat × Nat)
  | _, [] => []
  | va, s :: ss => (va, s.length + 1) :: extents (va + (s.length + 1)) ss

section
variable {mem mem' : Nat → Option Byte} {va fuel n : Nat} {l l' : List Byte}

theorem holds_append : Holds mem va (l ++ l') ↔ Holds mem va l ∧ Holds mem (va + l.length) l' := by
  induction l generalizing va with
  | nil => simp [Holds]
  | cons b l ih =>
    simp only [cons_append, Holds, ih, length_cons, and_assoc]
    rw [Nat.add_right_comm, Nat.add_assoc]

theorem holds_iff : Holds mem va l ↔ ∀ i (lt : i < l.length), mem (va + i) = some l[i] := by
  induction l generalizing va with
  | nil => simp [Holds]
  | cons b l ih =>
    rw [Holds, ih]
    constructor
    · rintro ⟨h1, hl⟩ i lt
      cases i with
      | zero => exact h1
      | succ i =>
        rw [← Nat.add_assoc, Nat.add_right_comm]
        exact hl i (lt_of_succ_lt_succ lt)
    · intro all
      refine ⟨all 0 (succ_pos _), fun i lt => ?_⟩
      have next := all (i + 1) (succ_lt_succ lt)
      rw [← Nat.add_assoc, Nat.add_right_comm] at next
      exact next

theorem Holds.congr (hh : Holds mem va l)
    (eq : ∀ a, va ≤ a → a < va + l.length → mem' a = mem a) : Holds mem' va l := by
  rw [holds_iff] at hh ⊢
  intro i lt
  rw [eq (va + i) (Nat.le_add_right ..) (Nat.add_lt_add_left lt va), hh i lt]

variable {v : Nat} {s : List Byte} {ws : List Nat} {ps : List (Nat × Nat)}
  {ss ss' : List (List Byte)}

@[simp] theorem leBytes_length : (leBytes n v).length = n := by
  induction n generalizing v with
  | zero => rfl
  | succ n ih => rw [leBytes, length_cons, ih]

theorem Holds.readLe (hh : Holds mem va (leBytes n v)) : readLe mem n va = some (v % 256 ^ n) := by
  induction n generalizing va v with
  | zero => simp [ByteLayout.readLe, mod_one]
  | succ n ih =>
    obtain ⟨h1, hl⟩ := hh
    rw [ByteLayout.readLe, h1, ih hl]
    have split : v % 256 ^ (n + 1) = v % 256 + 256 * (v / 256 % 256 ^ n) := by
      rw [Nat.pow_succ', mod_mul]
    simp [split]

theorem Holds.readWord (hh : Holds mem va (leBytes 8 v)) (lt : v < 2 ^ 64) :
    ByteLayout.readLe mem 8 va = some v := by
  rw [hh.readLe]
  exact congrArg some (mod_eq_of_lt lt)

theorem Holds.readString (hh : Holds mem va (s ++ [0])) (text : 0 ∉ s) (hs : s.length < fuel) :
    readString mem fuel va = some s := by
  induction s generalizing va fuel with
  | nil =>
    obtain ⟨fuel, rfl⟩ := Nat.exists_eq_add_of_lt hs
    simp [ByteLayout.readString, hh.1]
  | cons b s ih =>
    cases fuel with
    | zero => exact absurd hs (not_lt_zero _)
    | succ fuel =>
      obtain ⟨h1, hl⟩ := hh
      have hn : b ≠ 0#8 := fun zero => text (zero ▸ .head _)
      have rest := ih hl (fun hm => text (.tail _ hm)) (lt_of_succ_lt_succ hs)
      simp [ByteLayout.readString, h1, hn, rest]

theorem wordBytes_cons {w : Nat} : wordBytes (w :: ws) = leBytes 8 w ++ wordBytes ws := flatMap_cons

theorem wordBytes_append {ws' : List Nat} : wordBytes (ws ++ ws') = wordBytes ws ++ wordBytes ws' :=
  flatMap_append

@[simp] theorem wordBytes_length : (wordBytes ws).length = 8 * ws.length := by
  induction ws with
  | nil => rfl
  | cons w ws ih =>
    rw [wordBytes_cons, length_append, leBytes_length, ih, length_cons]
    omega

theorem holds_word {w : Nat} : Holds mem va (wordBytes (w :: ws)) ↔
      Holds mem va (leBytes 8 w) ∧ Holds mem (va + 8) (wordBytes ws) := by
  rw [wordBytes_cons, holds_append, leBytes_length]

theorem Holds.readWords (hh : Holds mem va (wordBytes ws)) (lt : ∀ w ∈ ws, w < 2 ^ 64) :
    readWords mem ws.length va = some ws := by
  induction ws generalizing va with
  | nil => rfl
  | cons w ws ih =>
    obtain ⟨h1, hl⟩ := holds_word.mp hh
    have rest := ih hl fun x hm => lt x (.tail _ hm)
    simp [ByteLayout.readWords, h1.readWord (lt w mem_cons_self), rest]

theorem Holds.readUntilZero (hh : Holds mem va (wordBytes (ws ++ [0])))
    (lt : ∀ w ∈ ws, 0 < w ∧ w < 2 ^ 64) (hs : ws.length < fuel) :
    readUntilZero mem fuel va = some ws := by
  induction ws generalizing va fuel with
  | nil =>
    obtain ⟨fuel, rfl⟩ := Nat.exists_eq_add_of_lt hs
    have zero := (holds_word.mp hh).1.readWord (by decide)
    simp [ByteLayout.readUntilZero, zero]
  | cons w ws ih =>
    cases fuel with
    | zero => exact absurd hs (Nat.not_lt_zero _)
    | succ fuel =>
      obtain ⟨h1, hl⟩ := holds_word.mp hh
      obtain ⟨pos, hb⟩ := lt w mem_cons_self
      have rest := ih hl (fun x hm => lt x (mem_cons_of_mem w hm)) (lt_of_succ_lt_succ hs)
      simp [ByteLayout.readUntilZero, h1.readWord hb, Nat.pos_iff_ne_zero.mp pos, rest]

theorem Holds.readPairs (hh : Holds mem va (wordBytes (pairWords ps ++ [0])))
    (lt : ∀ p ∈ ps, (0 < p.1 ∧ p.1 < 2 ^ 64) ∧ p.2 < 2 ^ 64) (hs : ps.length < fuel) :
    readPairs mem fuel va = some ps := by
  induction ps generalizing va fuel with
  | nil =>
    obtain ⟨fuel, rfl⟩ := Nat.exists_eq_add_of_lt hs
    have zero := (holds_word.mp hh).1.readWord (by decide)
    simp [ByteLayout.readPairs, zero]
  | cons p ps ih =>
    cases fuel with
    | zero => exact absurd hs (Nat.not_lt_zero _)
    | succ fuel =>
      obtain ⟨key, hl⟩ := holds_word.mp hh
      obtain ⟨value, hl⟩ := holds_word.mp hl
      obtain ⟨⟨pos, hb⟩, bound'⟩ := lt p mem_cons_self
      have rest := ih hl (fun x hm => lt x (mem_cons_of_mem p hm)) (lt_of_succ_lt_succ hs)
      simp [ByteLayout.readPairs, key.readWord hb, Nat.pos_iff_ne_zero.mp pos,
        value.readWord bound', rest]

theorem pack_cons : pack (s :: ss) = s ++ [0] ++ pack ss := flatMap_cons

theorem pack_append : pack (ss ++ ss') = pack ss ++ pack ss' := flatMap_append

theorem pack_length_cons : (pack (s :: ss)).length = s.length + 1 + (pack ss).length := by
  rw [pack_cons, length_append, length_append, length_singleton]

theorem starts_append :
    starts va (ss ++ ss') = starts va ss ++ starts (va + (pack ss).length) ss' := by
  induction ss generalizing va with
  | nil => rfl
  | cons s ss ih => rw [cons_append, starts, starts, ih, pack_length_cons, Nat.add_assoc]; rfl

@[simp] theorem starts_length : (starts va ss).length = ss.length := by
  induction ss generalizing va with
  | nil => rfl
  | cons s ss ih => rw [starts, length_cons, ih, length_cons]

theorem mem_starts {a : Nat} (hm : a ∈ starts va ss) : va ≤ a ∧ a < va + (pack ss).length := by
  induction ss generalizing va with
  | nil => cases hm
  | cons s ss ih =>
    rw [pack_length_cons]
    rcases mem_cons.mp hm with rfl | hl
    · omega
    · have := ih hl
      omega

theorem mem_extents {e : Nat × Nat} (hm : e ∈ extents va ss) :
    va ≤ e.1 ∧ e.1 + e.2 ≤ va + (pack ss).length := by
  induction ss generalizing va with
  | nil => cases hm
  | cons s ss ih =>
    rw [pack_length_cons]
    rcases mem_cons.mp hm with rfl | hl
    · dsimp only
      omega
    · have := ih hl
      omega

theorem extents_pairwise : (extents va ss).Pairwise fun e e' => e.1 + e.2 ≤ e'.1 := by
  induction ss generalizing va with
  | nil => exact .nil
  | cons s ss ih => exact .cons (fun e hl => (mem_extents hl).1) ih

theorem pairWords_append {ps' : List (Nat × Nat)} :
    pairWords (ps ++ ps') = pairWords ps ++ pairWords ps' :=
  flatMap_append

theorem Holds.readStrings (hh : Holds mem va (pack ss)) (text : ∀ s ∈ ss, 0 ∉ s)
    (hs : ∀ s ∈ ss, s.length < fuel) :
    (starts va ss).mapM (ByteLayout.readString mem fuel) = some ss := by
  induction ss generalizing va with
  | nil => rfl
  | cons s ss ih =>
    rw [pack_cons, holds_append] at hh
    have h1 := hh.1.readString (text s mem_cons_self) (hs s mem_cons_self)
    have hl := ih (by simpa using hh.2) (fun x hm => text x (mem_cons_of_mem s hm))
      (fun x hm => hs x (mem_cons_of_mem s hm))
    simp [starts, h1, hl]

theorem Holds.readExtents (hh : Holds mem va (pack ss)) (text : ∀ s ∈ ss, 0 ∉ s)
    (hs : ∀ s ∈ ss, s.length < fuel) :
    ((starts va ss).map fun w => (w, ((ByteLayout.readString mem fuel w).getD []).length + 1)) =
      extents va ss := by
  induction ss generalizing va with
  | nil => rfl
  | cons s ss ih =>
    rw [pack_cons, holds_append] at hh
    have h1 := hh.1.readString (text s mem_cons_self) (hs s mem_cons_self)
    have hl := ih (by simpa using hh.2) (fun x hm => text x (mem_cons_of_mem s hm))
      (fun x hm => hs x (mem_cons_of_mem s hm))
    simp [starts, extents, h1, hl]

end

end Aegis.ByteLayout
