import Aegis.ByteLayout
import Mathlib.Data.Nat.ModEq

/-! A memory of bytes in which every address can be read: ranges that are overwritten, numbers
with the least significant byte first, and the first bytes of a range. A number is not changed
by a write that stays outside its bytes. -/

namespace Aegis.ByteMemory

open Function List

open ByteLayout (Byte)

abbrev Bytes := Nat → Byte

def overlay (m : Bytes) (a n : Nat) (src : Bytes) : Bytes := fun i =>
  if a ≤ i ∧ i < a + n then src (i - a) else m i

def readLe (m : Bytes) : Nat → Nat → Nat
  | 0, _ => 0
  | n + 1, a => (m a).toNat + 256 * readLe m n (a + 1)

def leBytes (v : Nat) : Bytes := fun k => BitVec.ofNat 8 (v / 256 ^ k)

def writeLe (m : Bytes) (n a v : Nat) : Bytes :=
  overlay m a n (leBytes v)

def view (m : Bytes) (a : Nat) : Bytes := fun i => m (a + i)

def clip (n : Nat) (m : Bytes) : Bytes := fun i => if i < n then m i else 0

def ofList (l : List Byte) : Bytes := fun i => (l[i]?).getD 0

variable {m m' src : Bytes} {a b i k n v : Nat}

theorem overlay_inside (low : a ≤ i) (high : i < a + n) : overlay m a n src i = src (i - a) :=
  if_pos ⟨low, high⟩

theorem overlay_outside (ha : i < a ∨ a + n ≤ i) : overlay m a n src i = m i :=
  if_neg fun hi => by omega

@[simp] theorem overlay_add (lt : i < n) : overlay m a n src (a + i) = src i := by
  rw [overlay_inside (by omega) (by omega), Nat.add_sub_cancel_left]

theorem overlay_overlay {buf : Bytes} (fits : b + k ≤ n) :
    overlay m a n (overlay src b k buf) = overlay (overlay m a n src) (a + b) k buf := by
  funext i
  simp only [overlay]
  by_cases hs : a + b ≤ i ∧ i < a + b + k
  · have hw : a ≤ i ∧ i < a + n := by omega
    have part : b ≤ i - a ∧ i - a < b + k := by omega
    rw [if_pos hw, if_pos part, if_pos hs, Nat.sub_sub]
  · have part : a ≤ i → ¬ (b ≤ i - a ∧ i - a < b + k) := by omega
    by_cases hw : a ≤ i ∧ i < a + n
    · rw [if_pos hw, if_neg (part hw.1), if_neg hs, if_pos hw]
    · rw [if_neg hw, if_neg hs, if_neg hw]

theorem overlay_same (eq : ∀ i < n, src i = m (a + i)) : overlay m a n src = m := by
  funext i
  by_cases hi : a ≤ i ∧ i < a + n
  · rw [overlay_inside hi.1 hi.2, eq _ (by omega), Nat.add_sub_cancel' hi.1]
  · exact if_neg hi

theorem readLe_congr (eq : ∀ i, a ≤ i → i < a + n → m' i = m i) : readLe m' n a = readLe m n a := by
  induction n generalizing a with
  | zero => rfl
  | succ n ih =>
    rw [readLe, readLe, eq a (le_refl a) (by omega),
      ih fun i low high => eq i (by omega) (by omega)]

theorem readLe_lt : readLe m n a < 256 ^ n := by
  induction n generalizing a with
  | zero => exact one_pos
  | succ n ih =>
    rw [readLe, pow_succ]
    have byte := (m a).isLt
    have rest := ih (a := a + 1)
    omega

theorem readLe_of_leBytes (bytes : ∀ k < n, m (a + k) = BitVec.ofNat 8 (v / 256 ^ k)) :
    readLe m n a = v % 256 ^ n := by
  induction n generalizing a v with
  | zero => rw [readLe, Nat.pow_zero, Nat.mod_one]
  | succ n ih =>
    have h1 := bytes 0 (Nat.succ_pos n)
    have hl : readLe m n (a + 1) = v / 256 % 256 ^ n := ih fun k lt => by
      rw [Nat.add_right_comm, Nat.add_assoc, bytes (k + 1) (Nat.succ_lt_succ lt),
        Nat.pow_succ', Nat.div_div_eq_div_mul]
    rw [Nat.add_zero, Nat.pow_zero, Nat.div_one] at h1
    have split : v % 256 ^ (n + 1) = v % 256 + 256 * (v / 256 % 256 ^ n) := by
      rw [Nat.pow_succ', Nat.mod_mul]
    rw [readLe, h1, hl, split, BitVec.toNat_ofNat]

theorem readLe_writeLe : readLe (writeLe m n a v) n a = v % 256 ^ n :=
  readLe_of_leBytes fun _ lt => overlay_add lt

theorem readLe_writeLe_of_lt (lt : v < 256 ^ n) : readLe (writeLe m n a v) n a = v := by
  rw [readLe_writeLe, Nat.mod_eq_of_lt lt]

theorem readLe_overlay_apart (ha : b + k ≤ a ∨ a + n ≤ b) :
    readLe (overlay m a n src) k b = readLe m k b :=
  readLe_congr fun _ _ _ => overlay_outside (by omega)

theorem readLe_writeLe_apart (ha : b + k ≤ a ∨ a + n ≤ b) :
    readLe (writeLe m n a v) k b = readLe m k b :=
  readLe_overlay_apart ha

theorem clip_of_lt (lt : i < n) : clip n m i = m i := if_pos lt

theorem clip_of_le (hl : n ≤ i) : clip n m i = 0 := if_neg (not_lt.mpr hl)

theorem clip_congr (eq : ∀ i < n, m' i = m i) : clip n m' = clip n m := by
  funext i
  by_cases lt : i < n
  · rw [clip_of_lt lt, clip_of_lt lt, eq i lt]
  · rw [clip_of_le (not_lt.mp lt), clip_of_le (not_lt.mp lt)]

theorem clip_clip : clip n (clip n m) = clip n m := clip_congr fun _ lt => clip_of_lt lt

theorem readLe_clip (hi : a + k ≤ n) : readLe (clip n m) k a = readLe m k a :=
  readLe_congr fun _ _ high => clip_of_lt (by omega)

/-! ### Fields of a record -/

structure Field where
  offset : Nat
  width : Nat

namespace Field

def get (f : Field) (m : Bytes) : Nat := readLe m f.width f.offset

def set (f : Field) (m : Bytes) (v : Nat) : Bytes := writeLe m f.width f.offset v

def Apart (f g : Field) : Prop := f.offset + f.width ≤ g.offset ∨ g.offset + g.width ≤ f.offset
  deriving Decidable

variable {f g : Field}

theorem get_lt : f.get m < 256 ^ f.width := readLe_lt

theorem get_set (lt : v < 256 ^ f.width) : f.get (f.set m v) = v := readLe_writeLe_of_lt lt

theorem get_set_apart (ha : f.Apart g) : f.get (g.set m v) = f.get m := readLe_writeLe_apart ha

theorem get_clip (hi : f.offset + f.width ≤ n) : f.get (clip n m) = f.get m := readLe_clip hi

def setAll (m : Bytes) : List (Field × Nat) → Bytes
  | [] => m
  | (f, v) :: l => setAll (f.set m v) l

variable {l : List (Field × Nat)}

theorem setAll_outside (ha : ∀ f ∈ l.map Prod.fst, i < f.offset ∨ f.offset + f.width ≤ i) :
    setAll m l i = m i := by
  induction l generalizing m with
  | nil => rfl
  | cons e l ih =>
    rw [setAll, ih fun f mem => ha f (mem_cons_of_mem _ mem)]
    exact overlay_outside (ha e.1 mem_cons_self)

theorem get_setAll_apart (ha : ∀ e ∈ l, f.Apart e.1) : f.get (setAll m l) = f.get m := by
  induction l generalizing m with
  | nil => rfl
  | cons e l ih =>
    rw [setAll, ih fun e mem => ha e (mem_cons_of_mem _ mem)]
    exact get_set_apart (ha e mem_cons_self)

theorem get_setAll (ha : l.Pairwise fun d e => d.1.Apart e.1) (mem : (f, v) ∈ l)
    (lt : v < 256 ^ f.width) : f.get (setAll m l) = v := by
  induction l generalizing m with
  | nil => cases mem
  | cons e l ih =>
    obtain ⟨h1, rest⟩ := pairwise_cons.mp ha
    rw [setAll]
    rcases mem_cons.mp mem with rfl | hl
    · rw [get_setAll_apart h1, get_set lt]
    · exact ih rest hl

end Field

def bit (m : Bytes) (i : Nat) : Bool := (m (i / 8)).getLsbD (i % 8)

def setBit (m : Bytes) (i : Nat) : Bytes :=
  update m (i / 8) (m (i / 8) ||| (1 : Byte) <<< (i % 8))

def firstClear (bits : Nat → Bool) : Nat → Nat → Option Nat
  | 0, _ => none
  | n + 1, i => if bits i then firstClear bits n (i + 1) else some i

theorem getLsbD_single {l : Nat} (lt : l < 8) : ((1 : Byte) <<< k).getLsbD l = decide (l = k) := by
  rw [BitVec.getLsbD_shiftLeft]
  rcases lt_trichotomy l k with less | eq | more
  · simp [less, ne_of_lt less]
  · subst eq
    simp [lt]
  · have ha : l - k ≠ 0 := by omega
    simp [lt, Nat.not_lt_of_lt more, ne_of_gt more, ha]

theorem bit_setBit {j : Nat} : bit (setBit m i) j = (decide (j = i) || bit m j) := by
  rw [bit, bit, setBit]
  by_cases eq : j / 8 = i / 8
  · rw [eq, update_self, BitVec.getLsbD_or, getLsbD_single (Nat.mod_lt _ (by decide)), Bool.or_comm]
    have iff : j % 8 = i % 8 ↔ j = i := by omega
    rw [decide_eq_decide.mpr iff]
  · rw [update_of_ne eq, decide_eq_false (fun he => eq (by rw [he])), Bool.false_or]

theorem firstClear_congr {bits bits' : Nat → Bool} (eq : ∀ j, i ≤ j → j < i + n → bits' j = bits j) :
    firstClear bits' n i = firstClear bits n i := by
  induction n generalizing i with
  | zero => rfl
  | succ n ih =>
    rw [firstClear, firstClear, eq i (le_refl i) (by omega),
      ih fun j low high => eq j (by omega) (by omega)]

theorem firstClear_some {bits : Nat → Bool} {j : Nat} (hf : firstClear bits n i = some j) :
    i ≤ j ∧ j < i + n ∧ bits j = false := by
  induction n generalizing i with
  | zero => cases hf
  | succ n ih =>
    rw [firstClear] at hf
    split at hf
    · have hl := ih hf
      exact ⟨by omega, by omega, hl.2.2⟩
    next clear =>
    obtain rfl := Option.some.inj hf
    exact ⟨le_refl i, by omega, Bool.eq_false_iff.mpr clear⟩

theorem bit_clip (hi : i < 8 * n) : bit (clip n m) i = bit m i := by
  rw [bit, bit, clip_of_lt (by omega)]

end Aegis.ByteMemory
