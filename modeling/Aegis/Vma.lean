import Mathlib.Data.List.TakeWhile
import Mathlib.Algebra.Order.Group.Nat
import Mathlib.Algebra.BigOperators.Group.List.Basic
import Mathlib.Algebra.GroupWithZero.Nat

/-! The VMA table of a process: at most 170 entries, sorted by base. The loops of
`vma_remove` and `vma_update_prot` replace each entry by its pieces and leave an entry as
it is when the pieces do not fit. `carve` and `repaint` say what the pieces are when they
fit; under `VmaRoom` the loops compute exactly them. -/

namespace Aegis.Memory

open List

inductive VmaType where
  | none
  | elfText
  | elfData
  | heap
  | stack
  | mmap
  | threadStack
  | guard
  | shared
  deriving DecidableEq

structure VmaEntry where
  base : Nat
  len : Nat
  prot : Nat
  type : VmaType
  deriving DecidableEq

def vmaCapacity : Nat := 170

def VmaEntry.stop (e : VmaEntry) : Nat :=
  e.base + e.len

def vmaCanMerge (a b : VmaEntry) : Bool :=
  a.prot = b.prot ∧ a.type = b.type ∧ a.stop = b.base

/-- An entry in front of the rest of the table, merged with the next one where possible. -/
def joinNext (e : VmaEntry) : List VmaEntry → List VmaEntry
  | [] => [e]
  | next :: rest =>
    if vmaCanMerge e next then { e with len := e.len + next.len } :: rest else e :: next :: rest

def vmaInsert (table : List VmaEntry) (new : VmaEntry) : List VmaEntry :=
  if new.len = 0 then table
  else
    let before := table.takeWhile fun e => e.base < new.base
    let after := table.dropWhile fun e => e.base < new.base
    match before.getLast?.filter (vmaCanMerge · new) with
    | some prev => before.dropLast ++ joinNext { prev with len := prev.len + new.len } after
    | .none =>
      if after.head?.any (vmaCanMerge new) ∨ table.length < vmaCapacity then
        before ++ joinNext new after
      else table

/-- One round of `vma_remove`: what becomes of entry `e` when `count` entries are in use. -/
def removeEntry (base stop count : Nat) (e : VmaEntry) : List VmaEntry :=
  if e.stop ≤ base ∨ stop ≤ e.base then [e]
  else if base ≤ e.base ∧ e.stop ≤ stop then []
  else if base ≤ e.base ∧ e.base < stop then
    [{ e with base := e.base + (stop - e.base), len := e.len - (stop - e.base) }]
  else if base < e.stop ∧ e.stop ≤ stop then [{ e with len := base - e.base }]
  else if e.base < base ∧ stop < e.stop then
    if vmaCapacity ≤ count then [e]
    else [{ e with len := base - e.base }, { e with base := stop, len := e.stop - stop }]
  else [e]

def updateEntry (base len prot count : Nat) (e : VmaEntry) : List VmaEntry :=
  let stop := base + len
  if e.stop ≤ base ∨ stop ≤ e.base then [e]
  else if e.prot = prot then [e]
  else if base ≤ e.base ∧ e.stop ≤ stop then [{ e with prot := prot }]
  else if base ≤ e.base ∧ e.base < stop ∧ stop < e.stop then
    if vmaCapacity ≤ count then [e]
    else [{ e with len := stop - e.base, prot := prot },
      { e with base := stop, len := e.stop - stop }]
  else if e.base < base ∧ base < e.stop ∧ e.stop ≤ stop then
    if vmaCapacity ≤ count then [e]
    else [{ e with len := base - e.base },
      { e with base := base, len := e.stop - base, prot := prot }]
  else if e.base < base ∧ stop < e.stop then
    if vmaCapacity < count + 2 then [e]
    else [{ e with len := base - e.base }, { e with base := base, len := len, prot := prot },
      { e with base := stop, len := e.stop - stop }]
  else [e]

/-- The loop over the table; `count` is the number of entries in use so far. -/
def walk (round : Nat → VmaEntry → List VmaEntry) : Nat → List VmaEntry → List VmaEntry
  | _, [] => []
  | count, e :: rest =>
    round count e ++ walk round (count + (round count e).length - 1) rest

def vmaRemove (table : List VmaEntry) (base len : Nat) : List VmaEntry :=
  if len = 0 then table else walk (removeEntry base (base + len)) table.length table

def vmaUpdateProt (table : List VmaEntry) (base len prot : Nat) : List VmaEntry :=
  if len = 0 then table else walk (updateEntry base len prot) table.length table

/-! ### Meaning of a table -/

def VmaEntry.Covers (e : VmaEntry) (va : Nat) : Prop :=
  e.base ≤ va ∧ va < e.stop
  deriving Decidable

def Maps (table : List VmaEntry) (va prot : Nat) (type : VmaType) : Prop :=
  ∃ e ∈ table, e.Covers va ∧ e.prot = prot ∧ e.type = type

structure VmaSorted (table : List VmaEntry) : Prop where
  ordered : table.Pairwise fun a b => a.stop ≤ b.base
  proper : ∀ e ∈ table, 0 < e.len

/-- The parts of an entry outside `[base, stop)`, around what stands for its inside. -/
def carve (base stop : Nat) (inside : List VmaEntry) (e : VmaEntry) : List VmaEntry :=
  (if e.base < base then [{ e with len := min e.stop base - e.base }] else []) ++ inside ++
    if stop < e.stop then [{ e with base := max e.base stop, len := e.stop - max e.base stop }]
    else []

def repaint (base stop prot : Nat) (e : VmaEntry) : List VmaEntry :=
  if e.stop ≤ base ∨ stop ≤ e.base ∨ e.prot = prot then [e]
  else carve base stop [⟨max e.base base, min e.stop stop - max e.base base, prot, e.type⟩] e

def splits (pieces : VmaEntry → List VmaEntry) (table : List VmaEntry) : Nat :=
  (table.map fun e => (pieces e).length - 1).sum

def VmaRoom (pieces : VmaEntry → List VmaEntry) (table : List VmaEntry) : Prop :=
  splits pieces table = 0 ∨ table.length + splits pieces table ≤ vmaCapacity
  deriving Decidable

def VmaFits (table : List VmaEntry) (new : VmaEntry) : Prop :=
  table.length < vmaCapacity ∨ ∃ e ∈ table, vmaCanMerge e new ∨ vmaCanMerge new e
  deriving Decidable

open VmaEntry

open VmaSorted

section
variable {table : List VmaEntry} {e new : VmaEntry} {base len stop prot count va : Nat}
  {type : VmaType} {round : Nat → VmaEntry → List VmaEntry} {pieces : VmaEntry → List VmaEntry}
  {other : List VmaEntry}

theorem walk_eq_flatMap (fits : ∀ count, ∀ e ∈ table,
      (pieces e).length ≤ 1 ∨ count + ((pieces e).length - 1) ≤ vmaCapacity →
        round count e = pieces e)
    (room : splits pieces table = 0 ∨ count + splits pieces table ≤ vmaCapacity) :
    walk round count table = table.flatMap pieces := by
  induction table generalizing count with
  | nil => rfl
  | cons e rest ih =>
    rw [splits, map_cons, sum_cons, ← splits] at room
    rw [walk, fits count e mem_cons_self (by omega), flatMap_cons]
    refine congrArg _ (ih (fun count e mem => fits count e (.tail _ mem)) ?_)
    omega

theorem carve_outside (wide : base < stop) (hp : 0 < e.len)
    (ho : e.stop ≤ base ∨ stop ≤ e.base) : carve base stop [] e = [e] := by
  obtain ⟨b, l, p, y⟩ := e
  simp only [VmaEntry.stop] at ho hp
  rcases ho with hb | ha
  · simp [carve, VmaEntry.stop, hb, show b < base by omega, show ¬ stop < b + l by omega]
  · simp [carve, VmaEntry.stop, ha, show ¬ b < base by omega, show stop < b + l by omega]

theorem carve_overlap (i : List VmaEntry) (ho : ¬ (e.stop ≤ base ∨ stop ≤ e.base)) :
    carve base stop i e =
      (if e.base < base then [{ e with len := base - e.base }] else []) ++ i ++
        if stop < e.stop then [{ e with base := stop, len := e.stop - stop }] else [] := by
  rw [carve, min_eq_right (by omega), max_eq_right (by omega)]

theorem removeEntry_eq_carve (wide : base < stop) (hp : 0 < e.len)
    (room : (carve base stop [] e).length ≤ 1 ∨
      count + ((carve base stop [] e).length - 1) ≤ vmaCapacity) :
    removeEntry base stop count e = carve base stop [] e := by
  rw [removeEntry]
  by_cases ho : e.stop ≤ base ∨ stop ≤ e.base
  · rw [if_pos ho, carve_outside wide hp ho]
  rw [if_neg ho]
  rw [carve_overlap [] ho] at room ⊢
  have trim : e.base + (stop - e.base) = stop := by omega
  have rest : e.len - (stop - e.base) = e.stop - stop := by rw [VmaEntry.stop]; omega
  by_cases left : e.base < base <;> by_cases right : stop < e.stop
  · simp only [left, right, if_true, append_nil, length_append, length_singleton] at room
    simp [left, right, not_le.mpr left, not_le.mpr right, show ¬ vmaCapacity ≤ count by omega]
  · simp [left, right, not_le.mpr left, Nat.le_of_not_lt right, show base < e.stop by omega]
  · simp [left, right, Nat.le_of_not_lt left, not_le.mpr right, show e.base < stop by omega,
      trim, rest]
  · simp [left, right, Nat.le_of_not_lt left, Nat.le_of_not_lt right]

theorem updateEntry_eq_repaint (room : (repaint base (base + len) prot e).length ≤ 1 ∨
      count + ((repaint base (base + len) prot e).length - 1) ≤ vmaCapacity) :
    updateEntry base len prot count e = repaint base (base + len) prot e := by
  rw [updateEntry]
  by_cases ho : e.stop ≤ base ∨ base + len ≤ e.base
  · simp [repaint, ho, ← or_assoc]
  by_cases done : e.prot = prot
  · simp [repaint, done]
  have split : repaint base (base + len) prot e = carve base (base + len)
      [⟨max e.base base, min e.stop (base + len) - max e.base base, prot, e.type⟩] e := by
    rw [repaint, if_neg]
    simpa [done, ← or_assoc] using ho
  rw [split, carve_overlap _ ho] at room ⊢
  rw [if_neg ho, if_neg done]
  by_cases left : e.base < base <;> by_cases right : base + len < e.stop
  · simp only [left, right, if_true, length_append, length_singleton] at room
    simp [left, right, not_le.mpr left, not_le.mpr right, le_of_lt,
      show ¬ vmaCapacity < count + 2 by omega]
  · simp only [left, right, if_true, if_false, length_append, length_singleton, length_nil] at room
    simp [left, right, not_le.mpr left, le_of_lt left, Nat.le_of_not_lt right,
      show base < e.stop by omega, show ¬ vmaCapacity ≤ count by omega]
  · simp only [left, right, if_true, if_false, length_append, length_singleton, length_nil] at room
    simp [left, right, Nat.le_of_not_lt left, not_le.mpr right, le_of_lt right,
      show e.base < base + len by omega, show ¬ vmaCapacity ≤ count by omega]
  · have hw : e.stop - e.base = e.len := by simp [stop]
    simp [left, right, Nat.le_of_not_lt left, Nat.le_of_not_lt right, hw]

theorem vmaRemove_eq (hs : VmaSorted table) (wide : 0 < len)
    (room : VmaRoom (carve base (base + len) []) table) :
    vmaRemove table base len = table.flatMap (carve base (base + len) []) := by
  rw [vmaRemove, if_neg (by omega)]
  refine walk_eq_flatMap (fun count e mem fits => ?_) room
  exact removeEntry_eq_carve (by omega) (hs.proper e mem) fits

theorem vmaUpdateProt_eq (wide : 0 < len) (room : VmaRoom (repaint base (base + len) prot) table) :
    vmaUpdateProt table base len prot = table.flatMap (repaint base (base + len) prot) := by
  rw [vmaUpdateProt, if_neg (by omega)]
  exact walk_eq_flatMap (fun count e _ fits => updateEntry_eq_repaint fits) room

structure Pieces (e : VmaEntry) (pieces : List VmaEntry) : Prop extends VmaSorted pieces where
  within : ∀ x ∈ pieces, e.base ≤ x.base ∧ x.stop ≤ e.stop

theorem VmaSorted.flatMap (hs : VmaSorted table) (cut : ∀ e ∈ table, Pieces e (pieces e)) :
    VmaSorted (table.flatMap pieces) := by
  refine ⟨pairwise_flatMap.mpr ⟨fun e mem => (cut e mem).ordered, ?_⟩, fun x mem => ?_⟩
  · refine hs.ordered.imp_of_mem fun {a b} memberA memberB order x ha y hm => ?_
    have upper := (cut a memberA).within x ha
    have lower := (cut b memberB).within y hm
    omega
  · obtain ⟨e, source, hp⟩ := mem_flatMap.mp mem
    exact (cut e source).proper x hp

theorem Pieces.single (hp : 0 < e.len) : Pieces e [e] := by
  refine ⟨⟨pairwise_singleton _ _, fun x mem => ?_⟩, fun x mem => ?_⟩
  · rwa [mem_singleton.mp mem]
  · rw [mem_singleton.mp mem]
    exact ⟨le_rfl, le_rfl⟩

theorem carve_pieces {i : List VmaEntry} (mid : VmaSorted i)
    (hw : ∀ x ∈ i, max e.base base ≤ x.base ∧ x.stop ≤ min e.stop stop)
    (wide : base < stop) (ho : ¬ (e.stop ≤ base ∨ stop ≤ e.base)) :
    Pieces e (carve base stop i e) := by
  have long : e.base + e.len = e.stop := rfl
  rw [carve_overlap i ho, append_assoc]
  refine ⟨⟨?_, ?_⟩, ?_⟩
  · simp only [pairwise_append, mem_append, mem_ite_nil_right, mem_singleton]
    refine ⟨by split_ifs <;> simp, ⟨mid.ordered, by split_ifs <;> simp, ?_⟩, ?_⟩
    · rintro x midX y ⟨-, rfl⟩
      exact (hw x midX).2.trans (min_le_right _ _)
    rintro x ⟨left, rfl⟩ y (midY | ⟨-, rfl⟩)
    · have lower := (hw y midY).1
      simp only [VmaEntry.stop]
      omega
    · simp only [VmaEntry.stop]
      omega
  · simp only [mem_append, mem_ite_nil_right, mem_singleton]
    rintro x (⟨left, rfl⟩ | midX | ⟨right, rfl⟩)
    · simp only
      omega
    · exact mid.proper x midX
    · simp only
      omega
  · simp only [mem_append, mem_ite_nil_right, mem_singleton]
    rintro x (⟨left, rfl⟩ | midX | ⟨right, rfl⟩)
    · simp only [VmaEntry.stop] at ho ⊢
      omega
    · have hb := hw x midX
      omega
    · simp only [VmaEntry.stop] at ho right ⊢
      omega

theorem maps_append :
    Maps (table ++ other) va prot type ↔ Maps table va prot type ∨ Maps other va prot type := by
  simp only [Maps, mem_append, or_and_right, exists_or]

theorem maps_singleton : Maps [e] va prot type ↔ e.Covers va ∧ e.prot = prot ∧ e.type = type := by
  simp [Maps]

theorem maps_flatMap :
    Maps (table.flatMap pieces) va prot type ↔ ∃ e ∈ table, Maps (pieces e) va prot type := by
  simp only [Maps, mem_flatMap]
  constructor
  · rintro ⟨x, ⟨e, mem, hp⟩, hc⟩
    exact ⟨e, mem, x, hp, hc⟩
  · rintro ⟨e, mem, x, hp, hc⟩
    exact ⟨x, ⟨e, mem, hp⟩, hc⟩

theorem maps_optional {cond : Prop} [Decidable cond] :
    Maps (if cond then [e] else []) va prot type ↔ cond ∧ Maps [e] va prot type := by
  split
  · next hh => simp only [hh, true_and]
  · next hf => simp [hf, Maps]

theorem maps_carve {i : List VmaEntry} : Maps (carve base stop i e) va prot type ↔
      (Maps [e] va prot type ∧ ¬ (base ≤ va ∧ va < stop)) ∨ Maps i va prot type := by
  simp only [carve, maps_append, maps_optional, maps_singleton, VmaEntry.Covers]
  constructor
  · rintro ((⟨left, hc, eq⟩ | mid) | ⟨right, hc, eq⟩)
    · refine .inl ⟨⟨?_, eq⟩, ?_⟩ <;> simp only [VmaEntry.stop] at * <;> omega
    · exact .inr mid
    · refine .inl ⟨⟨?_, eq⟩, ?_⟩ <;> simp only [VmaEntry.stop] at * <;> omega
  · rintro (⟨⟨hc, eq⟩, ho⟩ | mid)
    · by_cases left : va < base
      · refine .inl (.inl ⟨by omega, ?_, eq⟩)
        simp only [VmaEntry.stop] at *
        omega
      · refine .inr ⟨by omega, ?_, eq⟩
        simp only [VmaEntry.stop] at *
        omega
    · exact .inl (.inr mid)

theorem vmaRemove_maps (hs : VmaSorted table)
    (room : 0 < len → VmaRoom (carve base (base + len) []) table) :
    Maps (vmaRemove table base len) va prot type ↔
      Maps table va prot type ∧ ¬ (base ≤ va ∧ va < base + len) := by
  rcases Nat.eq_zero_or_pos len with rfl | wide
  · simp only [vmaRemove, if_true, add_zero]
    exact ⟨fun maps => ⟨maps, by omega⟩, And.left⟩
  rw [vmaRemove_eq hs wide (room wide), maps_flatMap]
  simp only [maps_carve, maps_singleton]
  constructor
  · rintro ⟨e, mem, ⟨hc, ho⟩ | ⟨x, he, -⟩⟩
    · exact ⟨⟨e, mem, hc⟩, ho⟩
    · cases he
  · rintro ⟨⟨e, mem, hc⟩, ho⟩
    exact ⟨e, mem, .inl ⟨hc, ho⟩⟩

theorem vmaRemove_sorted (hs : VmaSorted table)
    (room : 0 < len → VmaRoom (carve base (base + len) []) table) :
    VmaSorted (vmaRemove table base len) := by
  rcases Nat.eq_zero_or_pos len with rfl | wide
  · simpa only [vmaRemove, if_true] using hs
  rw [vmaRemove_eq hs wide (room wide)]
  refine hs.flatMap fun e mem => ?_
  have hp := hs.proper e mem
  by_cases ho : e.stop ≤ base ∨ base + len ≤ e.base
  · rw [carve_outside (by omega) hp ho]
    exact .single hp
  · exact carve_pieces ⟨.nil, nofun⟩ nofun (by omega) ho

theorem maps_repaint (wide : base < stop) {new : Nat} :
    Maps (repaint base stop new e) va prot type ↔
      ∃ old, Maps [e] va old type ∧ prot = if base ≤ va ∧ va < stop then new else old := by
  simp only [maps_singleton, VmaEntry.Covers]
  by_cases ha : e.stop ≤ base ∨ stop ≤ e.base ∨ e.prot = new
  · rw [repaint, if_pos ha, maps_singleton, VmaEntry.Covers]
    constructor
    · rintro ⟨hc, rfl, kind⟩
      refine ⟨e.prot, ⟨hc, rfl, kind⟩, ?_⟩
      split_ifs <;> omega
    · rintro ⟨old, ⟨hc, rfl, kind⟩, rfl⟩
      refine ⟨hc, ?_, kind⟩
      split_ifs <;> omega
  · rw [repaint, if_neg ha, maps_carve, maps_singleton, maps_singleton]
    simp only [VmaEntry.Covers]
    constructor
    · rintro (⟨⟨hc, rfl, kind⟩, ho⟩ | ⟨hc, rfl, kind⟩)
      · exact ⟨e.prot, ⟨hc, rfl, kind⟩, by rw [if_neg ho]⟩
      rw [VmaEntry.stop] at hc
      simp only at hc
      exact ⟨e.prot, ⟨by omega, rfl, kind⟩, by rw [if_pos (by omega)]⟩
    · rintro ⟨old, ⟨hc, rfl, kind⟩, rfl⟩
      by_cases hi : base ≤ va ∧ va < stop
      · rw [if_pos hi]
        refine .inr ⟨?_, rfl, kind⟩
        rw [VmaEntry.stop]
        simp only
        omega
      · rw [if_neg hi]
        exact .inl ⟨⟨hc, rfl, kind⟩, hi⟩

theorem vmaUpdateProt_maps {new : Nat}
    (room : 0 < len → VmaRoom (repaint base (base + len) new) table) :
    Maps (vmaUpdateProt table base len new) va prot type ↔ ∃ old, Maps table va old type ∧
        prot = if base ≤ va ∧ va < base + len then new else old := by
  rcases Nat.eq_zero_or_pos len with rfl | wide
  · have ho : ¬ (base ≤ va ∧ va < base + 0) := by omega
    simp only [vmaUpdateProt, if_true, ho, if_false, exists_eq_right']
  rw [vmaUpdateProt_eq wide (room wide), maps_flatMap]
  simp only [maps_repaint (show base < base + len by omega), maps_singleton]
  constructor
  · rintro ⟨e, mem, old, hc, eq⟩
    exact ⟨old, ⟨e, mem, hc⟩, eq⟩
  · rintro ⟨old, ⟨e, mem, hc⟩, eq⟩
    exact ⟨e, mem, old, hc, eq⟩

theorem vmaUpdateProt_sorted (hs : VmaSorted table)
    (room : 0 < len → VmaRoom (repaint base (base + len) prot) table) :
    VmaSorted (vmaUpdateProt table base len prot) := by
  rcases Nat.eq_zero_or_pos len with rfl | wide
  · simpa only [vmaUpdateProt, if_true] using hs
  rw [vmaUpdateProt_eq wide (room wide)]
  refine hs.flatMap fun e mem => ?_
  have hp := hs.proper e mem
  rw [repaint]
  split_ifs with same
  · exact .single hp
  have long : e.base + e.len = e.stop := rfl
  refine carve_pieces ⟨pairwise_singleton _ _, ?_⟩ ?_ (by omega) (by omega)
  · simp only [mem_singleton, forall_eq]
    omega
  simp only [mem_singleton, forall_eq]
  refine ⟨le_rfl, ?_⟩
  rw [stop]
  simp only
  omega

theorem maps_cons (e : VmaEntry) (table : List VmaEntry) :
    Maps (e :: table) va prot type ↔ Maps [e] va prot type ∨ Maps table va prot type := by
  rw [← maps_append, singleton_append]

theorem vmaCanMerge_iff {a b : VmaEntry} :
    vmaCanMerge a b = true ↔ a.prot = b.prot ∧ a.type = b.type ∧ a.stop = b.base := by
  simp [vmaCanMerge]

theorem maps_merge {a b : VmaEntry} (hm : vmaCanMerge a b = true) :
    Maps [{ a with len := a.len + b.len }] va prot type ↔
      Maps [a] va prot type ∨ Maps [b] va prot type := by
  obtain ⟨sameProt, sameType, meet⟩ := vmaCanMerge_iff.mp hm
  simp only [maps_singleton, VmaEntry.Covers, ← sameProt, ← sameType, ← or_and_right]
  refine and_congr_left' ?_
  simp only [stop] at meet ⊢
  omega

theorem joinNext_maps : Maps (joinNext e table) va prot type ↔ Maps (e :: table) va prot type := by
  cases table with
  | nil => rfl
  | cons next rest =>
    rw [joinNext]
    split
    · next hm =>
      rw [maps_cons _ rest, maps_merge hm, maps_cons e (next :: rest), maps_cons next rest,
        or_assoc]
    · rfl

theorem VmaSorted.cons_iff : VmaSorted (e :: table) ↔
    (0 < e.len ∧ ∀ x ∈ table, e.stop ≤ x.base) ∧ VmaSorted table := by
  constructor
  · intro hs
    obtain ⟨h1, rest⟩ := pairwise_cons.mp hs.ordered
    exact ⟨⟨hs.proper e mem_cons_self, h1⟩, rest, fun x mem => hs.proper x (mem_cons_of_mem e mem)⟩
  · rintro ⟨⟨hp, h1⟩, hs⟩
    refine ⟨pairwise_cons.mpr ⟨h1, hs.ordered⟩, fun x mem => ?_⟩
    rcases mem_cons.mp mem with rfl | old
    · exact hp
    · exact hs.proper x old

theorem joinNext_sorted (hs : VmaSorted (e :: table)) : VmaSorted (joinNext e table) := by
  cases table with
  | nil => exact hs
  | cons next rest =>
    rw [joinNext]
    split
    · next hm =>
      obtain ⟨⟨hp, -⟩, tail⟩ := cons_iff.mp hs
      obtain ⟨⟨-, after⟩, last⟩ := cons_iff.mp tail
      refine cons_iff.mpr ⟨⟨by simp only; omega, fun x mem => ?_⟩, last⟩
      have order := after x mem
      have meet := (vmaCanMerge_iff.mp hm).2.2
      simp only [stop] at meet order ⊢
      omega
    · exact hs

theorem VmaSorted.append_iff : VmaSorted (table ++ other) ↔
    VmaSorted table ∧ VmaSorted other ∧ ∀ x ∈ table, ∀ y ∈ other, x.stop ≤ y.base := by
  constructor
  · intro hs
    obtain ⟨h1, h2, ha⟩ := pairwise_append.mp hs.ordered
    exact ⟨⟨h1, fun x mem => hs.proper x (mem_append_left _ mem)⟩,
      ⟨h2, fun x mem => hs.proper x (mem_append_right _ mem)⟩, ha⟩
  · rintro ⟨h1, h2, ha⟩
    refine ⟨pairwise_append.mpr ⟨h1.ordered, h2.ordered, ha⟩, fun x mem => ?_⟩
    rcases mem_append.mp mem with left | right
    · exact h1.proper x left
    · exact h2.proper x right

theorem append_joinNext_sorted (hs : VmaSorted (other ++ e :: table)) :
    VmaSorted (other ++ joinNext e table) := by
  obtain ⟨h1, h2, ha⟩ := append_iff.mp hs
  refine append_iff.mpr ⟨h1, joinNext_sorted h2, fun x hc y hm => ?_⟩
  have source : y.base = e.base ∨ y ∈ table := by
    cases table with
    | nil => exact .inl (congrArg _ (mem_singleton.mp hm))
    | cons next rest =>
      rw [joinNext] at hm
      split at hm
      · rcases mem_cons.mp hm with rfl | old
        · exact .inl rfl
        · exact .inr (mem_cons_of_mem _ old)
      · rcases mem_cons.mp hm with rfl | old
        · exact .inl rfl
        · exact .inr old
  rcases source with eq | old
  · rw [eq]
    exact ha x hc e mem_cons_self
  · exact ha x hc y (mem_cons_of_mem e old)

theorem insert_sorted {pre after : List VmaEntry} (hs : VmaSorted (pre ++ after))
    (hp : 0 < new.len) (hc : ∀ e ∈ pre ++ after, e.stop ≤ new.base ∨ new.stop ≤ e.base)
    (lower : ∀ e ∈ pre, e.base < new.base) (upper : ∀ e ∈ after, new.base ≤ e.base) :
    VmaSorted (pre ++ new :: after) := by
  have long : new.stop = new.base + new.len := rfl
  obtain ⟨h1, h2, ha⟩ := append_iff.mp hs
  have hb : ∀ e ∈ pre, e.stop ≤ new.base := fun e mem => by
    have start := lower e mem
    have side := hc e (mem_append_left _ mem)
    omega
  have hd : ∀ e ∈ after, new.stop ≤ e.base := fun e mem => by
    have start := upper e mem
    have side := hc e (mem_append_right _ mem)
    have size := h2.proper e mem
    rw [stop] at side
    omega
  refine append_iff.mpr ⟨h1, cons_iff.mpr ⟨⟨hp, hd⟩, h2⟩, ?_⟩
  intro x hm y he
  rcases mem_cons.mp he with rfl | old
  · exact hb x hm
  · exact ha x hm y old

theorem VmaSorted.split (hs : VmaSorted table) (base : Nat) :
    ∃ before after, before = table.takeWhile (fun e => e.base < base) ∧
      after = table.dropWhile (fun e => e.base < base) ∧ before ++ after = table ∧
      (∀ e ∈ before, e.base < base) ∧ ∀ e ∈ after, base ≤ e.base := by
  refine ⟨_, _, rfl, rfl, takeWhile_append_dropWhile, fun e mem => ?_, ?_⟩
  · simpa using mem_takeWhile_imp mem
  induction table with
  | nil => nofun
  | cons h1 rest ih =>
    obtain ⟨⟨-, after⟩, tail⟩ := cons_iff.mp hs
    by_cases he : h1.base < base
    · rw [dropWhile_cons_of_pos (by simpa using he)]
      exact ih tail
    rw [dropWhile_cons_of_neg (by simpa using he)]
    intro e mem
    rcases mem_cons.mp mem with rfl | hl
    · omega
    have order := after e hl
    rw [stop] at order
    omega

theorem fits_next {pre after : List VmaEntry} (hp : VmaSorted (pre ++ new :: after))
    (fits : VmaFits (pre ++ after) new)
    (last : pre.getLast?.filter (vmaCanMerge · new) = none) :
    after.head?.any (vmaCanMerge new) ∨ (pre ++ after).length < vmaCapacity := by
  obtain ⟨h1, h2, ha⟩ := append_iff.mp hp
  obtain ⟨⟨hr, hc⟩, rest⟩ := cons_iff.mp h2
  have long : new.stop = new.base + new.len := rfl
  rcases fits with hs | ⟨e, mem, hm | hm⟩
  · exact .inr hs
  · have meet := (vmaCanMerge_iff.mp hm).2.2
    have size : e.base ≤ e.stop := Nat.le_add_right _ _
    rcases mem_append.mp mem with left | right
    · rcases pre.eq_nil_or_concat with rfl | ⟨init, hf, rfl⟩
      · cases left
      rw [concat_eq_append] at left h1 ha last
      rw [List.getLast?_concat] at last
      rcases mem_append.mp left with he | ht
      · have order := (append_iff.mp h1).2.2 e he hf (mem_singleton_self _)
        have hb := ha hf (mem_append_right _ (mem_singleton_self _)) new mem_cons_self
        have wide := h1.proper hf (mem_append_right _ (mem_singleton_self _))
        rw [stop] at hb
        omega
      · rw [← mem_singleton.mp ht, Option.filter_some, if_pos hm] at last
        cases last
    · have order := hc e right
      omega
  · have meet := (vmaCanMerge_iff.mp hm).2.2
    rcases mem_append.mp mem with left | right
    · have order := ha e left new mem_cons_self
      rw [stop] at order
      omega
    · cases after with
      | nil => cases right
      | cons head tail =>
        rcases mem_cons.mp right with rfl | hl
        · exact .inl (by simpa using hm)
        obtain ⟨⟨wide, order⟩, -⟩ := cons_iff.mp rest
        have gap := hc head mem_cons_self
        have next := order e hl
        rw [stop] at next
        omega

theorem vmaInsert_spec (hs : VmaSorted table) (hr : 0 < new.len)
    (hc : ∀ e ∈ table, e.stop ≤ new.base ∨ new.stop ≤ e.base) (fits : VmaFits table new) :
    VmaSorted (vmaInsert table new) ∧ ∀ va prot type, Maps (vmaInsert table new) va prot type ↔
        Maps table va prot type ∨ Maps [new] va prot type := by
  obtain ⟨pre, after, front, back, hw, lower, upper⟩ := hs.split new.base
  have hp : VmaSorted (pre ++ new :: after) := by
    rw [← hw] at hs hc
    exact insert_sorted hs hr hc lower upper
  have hm : ∀ va prot type, Maps (pre ++ new :: after) va prot type ↔
      Maps table va prot type ∨ Maps [new] va prot type := fun va prot type => by
    rw [← hw, maps_append, maps_cons, maps_append]
    tauto
  rw [vmaInsert, if_neg (by omega), ← front, ← back]
  simp only
  cases last : pre.getLast?.filter (vmaCanMerge · new) with
  | some prev =>
    obtain ⟨ha, hd⟩ := Option.filter_eq_some_iff.mp last
    have ends : pre = pre.dropLast ++ [prev] := (dropLast_append_getLast? prev ha).symm
    -- Extending the previous entry is merging it with the new one put behind it.
    have he : joinNext prev (new :: after) =
        { prev with len := prev.len + new.len } :: after := if_pos hd
    rw [ends, append_assoc, singleton_append] at hp hm
    refine ⟨append_joinNext_sorted (he ▸ append_joinNext_sorted hp), fun va prot type => ?_⟩
    rw [← hm, maps_append, maps_append, joinNext_maps, ← he, joinNext_maps]
  | none =>
    rw [if_pos (hw ▸ fits_next hp (hw ▸ fits) last)]
    refine ⟨append_joinNext_sorted hp, fun va prot type => ?_⟩
    rw [← hm, maps_append, maps_append, joinNext_maps]

/-! ### Properties of all entries -/

variable {P : VmaEntry → Prop}

theorem all_walk (hc : ∀ count e, P e → ∀ x ∈ round count e, P x) (all : ∀ e ∈ table, P e) :
    ∀ e ∈ walk round count table, P e := by
  induction table generalizing count with
  | nil => nofun
  | cons e rest ih =>
    obtain ⟨h1, tail⟩ := forall_mem_cons.mp all
    intro x mem
    rcases mem_append.mp mem with here | hl
    · exact hc count e h1 x here
    · exact ih tail x hl

theorem all_joinNext (hm : ∀ a b, P a → P b → P { a with len := a.len + b.len })
    (all : ∀ e ∈ table, P e) (h1 : P e) : ∀ x ∈ joinNext e table, P x := by
  cases table with
  | nil => simpa [joinNext] using h1
  | cons next rest =>
    obtain ⟨h2, tail⟩ := forall_mem_cons.mp all
    rw [joinNext]
    split_ifs
    · exact forall_mem_cons.mpr ⟨hm e next h1 h2, tail⟩
    · exact forall_mem_cons.mpr ⟨h1, all⟩

theorem all_insert (hm : ∀ a b, P a → P b → P { a with len := a.len + b.len })
    (all : ∀ e ∈ table, P e) (h1 : P new) : ∀ e ∈ vmaInsert table new, P e := by
  have pre : ∀ e ∈ table.takeWhile (fun e => e.base < new.base), P e := fun e mem =>
    all e (takeWhile_subset _ mem)
  have after : ∀ e ∈ table.dropWhile (fun e => e.base < new.base), P e := fun e mem =>
    all e (dropWhile_subset _ mem)
  rw [vmaInsert]
  split_ifs
  · exact all
  simp only
  split
  · next prev hf =>
    have last := pre prev (mem_of_getLast? (Option.filter_eq_some_iff.mp hf).1)
    intro x mem
    rcases mem_append.mp mem with old | hj
    · exact pre x (dropLast_subset _ old)
    · exact all_joinNext hm after (hm prev new last h1) x hj
  · split_ifs
    · intro x mem
      rcases mem_append.mp mem with old | hj
      · exact pre x old
      · exact all_joinNext hm after h1 x hj
    · exact all

structure CutFrom (base stop : Nat) (e x : VmaEntry) : Prop where
  type : x.type = e.type
  start : x.base = e.base ∨ x.base = base ∨ x.base = stop
  finish : x.stop = e.stop ∨ x.stop = base ∨ x.stop = stop

theorem CutFrom.self : CutFrom base stop e e := ⟨rfl, .inl rfl, .inl rfl⟩

theorem CutFrom.piece {b l p : Nat} (start : b = e.base ∨ b = base ∨ b = stop := by omega)
    (hf : b + l = e.stop ∨ b + l = base ∨ b + l = stop := by omega) :
    CutFrom base stop e ⟨b, l, p, e.type⟩ :=
  ⟨rfl, start, hf⟩

theorem removeEntry_cut : ∀ x ∈ removeEntry base stop count e, CutFrom base stop e x := by
  have long : e.stop = e.base + e.len := rfl
  rw [removeEntry]
  split_ifs with outside inside front back middle full <;>
    simp only [forall_mem_cons, not_mem_nil, false_implies, implies_true, and_true]
  · exact .self
  · exact .piece
  · exact .piece
  · exact .self
  · exact ⟨.piece, .piece⟩
  · exact .self

theorem updateEntry_cut :
    ∀ x ∈ updateEntry base len prot count e, CutFrom base (base + len) e x := by
  have long : e.stop = e.base + e.len := rfl
  rw [updateEntry]
  split_ifs with outside done inside front full back full' middle full'' <;>
    simp only [forall_mem_cons, not_mem_nil, false_implies, implies_true, and_true]
  · exact .self
  · exact .self
  · exact .piece
  · exact .self
  · exact ⟨.piece, .piece⟩
  · exact .self
  · exact ⟨.piece, .piece⟩
  · exact .self
  · exact ⟨.piece, .piece, .piece⟩
  · exact .self

theorem all_remove (hk : ∀ e x, CutFrom base (base + len) e x → P e → P x)
    (all : ∀ e ∈ table, P e) : ∀ e ∈ vmaRemove table base len, P e := by
  rw [vmaRemove]
  split_ifs
  · exact all
  · exact all_walk (fun _ e hh x mem => hk e x (removeEntry_cut x mem) hh) all

theorem all_updateProt (hk : ∀ e x, CutFrom base (base + len) e x → P e → P x)
    (all : ∀ e ∈ table, P e) : ∀ e ∈ vmaUpdateProt table base len prot, P e := by
  rw [vmaUpdateProt]
  split_ifs
  · exact all
  · exact all_walk (fun _ e hh x mem => hk e x (updateEntry_cut x mem) hh) all

def VmaEntry.Aligned (e : VmaEntry) : Prop :=
  e.base % 4096 = 0 ∧ e.stop % 4096 = 0

theorem aligned_merge (a b : VmaEntry) (h1 : a.Aligned) (h2 : b.Aligned) :
    VmaEntry.Aligned { a with len := a.len + b.len } := by
  simp only [VmaEntry.Aligned, stop] at *
  omega

theorem aligned_cut (start : base % 4096 = 0) (hw : len % 4096 = 0) (e x : VmaEntry)
    (cut : CutFrom base (base + len) e x) (ha : e.Aligned) : x.Aligned := by
  obtain ⟨-, left, right⟩ := cut
  rw [VmaEntry.Aligned] at *
  omega

theorem type_cut (e x : VmaEntry) (cut : CutFrom base stop e x) (other : e.type ≠ type) :
    x.type ≠ type := by
  rwa [cut.type]

theorem type_insert (all : ∀ e ∈ table, e.type ≠ type) (other : new.type ≠ type) :
    ∀ e ∈ vmaInsert table new, e.type ≠ type :=
  all_insert (fun _ _ h1 _ => h1) all other

/-! ### Two free slots are enough -/

/-- How many of two addresses lie inside an entry, behind its base. -/
def cuts (base stop : Nat) (e : VmaEntry) : Nat :=
  (if e.base < base ∧ base < e.stop then 1 else 0) + if e.base < stop ∧ stop < e.stop then 1 else 0

theorem splits_le {low : Nat} (hs : VmaSorted table) (above : ∀ e ∈ table, low ≤ e.base)
    (cut : ∀ e, (pieces e).length - 1 ≤ cuts base stop e) :
    splits pieces table ≤ (if low < base then 1 else 0) + if low < stop then 1 else 0 := by
  induction table generalizing low with
  | nil => exact Nat.zero_le _
  | cons e rest ih =>
    obtain ⟨⟨hp, after⟩, tail⟩ := cons_iff.mp hs
    have here := cut e
    have later := ih tail after
    have := above e mem_cons_self
    have long : e.stop = e.base + e.len := rfl
    rw [cuts] at here
    rw [splits, map_cons, sum_cons, ← splits]
    split_ifs at here later ⊢ <;> omega

theorem vmaRoom_of_free (hs : VmaSorted table) (room : table.length + 2 ≤ vmaCapacity)
    (cut : ∀ e, (pieces e).length - 1 ≤ cuts base stop e) : VmaRoom pieces table := by
  have few := splits_le hs (fun _ _ => Nat.zero_le _) cut
  refine .inr ?_
  split_ifs at few <;> omega

theorem carve_cuts (wide : base < stop) (e : VmaEntry) :
    (carve base stop [] e).length - 1 ≤ cuts base stop e := by
  rw [carve, cuts]
  split_ifs <;> simp
  omega

theorem repaint_cuts (e : VmaEntry) :
    (repaint base stop prot e).length - 1 ≤ cuts base stop e := by
  rw [repaint, carve, cuts]
  split_ifs <;> simp <;> omega

theorem vma_ops_pointwise (hs : VmaSorted table) (room : table.length + 2 ≤ vmaCapacity) :
    (∀ new : VmaEntry, (∀ va, new.Covers va → ∀ e ∈ table, ¬ e.Covers va) →
      VmaSorted (vmaInsert table new) ∧ ∀ va prot type, Maps (vmaInsert table new) va prot type ↔
        Maps table va prot type ∨ Maps [new] va prot type) ∧
    (∀ base len, VmaSorted (vmaRemove table base len) ∧
      ∀ va prot type, Maps (vmaRemove table base len) va prot type ↔
        Maps table va prot type ∧ ¬ (base ≤ va ∧ va < base + len)) ∧
    ∀ base len new, VmaSorted (vmaUpdateProt table base len new) ∧
      ∀ va prot type, Maps (vmaUpdateProt table base len new) va prot type ↔
        ∃ old, Maps table va old type ∧ prot = if base ≤ va ∧ va < base + len then new else old := by
  refine ⟨fun new apart => ?_, fun base len => ?_, fun base len new => ?_⟩
  · rcases Nat.eq_zero_or_pos new.len with none | wide
    · have empty (va : Nat) : ¬ new.Covers va := by
        rw [Covers, VmaEntry.stop]
        omega
      rw [vmaInsert, if_pos none]
      exact ⟨hs, fun va _ _ => by simp [maps_singleton, empty va]⟩
    · refine vmaInsert_spec hs wide (fun e mem => ?_) (.inl (by omega))
      have := hs.proper e mem
      have := apart (max e.base new.base)
      have := fun covers => this covers e mem
      simp only [Covers, VmaEntry.stop] at this ⊢
      omega
  · have room (wide : 0 < len) : VmaRoom (carve base (base + len) []) table :=
      vmaRoom_of_free hs room (carve_cuts (by omega))
    exact ⟨vmaRemove_sorted hs room, fun _ _ _ => vmaRemove_maps hs room⟩
  · have room : VmaRoom (repaint base (base + len) new) table := vmaRoom_of_free hs room repaint_cuts
    exact ⟨vmaUpdateProt_sorted hs fun _ => room, fun _ _ _ => vmaUpdateProt_maps fun _ => room⟩

end

/-- A page in the middle of a mapping is made read-only: three entries. -/
theorem vma_ops_pointwise_split :
    VmaSorted (vmaUpdateProt [⟨4096, 12288, 3, .mmap⟩] 8192 4096 1) ∧
      (vmaUpdateProt [⟨4096, 12288, 3, .mmap⟩] 8192 4096 1).length = 3 :=
  ⟨((vma_ops_pointwise ⟨pairwise_singleton _ _, by decide⟩ (by decide)).2.2 8192 4096 1).1,
    by decide⟩

end Aegis.Memory
