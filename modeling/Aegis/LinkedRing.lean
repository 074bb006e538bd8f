import Mathlib.Data.List.Nodup
import Mathlib.Algebra.GroupWithZero.Nat

/-! Circular doubly linked lists through a sentinel, on raw link fields.
A node outside the ring has both links empty, so an empty `next` field is how the
operations tell whether a node is in the ring. `Ring` ties the fields to the list of
nodes in ring order; the two operations are then appending at the tail and erasing. -/

namespace Aegis.LinkedRing

open Function List

variable {α : Type*}

structure Links (α : Type*) where
  next : α → Option α
  prev : α → Option α

def Seg (L : Links α) : α → List α → α → Prop
  | a, [], b => L.next a = some b ∧ L.prev b = some a
  | a, x :: l, b => L.next a = some x ∧ L.prev x = some a ∧ Seg L x l b

structure Ring (L : Links α) (s : α) (l : List α) : Prop where
  seg : Seg L s l s
  nodup : (s :: l).Nodup
  outside : ∀ x, x ∉ s :: l → L.next x = none ∧ L.prev x = none

variable {L M : Links α} {s a b c x : α} {l r : List α}

abbrev firstOf (l : List α) (b : α) : α := (l ++ [b]).head (by simp)

abbrev lastOf (a : α) (l : List α) : α := (a :: l).getLast (cons_ne_nil a l)

theorem seg_append : Seg L a (l ++ x :: r) b ↔ Seg L a l x ∧ Seg L x r b := by
  induction l generalizing a with
  | nil => simp only [nil_append, Seg, and_assoc]
  | cons y l ih => simp only [cons_append, Seg, ih, and_assoc]

theorem Seg.congr (h : Seg L a l b) (next : ∀ y ∈ a :: l, M.next y = L.next y)
    (prev : ∀ y ∈ l ++ [b], M.prev y = L.prev y) : Seg M a l b := by
  induction l generalizing a with
  | nil =>
    refine ⟨?_, ?_⟩
    · rw [next a (mem_cons_self ..)]
      exact h.1
    · rw [prev b (by simp)]
      exact h.2
  | cons y l ih =>
    obtain ⟨h1, back, rest⟩ := h
    refine ⟨?_, ?_, ih rest (fun z mem => next z (.tail _ mem)) fun z mem => prev z (.tail _ mem)⟩
    · rw [next a (mem_cons_self ..)]
      exact h1
    · rw [prev y (by simp)]
      exact back

theorem Seg.prev_last (h : Seg L a l b) : L.prev b = some (lastOf a l) := by
  induction l generalizing a with
  | nil => exact h.2
  | cons y l ih =>
    rw [lastOf, getLast_cons (cons_ne_nil y l)]
    exact ih h.2.2

theorem Seg.next_mem (h : Seg L a l b) (mem : x ∈ a :: l) : ∃ y ∈ l ++ [b], L.next x = some y := by
  induction l generalizing a with
  | nil =>
    obtain rfl := mem_singleton.mp mem
    exact ⟨b, by simp, h.1⟩
  | cons y l ih =>
    rcases mem_cons.mp mem with rfl | hl
    · exact ⟨y, by simp, h.1⟩
    · obtain ⟨z, hi, link⟩ := ih h.2.2 hl
      exact ⟨z, .tail _ hi, link⟩

theorem Seg.retarget (h : Seg L a l b) (nodup : (a :: l).Nodup)
    (next : ∀ y ∈ a :: l, y ≠ lastOf a l → M.next y = L.next y)
    (last : M.next (lastOf a l) = some c) (prev : ∀ y ∈ l, M.prev y = L.prev y)
    (back : M.prev c = some (lastOf a l)) : Seg M a l c := by
  induction l generalizing a with
  | nil => exact ⟨last, back⟩
  | cons y l ih =>
    obtain ⟨h1, link, rest⟩ := h
    have ends : lastOf a (y :: l) = lastOf y l := getLast_cons (cons_ne_nil y l)
    have hn : a ≠ lastOf a (y :: l) := by
      rw [ends]
      intro eq
      exact (nodup_cons.mp nodup).1 (eq ▸ getLast_mem _)
    refine ⟨?_, ?_, ih rest (nodup_cons.mp nodup).2 ?_ (ends ▸ last) ?_ (ends ▸ back)⟩
    · rw [next a (mem_cons_self ..) hn]
      exact h1
    · rw [prev y (mem_cons_self ..)]
      exact link
    · intro z mem other
      exact next z (.tail _ mem) (ends ▸ other)
    · intro z mem
      exact prev z (.tail _ mem)

theorem Ring.mem_of_next (h : Ring L s l) (link : L.next a = some b) : b ∈ s :: l := by
  by_cases mem : a ∈ s :: l
  · obtain ⟨y, hi, eq⟩ := h.seg.next_mem mem
    obtain rfl : b = y := Option.some.inj (link.symm.trans eq)
    simpa [or_comm] using hi
  · simp [(h.outside a mem).1] at link

theorem Seg.next_first (h : Seg L a l b) : L.next a = some (firstOf l b) := by
  cases l with
  | nil => exact h.1
  | cons y l => exact h.1

theorem Ring.next_ne_self (h : Ring L s l) (node : a ≠ s) (link : L.next a = some b) : b ≠ a := by
  have mem : a ∈ l := by
    by_contra out
    simp [(h.outside a (by simp [node, out])).1] at link
  obtain ⟨pre, after, rfl⟩ := append_of_mem mem
  rw [(seg_append.mp h.seg).2.next_first, Option.some.injEq] at link
  rintro rfl
  have hh : b ∈ after ++ [s] := link ▸ head_mem _
  rcases mem_append.mp hh with hi | last
  · have out := (nodup_middle.mp (nodup_cons.mp h.nodup).2).notMem
    exact out (mem_append_right pre hi)
  · exact node (mem_singleton.mp last)

theorem Seg.skip_first (h : Seg L a l b) (nodup : (l ++ [b]).Nodup)
    (next : ∀ y ∈ l, M.next y = L.next y)
    (prev : ∀ y ∈ l ++ [b], y ≠ firstOf l b → M.prev y = L.prev y)
    (pre : Seg M c r (firstOf l b)) : Seg M c (r ++ l) b := by
  cases l with
  | nil => simpa [firstOf] using pre
  | cons y l =>
    obtain ⟨-, -, rest⟩ := h
    refine seg_append.mpr ⟨pre, rest.congr next fun z mem => ?_⟩
    refine prev z (.tail _ mem) fun eq => ?_
    have h1 : z = y := eq
    exact (nodup_cons.mp nodup).1 (h1 ▸ mem)

section Operations
variable [DecidableEq α]

/-- All link fields empty except the sentinel's, which point at itself. -/
def single (s : α) : Links α :=
  ⟨update (fun _ => none) s (some s), update (fun _ => none) s (some s)⟩

def insertTail (L : Links α) (s x : α) : Links α :=
  match L.next x, L.prev s with
  | none, some tail =>
    { next := update (update L.next x (some s)) tail (some x)
      prev := update (update L.prev x (some tail)) s (some x) }
  | _, _ => L

def remove (L : Links α) (x : α) : Links α :=
  match L.next x, L.prev x with
  | some n, some p =>
    { next := update (update L.next p (some n)) x none
      prev := update (update L.prev n (some p)) x none }
  | _, _ => L

theorem single_ring (s : α) : Ring (single s) s [] := by
  refine ⟨⟨by simp [single], by simp [single]⟩, by simp, fun x ho => ?_⟩
  have ne : x ≠ s := by simpa using ho
  simp [single, ne]

theorem Ring.insertTail_of_mem (h : Ring L s l) (mem : x ∈ s :: l) : insertTail L s x = L := by
  obtain ⟨y, -, link⟩ := h.seg.next_mem mem
  rw [insertTail, link]

theorem Ring.insertTail_eq (h : Ring L s l) (new : x ∉ s :: l) : insertTail L s x =
      { next := update (update L.next x (some s)) (lastOf s l) (some x)
        prev := update (update L.prev x (some (lastOf s l))) s (some x) } := by
  rw [insertTail, (h.outside x new).1, h.seg.prev_last]

theorem Ring.insertTail (h : Ring L s l) (new : x ∉ s :: l) :
    Ring (insertTail L s x) s (l ++ [x]) := by
  have ht : lastOf s l ∈ s :: l := getLast_mem _
  have notTail : x ≠ lastOf s l := fun eq => new (eq ▸ ht)
  obtain ⟨hn, ha⟩ := ne_and_not_mem_of_not_mem_cons new
  obtain ⟨hs, nodup⟩ := nodup_cons.mp h.nodup
  rw [h.insertTail_eq new]
  refine ⟨seg_append.mpr ⟨h.seg.retarget h.nodup ?_ ?_ ?_ ?_, ?_, ?_⟩, ?_, ?_⟩
  · intro y mem other
    have old : y ≠ x := fun eq => new (eq ▸ mem)
    simp [other, old]
  · simp
  · intro y mem
    have notS : y ≠ s := fun eq => hs (eq ▸ mem)
    have old : y ≠ x := fun eq => ha (eq ▸ mem)
    simp [notS, old]
  · simp [hn]
  · simp [notTail]
  · simp
  · rw [nodup_cons, nodup_append]
    refine ⟨?_, nodup, by simp, ?_⟩
    · simpa [hs] using hn.symm
    intro y mem z inLast eq
    obtain rfl := mem_singleton.mp inLast
    exact ha (eq ▸ mem)
  · intro y ho
    have out : y ∉ s :: l := fun mem => ho (by
      rcases mem_cons.mp mem with eq | hi
      · simp [eq]
      · simp [hi])
    have ne : y ≠ x := fun eq => ho (by simp [eq])
    have hl : y ≠ lastOf s l := fun eq => out (eq ▸ ht)
    have notS : y ≠ s := fun eq => out (by simp [eq])
    simpa [ne, hl, notS] using h.outside y out

theorem Ring.remove_of_not_mem (h : Ring L s l) (ho : x ∉ s :: l) : remove L x = L := by
  rw [remove, (h.outside x ho).1]

theorem Ring.remove (h : Ring L s (l ++ x :: r)) : Ring (remove L x) s (l ++ r) := by
  obtain ⟨pre, after⟩ := seg_append.mp h.seg
  have unfold_remove : LinkedRing.remove L x =
      { next := update (update L.next (lastOf s l) (some (firstOf r s))) x none
        prev := update (update L.prev (firstOf r s) (some (lastOf s l))) x none } := by
    rw [LinkedRing.remove, after.next_first, pre.prev_last]
  have hl : lastOf s l ∈ s :: l := getLast_mem _
  have hh : firstOf r s ∈ r ++ [s] := head_mem _
  have rest : (s :: (l ++ r)).Nodup :=
    h.nodup.sublist (((sublist_cons_self x r).append_left l).cons_cons s)
  have xOut : x ∉ s :: (l ++ r) := by
    have middle : (s :: l ++ x :: r).Nodup := h.nodup
    simpa using (nodup_middle.mp middle).notMem
  have tailNodup : (r ++ [s]).Nodup :=
    (perm_append_singleton s r).nodup_iff.mpr (rest.sublist ((sublist_append_right l r).cons_cons s))
  have ha : ∀ y ∈ s :: l, y ∉ r := by
    intro y mem inR
    exact disjoint_of_nodup_append (show (s :: l ++ r).Nodup from rest) mem inR
  have ht : ∀ y ∈ r ++ [s], y ∈ s :: (l ++ r) := by
    intro y mem
    rcases mem_append.mp mem with inR | last
    · simp [inR]
    · simp [mem_singleton.mp last]
  have notX : ∀ y ∈ s :: (l ++ r), y ≠ x := fun y mem eq => xOut (eq ▸ mem)
  have lastNe : lastOf s l ≠ x := notX _ (mem_append_left r hl)
  have headNe : firstOf r s ≠ x := notX _ (ht _ hh)
  have hi : ∀ y ∈ l, y ≠ firstOf r s := by
    intro y mem eq
    rcases mem_append.mp hh with inR | last
    · exact ha y (.tail _ mem) (eq ▸ inR)
    · have isS : y = s := eq.trans (mem_singleton.mp last)
      exact (nodup_cons.mp rest).1 (mem_append_left _ (isS ▸ mem))
  rw [unfold_remove]
  refine ⟨after.skip_first tailNodup ?_ ?_ (pre.retarget ?_ ?_ ?_ ?_ ?_), rest, ?_⟩
  · intro y mem
    have hn : y ≠ lastOf s l := fun eq => ha _ hl (eq ▸ mem)
    simp [notX y (by simp [mem]), hn]
  · intro y mem other
    simp [notX y (ht y mem), other]
  · exact rest.sublist ((sublist_append_left l r).cons_cons s)
  · intro y mem other
    simp [notX y (mem_append_left r mem), other]
  · simp [lastNe]
  · intro y mem
    simp [notX y (by simp [mem]), hi y mem]
  · simp [headNe]
  · intro y out
    by_cases isX : y = x
    · simp [isX]
    have old : y ∉ s :: (l ++ x :: r) := by
      simp only [mem_cons, mem_append, not_or] at out ⊢
      exact ⟨out.1, out.2.1, isX, out.2.2⟩
    have hn : y ≠ lastOf s l := fun eq => out (mem_append_left r (eq ▸ hl))
    have notHead : y ≠ firstOf r s := fun eq => out (ht y (eq ▸ hh))
    simpa [isX, hn, notHead] using h.outside y old

theorem Ring.exists_insertTail (h : Ring L s l) (node : x ≠ s) :
    ∃ m, Ring (LinkedRing.insertTail L s x) s m ∧ ∀ y, y ∈ m ↔ y ∈ l ∨ y = x := by
  by_cases mem : x ∈ l
  · refine ⟨l, ?_, fun y => ⟨.inl, ?_⟩⟩
    · rw [h.insertTail_of_mem (mem_cons_of_mem s mem)]
      exact h
    rintro (old | rfl)
    · exact old
    · exact mem
  · refine ⟨l ++ [x], h.insertTail ?_, fun y => by simp⟩
    simp [node, mem]

theorem Ring.exists_remove (h : Ring L s l) (node : x ≠ s) :
    ∃ m, Ring (LinkedRing.remove L x) s m ∧ ∀ y, y ∈ m ↔ y ∈ l ∧ y ≠ x := by
  by_cases mem : x ∈ l
  · obtain ⟨pre, after, rfl⟩ := append_of_mem mem
    refine ⟨pre ++ after, h.remove, fun y => ?_⟩
    have out : x ∉ pre ++ after := (nodup_middle.mp (nodup_cons.mp h.nodup).2).notMem
    constructor
    · intro hi
      refine ⟨?_, fun eq => out (eq ▸ hi)⟩
      rcases mem_append.mp hi with left | right
      · simp [left]
      · simp [right]
    · rintro ⟨hi, other⟩
      simpa [other] using hi
  · refine ⟨l, ?_, fun y => ⟨fun hi => ⟨hi, fun eq => mem (eq ▸ hi)⟩, And.left⟩⟩
    rw [h.remove_of_not_mem (by simp [node, mem])]
    exact h

end Operations

end Aegis.LinkedRing
