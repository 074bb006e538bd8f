import Mathlib.Data.List.TakeWhile
import Mathlib.Data.List.Flatten

/-! Fields of a text: the maximal non-empty runs of symbols between separators, and
what a reader with a bounded buffer makes of them. Such a reader takes at most `n`
symbols of a field and starts its next read in the middle of the field. -/

namespace Aegis.TextFields

open List

variable {α β : Type*}

def consField (w : List α) (ws : List (List α)) : List (List α) :=
  match w with
  | [] => ws
  | a :: w => (a :: w) :: ws

def splitHead (p : α → Bool) : List α → List α × List (List α)
  | [] => ([], [])
  | a :: l =>
    if p a then ([], consField (splitHead p l).1 (splitHead p l).2)
    else (a :: (splitHead p l).1, (splitHead p l).2)

def fields (p : α → Bool) (l : List α) : List (List α) :=
  consField (splitHead p l).1 (splitHead p l).2

variable {p : α → Bool}

@[simp] theorem consField_nil (ws : List (List α)) : consField [] ws = ws := rfl

variable {w l : List α} {n : Nat}

theorem consField_of_ne_nil (h : w ≠ []) (ws : List (List α)) : consField w ws = w :: ws := by
  cases w with
  | nil => exact (h rfl).elim
  | cons a w => rfl

@[simp] theorem fields_nil : fields p [] = [] := rfl

theorem fields_cons_of_sep {a : α} (sep : p a = true) (l : List α) :
    fields p (a :: l) = fields p l := by
  simp [fields, splitHead, sep]

theorem splitHead_append (free : ∀ a ∈ w, p a = false) (l : List α) :
    splitHead p (w ++ l) = (w ++ (splitHead p l).1, (splitHead p l).2) := by
  induction w with
  | nil => rfl
  | cons a w ih =>
    have h1 : p a = false := free a (.head _)
    rw [cons_append, splitHead, ih fun b mem => free b (mem_cons_of_mem _ mem)]
    simp [h1]

def Stops (p : α → Bool) (l : List α) : Prop := ∀ a ∈ l.head?, p a = true

theorem splitHead_fst_of_stops (hs : Stops p l) : (splitHead p l).1 = [] := by
  cases l with
  | nil => rfl
  | cons a l => simp [splitHead, hs a rfl]

theorem fields_append (free : ∀ a ∈ w, p a = false) (hs : Stops p l) :
    fields p (w ++ l) = consField w (fields p l) := by
  have head := splitHead_fst_of_stops hs
  rw [fields, splitHead_append free, fields, head]
  simp

theorem fields_of_free (free : ∀ a ∈ w, p a = false) : fields p w = consField w [] := by
  simpa using fields_append free (l := []) (by simp [Stops])

theorem fields_dropWhile (l : List α) : fields p (l.dropWhile p) = fields p l := by
  induction l with
  | nil => rfl
  | cons a l ih =>
    rw [dropWhile_cons]
    split_ifs with sep
    · rw [ih, fields_cons_of_sep sep]
    · rfl

theorem stops_dropWhile_not (l : List α) : Stops p (l.dropWhile fun a => !p a) := by
  intro a head
  have stop := List.head?_dropWhile_not (fun a => !p a) l
  rw [Option.mem_def.mp head] at stop
  simpa using stop

theorem mem_consField {u : List α} {ws : List (List α)} (mem : w ∈ consField u ws) :
    (w = u ∧ w ≠ []) ∨ w ∈ ws := by
  cases u with
  | nil => exact .inr mem
  | cons a u =>
    rcases mem_cons.mp mem with rfl | hl
    · exact .inl ⟨rfl, cons_ne_nil a u⟩
    · exact .inr hl

theorem mem_splitHead (l : List α) :
    (splitHead p l).1 ⊆ l ∧ ∀ w ∈ (splitHead p l).2, w ≠ [] ∧ w ⊆ l := by
  induction l with
  | nil => simp [splitHead]
  | cons a l ih =>
    obtain ⟨head, tail⟩ := ih
    rw [splitHead]
    split_ifs
    · refine ⟨nil_subset _, fun w mem => ?_⟩
      rcases mem_consField mem with ⟨rfl, hn⟩ | hl
      · exact ⟨hn, subset_cons_of_subset a head⟩
      · exact ⟨(tail w hl).1, subset_cons_of_subset a (tail w hl).2⟩
    · exact ⟨cons_subset_cons a head, fun w mem =>
        ⟨(tail w mem).1, subset_cons_of_subset a (tail w mem).2⟩⟩

theorem mem_fields (mem : w ∈ fields p l) : w ≠ [] ∧ w ⊆ l := by
  rcases mem_consField mem with ⟨rfl, hn⟩ | hl
  · exact ⟨hn, (mem_splitHead l).1⟩
  · exact (mem_splitHead l).2 w hl

theorem free_of_mem_splitHead (l : List α) : (∀ a ∈ (splitHead p l).1, p a = false) ∧
    ∀ w ∈ (splitHead p l).2, ∀ a ∈ w, p a = false := by
  induction l with
  | nil => simp [splitHead]
  | cons a l ih =>
    rw [splitHead]
    split_ifs with sep
    · refine ⟨nofun, fun w mem => ?_⟩
      rcases mem_consField mem with ⟨rfl, -⟩ | hl
      · exact ih.1
      · exact ih.2 w hl
    · exact ⟨forall_mem_cons.mpr ⟨by simpa using sep, ih.1⟩, ih.2⟩

theorem free_of_mem_fields (mem : w ∈ fields p l) : ∀ a ∈ w, p a = false := by
  rcases mem_consField mem with ⟨rfl, -⟩ | hl
  · exact (free_of_mem_splitHead l).1
  · exact (free_of_mem_splitHead l).2 w hl

theorem consField_append (ws ws' : List (List α)) :
    consField w (ws ++ ws') = consField w ws ++ ws' := by
  cases w <;> rfl

theorem flatMap_consField (q : α → Bool) (w : List α) (ws : List (List α)) :
    (consField w ws).flatMap (fields q) =
      consField (splitHead q w).1 ((splitHead q w).2 ++ ws.flatMap (fields q)) := by
  cases w with
  | nil => rfl
  | cons a w => exact (consField_append ..).symm

theorem splitHead_or (p q : α → Bool) (l : List α) : splitHead (fun a => p a || q a) l =
    ((splitHead q (splitHead p l).1).1,
      (splitHead q (splitHead p l).1).2 ++ (splitHead p l).2.flatMap (fields q)) := by
  induction l with
  | nil => rfl
  | cons a l ih =>
    rw [splitHead, splitHead, ih, ← flatMap_consField]
    cases hp : p a with
    | true => simp [splitHead]
    | false => cases hq : q a <;> simp [splitHead, hq, flatMap_consField, consField_append]

theorem fields_or (p q : α → Bool) (l : List α) :
    fields (fun a => p a || q a) l = (fields p l).flatMap (fields q) := by
  rw [fields, splitHead_or, ← flatMap_consField, fields]

theorem exists_split (p : α → Bool) (l : List α) :
    ∃ w rest, l = w ++ rest ∧ (∀ a ∈ w, p a = false) ∧ Stops p rest :=
  ⟨l.takeWhile fun a => !p a, l.dropWhile fun a => !p a, takeWhile_append_dropWhile.symm,
    fun a mem => by simpa using mem_takeWhile_imp mem, stops_dropWhile_not l⟩

/-- Where a reader that takes `n` symbols at a time starts its reads: the unread part
of a field, with the fields after it. -/
def suffixes (n : Nat) (w : List α) : List (List α) :=
  (List.range ((w.length + n - 1) / n)).map fun i => w.drop (n * i)

def reads (n : Nat) : List (List α) → List (List α × List (List α))
  | [] => []
  | w :: ws => (suffixes n w).map (fun u => (u, ws)) ++ reads n ws

theorem suffixes_of_ne_nil (pos : 0 < n) (h : w ≠ []) :
    suffixes n w = w :: suffixes n (w.drop n) := by
  have long : 0 < w.length := length_pos_iff.mpr h
  have count : (w.length + n - 1) / n = ((w.drop n).length + n - 1) / n + 1 := by
    rw [length_drop]
    by_cases hs : w.length ≤ n
    · rw [show w.length + n - 1 = w.length - 1 + n by omega, Nat.add_div_right _ pos,
        Nat.div_eq_of_lt (by omega), Nat.sub_eq_zero_of_le hs, Nat.zero_add,
        Nat.div_eq_of_lt (by omega)]
    · rw [show w.length + n - 1 = (w.length - n + n - 1) + n by omega, Nat.add_div_right _ pos]
  rw [suffixes, count, range_succ_eq_map, map_cons, map_map]
  simp only [Nat.mul_zero, drop_zero, suffixes, Function.comp_def, drop_drop,
    List.cons.injEq, true_and]
  congr 1
  funext i
  rw [Nat.mul_succ, Nat.add_comm]

@[simp] theorem suffixes_nil : suffixes n ([] : List α) = [] := by
  cases n with
  | zero => simp [suffixes]
  | succ n => simp [suffixes, Nat.div_eq_of_lt]

theorem suffixes_of_length_le (h : w ≠ []) (hs : w.length ≤ n) : suffixes n w = [w] := by
  have pos : 0 < n := lt_of_lt_of_le (length_pos_iff.mpr h) hs
  rw [suffixes_of_ne_nil pos h, drop_eq_nil_of_le hs, suffixes_nil]

theorem reads_consField (pos : 0 < n) {u : List α} (h : u ≠ []) (ws : List (List α)) :
    reads n (consField u ws) = (u, ws) :: reads n (consField (u.drop n) ws) := by
  rw [consField_of_ne_nil h, reads, suffixes_of_ne_nil pos h, map_cons, cons_append]
  congr 1
  by_cases last : u.drop n = []
  · simp [last]
  · rw [consField_of_ne_nil last, reads]

theorem reads_eq_flatMap (n : Nat) (f : List α → Option β) (ws : List (List α)) :
    (reads n ws).filterMap (fun read => f read.1) =
      ws.flatMap fun w => (suffixes n w).filterMap f := by
  induction ws with
  | nil => rfl
  | cons w ws ih =>
    rw [reads, filterMap_append, ih, filterMap_map, flatMap_cons]
    rfl

/-- Two readings of a list of parts, one of which drops items of the other, agree on
the whole only if they agree on every part. -/
theorem flatMap_eq_of_sublist {f g : α → List β} (sub : ∀ a ∈ l, (f a).Sublist (g a))
    (eq : l.flatMap f = l.flatMap g) : ∀ a ∈ l, f a = g a := by
  induction l with
  | nil => simp
  | cons b l ih =>
    have hs : ∀ a ∈ l, (f a).Sublist (g a) := fun a mem => sub a (.tail _ mem)
    have tail : (l.flatMap f).length ≤ (l.flatMap g).length :=
      (List.Sublist.flatMap_right l hs).length_le
    have head := sub b (.head _)
    rw [flatMap_cons, flatMap_cons] at eq
    have hl := congrArg List.length eq
    rw [length_append, length_append] at hl
    have h1 : f b = g b := head.eq_of_length (by have := head.length_le; omega)
    rw [h1, append_cancel_left_eq] at eq
    intro a mem
    rcases mem_cons.mp mem with rfl | ht
    · exact h1
    · exact ih hs eq a ht

/-- Two readings of a list of parts agree up to `n` items if they agree on the parts
that start within the first `n`. -/
theorem take_flatMap_eq {f g : α → List β}
    (eq : ∀ pre a after, l = pre ++ a :: after → (pre.flatMap g).length < n → f a = g a) :
    (l.flatMap f).take n = (l.flatMap g).take n := by
  induction l generalizing n with
  | nil => rfl
  | cons b l ih =>
    cases n with
    | zero => rfl
    | succ n =>
      have h1 : f b = g b := eq [] b l rfl (Nat.succ_pos n)
      rw [flatMap_cons, flatMap_cons, h1, take_append, take_append]
      congr 1
      refine ih fun pre a after split hs => ?_
      refine eq (b :: pre) a after (by rw [split]; rfl) ?_
      rw [flatMap_cons, length_append]
      omega

end Aegis.TextFields
