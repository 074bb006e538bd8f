import Mathlib.Data.List.Nodup
import Mathlib.Data.List.Perm.Basic
import Mathlib.Data.List.Range
import Mathlib.Algebra.GroupWithZero.Nat

/-! Radix trees whose inner tables each occupy a frame of an allocator. A key is read
digit by digit in base `w`, most significant first; a table of depth `n` has leaf entries
below `n` further levels. Seen from outside such a tree is a map from keys to entries
(`look`) together with the list of frames it keeps (`frames`), and each operation is
described by what it does to the two. -/

namespace Aegis.RadixTree

open Function List Option

variable {φ lam σ : Type} {n : Nat}

abbrev Table (φ lam : Type) : Nat → Type
  | 0 => Nat → lam
  | n + 1 => Nat → Option (φ × Table φ lam n)

def index (w n key : Nat) : Nat :=
  key / w ^ n % w

def empty (zero : lam) : (n : Nat) → Table φ lam n
  | 0 => fun _ => zero
  | _ + 1 => fun _ => none

def look (w : Nat) (zero : lam) : (n : Nat) → Table φ lam n → Nat → lam
  | 0, t, key => t (index w 0 key)
  | n + 1, t, key =>
    match t (index w (n + 1) key) with
    | none => zero
    | some child => look w zero n child.2 key

def adjust (w : Nat) (f : lam → lam) : (n : Nat) → Table φ lam n → Nat → Table φ lam n
  | 0, t, key => update t (index w 0 key) (f (t (index w 0 key)))
  | n + 1, t, key =>
    match t (index w (n + 1) key) with
    | none => t
    | some child =>
      update t (index w (n + 1) key) (some (child.1, adjust w f n child.2 key))

/-- Rewrite one entry and allocate the tables that are missing on the way. -/
def plant (w : Nat) (zero : lam) (alloc : σ → Option (φ × σ)) (f : lam → Option lam) :
    (n : Nat) → Table φ lam n → Nat → σ → Option (Table φ lam n × σ)
  | 0, t, key, s =>
    (f (t (index w 0 key))).map fun entry => (update t (index w 0 key) entry, s)
  | n + 1, t, key, s =>
    match t (index w (n + 1) key) with
    | some child =>
      (plant w zero alloc f n child.2 key s).map fun r =>
        (update t (index w (n + 1) key) (some (child.1, r.1)), r.2)
    | none =>
      (alloc s).bind fun a =>
        (plant w zero alloc f n (empty zero n) key a.2).map fun r =>
          (update t (index w (n + 1) key) (some (a.1, r.1)), r.2)

def slotFrames (below : Table φ lam n → List φ) : Option (φ × Table φ lam n) → List φ
  | none => []
  | some child => below child.2 ++ [child.1]

/-- The frames of a table with `m` slots: for each slot what its entry holds, or the frames
of the table below and then that table's own frame. -/
def frames (w : Nat) (held : lam → List φ) : (n : Nat) → Nat → Table φ lam n → List φ
  | 0, m, t => (List.range m).flatMap fun i => held (t i)
  | n + 1, m, t => (List.range m).flatMap fun i => slotFrames (frames w held n w) (t i)

def leaves (w : Nat) (held : lam → List φ) : (n : Nat) → Nat → Table φ lam n → List φ
  | 0, m, t => (List.range m).flatMap fun i => held (t i)
  | n + 1, m, t => (List.range m).flatMap fun i =>
    match t i with
    | none => []
    | some child => leaves w held n w child.2

def wipe (zero : lam) : (n : Nat) → Table φ lam n → Table φ lam n
  | 0, _ => fun _ => zero
  | n + 1, t => fun i => (t i).map fun child => (child.1, wipe zero n child.2)

inductive Allocs (alloc : σ → Option (φ × σ)) : σ → List φ → σ → Prop
  | nil (s : σ) : Allocs alloc s [] s
  | cons {s t u : σ} {x : φ} {xs : List φ} :
      alloc s = some (x, t) → Allocs alloc t xs u → Allocs alloc s (x :: xs) u

variable {alloc : σ → Option (φ × σ)} {s s' : σ} {f : lam → Option lam} {t' : Table φ lam n} {x : φ}

theorem Allocs.append {t u : σ} {xs ys : List φ} (h1 : Allocs alloc s xs t)
    (h2 : Allocs alloc t ys u) : Allocs alloc s (xs ++ ys) u := by
  induction h1 with
  | nil => exact h2
  | cons ht _ ih => exact .cons ht (ih h2)

variable {w m key key' : Nat} {zero : lam} {t : Table φ lam n} {held : lam → List φ}

/-- The keys agree in every digit that a table of depth `n` reads. -/
def SamePath (w n key key' : Nat) : Prop :=
  key % w ^ (n + 1) = key' % w ^ (n + 1)

theorem samePath_zero : SamePath w 0 key key' ↔ index w 0 key = index w 0 key' := by
  simp [SamePath, index]

theorem samePath_succ (pos : 0 < w) : SamePath w (n + 1) key key' ↔
      index w (n + 1) key = index w (n + 1) key' ∧ SamePath w n key key' := by
  have split : ∀ k, k % w ^ (n + 1 + 1) = k % w ^ (n + 1) + w ^ (n + 1) * index w (n + 1) k :=
    fun k => Nat.mod_pow_succ
  rw [SamePath, split, split]
  constructor
  · intro eq
    have low := congrArg (· % w ^ (n + 1)) eq
    simp only [Nat.add_mul_mod_self_left, Nat.mod_mod] at low
    rw [low] at eq
    exact ⟨Nat.eq_of_mul_eq_mul_left (Nat.pow_pos pos) (Nat.add_left_cancel eq), low⟩
  · rintro ⟨high, low⟩
    rw [SamePath] at low
    rw [high, low]

theorem samePath_iff_of_lt (lt : key < w ^ (n + 1)) (lt' : key' < w ^ (n + 1)) :
    SamePath w n key key' ↔ key = key' := by
  rw [SamePath, Nat.mod_eq_of_lt lt, Nat.mod_eq_of_lt lt']

theorem look_empty : look w zero n (empty zero n : Table φ lam n) key = zero := by
  cases n with
  | zero => rfl
  | succ n => rfl

theorem look_samePath (pos : 0 < w) (eq : SamePath w n key key') :
    look w zero n t key = look w zero n t key' := by
  induction n with
  | zero =>
    rw [samePath_zero] at eq
    simp only [look, eq]
  | succ n ih =>
    obtain ⟨high, low⟩ := (samePath_succ pos).mp eq
    simp only [look, high]
    cases t (index w (n + 1) key') with
    | none => rfl
    | some child => exact ih low

theorem look_adjust_self {f : lam → lam} (hf : f zero = zero) :
    look w zero n (adjust w f n t key) key = f (look w zero n t key) := by
  induction n with
  | zero => simp [look, adjust]
  | succ n ih =>
    cases slot : t (index w (n + 1) key) with
    | none => simp [look, adjust, slot, hf]
    | some child => simpa [look, adjust, slot] using ih

theorem look_adjust_other {f : lam → lam} (pos : 0 < w) (other : ¬ SamePath w n key' key) :
    look w zero n (adjust w f n t key) key' = look w zero n t key' := by
  induction n with
  | zero =>
    rw [samePath_zero] at other
    simp [look, adjust, other]
  | succ n ih =>
    cases slot : t (index w (n + 1) key) with
    | none => simp [adjust, slot]
    | some child =>
      by_cases high : index w (n + 1) key' = index w (n + 1) key
      · have low : ¬ SamePath w n key' key := fun low =>
          other ((samePath_succ pos).mpr ⟨high, low⟩)
        simpa [look, adjust, slot, high] using ih low
      · simp [look, adjust, slot, high]

theorem plant_succ {t t' : Table φ lam (n + 1)}
    (hp : plant w zero alloc f (n + 1) t key s = some (t', s')) :
    ∃ child mid u, plant w zero alloc f n child.2 key mid = some (u, s') ∧
      t' = update t (index w (n + 1) key) (some (child.1, u)) ∧
      (t (index w (n + 1) key) = some child ∧ mid = s ∨
        t (index w (n + 1) key) = none ∧ alloc s = some (child.1, mid) ∧
          child.2 = empty zero n) := by
  rw [plant] at hp
  cases slot : t (index w (n + 1) key) with
  | some child =>
    simp only [slot] at hp
    obtain ⟨⟨u, last⟩, hd, ⟨⟩⟩ := map_eq_some_iff.mp hp
    exact ⟨child, s, u, hd, rfl, .inl ⟨rfl, rfl⟩⟩
  | none =>
    simp only [slot] at hp
    obtain ⟨⟨frame, mid⟩, ht, rest⟩ := bind_eq_some_iff.mp hp
    obtain ⟨⟨u, last⟩, hd, ⟨⟩⟩ := map_eq_some_iff.mp rest
    exact ⟨(frame, _), mid, u, hd, rfl, .inr ⟨rfl, ht, rfl⟩⟩

theorem look_plant (pos : 0 < w) (planted : plant w zero alloc f n t key s = some (t', s')) :
    f (look w zero n t key) = some (look w zero n t' key) ∧
      ∀ key', ¬ SamePath w n key' key → look w zero n t' key' = look w zero n t key' := by
  induction n generalizing s with
  | zero =>
    obtain ⟨entry, made, same⟩ := map_eq_some_iff.mp planted
    cases same
    refine ⟨by simpa [look] using made, fun key' other => ?_⟩
    rw [samePath_zero] at other
    simp [look, other]
  | succ n ih =>
    obtain ⟨child, mid, below, deeper, rfl, slot⟩ := plant_succ planted
    obtain ⟨made, rest⟩ := ih deeper
    have inner (k : Nat) (high : index w (n + 1) k = index w (n + 1) key) :
        look w zero (n + 1) t k = look w zero n child.2 k := by
      rcases slot with ⟨slot, -⟩ | ⟨slot, -, fresh⟩
      · simp [look, high, slot]
      · simp [look, high, slot, fresh, look_empty]
    refine ⟨?_, fun key' other => ?_⟩
    · rw [inner key rfl, made]
      simp [look]
    by_cases high : index w (n + 1) key' = index w (n + 1) key
    · have low : ¬ SamePath w n key' key := fun low =>
        other ((samePath_succ pos).mpr ⟨high, low⟩)
      rw [inner key' high, ← rest key' low]
      simp [look, high]
    · simp [look, high]

/-- `plant` fails only when the allocator does, after fewer allocations than there are
levels, or when the entry is refused. -/
theorem plant_none (hf : plant w zero alloc f n t key s = none) :
    (∃ new last, new.length < n ∧ Allocs alloc s new last ∧ alloc last = none) ∨
      f (look w zero n t key) = none := by
  induction n generalizing s with
  | zero => exact .inr (map_eq_none_iff.mp hf)
  | succ n ih =>
    rw [plant] at hf
    cases slot : t (index w (n + 1) key) with
    | some child =>
      simp only [slot] at hf
      simp only [look, slot]
      refine (ih (map_eq_none_iff.mp hf)).imp_left ?_
      rintro ⟨new, last, few, dry⟩
      exact ⟨new, last, by omega, dry⟩
    | none =>
      simp only [slot] at hf
      cases ht : alloc s with
      | none => exact .inl ⟨[], s, Nat.succ_pos n, .nil s, ht⟩
      | some a =>
        simp only [ht, bind_some] at hf
        rcases ih (map_eq_none_iff.mp hf) with ⟨new, last, few, ha, dry⟩ | hr
        · exact .inl ⟨a.1 :: new, last, Nat.succ_lt_succ few, .cons ht ha, dry⟩
        rw [look_empty] at hr
        simp only [look, slot]
        exact .inr hr

def reaches (w : Nat) : (n : Nat) → Table φ lam n → Nat → Bool
  | 0, _, _ => true
  | n + 1, t, key =>
    match t (index w (n + 1) key) with
    | none => false
    | some child => reaches w n child.2 key

theorem plant_allocs (hp : plant w zero alloc f n t key s = some (t', s')) :
    ∃ new, new.length ≤ n ∧ Allocs alloc s new s' ∧ (new = [] ↔ reaches w n t key = true) ∧
      (reaches w n t key = true → ∀ k, reaches w n t' k = reaches w n t k) := by
  induction n generalizing s with
  | zero =>
    obtain ⟨entry, -, ⟨⟩⟩ := map_eq_some_iff.mp hp
    exact ⟨[], le_refl 0, .nil _, by simp [reaches], fun _ _ => rfl⟩
  | succ n ih =>
    obtain ⟨child, mid, hb, hd, rfl, slot⟩ := plant_succ hp
    obtain ⟨new, few, ha, free, kept⟩ := ih hd
    rcases slot with ⟨slot, rfl⟩ | ⟨slot, ht, -⟩
    · have way : reaches w (n + 1) t key = reaches w n child.2 key := by simp [reaches, slot]
      refine ⟨new, by omega, ha, by rw [way, free], fun hh k => ?_⟩
      by_cases high : index w (n + 1) k = index w (n + 1) key
      · simpa [reaches, high, slot] using kept (way ▸ hh) k
      · simp [reaches, high]
    · have hm : reaches w (n + 1) t key = false := by simp [reaches, slot]
      exact ⟨child.1 :: new, Nat.succ_le_succ few, .cons ht ha, by simp [hm], by simp [hm]⟩

theorem flatMap_update_perm {β : Type} {i : Nat} (content : β → List φ) (slots : Nat → β) (x : β)
    (hi : i < m) :
    (content (slots i) ++ (range m).flatMap fun j => content (update slots i x j)).Perm
      (content x ++ (range m).flatMap fun j => content (slots j)) := by
  induction m with
  | zero => omega
  | succ m ih =>
    simp only [range_succ, flatMap_append, flatMap_singleton]
    by_cases last : i = m
    · subst last
      have hu : ((range i).flatMap fun j => content (update slots i x j)) =
          (range i).flatMap fun j => content (slots j) :=
        flatMap_congr fun j mem => by
          rw [update_of_ne (ne_of_lt (mem_range.mp mem))]
      rw [hu, update_self, ← append_assoc (content x)]
      exact perm_append_comm.trans (perm_append_comm.append_right _)
    · rw [update_of_ne (Ne.symm last), ← append_assoc, ← append_assoc]
      exact (ih (by omega)).append_right _

theorem perm_exchange {old new pre after rest rest' : List φ}
    (inner : (old ++ after).Perm (new ++ pre))
    (outer : (pre ++ rest').Perm (after ++ rest)) : (old ++ rest').Perm (new ++ rest) := by
  have both : (pre ++ (old ++ rest')).Perm (pre ++ (new ++ rest)) := by
    calc pre ++ (old ++ rest')
        _ |>.Perm (old ++ (pre ++ rest')) := perm_append_comm_assoc _ _ _
        _ |>.Perm (old ++ (after ++ rest)) := outer.append_left old
        _ |>.Perm ((new ++ pre) ++ rest) := by
          rw [← append_assoc]
          exact inner.append_right rest
        _ |>.Perm (pre ++ (new ++ rest)) := by
          rw [append_assoc]
          exact perm_append_comm_assoc _ _ _
  exact (perm_append_left_iff pre).mp both

theorem frames_adjust {f : lam → lam} (pos : 0 < w) (hf : f zero = zero)
    (free : held zero = []) (hi : index w n key < m) :
    (held (look w zero n t key) ++ frames w held n m (adjust w f n t key)).Perm
      (held (f (look w zero n t key)) ++ frames w held n m t) := by
  induction n generalizing m with
  | zero => exact flatMap_update_perm held t _ hi
  | succ n ih =>
    cases slot : t (index w (n + 1) key) with
    | none => simp [look, adjust, slot, hf, free]
    | some child =>
      have inner := (ih (t := child.2) (Nat.mod_lt _ pos)).append_right [child.1]
      have outer := flatMap_update_perm (slotFrames (frames w held n w)) t
        (some (child.1, adjust w f n child.2 key)) hi
      simp only [append_assoc] at inner
      simp only [slot] at outer
      simpa only [look, adjust, slot, frames] using perm_exchange inner outer

theorem frames_empty (free : held zero = []) :
    frames w held n m (empty zero n : Table φ lam n) = [] := by
  cases n with
  | zero => simp [frames, empty, free]
  | succ n => simp [frames, empty, slotFrames]

theorem frames_plant (pos : 0 < w) (free : held zero = []) (inside : index w n key < m)
    (planted : plant w zero alloc f n t key s = some (t', s')) :
    ∃ new, Allocs alloc s new s' ∧ (held (look w zero n t key) ++ frames w held n m t').Perm
        (held (look w zero n t' key) ++ new ++ frames w held n m t) := by
  induction n generalizing m s with
  | zero =>
    obtain ⟨entry, made, ⟨⟩⟩ := map_eq_some_iff.mp planted
    refine ⟨[], .nil _, ?_⟩
    simpa [look, frames] using flatMap_update_perm held t entry inside
  | succ n ih =>
    obtain ⟨child, mid, below, deeper, rfl, slot⟩ := plant_succ planted
    obtain ⟨new, allocs, perm⟩ := ih (Nat.mod_lt _ pos) deeper
    have outer := flatMap_update_perm (slotFrames (frames w held n w)) t
      (some (child.1, below)) inside
    rcases slot with ⟨slot, rfl⟩ | ⟨slot, taken, fresh⟩
    · have inner := perm.append_right [child.1]
      simp only [append_assoc _ (frames w held n w _)] at inner
      simp only [slot] at outer
      refine ⟨new, allocs, ?_⟩
      simpa [look, slot, frames] using perm_exchange inner outer
    · refine ⟨child.1 :: new, .cons taken allocs, ?_⟩
      -- The child was empty, so its frames are the new tables below and the new entry.
      simp only [fresh, look_empty, frames_empty free, free, nil_append, append_nil] at perm
      simp only [slot, slotFrames, nil_append] at outer
      simp only [look, slot, free, frames, update_self, nil_append]
      refine outer.trans (List.Perm.append_right _ ?_)
      exact (perm.append_right [child.1]).trans (by
        rw [append_assoc]
        exact perm_append_comm.append_left _)

theorem mem_frames_of_look (pos : 0 < w) (free : held zero = []) (hi : index w n key < m)
    (mem : x ∈ held (look w zero n t key)) : x ∈ frames w held n m t := by
  have hc := frames_adjust (f := fun _ => zero) (t := t) pos rfl free hi
  rw [free, nil_append] at hc
  exact hc.subset (mem_append_left _ mem)

theorem samePath_of_mem (pos : 0 < w) (free : held zero = []) (hi : index w n key < m)
    (hi' : index w n key' < m) (ne : (frames w held n m t).Nodup)
    (mem : x ∈ held (look w zero n t key)) (hm' : x ∈ held (look w zero n t key')) :
    SamePath w n key' key := by
  by_contra other
  have hc := frames_adjust (f := fun _ => zero) (t := t) pos rfl free hi
  rw [free, nil_append] at hc
  have ha := disjoint_of_nodup_append (hc.nodup_iff.mpr ne)
  rw [← look_adjust_other (f := fun _ => zero) pos other] at hm'
  exact ha mem (mem_frames_of_look pos free hi' hm')

theorem look_wipe : look w zero n (wipe zero n t) key = zero := by
  induction n with
  | zero => rfl
  | succ n ih =>
    cases slot : t (index w (n + 1) key) with
    | none => simp [look, wipe, slot]
    | some child => simpa [look, wipe, slot] using ih

theorem frames_wipe (free : held zero = []) : (frames w held n m t).Perm
      (leaves w held n m t ++ frames w held n m (wipe zero n t)) := by
  induction n generalizing m with
  | zero =>
    refine List.Perm.trans ?_ (flatMap_append_perm _ _ _).symm
    simp [frames, wipe, free]
  | succ n ih =>
    refine List.Perm.trans ?_ (flatMap_append_perm _ _ _).symm
    refine List.Perm.flatMap_left _ fun i _ => ?_
    cases slot : t i with
    | none => simp [slotFrames, wipe, slot]
    | some child =>
      simp only [slotFrames, wipe, slot, map_some, ← append_assoc]
      exact ih.append_right _

theorem mem_leaves_of_look (pos : 0 < w) (free : held zero = []) (hi : index w n key < m)
    (mem : x ∈ held (look w zero n t key)) : x ∈ leaves w held n m t := by
  induction n generalizing m with
  | zero => exact mem_flatMap.mpr ⟨_, mem_range.mpr hi, mem⟩
  | succ n ih =>
    refine mem_flatMap.mpr ⟨_, mem_range.mpr hi, ?_⟩
    cases slot : t (index w (n + 1) key) with
    | none => simp [look, slot, free] at mem
    | some child =>
      simp only [look, slot] at mem
      exact ih (Nat.mod_lt _ pos) mem

theorem frames_congr (zero : lam) {held' : lam → List φ} (hn : m ≤ w)
    (eq : ∀ key < m * w ^ n, held (look w zero n t key) = held' (look w zero n t key)) :
    frames w held n m t = frames w held' n m t := by
  induction n generalizing m with
  | zero =>
    refine flatMap_congr fun i mem => ?_
    have lt := mem_range.mp mem
    simpa [look, index, Nat.mod_eq_of_lt (show i < w by omega)] using eq i (by simpa using lt)
  | succ n ih =>
    refine flatMap_congr fun i mem => ?_
    have lt := mem_range.mp mem
    cases slot : t i with
    | none => rfl
    | some child =>
      simp only [slotFrames]
      congr 1
      refine ih le_rfl fun key ha => ?_
      have hb : key < w ^ (n + 1) := by rwa [Nat.pow_succ, Nat.mul_comm]
      have hd : index w (n + 1) (key + w ^ (n + 1) * i) = i := by
        rw [index, Nat.add_mul_div_left _ _ (by omega), Nat.div_eq_of_lt hb, Nat.zero_add]
        exact Nat.mod_eq_of_lt (by omega)
      have path : SamePath w n (key + w ^ (n + 1) * i) key := by
        rw [SamePath, Nat.add_mul_mod_self_left]
      have hl := eq (key + w ^ (n + 1) * i) ?_
      · simp only [look, hd, slot] at hl
        rwa [look_samePath (by omega) path] at hl
      calc key + w ^ (n + 1) * i < w ^ (n + 1) * (i + 1) := by rw [Nat.mul_add]; omega
        _ ≤ w ^ (n + 1) * m := Nat.mul_le_mul_left _ lt
        _ = m * w ^ (n + 1) := Nat.mul_comm _ _

end Aegis.RadixTree
