import Aegis.RadixTree

/-! Radix trees laid out in a memory of words. A table occupies a frame of words, and a word
of an inner table names the frame of a table below it or no table (`points`). `Rep` says
that the words at a frame spell a tree; reading, writing and extending the words is then
shown to do what looking up, adjusting and planting do to the tree. -/

namespace Aegis.TableMemory

open RadixTree Function List Option Nat

variable {ω σ : Type}

abbrev Memory (ω : Type) := Nat → Nat → ω

def write (mem : Memory ω) (f i : Nat) (x : ω) : Memory ω :=
  update mem f (update (mem f) i x)

def fill (mem : Memory ω) (f : Nat) (x : ω) : Memory ω :=
  update mem f fun _ => x

def Rep (points : ω → Option Nat → Prop) (w : Nat) (mem : Memory ω) :
    (n m f : Nat) → Table Nat ω n → Prop
  | 0, m, f, t => ∀ i < m, mem f i = t i
  | n + 1, m, f, t => ∀ i < m, points (mem f i) ((t i).map Prod.fst) ∧
      ∀ child, t i = some child → Rep points w mem n w child.1 child.2

/-- The frames of the tables below the first `m` slots of a table. -/
def tables (w n m : Nat) (t : Table Nat ω n) : List Nat :=
  frames w (fun _ => []) n m t

def leafTable (w : Nat) : (n : Nat) → Nat → Table Nat ω n → Nat → Option Nat
  | 0, f, _, _ => some f
  | n + 1, _, t, key =>
    match t (index w (n + 1) key) with
    | none => none
    | some child => leafTable w n child.1 child.2 key

/-- The same by reading words; `follow` may treat the levels differently. -/
def walkTable (follow : Nat → ω → Option Nat) (w : Nat) (mem : Memory ω) :
    Nat → Nat → Nat → Option Nat
  | 0, f, _ => some f
  | n + 1, f, key =>
    (follow (n + 1) (mem f (index w (n + 1) key))).bind fun g => walkTable follow w mem n g key

/-- The child table of a slot; if there is none, a new one is cleared and linked. -/
def ensure (follow : ω → Option Nat) (alloc : σ → Option (Nat × σ)) (zero : ω) (link : Nat → ω)
    (f i : Nat) (s : Memory ω × σ) : Option (Nat × Memory ω × σ) :=
  match follow (s.1 f i) with
  | some g => some (g, s)
  | none => (alloc s.2).map fun a => (a.1, write (fill s.1 a.1 zero) f i (link a.1), a.2)

/-- Go down level by level, making the tables that are missing, and install an entry. -/
def descend (follow : ω → Option Nat) (alloc : σ → Option (Nat × σ)) (zero : ω) (link : Nat → ω)
    (install : ω → Option ω) (w : Nat) : Nat → Nat → Nat → Memory ω × σ → Option (Memory ω × σ)
  | 0, f, key, s =>
    (install (s.1 f (index w 0 key))).map fun x => (write s.1 f (index w 0 key) x, s.2)
  | n + 1, f, key, s =>
    (ensure follow alloc zero link f (index w (n + 1) key) s).bind fun r =>
      descend follow alloc zero link install w n r.1 key r.2

/-- The frames met by a traversal of words: for each slot what its word holds, or the frames
below it and then the frame of the table it names. -/
def gather (follow : Nat → ω → Option Nat) (held : ω → List Nat) (w : Nat) (mem : Memory ω) :
    Nat → Nat → Nat → List Nat
  | 0, m, f => (List.range m).flatMap fun i => held (mem f i)
  | n + 1, m, f => (List.range m).flatMap fun i =>
    match follow (n + 1) (mem f i) with
    | none => []
    | some g => gather follow held w mem n w g ++ [g]

/-- Visit the entries in the order of their keys; the visits may change the state. -/
def visitAll (follow : ω → Option Nat) (visit : Nat → ω → Memory ω × σ → Option (Memory ω × σ))
    (w : Nat) : Nat → Nat → Nat → Nat → Memory ω × σ → Option (Memory ω × σ)
  | 0, m, f, base, s =>
    (List.range m).foldlM (fun s i => visit (base * w + i) (s.1 f i) s) s
  | n + 1, m, f, base, s =>
    (List.range m).foldlM (fun s i =>
      match follow (s.1 f i) with
      | none => some s
      | some g => visitAll follow visit w n w g (base * w + i) s) s

@[simp] theorem write_other {mem : Memory ω} {f g i : Nat} {x : ω} (other : g ≠ f) :
    write mem f i x g = mem g :=
  update_of_ne other ..

@[simp] theorem write_self (mem : Memory ω) (f i : Nat) : write mem f i (mem f i) = mem := by
  simp [write]

theorem write_same {mem : Memory ω} {f i j : Nat} {x : ω} :
    write mem f i x f j = if j = i then x else mem f j := by
  simp [write, update_apply]

section
variable {points : ω → Option Nat → Prop} {w n m f i j key : Nat} {mem mem' : Memory ω}
  {t : Table Nat ω n} {zero : ω} {held : ω → List Nat}

theorem tables_succ {t : Table Nat ω (n + 1)} :
    tables w (n + 1) m t = (range m).flatMap fun i => slotFrames (tables w n w) (t i) :=
  rfl

variable {child : Nat × Table Nat ω n} {g : Nat} {follow : ω → Option Nat}
  {alloc : σ → Option (Nat × σ)} {s : σ} {live : σ → Nat → Prop}

theorem mem_tables_of_slot {t : Table Nat ω (n + 1)} (lt : i < m) (slot : t i = some child)
    (hm : g ∈ child.1 :: tables w n w child.2) : g ∈ tables w (n + 1) m t := by
  refine mem_flatMap.mpr ⟨i, mem_range.mpr lt, ?_⟩
  rw [slot]
  exact (perm_append_singleton ..).symm.subset hm

theorem slot_nodup {t : Table Nat ω (n + 1)} (ne : (tables w (n + 1) m t).Nodup)
    (lt : i < m) (slot : t i = some child) : (child.1 :: tables w n w child.2).Nodup := by
  have inner := (nodup_flatMap.mp ne).1 i (mem_range.mpr lt)
  rw [slot] at inner
  exact (perm_append_singleton ..).nodup_iff.mp inner

theorem slot_disjoint {t : Table Nat ω (n + 1)} {child' : Nat × Table Nat ω n}
    (ne : (tables w (n + 1) m t).Nodup) (lt : i < m) (lt' : j < m) (other : i ≠ j)
    (slot : t i = some child) (slot' : t j = some child')
    (hm : g ∈ child.1 :: tables w n w child.2) : g ∉ child'.1 :: tables w n w child'.2 := by
  intro hm'
  have symmetric : Std.Symm (onFun List.Disjoint
      fun i => slotFrames (frames w (fun _ => []) n w) (t i)) :=
    ⟨fun _ _ ha _ h1 h2 => ha h2 h1⟩
  have ha := (nodup_flatMap.mp ne).2.forall (mem_range.mpr lt) (mem_range.mpr lt') other
  simp only [onFun, slot, slot'] at ha
  exact ha ((perm_append_singleton ..).symm.subset hm) ((perm_append_singleton ..).symm.subset hm')

theorem Rep.congr (rep : Rep points w mem n m f t)
    (eq : ∀ g ∈ f :: tables w n m t, mem' g = mem g) : Rep points w mem' n m f t := by
  induction n generalizing m f with
  | zero =>
    intro i lt
    rw [eq f mem_cons_self]
    exact rep i lt
  | succ n ih =>
    intro i lt
    rw [eq f mem_cons_self]
    refine ⟨(rep i lt).1, fun child slot => ih ((rep i lt).2 child slot) fun g member => ?_⟩
    exact eq g (.tail _ (mem_tables_of_slot lt slot member))

theorem leafTable_succ {t : Table Nat ω (n + 1)} (hf : leafTable w (n + 1) f t key = some g) :
    ∃ child, t (index w (n + 1) key) = some child ∧ leafTable w n child.1 child.2 key = some g := by
  rw [leafTable] at hf
  cases slot : t (index w (n + 1) key) with
  | none => simp [slot] at hf
  | some child => exact ⟨child, rfl, by simpa only [slot] using hf⟩

theorem leafTable_mem (pos : 0 < w) (hi : index w n key < m)
    (hf : leafTable w n f t key = some g) : g ∈ f :: tables w n m t := by
  induction n generalizing m f with
  | zero =>
    cases hf
    exact .head _
  | succ n ih =>
    obtain ⟨child, slot, hf⟩ := leafTable_succ hf
    exact mem_cons_of_mem f (mem_tables_of_slot hi slot (ih (mod_lt _ pos) hf))

theorem leafTable_mem_tables {t : Table Nat ω (n + 1)} (pos : 0 < w)
    (hi : index w (n + 1) key < m) (hf : leafTable w (n + 1) f t key = some g) :
    g ∈ tables w (n + 1) m t := by
  obtain ⟨child, slot, hf⟩ := leafTable_succ hf
  exact mem_tables_of_slot hi slot (leafTable_mem pos (mod_lt _ pos) hf)

theorem look_of_leafTable_none (none : leafTable w n f t key = none) :
    look w zero n t key = zero := by
  induction n generalizing f with
  | zero => cases none
  | succ n ih =>
    rw [leafTable] at none
    cases slot : t (index w (n + 1) key) with
    | none => simp [look, slot]
    | some child =>
      simp only [slot] at none
      simpa [look, slot] using ih none

theorem adjust_of_leafTable_none {h : ω → ω} (none : leafTable w n f t key = none) :
    adjust w h n t key = t := by
  induction n generalizing f with
  | zero => cases none
  | succ n ih =>
    rw [leafTable] at none
    cases slot : t (index w (n + 1) key) with
    | none => simp [adjust, slot]
    | some child =>
      simp only [slot] at none
      simp only [adjust, slot, ih none]
      rw [← slot, update_eq_self]

theorem Rep.walkTable_eq {follow : Nat → ω → Option Nat} (pos : 0 < w)
    (hr : ∀ level x o, points x o → follow level x = o) (rep : Rep points w mem n m f t)
    (hi : index w n key < m) : walkTable follow w mem n f key = leafTable w n f t key := by
  induction n generalizing m f with
  | zero => rfl
  | succ n ih =>
    obtain ⟨word, hb⟩ := rep _ hi
    rw [walkTable, leafTable, hr _ _ _ word]
    cases slot : t (index w (n + 1) key) with
    | none => rfl
    | some child => exact ih (hb child slot) (mod_lt _ pos)

theorem Rep.word (pos : 0 < w) (rep : Rep points w mem n m f t) (hi : index w n key < m)
    (hf : leafTable w n f t key = some g) : mem g (index w 0 key) = look w zero n t key := by
  induction n generalizing m f with
  | zero =>
    cases hf
    exact rep _ hi
  | succ n ih =>
    obtain ⟨child, slot, hf⟩ := leafTable_succ hf
    simp only [look, slot]
    exact ih ((rep _ hi).2 child slot) (mod_lt _ pos) hf

theorem Rep.relink {t : Table Nat ω (n + 1)} (rep : Rep points w mem (n + 1) m f t)
    (word : points (mem' f i) (some child.1)) (ho : ∀ j ≠ i, mem' f j = mem f j)
    (hb : Rep points w mem' n w child.1 child.2)
    (hk : ∀ j < m, j ≠ i → ∀ old, t j = some old → ∀ g ∈ old.1 :: tables w n w old.2,
      mem' g = mem g) : Rep points w mem' (n + 1) m f (update t i (some child)) := by
  intro j lt
  by_cases here : j = i
  · subst here
    rw [update_self]
    refine ⟨word, fun _ eq => ?_⟩
    cases eq
    exact hb
  · rw [update_of_ne here, ho j here]
    exact ⟨(rep j lt).1, fun old slot => ((rep j lt).2 old slot).congr (hk j lt here old slot)⟩

theorem Rep.write {h : ω → ω} (pos : 0 < w) (rep : Rep points w mem n m f t)
    (ne : (f :: tables w n m t).Nodup) (hi : index w n key < m)
    (hf : leafTable w n f t key = some g) :
    Rep points w (write mem g (index w 0 key) (h (mem g (index w 0 key)))) n m f
      (adjust w h n t key) := by
  induction n generalizing m f with
  | zero =>
    cases hf
    intro i lt
    rw [write_same, adjust, update_apply, rep i lt, rep _ hi]
  | succ n ih =>
    obtain ⟨hr, hb⟩ := nodup_cons.mp ne
    obtain ⟨child, slot, hf⟩ := leafTable_succ hf
    have hm := leafTable_mem pos (mod_lt _ pos : index w n key < w) hf
    have hn : f ≠ g := fun eq => hr (eq ▸ mem_tables_of_slot hi slot hm)
    simp only [adjust, slot]
    refine rep.relink ?_ (fun i _ => by rw [write_other hn])
      (ih ((rep _ hi).2 child slot) (slot_nodup hb hi slot) (mod_lt _ pos) hf) ?_
    · rw [write_other hn]
      simpa [slot] using (rep _ hi).1
    · intro i lt here old slot' x ht
      exact write_other fun eq => slot_disjoint hb lt hi here slot' slot ht (eq ▸ hm)

theorem rep_empty (hn : points zero none) (hc : mem f = fun _ => zero) :
    Rep points w mem n m f (empty zero n) := by
  cases n with
  | zero =>
    intro i _
    rw [hc]
    rfl
  | succ n =>
    intro i _
    rw [hc]
    exact ⟨hn, fun child slot => by cases slot⟩

theorem tables_empty : tables w n m (empty zero n) = [] := frames_empty rfl

theorem tables_adjust {f : ω → ω} (pos : 0 < w) (hf : f zero = zero)
    (hi : index w n key < m) : (tables w n m (adjust w f n t key)).Perm (tables w n m t) :=
  @frames_adjust _ _ n w m key zero t (fun _ => []) f pos hf rfl hi

theorem tables_plant {f : ω → Option ω} {s' : σ} {t' : Table Nat ω n} (pos : 0 < w)
    (hi : index w n key < m) (hp : plant w zero alloc f n t key s = some (t', s')) :
    ∃ new, Allocs alloc s new s' ∧ (tables w n m t').Perm (new ++ tables w n m t) :=
  @frames_plant _ _ _ n alloc s s' f t' w m key zero t (fun _ => []) pos rfl hi hp

theorem ensured_words {x : Nat} {word : ω} (hn : x ≠ f)
    (eq : TableMemory.write (fill mem x zero) f i word = mem') :
    mem' x = (fun _ => zero) ∧ (∀ y ≠ x, y ≠ f → mem' y = mem y) ∧
      ∀ j, mem' f j = if j = i then word else mem f j := by
  subst eq
  refine ⟨?_, fun y new other => ?_, fun j => ?_⟩
  · rw [write_other hn, fill, update_self]
  · rw [write_other other, fill, update_of_ne new]
  · rw [write_same, fill, update_of_ne hn.symm]

/-- Of the live frames only the tables below `f` change, and `f` itself in one slot. -/
structure OnlyBelow (live : Nat → Prop) (mem mem' : Memory ω) (f i : Nat) (below : List Nat) :
    Prop where
  others : ∀ g, live g → g ∉ f :: below → mem' g = mem g
  slots : ∀ j ≠ i, mem' f j = mem f j

theorem Rep.through {t : Table Nat ω (n + 1)} {t₁ : Table Nat ω n}
    (rep : Rep points w mem (n + 1) m f t) (ne : (f :: tables w (n + 1) m t).Nodup)
    (ha : ∀ g ∈ f :: tables w (n + 1) m t, live s g) (lt : i < m) (slot : t i = some child)
    (rep₁ : Rep points w mem' n w child.1 t₁)
    (hu : ∀ g, live s g → g ∉ child.1 :: tables w n w child.2 → mem' g = mem g) :
    Rep points w mem' (n + 1) m f (update t i (some (child.1, t₁))) ∧
      OnlyBelow (live s) mem mem' f i (tables w (n + 1) m t) := by
  obtain ⟨hq, hb⟩ := nodup_cons.mp ne
  have hc {x : Nat} (hm : x ∈ child.1 :: tables w n w child.2) :=
    mem_tables_of_slot (m := m) lt slot hm
  have root : mem' f = mem f := hu f (ha f mem_cons_self) fun hm => hq (hc hm)
  refine ⟨rep.relink (by simpa [root, slot] using (rep _ lt).1) (by simp [root]) rep₁ ?_,
    fun x live ho => hu x live fun hm => ho (mem_cons_of_mem f (hc hm)), fun i _ => by rw [root]⟩
  intro j small here old slot' x ht
  exact hu x (ha x (mem_cons_of_mem f (mem_tables_of_slot small slot' ht)))
    (slot_disjoint hb small lt here slot' slot ht)

theorem Rep.behind {t : Table Nat ω (n + 1)} {t₁ : Table Nat ω n} {x : Nat} {mid : Memory ω}
    {word : ω} (rep : Rep points w mem (n + 1) m f t) (hq : f ∉ tables w (n + 1) m t)
    (ha : ∀ g ∈ f :: tables w (n + 1) m t, live s g) (new : ¬ live s x)
    (linked : points word (some x)) (eq : TableMemory.write (fill mem x zero) f i word = mid)
    (rep₁ : Rep points w mem' n w x t₁) (kept : ∀ y, live s y → mem' y = mid y) :
    Rep points w mem' (n + 1) m f (update t i (some (x, t₁))) ∧
      OnlyBelow (live s) mem mem' f i (tables w (n + 1) m t) := by
  have root : live s f := ha f mem_cons_self
  obtain ⟨-, hx, words⟩ := ensured_words (fun eq : x = f => new (eq ▸ root)) eq
  have same (y : Nat) (hy : live s y) (other : y ≠ f) : mem' y = mem y := by
    rw [kept y hy, hx y (fun eq => new (eq ▸ hy)) other]
  have upper (j : Nat) (other : j ≠ i) : mem' f j = mem f j := by
    rw [kept f root, words, if_neg other]
  refine ⟨rep.relink (by rwa [kept f root, words, if_pos rfl]) upper rep₁ ?_,
    fun y hy ho => same y hy fun eq => ho (eq ▸ mem_cons_self), upper⟩
  intro j small _ old slot' y ht
  have hm := mem_tables_of_slot small slot' ht
  exact same y (ha y (mem_cons_of_mem f hm)) fun eq => hq (eq ▸ hm)

section
variable {link : Nat → ω} {b : ω → Option ω} {s' : σ} (pos : 0 < w) (hn : points zero none)
  (hr : ∀ x o, points x o → follow x = o)
  (hs : ∀ s g s', alloc s = some (g, s') →
    points (link g) (some g) ∧ ¬ live s g ∧ ∀ x, live s' x ↔ x = g ∨ live s x)
include pos hn hr hs

theorem Rep.descend (rep : Rep points w mem n m f t) (ne : (f :: tables w n m t).Nodup)
    (ha : ∀ g ∈ f :: tables w n m t, live s g) (hi : index w n key < m)
    (done : TableMemory.descend follow alloc zero link b w n f key (mem, s) = some (mem', s')) :
    ∃ t', plant w zero alloc b n t key s = some (t', s') ∧ Rep points w mem' n m f t' ∧
      OnlyBelow (live s) mem mem' f (index w n key) (tables w n m t) := by
  induction n generalizing m f mem s with
  | zero =>
    obtain ⟨x, made, eq⟩ := map_eq_some_iff.mp done
    cases eq
    dsimp only at made ⊢
    refine ⟨update t (index w 0 key) x, ?_, fun i lt => ?_, fun g _ ho => ?_, fun i other => ?_⟩
    · rw [rep _ hi] at made
      simp [plant, made]
    · rw [write_same, update_apply, rep i lt]
    · exact write_other fun eq => ho (eq ▸ mem_cons_self)
    · rw [write_same, if_neg other]
  | succ n ih =>
    obtain ⟨⟨g, mid, s₁⟩, he, hd⟩ := bind_eq_some_iff.mp done
    rw [ensure, hr _ _ (rep _ hi).1] at he
    cases slot : t (index w (n + 1) key) with
    | some child =>
      simp only [slot, map_some, Option.some.injEq, Prod.mk.injEq] at he
      obtain ⟨rfl, rfl, rfl⟩ := he
      obtain ⟨t₁, hp, rep₁, below⟩ := ih ((rep _ hi).2 child slot)
        (slot_nodup (nodup_cons.mp ne).2 hi slot)
        (fun x hm => ha x (mem_cons_of_mem f (mem_tables_of_slot hi slot hm))) (mod_lt _ pos) hd
      exact ⟨_, by simp [plant, slot, hp], rep.through ne ha hi slot rep₁ below.others⟩
    | none =>
      simp only [slot, map_none] at he
      obtain ⟨⟨x, s₂⟩, hv, eq⟩ := map_eq_some_iff.mp he
      simp only [Prod.mk.injEq] at eq
      obtain ⟨rfl, eq, rfl⟩ := eq
      obtain ⟨hl, hf, hg⟩ := hs _ _ _ hv
      have new : x ≠ f := fun eq => hf (eq ▸ ha f mem_cons_self)
      have only {y : Nat} (hm : y ∈ x :: tables w n w (empty zero n)) : y = x := by
        rwa [tables_empty, mem_singleton] at hm
      obtain ⟨t₁, hp, rep₁, below⟩ := ih (rep_empty (m := w) hn (ensured_words new eq).1)
        (by simp [tables_empty]) (fun y hm => (hg y).mpr (.inl (only hm))) (mod_lt _ pos) hd
      refine ⟨_, by simp [plant, slot, hv, hp],
        rep.behind (nodup_cons.mp ne).1 ha hf hl eq rep₁ fun y hy => ?_⟩
      exact below.others y ((hg y).mpr (.inr hy)) fun hm => hf (only hm ▸ hy)

theorem Rep.descend_none (rep : Rep points w mem n m f t)
    (ha : ∀ g ∈ f :: tables w n m t, live s g) (hi : index w n key < m)
    (hf : TableMemory.descend follow alloc zero link b w n f key (mem, s) = none) :
    plant w zero alloc b n t key s = none := by
  induction n generalizing m f mem s with
  | zero =>
    rw [TableMemory.descend, map_eq_none_iff] at hf
    exact map_eq_none_iff.mpr (by simpa only [rep _ hi] using hf)
  | succ n ih =>
    rw [TableMemory.descend, ensure, hr _ _ (rep _ hi).1] at hf
    rw [plant]
    cases slot : t (index w (n + 1) key) with
    | some child =>
      simp only [slot, map_some, bind_some] at hf
      exact map_eq_none_iff.mpr (ih ((rep _ hi).2 child slot) (fun g hm => ha g
        (mem_cons_of_mem f (mem_tables_of_slot hi slot hm))) (mod_lt _ pos) hf)
    | none =>
      simp only [slot, map_none] at hf
      cases ht : alloc s with
      | none => rfl
      | some a =>
        obtain ⟨-, hc, hg⟩ := hs _ _ _ ht
        have new : a.1 ≠ f := fun eq => hc (eq ▸ ha f mem_cons_self)
        simp only [ht, map_some, bind_some] at hf
        refine map_eq_none_iff.mpr (ih (rep_empty (m := w) hn (ensured_words new rfl).1)
          (fun y hm => ?_) (mod_lt _ pos) hf)
        rw [tables_empty, mem_singleton] at hm
        exact (hg y).mpr (.inl hm)

end

theorem Rep.gather {follow : Nat → ω → Option Nat}
    (hr : ∀ level x o, points x o → follow level x = o) (rep : Rep points w mem n m f t) :
    gather follow held w mem n m f = frames w held n m t := by
  induction n generalizing m f with
  | zero =>
    refine flatMap_congr fun i hm => ?_
    rw [rep i (mem_range.mp hm)]
  | succ n ih =>
    refine flatMap_congr fun i hm => ?_
    obtain ⟨word, hb⟩ := rep i (mem_range.mp hm)
    rw [hr _ _ _ word]
    cases slot : t i with
    | none => rfl
    | some child => simp only [map_some, slotFrames, ih (hb child slot)]

theorem flatMap_range_mul {α : Type} (g : Nat → List α) (m k : Nat) : (range (m * k)).flatMap g =
      (range m).flatMap fun i => (range k).flatMap fun j => g (i * k + j) := by
  induction m with
  | zero => simp
  | succ m ih =>
    rw [succ_mul, range_add, flatMap_append, ih, range_succ,
      flatMap_append, flatMap_map, flatMap_singleton]

theorem look_slot {t : Table Nat ω (n + 1)} (lt : i < w) (hb : j < w ^ (n + 1)) :
    look w zero (n + 1) t (i * w ^ (n + 1) + j) = match t i with
      | none => zero
      | some child => look w zero n child.2 j := by
  have hd : index w (n + 1) (i * w ^ (n + 1) + j) = i := by
    rw [index, Nat.mul_comm, mul_add_div (by omega), div_eq_of_lt hb, Nat.add_zero, mod_eq_of_lt lt]
  have path : SamePath w n (i * w ^ (n + 1) + j) j := by
    rw [SamePath, Nat.mul_comm, mul_add_mod]
  simp only [look, hd]
  cases t i with
  | none => rfl
  | some child => exact look_samePath (by omega) path

theorem frames_perm_keys (zero : ω) (free : held zero = []) (hn : m ≤ w) :
    (frames w held n m t).Perm (tables w n m t ++
      (range (m * w ^ n)).flatMap fun key => held (look w zero n t key)) := by
  induction n generalizing m with
  | zero =>
    have none : tables w 0 m t = [] := by simp [tables, frames]
    rw [none, nil_append, Nat.pow_zero, Nat.mul_one]
    refine List.Perm.of_eq (flatMap_congr fun i hm => ?_)
    have lt : i < w := Nat.lt_of_lt_of_le (mem_range.mp hm) hn
    simp [look, index, mod_eq_of_lt lt]
  | succ n ih =>
    rw [tables_succ, flatMap_range_mul]
    refine List.Perm.trans ?_ (flatMap_append_perm ..).symm
    refine List.Perm.flatMap_left _ fun i hm => ?_
    have lt : i < w := Nat.lt_of_lt_of_le (mem_range.mp hm) hn
    cases slot : t i with
    | none =>
      have ht : ((range (w ^ (n + 1))).flatMap fun j =>
          held (look w zero (n + 1) t (i * w ^ (n + 1) + j))) = [] := by
        refine flatMap_eq_nil_iff.mpr fun j inner => ?_
        rw [look_slot lt (mem_range.mp inner), slot, free]
      rw [ht]
      exact .nil
    | some child =>
      have keys : ((range (w ^ (n + 1))).flatMap fun j =>
          held (look w zero (n + 1) t (i * w ^ (n + 1) + j))) =
          (range (w * w ^ n)).flatMap fun j => held (look w zero n child.2 j) := by
        rw [show w * w ^ n = w ^ (n + 1) by rw [Nat.pow_succ, Nat.mul_comm]]
        refine flatMap_congr fun j inner => ?_
        rw [look_slot lt (mem_range.mp inner), slot]
      rw [keys]
      simp only [slotFrames, append_assoc]
      exact ((ih (Nat.le_refl w)).append_right [child.1]).trans (by
        rw [append_assoc]
        exact (perm_append_comm).append_left _)

theorem foldlM_range {α : Type} {step : α → Nat → Option α} {P : Nat → α → Prop} {a b : α}
    (start : P 0 a) (hk : ∀ i < m, ∀ x y, P i x → step x i = some y → P (i + 1) y)
    (done : (range m).foldlM step a = some b) : P m b := by
  induction m generalizing b with
  | zero => exact some.inj done ▸ start
  | succ m ih =>
    rw [range_succ, foldlM_append] at done
    obtain ⟨mid, pre, last⟩ := bind_eq_some_iff.mp done
    have here := ih (fun i lt => hk i (lt_succ_of_lt lt)) pre
    exact hk m (lt_succ_self m) mid b here (by simpa using last)

/-- The rule for visits in the order of keys: a visit of key `k` takes the invariant from `k`
to `k + 1`, keys without an entry are passed over, and the tables stay as they are. -/
theorem Rep.visitAll {hv : Nat → ω → Memory ω × σ → Option (Memory ω × σ)}
    {inv : Nat → Memory ω × σ → Prop} {entries : Nat → ω} {last base : Nat} {s s' : Memory ω × σ}
    (hr : ∀ x o, points x o → follow x = o)
    (skips : ∀ k < last, ∀ s, entries k = zero → inv k s → inv (k + 1) s)
    (hk : ∀ k < last, ∀ s s', inv k s → hv k (entries k) s = some s' → inv (k + 1) s')
    (hc : ∀ k s, inv k s → ∀ g ∈ f :: tables w n m t, s.1 g = mem g) (hn : m ≤ w)
    (rep : Rep points w mem n m f t)
    (ha : ∀ key < m * w ^ n, look w zero n t key = entries (base * w ^ (n + 1) + key))
    (hi : base * w ^ (n + 1) + m * w ^ n ≤ last) (start : inv (base * w ^ (n + 1)) s)
    (done : visitAll follow hv w n m f base s = some s') :
    inv (base * w ^ (n + 1) + m * w ^ n) s' := by
  induction n generalizing m f base s s' with
  | zero =>
    simp only [Nat.zero_add, Nat.pow_zero, Nat.pow_one, Nat.mul_one] at ha hi start ⊢
    refine foldlM_range (P := fun i s => inv (base * w + i) s) start ?_ done
    intro i lt x y here hm
    have word : x.1 f i = entries (base * w + i) := by
      rw [← ha i lt, hc _ _ here f mem_cons_self, rep i lt]
      simp [look, index, mod_eq_of_lt (Nat.lt_of_lt_of_le lt hn)]
    rw [word] at hm
    exact hk (base * w + i) (by omega) x y here hm
  | succ n ih =>
    refine foldlM_range (P := fun i s => inv (base * w ^ (n + 1 + 1) + i * w ^ (n + 1)) s)
      (by simpa using start) ?_ done
    intro i lt x y here hm
    -- the keys below slot `i`, counted from the start of the whole traversal
    have hs : (base * w + i) * w ^ (n + 1) = base * w ^ (n + 1 + 1) + i * w ^ (n + 1) := by
      rw [Nat.add_mul, Nat.mul_assoc, ← Nat.pow_succ']
    have slotEnd : (i + 1) * w ^ (n + 1) ≤ m * w ^ (n + 1) := Nat.mul_le_mul_right _ lt
    rw [succ_mul] at slotEnd
    have slots (j : Nat) (hb : j < w ^ (n + 1)) : entries ((base * w + i) * w ^ (n + 1) + j) =
          match t i with
          | none => zero
          | some child => look w zero n child.2 j := by
      rw [hs, Nat.add_assoc, ← ha _ (by omega), look_slot (Nat.lt_of_lt_of_le lt hn) hb]
    rw [hc _ _ here f mem_cons_self, hr _ _ (rep i lt).1] at hm
    rw [← hs] at here
    rw [succ_mul, ← Nat.add_assoc, ← hs]
    cases slot : t i with
    | none =>
      simp only [slot, map_none, Option.some.injEq] at hm slots
      subst hm
      have hp : ∀ j ≤ w ^ (n + 1), inv ((base * w + i) * w ^ (n + 1) + j) x := by
        intro j
        induction j with
        | zero => exact fun _ => here
        | succ j ih =>
          intro hd
          exact skips ((base * w + i) * w ^ (n + 1) + j) (by omega) x (slots j hd) (ih (by omega))
      exact hp _ (Nat.le_refl _)
    | some child =>
      simp only [slot, map_some] at hm slots
      have hw : w * w ^ n = w ^ (n + 1) := Nat.pow_succ'.symm
      have hb := ih (fun k s ht g he => hc k s ht g (mem_cons_of_mem f
          (mem_tables_of_slot lt slot he))) (Nat.le_refl w) ((rep i lt).2 child slot)
        (fun key hd => (slots key (hw ▸ hd)).symm) (by omega) here hm
      rwa [hw] at hb

end

end Aegis.TableMemory
