import Aegis.Tally

/-! Open descriptors of several tables, as one list. A descriptor is a place (table and
number) and the file it refers to; places are taken once. `held` counts the descriptors of a
file, which is what a reference count has to follow through open, dup, copy and close. -/

namespace Aegis.Descriptors

open List

structure Descriptor (φ : Type*) where
  table : Nat
  fd : Nat
  file : φ

variable {φ : Type*}

section Operations
variable (ds : List (Descriptor φ)) (T U i : Nat)

def Descriptor.place (d : Descriptor φ) : Nat × Nat :=
  (d.table, d.fd)

def fileAt : Option φ :=
  (ds.find? fun d => d.place = (T, i)).map Descriptor.file

def freeFd (limit : Nat) : Option Nat :=
  (List.range limit).find? fun i => (fileAt ds T i).isNone

def closeAt : List (Descriptor φ) :=
  ds.filter fun d => d.place ≠ (T, i)

def tableFiles : List φ :=
  (ds.filter fun d => d.table = T).map Descriptor.file

def copyTable : List (Descriptor φ) :=
  (ds.filter fun d => d.table = T).map (fun d => { d with table := U }) ++ ds

def Unused : Prop :=
  ∀ d ∈ ds, d.table ≠ T
  deriving Decidable

def Distinct : Prop :=
  (ds.map Descriptor.place).Nodup

def held [DecidableEq φ] (f : φ) : Nat :=
  ds.countP fun d => d.file = f

end Operations

variable {ds : List (Descriptor φ)} {T U i : Nat} {f g : φ}

theorem exists_of_fileAt (hf : fileAt ds T i = some f) :
    ∃ d ∈ ds, d.place = (T, i) ∧ d.file = f := by
  obtain ⟨d, h1, file⟩ := Option.map_eq_some_iff.mp hf
  exact ⟨d, mem_of_find?_eq_some h1, by simpa using find?_some h1, file⟩

open Descriptor

theorem fileAt_eq_none : fileAt ds T i = none ↔ (T, i) ∉ ds.map place := by
  simp [fileAt, find?_eq_none]

theorem fileAt_of_freeFd {limit : Nat} (free : freeFd ds T limit = some i) :
    fileAt ds T i = none := by
  simpa using find?_some free

theorem Distinct.cons (ne : Distinct ds) (free : fileAt ds T i = none) :
    Distinct (⟨T, i, f⟩ :: ds) :=
  nodup_cons.mpr ⟨fileAt_eq_none.mp free, ne⟩

theorem Distinct.closeAt (ne : Distinct ds) : Distinct (closeAt ds T i) :=
  ne.sublist ((filter_sublist ..).map _)

@[simp] theorem fileAt_closeAt : fileAt (closeAt ds T i) T i = none := by
  simp [fileAt_eq_none, closeAt]

theorem Distinct.copyTable (distinct : Distinct ds) (unused : Unused ds U) :
    Distinct (copyTable ds T U) := by
  rw [Distinct, Descriptors.copyTable, map_append, nodup_append]
  refine ⟨?_, distinct, ?_⟩
  · have own : ((ds.filter fun d => d.table = T).map place).Nodup :=
      distinct.sublist ((filter_sublist ..).map _)
    rw [map_map]
    refine (nodup_map_iff_inj_on (List.Nodup.of_map _ own)).mpr fun a ha b hb same => ?_
    have tables : a.table = b.table := by
      simp only [mem_filter, decide_eq_true_eq] at ha hb
      exact ha.2.trans hb.2.symm
    have fds : a.fd = b.fd := congrArg Prod.snd same
    exact inj_on_of_nodup_map own ha hb (Prod.ext tables fds)
  · rintro _ copied _ old rfl
    obtain ⟨d, there, place⟩ := mem_map.mp old
    obtain ⟨c, fresh, copy⟩ := mem_map.mp copied
    obtain ⟨_, -, rfl⟩ := mem_map.mp fresh
    exact unused d there ((congrArg Prod.fst place).trans (congrArg Prod.fst copy).symm)

section Counting
variable [DecidableEq φ]

@[simp] theorem held_nil : held ([] : List (Descriptor φ)) f = 0 := rfl

@[simp] theorem held_cons {d : Descriptor φ} :
    held (d :: ds) f = held ds f + (decide (d.file = f)).toNat := by
  rw [held, countP_cons, held]
  by_cases eq : d.file = f <;> simp [eq]

theorem held_closeAt (ne : Distinct ds) (hf : fileAt ds T i = some f) :
    held (closeAt ds T i) g + (decide (f = g)).toNat = held ds g := by
  induction ds with
  | nil => cases hf
  | cons d ds ih =>
    obtain ⟨hr, rest⟩ := nodup_cons.mp ne
    by_cases here : d.place = (T, i)
    · have file : d.file = f := by simpa [fileAt, here] using hf
      have ho : closeAt ds T i = ds := by
        refine filter_eq_self.mpr fun e ht => ?_
        have ha : e.place ≠ d.place := fun eq => hr (eq ▸ mem_map_of_mem ht)
        simpa [here] using ha
      have hc : closeAt (d :: ds) T i = ds := by
        simpa [closeAt, here] using ho
      rw [hc, held_cons, file]
    · have hl : fileAt ds T i = some f := by simpa [fileAt, here] using hf
      have hc : closeAt (d :: ds) T i = d :: closeAt ds T i := by
        simp [closeAt, here]
      have hn := ih rest hl
      rw [hc, held_cons, held_cons]
      omega

theorem held_pos (hf : fileAt ds T i = some f) : 0 < held ds f := by
  obtain ⟨d, ht, -, file⟩ := exists_of_fileAt hf
  exact countP_pos_iff.mpr ⟨d, ht, by simpa using file⟩

theorem held_copyTable : held (copyTable ds T U) f = held ds f + (tableFiles ds T).count f := by
  have hc (l : List (Descriptor φ)) :
      held (l.map fun d => { d with table := U }) f = (l.map file).count f := by
    induction l with
    | nil => rfl
    | cons d l ih =>
      rw [map_cons, held_cons, ih, map_cons, count_cons]
      by_cases eq : d.file = f <;> simp [eq]
  rw [copyTable, held, countP_append, add_comm]
  exact congrArg (held ds f + ·) (hc _)

theorem held_pos_of_mem (mem : f ∈ tableFiles ds T) : 0 < held ds f := by
  obtain ⟨d, ht, file⟩ := mem_map.mp mem
  exact countP_pos_iff.mpr ⟨d, (mem_filter.mp ht).1, by simpa using file⟩

end Counting

end Aegis.Descriptors
