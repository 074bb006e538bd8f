import Aegis.ByteLayout
import Aegis.PagedBuffer
import Aegis.Vmm

/-! Writing to the memory of a process through the frames behind its pages
(`vmm_write_user_bytes`, kernel/mm/vmm.c). Addresses are numbers below `2 ^ 47` here, so sums
of addresses and lengths do not wrap. `written` is a history variable: the addresses that were
written. -/

namespace Aegis.Memory

open ByteLayout PagedBuffer List

structure UserMem where
  space : Space
  bytes : TableMemory.Memory Byte
  written : List Nat

def readUser (s : Space) (bytes : TableMemory.Memory Byte) (va : Nat) : Option Byte :=
  let pte := s.pte (va / 4096)
  if pte.flags.present then some (bytes pte.frame (va % 4096)) else none

def UserMem.read (m : UserMem) (va : Nat) : Option Byte := readUser m.space m.bytes va

def copyToFrame (bytes : TableMemory.Memory Byte) (frame off : Nat) (src : List Byte) :
    TableMemory.Memory Byte :=
  pokes 4096 (fun _ => frame) off src.length (fun i => src.getD i 0) bytes

/-- The loop of `vmm_write_user_bytes`, page by page; `false` is the return of -1. -/
def writeChunks : Nat → Nat → List Byte → UserMem → UserMem × Bool
  | 0, _, _, m => (m, true)
  | fuel + 1, va, src, m =>
    if src.length = 0 then (m, true)
    else
      let chunk := min (4096 - va % 4096) src.length
      let frame := vmmPhysOfUser m.space (va / 4096)
      if frame = 0 then (m, false)
      else
        writeChunks fuel (va + chunk) (src.drop chunk)
          { m with
            bytes := copyToFrame m.bytes frame (va % 4096) (src.take chunk)
            written := (List.range chunk).map (va + ·) ++ m.written }

def vmmWriteUserBytes (m : UserMem) (va : Nat) (src : List Byte) : UserMem × Bool :=
  writeChunks src.length va src m

def vmmWriteUserU64 (m : UserMem) (va val : Nat) : UserMem × Bool :=
  vmmWriteUserBytes m va (leBytes 8 val)

section
variable {m : UserMem} {fuel va : Nat} {src : List Byte}

theorem writeChunks_space : (writeChunks fuel va src m).1.space = m.space := by
  induction fuel generalizing va src m with
  | zero => rfl
  | succ fuel ih =>
    rw [writeChunks]
    split
    · rfl
    dsimp only
    split
    · rfl
    · rw [ih]

@[simp] theorem vmmWriteUserBytes_space : (vmmWriteUserBytes m va src).1.space = m.space :=
  writeChunks_space

variable {a : Nat}

theorem writeChunks_written (mem : a ∈ (writeChunks fuel va src m).1.written) : a ∈ m.written ∨
      ((va ≤ a ∧ a < va + src.length) ∧ vmmPhysOfUser m.space (a / 4096) ≠ 0) := by
  induction fuel generalizing va src m with
  | zero => exact .inl mem
  | succ fuel ih =>
    rw [writeChunks] at mem
    split at mem
    · exact .inl mem
    dsimp only at mem
    split at mem
    · exact .inl mem
    next hm =>
    rcases ih mem with old | ⟨range, hl⟩
    · rcases mem_append.mp old with new | old
      · obtain ⟨i, lt, rfl⟩ := mem_map.mp new
        rw [mem_range] at lt
        -- a chunk ends with its page
        have page : (va + i) / 4096 = va / 4096 := by omega
        exact .inr ⟨by omega, page ▸ hm⟩
      · exact .inl old
    · rw [length_drop] at range
      exact .inr ⟨by omega, hl⟩

theorem vmmWriteUserBytes_written (mem : a ∈ (vmmWriteUserBytes m va src).1.written) :
    a ∈ m.written ∨ ((va ≤ a ∧ a < va + src.length) ∧ vmmPhysOfUser m.space (a / 4096) ≠ 0) :=
  writeChunks_written mem

theorem writeChunks_mono (mem : a ∈ m.written) : a ∈ (writeChunks fuel va src m).1.written := by
  induction fuel generalizing va src m with
  | zero => exact mem
  | succ fuel ih =>
    rw [writeChunks]
    split
    · exact mem
    dsimp only
    split
    · exact mem
    · exact ih (mem_append_right _ mem)

theorem vmmWriteUserBytes_mono (mem : a ∈ m.written) : a ∈ (vmmWriteUserBytes m va src).1.written :=
  writeChunks_mono mem

theorem vmmWriteUserBytes_first (some : 0 < src.length)
    (mapped : vmmPhysOfUser m.space (va / 4096) ≠ 0) :
    va ∈ (vmmWriteUserBytes m va src).1.written := by
  obtain ⟨fuel, long⟩ := Nat.exists_eq_add_of_lt some
  rw [Nat.zero_add] at long
  rw [vmmWriteUserBytes, long, writeChunks, if_neg (by omega), if_neg mapped]
  refine writeChunks_mono (mem_append_left _ (mem_map.mpr ⟨0, ?_, Nat.add_zero va⟩))
  rw [mem_range]
  omega

theorem writeChunks_bytes (he : src.length ≤ fuel)
    (hm : ∀ a, va ≤ a → a < va + src.length → vmmPhysOfUser m.space (a / 4096) ≠ 0) :
    (writeChunks fuel va src m).2 = true ∧ (writeChunks fuel va src m).1.bytes =
        pokes 4096 (vmmPhysOfUser m.space) va src.length (fun i => src.getD i 0) m.bytes := by
  induction fuel generalizing va src m with
  | zero =>
    have none : src.length = 0 := by omega
    rw [writeChunks, none]
    exact ⟨rfl, rfl⟩
  | succ fuel ih =>
    rw [writeChunks]
    split
    · next none =>
      rw [none]
      exact ⟨rfl, rfl⟩
    next some =>
    dsimp only
    rw [if_neg (hm va (le_refl va) (by omega))]
    generalize size : min (4096 - va % 4096) src.length = chunk
    have rest := @ih { m with
        bytes := copyToFrame m.bytes (vmmPhysOfUser m.space (va / 4096)) (va % 4096)
          (src.take chunk)
        written := (range chunk).map (va + ·) ++ m.written } (va + chunk) (src.drop chunk)
      (by rw [length_drop]; omega)
      (fun a low high => hm a (by omega) (by rw [length_drop] at high; omega))
    refine ⟨rest.1, rest.2.trans ?_⟩
    have h1 : copyToFrame m.bytes (vmmPhysOfUser m.space (va / 4096)) (va % 4096) (src.take chunk) =
        pokes 4096 (vmmPhysOfUser m.space) va chunk (fun i => src.getD i 0) m.bytes := by
      have long : (src.take chunk).length = chunk := by
        rw [length_take]
        omega
      rw [copyToFrame, long]
      refine (pokes_congr fun i lt => ?_).trans (pokes_page (by omega))
      simp only [getD_eq_getElem?_getD, getElem?_take_of_lt lt]
    have total : src.length = chunk + (src.drop chunk).length := by
      rw [length_drop]
      omega
    rw [total, pokes_add]
    dsimp only
    rw [h1]
    refine pokes_congr fun i _ => ?_
    simp only [getD_eq_getElem?_getD, getElem?_drop]

structure UserMem.Backed (m : UserMem) (low high : Nat) : Prop where
  mapped : ∀ page, low ≤ page → page < high → vmmPhysOfUser m.space page ≠ 0
  apart : Apart (fun page => low ≤ page ∧ page < high) (vmmPhysOfUser m.space)

theorem phys_ne_zero {s : Space} {page : Nat} (hm : vmmPhysOfUser s page ≠ 0) :
    (s.pte page).flags.present = true ∧ vmmPhysOfUser s page = (s.pte page).frame := by
  unfold vmmPhysOfUser at *
  split at hm
  · next hp => exact ⟨hp, if_pos hp⟩
  · exact absurd rfl hm

theorem UserMem.Backed.read {low high : Nat} (hb : m.Backed low high) (hi : low * 4096 ≤ a)
    (hi' : a < high * 4096) :
    m.read a = some (peek 4096 (vmmPhysOfUser m.space) m.bytes a) := by
  obtain ⟨hp, frame⟩ := phys_ne_zero (hb.mapped (a / 4096) (by omega) (by omega))
  rw [UserMem.read, readUser, if_pos hp, peek, frame]

theorem UserMem.Backed.write {low high : Nat} (hb : m.Backed low high)
    (hi : low * 4096 ≤ va) (hi' : va + src.length ≤ high * 4096) :
    (vmmWriteUserBytes m va src).2 = true ∧ (vmmWriteUserBytes m va src).1.Backed low high ∧
      Holds (vmmWriteUserBytes m va src).1.read va src ∧
      ∀ a, low * 4096 ≤ a → a < high * 4096 → (a < va ∨ va + src.length ≤ a) →
        (vmmWriteUserBytes m va src).1.read a = m.read a := by
  obtain ⟨done, bytes⟩ := @writeChunks_bytes m src.length va src (Nat.le_refl _)
    fun a ha hl => hb.mapped (a / 4096) (by omega) (by omega)
  have hb' : (vmmWriteUserBytes m va src).1.Backed low high :=
    ⟨by simpa using hb.mapped, by simpa using hb.apart⟩
  have byte (a : Nat) (ha : low * 4096 ≤ a) (hl : a < high * 4096) :
      (vmmWriteUserBytes m va src).1.read a =
        if va ≤ a ∧ a < va + src.length then some (src.getD (a - va) 0) else m.read a := by
    rw [hb'.read ha hl, vmmWriteUserBytes_space, vmmWriteUserBytes, bytes,
      peek_pokes hb.apart (fun i lt => by omega) (by omega), hb.read ha hl]
    split
    · rfl
    · rfl
  refine ⟨done, hb', holds_iff.mpr fun i lt => ?_, fun a ha hl outside => ?_⟩
  · rw [byte (va + i) (by omega) (by omega), if_pos (by omega), Nat.add_sub_cancel_left,
      getD_eq_getElem?_getD, getElem?_eq_getElem lt, Option.getD_some]
  · rw [byte a ha hl, if_neg (by omega)]

end

end Aegis.Memory
