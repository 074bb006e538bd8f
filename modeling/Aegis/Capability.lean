import Mathlib.Data.List.Basic

/-! The capability table of a process and the two operations of `kernel/cap/src/lib.rs`.
`cap_grant` fills the first empty slot; `cap_check` looks for one slot that holds the
kind with at least the requested rights, so rights of different slots never add up. -/

namespace Aegis.Capability

open List

abbrev Rights := BitVec 32

def capKindNull : Nat := 0
def capKindVfsOpen : Nat := 1
def capKindVfsWrite : Nat := 2
def capKindVfsRead : Nat := 3
def capKindAuth : Nat := 4
def capKindCapGrant : Nat := 5
def capKindSetuid : Nat := 6
def capKindNetSocket : Nat := 7
def capKindNetAdmin : Nat := 8
def capKindThreadCreate : Nat := 9
def capKindProcRead : Nat := 10
def capKindDiskAdmin : Nat := 11
def capKindFb : Nat := 12
def capKindCapDelegate : Nat := 13
def capKindCapQuery : Nat := 14
def capKindIpc : Nat := 15
def capKindPower : Nat := 16

def capRightsRead : Rights := 1
def capRightsWrite : Rights := 2
def capRightsExec : Rights := 4

structure CapSlot where
  kind : Nat
  rights : Rights

def capTableSize : Nat := 64

structure CapTable where
  slots : List CapSlot
  size : slots.length = capTableSize

def emptyCaps : CapTable := ⟨List.replicate capTableSize ⟨capKindNull, 0⟩, by simp⟩

/-- The slots after the loop of `cap_grant`; nothing changes when none is empty. -/
def grantSlots (cap : CapSlot) : List CapSlot → List CapSlot
  | [] => []
  | slot :: rest => if slot.kind = capKindNull then cap :: rest else slot :: grantSlots cap rest

@[simp] theorem grantSlots_length (cap : CapSlot) (slots : List CapSlot) :
    (grantSlots cap slots).length = slots.length := by
  induction slots with
  | nil => rfl
  | cons slot rest ih =>
    rw [grantSlots]
    split_ifs
    · rfl
    · rw [length_cons, ih, length_cons]

def capGrant (table : CapTable) (kind : Nat) (rights : Rights) : CapTable :=
  ⟨grantSlots ⟨kind, rights⟩ table.slots, by rw [grantSlots_length, table.size]⟩

/-- The return value of `cap_grant`: the slot filled, or -ENOCAP. -/
def capGrantResult (table : CapTable) : Int :=
  match table.slots.findIdx? fun slot => slot.kind = capKindNull with
  | some i => i
  | none => -130

def covers (slot : CapSlot) (kind : Nat) (rights : Rights) : Bool :=
  slot.kind = kind && slot.rights &&& rights = rights

def capCheck (table : CapTable) (kind : Nat) (rights : Rights) : Bool :=
  table.slots.any fun slot => covers slot kind rights

variable {cap : CapSlot} {slots : List CapSlot}

theorem mem_grantSlots {slot : CapSlot} (mem : slot ∈ grantSlots cap slots) :
    slot = cap ∨ slot ∈ slots := by
  induction slots with
  | nil => simp [grantSlots] at mem
  | cons head rest ih =>
    rw [grantSlots] at mem
    split_ifs at mem
    · rcases mem_cons.mp mem with eq | old
      · exact .inl eq
      · exact .inr (.tail _ old)
    · rcases mem_cons.mp mem with eq | old
      · exact .inr (mem_cons.mpr (.inl eq))
      · exact (ih old).imp_right (mem_cons_of_mem _)

def vacancies (slots : List CapSlot) : Nat := slots.countP fun slot => slot.kind = capKindNull

theorem mem_grantSlots_of_vacancy (room : 0 < vacancies slots) : cap ∈ grantSlots cap slots := by
  induction slots with
  | nil => simp [vacancies] at room
  | cons head rest ih =>
    rw [grantSlots]
    split_ifs with empty
    · exact .head _
    · refine .tail _ (ih ?_)
      simpa [vacancies, empty] using room

theorem mem_grantSlots_of_mem {slot : CapSlot} (mem : slot ∈ slots)
    (hk : slot.kind ≠ capKindNull) : slot ∈ grantSlots cap slots := by
  induction slots with
  | nil => cases mem
  | cons head rest ih =>
    rw [grantSlots]
    rcases mem_cons.mp mem with rfl | hl
    · rw [if_neg hk]
      exact .head _
    split_ifs
    · exact .tail _ hl
    · exact .tail _ (ih hl)

theorem vacancies_grantSlots : vacancies slots ≤ vacancies (grantSlots cap slots) + 1 := by
  induction slots with
  | nil => exact Nat.zero_le 1
  | cons head rest ih =>
    rw [grantSlots]
    split_ifs with empty
    · simp only [vacancies, countP_cons, empty]
      simp
    · simpa [vacancies, empty] using ih

theorem capCheck_iff {table : CapTable} {kind : Nat} {rights : Rights} :
    capCheck table kind rights = true ↔
      ∃ slot ∈ table.slots, slot.kind = kind ∧ slot.rights &&& rights = rights := by
  simp [capCheck, covers]

theorem rights_trans {a b c : Rights} (outer : a &&& b = b) (inner : b &&& c = c) :
    a &&& c = c := by
  rw [← inner, ← BitVec.and_assoc, outer]

theorem capCheck_of_fewer {table : CapTable} {kind : Nat} {more hf : Rights}
    (check : capCheck table kind more = true) (sub : more &&& hf = hf) :
    capCheck table kind hf = true := by
  obtain ⟨slot, mem, eq, hh⟩ := capCheck_iff.mp check
  exact capCheck_iff.mpr ⟨slot, mem, eq, rights_trans hh sub⟩

end Aegis.Capability
