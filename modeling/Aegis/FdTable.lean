import Aegis.Sched
import Aegis.Tally

/-! File descriptor tables and the references of pipes: `fd_table.c`, the descriptor calls
of `sys_file.c` and the close and dup hooks of `pipe.c`. A slot names an end of a pipe or
another file, whose references are left out. `Sound` says that every count is the number of
slots in the tables that exist; a table that is freed without closing its slots breaks it. -/

namespace Aegis.Process

open Function List

open Sched (PipeId PipeEnd)

abbrev TableId := Nat

def procMaxFds : Nat := 16

structure Slot where
  pipeEnd : Option PipeEnd
  cloexec : Bool

structure FdTable where
  fds : Nat → Option Slot
  refcount : Nat

/-- The tables that exist, `read_refs` and `write_refs` of every pipe, and the pipes whose
page was given back. Numbers from `nextTable` and `nextPipe` on are unused. -/
structure FdState where
  table : TableId → FdTable
  tables : List TableId
  nextTable : TableId
  refs : PipeEnd → Nat
  nextPipe : PipeId
  freed : List PipeId

def endPipe : PipeEnd → PipeId
  | .readEnd p => p
  | .writeEnd p => p

namespace FdState

variable (fd : FdState)

def setTable (T : TableId) (f : FdTable → FdTable) : FdState :=
  { fd with table := update fd.table T (f (fd.table T)) }

def setSlot (T : TableId) (i : Nat) (slot : Option Slot) : FdState :=
  fd.setTable T fun table => { table with fds := update table.fds i slot }

def dupHook : Option PipeEnd → FdState
  | none => fd
  | some e => { fd with refs := update fd.refs e (fd.refs e + 1) }

/-- The close hook: the last reference of both ends frees the pipe. -/
def closeHook : Option PipeEnd → FdState
  | none => fd
  | some e =>
    let refs := update fd.refs e (fd.refs e - 1)
    { fd with
      refs := refs
      freed :=
        if refs (.readEnd (endPipe e)) = 0 ∧ refs (.writeEnd (endPipe e)) = 0 then
          endPipe e :: fd.freed
        else fd.freed }

def closeSlot (T : TableId) (i : Nat) : FdState :=
  match (fd.table T).fds i with
  | none => fd
  | some slot => (fd.setSlot T i none).closeHook slot.pipeEnd

def freeSlots (T : TableId) (low : Nat) : List Nat :=
  (List.range' low (procMaxFds - low)).filter fun i => ((fd.table T).fds i).isNone

def newTable (fds : Nat → Option Slot) : FdState :=
  { fd with
    table := update fd.table fd.nextTable ⟨fds, 1⟩
    tables := fd.nextTable :: fd.tables
    nextTable := fd.nextTable + 1 }

def fdTableAlloc : FdState :=
  fd.newTable fun _ => none

def fdTableRef (T : TableId) : FdState :=
  fd.setTable T fun table => { table with refcount := table.refcount + 1 }

/-- `kva_free_pages` on the table: nothing is closed. -/
def freeTable (T : TableId) : FdState :=
  { fd with tables := fd.tables.erase T }

def closeAll (T : TableId) : FdState :=
  (List.range procMaxFds).foldl (fun fd i => fd.closeSlot T i) fd

def countDown (T : TableId) : FdState :=
  fd.setTable T fun table => { table with refcount := table.refcount - 1 }

def fdTableUnref (T : TableId) : FdState :=
  if 1 < (fd.table T).refcount then fd.countDown T
  else ((fd.countDown T).closeAll T).freeTable T

def dupAll (fds : Nat → Option Slot) : FdState :=
  (List.range procMaxFds).foldl (fun fd i => fd.dupHook ((fds i).bind Slot.pipeEnd)) fd

def fdTableCopy (src : TableId) : FdState :=
  (fd.newTable (fd.table src).fds).dupAll (fd.table src).fds

variable (T : TableId)

def sysPipe2 (cloexec : Bool) : FdState :=
  match fd.freeSlots T 0 with
  | rfd :: wfd :: _ =>
    let p := fd.nextPipe
    FdState.setSlot
      (FdState.setSlot
        { fd with
          refs := update (update fd.refs (.readEnd p) 1) (.writeEnd p) 1
          nextPipe := p + 1 }
        T rfd (some ⟨some (.readEnd p), cloexec⟩))
      T wfd (some ⟨some (.writeEnd p), cloexec⟩)
  | _ => fd

def copySlot (slot : Slot) (new : Nat) (cloexec : Bool) : FdState :=
  (fd.setSlot T new (some ⟨slot.pipeEnd, cloexec⟩)).dupHook slot.pipeEnd

def slotAt (i : Nat) : Option Slot :=
  if i < procMaxFds then (fd.table T).fds i else none

/-- `F_DUPFD` and `F_DUPFD_CLOEXEC`; `sys_dup` is the first from slot 0. -/
def fcntlDup (old low : Nat) (cloexec : Bool) : FdState :=
  match fd.slotAt T old, (fd.freeSlots T low).head? with
  | some slot, some new => fd.copySlot T slot new cloexec
  | _, _ => fd

def sysDup (old : Nat) : FdState :=
  fd.fcntlDup T old 0 false

def sysDup2 (old new : Nat) : FdState :=
  match fd.slotAt T old with
  | none => fd
  | some slot =>
    if procMaxFds ≤ new ∨ old = new then fd
    else (fd.closeSlot T new).copySlot T slot new false

def sysClose (i : Nat) : FdState :=
  if i < procMaxFds then fd.closeSlot T i else fd

def setCloexec (i : Nat) (cloexec : Bool) : FdState :=
  match fd.slotAt T i with
  | none => fd
  | some slot => fd.setSlot T i (some { slot with cloexec := cloexec })

def closeOnExec : FdState :=
  (List.range procMaxFds).foldl (fun fd i =>
    if ((fd.table T).fds i).any Slot.cloexec then fd.closeSlot T i else fd) fd

def shareStdio (slot : Slot) : FdState :=
  [0, 1, 2].foldl (fun fd i => fd.copySlot T slot i slot.cloexec) fd

end FdState

inductive FdCall
  | pipe2 (cloexec : Bool)
  | dup (old : Nat)
  | dup2 (old new : Nat)
  | fcntlDup (old low : Nat) (cloexec : Bool)
  | setCloexec (i : Nat) (cloexec : Bool)
  | close (i : Nat)
  deriving DecidableEq

def FdState.call (fd : FdState) (T : TableId) : FdCall → FdState
  | .pipe2 cloexec => fd.sysPipe2 T cloexec
  | .dup old => fd.sysDup T old
  | .dup2 old new => fd.sysDup2 T old new
  | .fcntlDup old low cloexec => fd.fcntlDup T old low cloexec
  | .setCloexec i cloexec => fd.setCloexec T i cloexec
  | .close i => fd.sysClose T i

def names (slot : Option Slot) (e : PipeEnd) : Bool :=
  decide (slot.bind Slot.pipeEnd = some e)

def slotCount (fds : Nat → Option Slot) (e : PipeEnd) : Nat :=
  (List.range procMaxFds).countP fun i => names (fds i) e

def FdState.total (fd : FdState) (e : PipeEnd) : Nat :=
  (fd.tables.map fun T => slotCount (fd.table T).fds e).sum

/-- Pipes from `nextPipe` on have no references, and the page of a pipe is given back once,
when both counts are zero. -/
structure Counted (fd : FdState) : Prop where
  unused : ∀ e, fd.nextPipe ≤ endPipe e → fd.refs e = 0
  freed : ∀ p, p ∈ fd.freed ↔ p < fd.nextPipe ∧ ∀ e, endPipe e = p → fd.refs e = 0
  once : fd.freed.Nodup

structure Sound (fd : FdState) : Prop extends Counted fd where
  nodup : fd.tables.Nodup
  older : ∀ T ∈ fd.tables, T < fd.nextTable
  balanced : ∀ e, fd.refs e = fd.total e

variable {fd : FdState} {T U : TableId} {i : Nat} {e : PipeEnd} {file : Option PipeEnd}
  {slot : Option Slot} {s : Slot} {p : PipeId} {l : List Nat} {cloexec : Bool}

theorem names_some : names (some s) e = decide (s.pipeEnd = some e) := rfl

@[simp] theorem names_none : names none e = false := by
  simp [names]

theorem forall_ends {P : PipeEnd → Prop} :
    (∀ e, endPipe e = p → P e) ↔ P (.readEnd p) ∧ P (.writeEnd p) := by
  constructor
  · intro all
    exact ⟨all _ rfl, all _ rfl⟩
  intro both e eq
  subst eq
  cases e with
  | readEnd q => exact both.1
  | writeEnd q => exact both.2

theorem slotCount_update (fds : Nat → Option Slot) (hi : i < procMaxFds) :
    slotCount (update fds i slot) e + (names (fds i) e).toNat =
      slotCount fds e + (names slot e).toNat := by
  have hc := @Tally.countP_change Nat (range procMaxFds) i (fun j => names (fds j) e)
    (fun j => names (update fds i slot j) e) nodup_range (mem_range.mpr hi)
    fun j _ other => by rw [update_of_ne other]
  rwa [update_self] at hc

open FdState

theorem setSlot_total (nodup : fd.tables.Nodup) (hl : T ∈ fd.tables) (hi : i < procMaxFds) :
    (fd.setSlot T i slot).total e + (names ((fd.table T).fds i) e).toNat =
      fd.total e + (names slot e).toNat := by
  have tables := @Tally.sum_change TableId fd.tables T (fun U => slotCount (fd.table U).fds e)
    (fun U => slotCount ((fd.setSlot T i slot).table U).fds e) nodup hl
    fun U _ other => by simp [setSlot, setTable, other]
  have slots := @slotCount_update i e slot (fd.table T).fds hi
  simp only [setSlot, setTable, update_self] at tables
  simp only [total, setSlot, setTable]
  omega

theorem Sound.refs_pos (ho : Sound fd) (hl : T ∈ fd.tables) (hi : i < procMaxFds)
    (hn : names ((fd.table T).fds i) e = true) : 0 < fd.refs e := by
  rw [ho.balanced]
  have here : 0 < slotCount (fd.table T).fds e := countP_pos_iff.mpr ⟨i, mem_range.mpr hi, hn⟩
  exact lt_of_lt_of_le here (Tally.le_sum (f := fun T => slotCount (fd.table T).fds e) hl)

theorem dupHook_refs : (fd.dupHook file).refs e = fd.refs e + (decide (file = some e)).toNat := by
  cases file with
  | none => rfl
  | some d =>
    by_cases eq : d = e
    · subst eq
      simp [dupHook]
    · simp [dupHook, eq, Ne.symm eq]

theorem closeHook_refs :
    (fd.closeHook file).refs e = fd.refs e - (decide (file = some e)).toNat := by
  cases file with
  | none => rfl
  | some d =>
    by_cases eq : d = e
    · subst eq
      simp [closeHook]
    · simp [closeHook, eq, Ne.symm eq]

theorem dupHook_tables : (fd.dupHook file).tables = fd.tables ∧
    (fd.dupHook file).table = fd.table ∧ (fd.dupHook file).nextTable = fd.nextTable ∧
    (fd.dupHook file).nextPipe = fd.nextPipe ∧ (fd.dupHook file).freed = fd.freed := by
  cases file <;> exact ⟨rfl, rfl, rfl, rfl, rfl⟩

theorem closeHook_tables : (fd.closeHook file).tables = fd.tables ∧
    (fd.closeHook file).table = fd.table ∧ (fd.closeHook file).nextTable = fd.nextTable ∧
    (fd.closeHook file).nextPipe = fd.nextPipe := by
  cases file <;> exact ⟨rfl, rfl, rfl, rfl⟩

theorem dupHook_total : (fd.dupHook file).total e = fd.total e := by
  cases file <;> rfl

theorem closeHook_total : (fd.closeHook file).total e = fd.total e := by
  cases file <;> rfl

theorem Counted.dup (hc : Counted fd) (open_ : ∀ e, file = some e → 0 < fd.refs e) :
    Counted (fd.dupHook file) := by
  obtain ⟨-, -, -, hn, hf⟩ := @dupHook_tables fd file
  have idle : ∀ e, fd.refs e = 0 → (fd.dupHook file).refs e = 0 := by
    intro e none
    have other : file ≠ some e := fun eq => absurd (open_ e eq) (by omega)
    simp [dupHook_refs, other, none]
  refine ⟨fun e hb => ?_, fun p => ?_, hf ▸ hc.once⟩
  · exact idle e (hc.unused e (hn ▸ hb))
  rw [hf, hn, hc.freed p]
  refine and_congr_right fun _ => ⟨fun all e eq => idle e (all e eq), fun all e eq => ?_⟩
  have after := all e eq
  rw [dupHook_refs] at after
  omega

theorem mem_closeHook_freed {d : PipeEnd} : p ∈ (fd.closeHook (some d)).freed ↔ p ∈ fd.freed ∨
      p = endPipe d ∧ ∀ e, endPipe e = p → (fd.closeHook (some d)).refs e = 0 := by
  simp only [forall_ends, closeHook]
  by_cases last : update fd.refs d (fd.refs d - 1) (.readEnd (endPipe d)) = 0 ∧
      update fd.refs d (fd.refs d - 1) (.writeEnd (endPipe d)) = 0
  · rw [if_pos last, mem_cons]
    constructor
    · rintro (rfl | old)
      · exact .inr ⟨rfl, last⟩
      · exact .inl old
    · rintro (old | ⟨eq, -⟩)
      · exact .inr old
      · exact .inl eq
  · rw [if_neg last]
    constructor
    · exact .inl
    rintro (old | ⟨rfl, zero⟩)
    · exact old
    · exact absurd zero last

theorem closeHook_once {d : PipeEnd} (once : fd.freed.Nodup) (hf : endPipe d ∉ fd.freed) :
    (fd.closeHook (some d)).freed.Nodup := by
  simp only [closeHook]
  split
  · exact once.cons hf
  · exact once

theorem Counted.close (hc : Counted fd) (open_ : ∀ e, file = some e → 0 < fd.refs e) :
    Counted (fd.closeHook file) := by
  cases file with
  | none => exact hc
  | some d =>
    have used := open_ d rfl
    have hr : endPipe d ∉ fd.freed := fun hf =>
      used.ne' (((hc.freed _).mp hf).2 d rfl)
    have ha : endPipe d < fd.nextPipe := Nat.lt_of_not_le fun hb => used.ne' (hc.unused d hb)
    refine ⟨fun e hb => ?_, fun p => ?_, closeHook_once hc.once hr⟩
    · rw [closeHook_refs, hc.unused e hb, Nat.zero_sub]
    rw [mem_closeHook_freed, hc.freed p]
    by_cases he : p = endPipe d
    · subst he
      have live : ¬∀ e, endPipe e = endPipe d → fd.refs e = 0 := fun all =>
        used.ne' (all d rfl)
      simp [live, ha, closeHook]
    · have kept : ∀ e, endPipe e = p → (fd.closeHook (some d)).refs e = fd.refs e := by
        intro e at_
        have other : d ≠ e := fun eq => he (eq ▸ at_.symm)
        simp [closeHook_refs, other]
      simp only [he, false_and, or_false, closeHook_tables]
      exact and_congr_right fun _ => forall₂_congr fun e at_ => by rw [kept e at_]

theorem closeSlot_table : (fd.closeSlot T i).table = (fd.setSlot T i none).table := by
  cases held : (fd.table T).fds i with
  | none =>
    have eq : update (fd.table T).fds i none = (fd.table T).fds := held ▸ update_eq_self i _
    simp [closeSlot, setSlot, setTable, held, eq]
  | some s => simp [closeSlot, held, closeHook_tables]

structure Kept (fd fd' : FdState) : Prop where
  sound : Sound fd'
  tables : fd'.tables = fd.tables
  nextTable : fd'.nextTable = fd.nextTable
  refcount : ∀ U, (fd'.table U).refcount = (fd.table U).refcount

theorem Sound.kept {fd' : FdState} (ho : Sound fd) (hc : Counted fd')
    (tables : fd'.tables = fd.tables) (next : fd'.nextTable = fd.nextTable)
    (hr : ∀ U, (fd'.table U).refcount = (fd.table U).refcount)
    (hb : ∀ e, fd.refs e = fd.total e → fd'.refs e = fd'.total e) : Kept fd fd' := by
  refine ⟨⟨hc, tables ▸ ho.nodup, ?_, fun e => hb e (ho.balanced e)⟩, tables, next, hr⟩
  rw [tables, next]
  exact ho.older

theorem Kept.refl (ho : Sound fd) : Kept fd fd := ⟨ho, rfl, rfl, fun _ => rfl⟩

theorem Kept.trans {fd₁ fd₂ : FdState} (h1 : Kept fd fd₁) (h2 : Kept fd₁ fd₂) : Kept fd fd₂ :=
  ⟨h2.sound, h2.tables.trans h1.tables, h2.nextTable.trans h1.nextTable,
    fun U => (h2.refcount U).trans (h1.refcount U)⟩

theorem Kept.foldl {step : FdState → Nat → FdState}
    (hr : ∀ fd i, Sound fd → T ∈ fd.tables → i ∈ l → Kept fd (step fd i)) (ho : Sound fd)
    (hl : T ∈ fd.tables) : Kept fd (l.foldl step fd) := by
  induction l generalizing fd with
  | nil => exact .refl ho
  | cons i l ih =>
    have h1 := hr fd i ho hl mem_cons_self
    exact h1.trans (ih (fun fd j ho hl mem =>
      hr fd j ho hl (mem_cons_of_mem i mem)) h1.sound
      (h1.tables ▸ hl))

theorem setSlot_refcount : ((fd.setSlot T i slot).table U).refcount = (fd.table U).refcount := by
  by_cases eq : U = T
  · subst eq
    simp [setSlot, setTable]
  · simp [setSlot, setTable, eq]

theorem foldl_closeSlot_fds (hc : i ∈ l ∨ (fd.table T).fds i = none) :
    ((l.foldl (fun fd j => fd.closeSlot T j) fd).table T).fds i = none := by
  induction l generalizing fd with
  | nil => simpa using hc
  | cons j l ih =>
    apply ih
    rw [closeSlot_table]
    by_cases eq : i = j
    · subst eq
      exact .inr (by simp [setSlot, setTable])
    · simpa [setSlot, setTable, eq] using hc

theorem slotCount_eq_zero {fds : Nat → Option Slot}
    (hc : ∀ i < procMaxFds, names (fds i) e = false) : slotCount fds e = 0 :=
  countP_eq_zero.mpr fun i mem => by simp [hc i (mem_range.mp mem)]

theorem closeAll_slotCount : slotCount ((fd.closeAll T).table T).fds e = 0 := by
  refine slotCount_eq_zero fun i hi => ?_
  rw [closeAll, foldl_closeSlot_fds (.inl (mem_range.mpr hi)), names_none]

theorem Sound.setTable {f : FdTable → FdTable} (eq : ∀ table, (f table).fds = table.fds)
    (ho : Sound fd) : Sound (fd.setTable T f) := by
  refine ⟨⟨ho.unused, ho.freed, ho.once⟩, ho.nodup, ho.older, fun e => ?_⟩
  refine (ho.balanced e).trans (congrArg List.sum (map_congr_left fun U _ => ?_))
  by_cases here : U = T
  · subst here
    simp [FdState.setTable, eq]
  · simp [FdState.setTable, here]

theorem countDown_refcount :
    ((fd.countDown T).table U).refcount = (fd.table U).refcount - (decide (U = T)).toNat := by
  by_cases here : U = T
  · subst here
    simp [countDown, setTable]
  · simp [countDown, setTable, here]

theorem dupAll_refs {fds : Nat → Option Slot} :
    (l.foldl (fun fd i => fd.dupHook ((fds i).bind Slot.pipeEnd)) fd).refs e =
      fd.refs e + l.countP fun i => names (fds i) e := by
  induction l generalizing fd with
  | nil => rfl
  | cons i l ih =>
    rw [foldl_cons, ih, dupHook_refs, countP_cons, names]
    cases decide ((fds i).bind Slot.pipeEnd = some e) <;> simp
    omega

theorem Counted.dupAll {fds : Nat → Option Slot} (hc : Counted fd)
    (open_ : ∀ i ∈ l, ∀ e, names (fds i) e = true → 0 < fd.refs e) :
    Counted (l.foldl (fun fd i => fd.dupHook ((fds i).bind Slot.pipeEnd)) fd) := by
  induction l generalizing fd with
  | nil => exact hc
  | cons i l ih =>
    refine ih (hc.dup fun e hn => ?_) fun j mem e hn => ?_
    · exact open_ i mem_cons_self e (decide_eq_true hn)
    rw [dupHook_refs]
    have pre := open_ j (.tail _ mem) e hn
    omega

theorem dupAll_tables {fds : Nat → Option Slot} :
    let hc := l.foldl (fun fd i => fd.dupHook ((fds i).bind Slot.pipeEnd)) fd
    hc.tables = fd.tables ∧ hc.table = fd.table ∧ hc.nextTable = fd.nextTable := by
  induction l generalizing fd with
  | nil => exact ⟨rfl, rfl, rfl⟩
  | cons i l ih =>
    obtain ⟨tables, table, hn, -⟩ := @dupHook_tables fd ((fds i).bind Slot.pipeEnd)
    obtain ⟨tables', table', nextTable'⟩ := @ih (fd.dupHook ((fds i).bind Slot.pipeEnd))
    exact ⟨tables'.trans tables, table'.trans table, nextTable'.trans hn⟩

section NewTable

variable {fds : Nat → Option Slot}

theorem newTable_table (hl : T ∈ fd.tables) (ho : Sound fd) :
    (fd.newTable fds).table T = fd.table T :=
  update_of_ne (ne_of_lt (ho.older T hl)) _ _

theorem newTable_total (ho : Sound fd) :
    (fd.newTable fds).total e = slotCount fds e + fd.total e := by
  have kept : fd.tables.map (fun T => slotCount ((fd.newTable fds).table T).fds e) =
      fd.tables.map fun T => slotCount (fd.table T).fds e :=
    map_congr_left fun T hl => by rw [newTable_table hl ho]
  have hf : (fd.newTable fds).table fd.nextTable = ⟨fds, 1⟩ := update_self _ _ _
  simp only [total] at kept ⊢
  rw [show (fd.newTable fds).tables = fd.nextTable :: fd.tables from rfl, map_cons,
    sum_cons, kept, hf]

theorem newTable_nodup (fds) (ho : Sound fd) : (fd.newTable fds).tables.Nodup :=
  ho.nodup.cons fun hl => lt_irrefl _ (ho.older _ hl)

theorem newTable_older (fds) (ho : Sound fd) :
    ∀ T ∈ (fd.newTable fds).tables, T < (fd.newTable fds).nextTable := by
  intro T hl
  rcases mem_cons.mp hl with rfl | old
  · exact Nat.lt_succ_self _
  · exact Nat.lt_succ_of_lt (ho.older T old)

theorem Sound.fdTableAlloc (ho : Sound fd) : Sound fd.fdTableAlloc := by
  refine ⟨⟨ho.unused, ho.freed, ho.once⟩, newTable_nodup _ ho, newTable_older _ ho,
    fun e => ?_⟩
  rw [FdState.fdTableAlloc, newTable_total ho, slotCount_eq_zero fun _ _ => names_none, zero_add]
  exact ho.balanced e

theorem fdTableCopy_tables : (fd.fdTableCopy T).tables = fd.nextTable :: fd.tables ∧
    (fd.fdTableCopy T).table = (fd.newTable (fd.table T).fds).table ∧
    (fd.fdTableCopy T).nextTable = fd.nextTable + 1 :=
  dupAll_tables

end NewTable

theorem mem_freeSlots {low : Nat} (free : i ∈ fd.freeSlots T low) :
    i < procMaxFds ∧ (fd.table T).fds i = none := by
  obtain ⟨range, isNone⟩ := mem_filter.mp free
  obtain ⟨low, high⟩ := mem_range'_1.mp range
  exact ⟨by omega, Option.isNone_iff_eq_none.mp isNone⟩

theorem slotAt_eq_some (hf : fd.slotAt T i = some s) :
    i < procMaxFds ∧ (fd.table T).fds i = some s := by
  rw [slotAt] at hf
  split at hf
  · exact ⟨‹_›, hf⟩
  · cases hf

theorem copySlot_fds {j : Nat} (other : j ≠ i) :
    ((fd.copySlot T s i cloexec).table T).fds j = (fd.table T).fds j := by
  rw [copySlot, dupHook_tables.2.1]
  simp [setSlot, setTable, other]

theorem pipe_refs : update (update fd.refs (.readEnd p) 1) (.writeEnd p) 1 e =
      if endPipe e = p then 1 else fd.refs e := by
  cases e with
  | readEnd q | writeEnd q => by_cases eq : q = p <;> simp [endPipe, eq]

theorem Counted.newPipe (hc : Counted fd) : Counted { fd with
      refs := update (update fd.refs (.readEnd fd.nextPipe) 1) (.writeEnd fd.nextPipe) 1
      nextPipe := fd.nextPipe + 1 } := by
  refine ⟨fun e hb => ?_, fun p => ?_, hc.once⟩
  · have other : endPipe e ≠ fd.nextPipe := ne_of_gt hb
    exact (pipe_refs.trans (if_neg other)).trans (hc.unused e (Nat.le_of_succ_le hb))
  simp only [pipe_refs]
  rw [hc.freed p]
  by_cases eq : p = fd.nextPipe
  · subst eq
    have live : ¬∀ e, endPipe e = fd.nextPipe →
        (if endPipe e = fd.nextPipe then 1 else fd.refs e) = 0 := fun all =>
      absurd (all (.readEnd fd.nextPipe) rfl) (by simp [endPipe])
    simp only [lt_irrefl, false_and, live, and_false]
  · refine and_congr ⟨Nat.lt_succ_of_lt, fun hl => ?_⟩ (forall₂_congr fun e at_ => ?_)
    · exact lt_of_le_of_ne (Nat.le_of_lt_succ hl) eq
    · rw [if_neg (at_ ▸ eq)]

theorem pipe_names : (names (some ⟨some (.readEnd p), cloexec⟩) e).toNat +
      (names (some ⟨some (.writeEnd p), cloexec⟩) e).toNat = if endPipe e = p then 1 else 0 := by
  cases e with
  | readEnd q | writeEnd q => by_cases eq : p = q <;> simp [names_some, endPipe, eq, Ne.symm]

theorem pipe_total {j : Nat} {t : Slot} (nodup : fd.tables.Nodup) (hl : T ∈ fd.tables)
    (hi : i < procMaxFds ∧ (fd.table T).fds i = none)
    (hi' : j < procMaxFds ∧ (fd.table T).fds j = none) (ne : j ≠ i) :
    ((fd.setSlot T i (some s)).setSlot T j (some t)).total e =
      fd.total e + ((names (some s) e).toNat + (names (some t) e).toNat) := by
  have h1 := @setSlot_total fd T i e (some s) nodup hl hi.1
  have h2 := @setSlot_total (fd.setSlot T i (some s)) T j e (some t) nodup hl hi'.1
  have hs : ((fd.setSlot T i (some s)).table T).fds j = none := by
    simpa [setSlot, setTable, ne] using hi'.2
  rw [hi.2, names_none, Bool.toNat_false] at h1
  rw [hs, names_none, Bool.toNat_false] at h2
  omega

section
variable (ho : Sound fd) (hl : T ∈ fd.tables)
include ho hl

theorem Sound.slot_open (hi : i < procMaxFds)
    (held : (fd.table T).fds i = some s) : ∀ e, s.pipeEnd = some e → 0 < fd.refs e :=
  fun e hn => ho.refs_pos hl hi (by simp [held, names_some, hn])

theorem kept_closeSlot (hi : i < procMaxFds) : Kept fd (fd.closeSlot T i) := by
  rw [closeSlot]
  cases held : (fd.table T).fds i with
  | none => exact .refl ho
  | some s =>
    have hc : Counted (fd.setSlot T i none) := ⟨ho.unused, ho.freed, ho.once⟩
    obtain ⟨tables, table, next, -⟩ := @closeHook_tables (fd.setSlot T i none) s.pipeEnd
    refine ho.kept (hc.close (ho.slot_open hl hi held)) tables next (fun U => ?_) fun e hb => ?_
    · rw [table, setSlot_refcount]
    have total := @setSlot_total fd T i e none ho.nodup hl hi
    rw [held, names_some, names_none, Bool.toNat_false] at total
    rw [closeHook_refs, closeHook_total]
    change fd.refs e - _ = _
    omega

theorem kept_closeAll : Kept fd (fd.closeAll T) :=
  .foldl (fun _ _ ho hl mem =>
    kept_closeSlot ho hl (mem_range.mp mem)) ho hl

theorem Sound.freeTable (he : ∀ e, slotCount (fd.table T).fds e = 0) : Sound (fd.freeTable T) := by
  refine ⟨⟨ho.unused, ho.freed, ho.once⟩, ho.nodup.erase T,
    fun U mem => ho.older U (mem_of_mem_erase mem), fun e => ?_⟩
  have parts := ((perm_cons_erase hl).map fun U => slotCount (fd.table U).fds e).sum_eq
  rw [map_cons, sum_cons, he e, zero_add] at parts
  exact (ho.balanced e).trans parts

theorem kept_countDown_closeAll : Kept (fd.countDown T) ((fd.countDown T).closeAll T) :=
  kept_closeAll (ho.setTable fun _ => rfl) hl

theorem Sound.fdTableUnref : Sound (fd.fdTableUnref T) := by
  rw [FdState.fdTableUnref]
  split
  · exact ho.setTable fun _ => rfl
  · have hc := kept_countDown_closeAll ho hl
    exact hc.sound.freeTable (hc.tables ▸ hl) fun e => closeAll_slotCount

theorem fdTableUnref_tables : (fd.fdTableUnref T).tables =
      if 1 < (fd.table T).refcount then fd.tables else fd.tables.erase T := by
  rw [fdTableUnref]
  split
  · rfl
  · exact congrArg (List.erase · T) (kept_countDown_closeAll ho hl).tables

theorem fdTableUnref_refcount :
    ((fd.fdTableUnref T).table U).refcount = (fd.table U).refcount - (decide (U = T)).toNat := by
  rw [fdTableUnref]
  split
  · exact countDown_refcount
  · exact ((kept_countDown_closeAll ho hl).refcount U).trans countDown_refcount

theorem Sound.fdTableCopy : Sound (fd.fdTableCopy T) := by
  obtain ⟨tables, table, hn⟩ := @fdTableCopy_tables fd T
  have pre : Counted (fd.newTable (fd.table T).fds) := ⟨ho.unused, ho.freed, ho.once⟩
  have hc := pre.dupAll (l := range procMaxFds) fun i mem e hm =>
    ho.refs_pos hl (mem_range.mp mem) hm
  refine ⟨hc, ?_, ?_, fun e => ?_⟩
  · rw [tables]
    exact newTable_nodup (fd.table T).fds ho
  · rw [tables, hn]
    exact newTable_older (fd.table T).fds ho
  have total : (fd.fdTableCopy T).total e = (fd.newTable (fd.table T).fds).total e := by
    rw [FdState.total, table, tables]
    rfl
  rw [total, newTable_total ho, FdState.fdTableCopy, FdState.dupAll, dupAll_refs, add_comm]
  exact congrArg (_ + ·) (ho.balanced e)

theorem kept_copySlot (hi : i < procMaxFds)
    (free : (fd.table T).fds i = none) (open_ : ∀ e, s.pipeEnd = some e → 0 < fd.refs e) :
    Kept fd (fd.copySlot T s i cloexec) := by
  obtain ⟨tables, table, next, -⟩ :=
    @dupHook_tables (fd.setSlot T i (some ⟨s.pipeEnd, cloexec⟩)) s.pipeEnd
  have hp : Counted (fd.setSlot T i (some ⟨s.pipeEnd, cloexec⟩)) :=
    ⟨ho.unused, ho.freed, ho.once⟩
  refine ho.kept (hp.dup open_) tables next (fun U => ?_) fun e hb => ?_
  · rw [copySlot, table, setSlot_refcount]
  have total := @setSlot_total fd T i e (some ⟨s.pipeEnd, cloexec⟩) ho.nodup hl hi
  rw [free, names_none, names_some, Bool.toNat_false, add_zero, ← hb] at total
  rw [copySlot, dupHook_refs, dupHook_total, total]
  rfl

theorem kept_fcntlDup {old low : Nat} : Kept fd (fd.fcntlDup T old low cloexec) := by
  rw [fcntlDup]
  split
  · rename_i s new hf free
    obtain ⟨hi, held⟩ := slotAt_eq_some hf
    obtain ⟨hn, newFree⟩ := mem_freeSlots (mem_of_head? free)
    exact kept_copySlot ho hl hn newFree (ho.slot_open hl hi held)
  · exact .refl ho

theorem kept_sysDup2 {old new : Nat} : Kept fd (fd.sysDup2 T old new) := by
  rw [sysDup2]
  split
  · exact .refl ho
  rename_i s hf
  obtain ⟨hi, held⟩ := slotAt_eq_some hf
  split
  · exact .refl ho
  rename_i hp
  obtain ⟨hn, other⟩ := not_or.mp hp
  have hc := @kept_closeSlot fd T new ho hl (Nat.lt_of_not_le hn)
  have hl' : T ∈ (fd.closeSlot T new).tables := hc.tables ▸ hl
  have hs : ((fd.closeSlot T new).table T).fds old = some s := by
    rw [closeSlot_table]
    simpa [setSlot, setTable, other] using held
  have gone : ((fd.closeSlot T new).table T).fds new = none := by
    rw [closeSlot_table]
    simp [setSlot, setTable]
  exact hc.trans (kept_copySlot hc.sound hl' (Nat.lt_of_not_le hn) gone
    (hc.sound.slot_open hl' hi hs))

theorem kept_sysClose : Kept fd (fd.sysClose T i) := by
  rw [sysClose]
  split
  · exact kept_closeSlot ho hl ‹_›
  · exact .refl ho

theorem kept_closeOnExec : Kept fd (fd.closeOnExec T) := by
  refine .foldl (fun fd i ho hl mem => ?_) ho hl
  split
  · exact kept_closeSlot ho hl (mem_range.mp mem)
  · exact .refl ho

theorem kept_setCloexec : Kept fd (fd.setCloexec T i cloexec) := by
  rw [setCloexec]
  split
  · exact .refl ho
  rename_i s hf
  obtain ⟨hi, held⟩ := slotAt_eq_some hf
  refine ho.kept ⟨ho.unused, ho.freed, ho.once⟩ rfl rfl (fun U => setSlot_refcount)
    fun e hb => ?_
  have total := @setSlot_total fd T i e (some { s with cloexec := cloexec }) ho.nodup hl hi
  rw [held, names_some, names_some] at total
  exact hb.trans (add_right_cancel total).symm

theorem kept_foldl_copySlot (nodup : l.Nodup)
    (free : ∀ i ∈ l, i < procMaxFds ∧ (fd.table T).fds i = none)
    (open_ : ∀ e, s.pipeEnd = some e → 0 < fd.refs e) :
    Kept fd (l.foldl (fun fd i => fd.copySlot T s i s.cloexec) fd) := by
  induction l generalizing fd with
  | nil => exact .refl ho
  | cons i l ih =>
    obtain ⟨hi, here⟩ := free i mem_cons_self
    obtain ⟨hn, ne⟩ := nodup_cons.mp nodup
    have h1 := @kept_copySlot fd T i s s.cloexec ho hl hi here open_
    refine h1.trans (ih h1.sound (h1.tables ▸ hl) ne (fun j mem => ?_) ?_)
    · have other : j ≠ i := fun eq => hn (eq ▸ mem)
      rw [copySlot_fds other]
      exact free j (mem_cons_of_mem i mem)
    · intro e hm
      have pre := open_ e hm
      rw [copySlot, dupHook_refs]
      exact lt_of_lt_of_le pre (Nat.le_add_right _ _)

theorem kept_shareStdio
    (free : ∀ i, (fd.table T).fds i = none) (open_ : ∀ e, s.pipeEnd = some e → 0 < fd.refs e) :
    Kept fd (fd.shareStdio T s) :=
  kept_foldl_copySlot ho hl (by decide)
    (fun i mem => ⟨(by decide : ∀ i ∈ [0, 1, 2], i < procMaxFds) i mem, free i⟩) open_

theorem kept_sysPipe2 : Kept fd (fd.sysPipe2 T cloexec) := by
  rw [sysPipe2]
  split
  · rename_i rfd wfd rest free
    have rFree := @mem_freeSlots fd T rfd 0 (by simp [free])
    have wFree := @mem_freeSlots fd T wfd 0 (by simp [free])
    have ne : wfd ≠ rfd := by
      have nodup : (fd.freeSlots T 0).Nodup := List.Nodup.filter _ nodup_range'
      rw [free] at nodup
      exact fun eq => (nodup_cons.mp nodup).1 (eq ▸ .head _)
    have hc := ho.newPipe
    refine ho.kept ⟨hc.unused, hc.freed, hc.once⟩ rfl rfl (fun U => ?_) fun e hb => ?_
    · rw [setSlot_refcount, setSlot_refcount]
    refine Eq.trans pipe_refs ((pipe_total ho.nodup hl rFree wFree ne).trans ?_).symm
    rw [← hb, pipe_names]
    by_cases new : endPipe e = fd.nextPipe
    · rw [if_pos new, if_pos new, ho.unused e new.ge]
    · rw [if_neg new, if_neg new, add_zero]
  · exact .refl ho

theorem kept_call {call : FdCall} : Kept fd (fd.call T call) := by
  cases call with
  | pipe2 cloexec => exact kept_sysPipe2 ho hl
  | dup2 old new => exact kept_sysDup2 ho hl
  | dup _ | fcntlDup _ _ _ => exact kept_fcntlDup ho hl
  | setCloexec i cloexec => exact kept_setCloexec ho hl
  | close i => exact kept_sysClose ho hl

end

end Aegis.Process
