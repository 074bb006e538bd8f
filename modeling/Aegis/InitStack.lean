import Aegis.UserMemory

/-! The initial user stack of a program, as `sys_execve` and `sys_spawn` build it
(kernel/syscall/sys_exec.c), from the vectors in the argument buffer on. Both pack the strings
downwards from the top of the stack, put 16 random bytes below them and the table of argc,
pointers and auxiliary vector below these; `sys_execve` checks its bounds, `sys_spawn` does
not. All addresses stay far above zero, so subtraction never wraps. -/

namespace Aegis.Exec

open ByteLayout Memory PagedBuffer List Option

def userStackTopExec : Nat := 0x7FFFFFFF000
def userStackNpages : Nat := 4
def userStackBaseExec : Nat := userStackTopExec - userStackNpages * 4096
def interpBase : Nat := 0x40000000

structure CStr where
  text : List Byte
  short : text.length ≤ 255
  nonzero : 0 ∉ text

structure ExecArgs where
  argv : List CStr
  env : List CStr
  fewArgs : argv.length ≤ 64
  fewEnv : env.length ≤ 32
  random : List Byte
  sixteen : random.length = 16
  phdrVa : BitVec 64
  phdrCount : BitVec 32
  entry : BitVec 64
  hasInterp : Bool

def ExecArgs.args (a : ExecArgs) : List (List Byte) := a.argv.map CStr.text

def ExecArgs.envs (a : ExecArgs) : List (List Byte) := a.env.map CStr.text

def stackFlags : PteFlags := ⟨true, true, true, false⟩

def mapStackPages : Nat → Nat → Pmm × UserMem → Option (Pmm × UserMem)
  | 0, _, m => some m
  | n + 1, pn, (p, m) =>
    let (frame, p) := pmmAllocPage p
    if frame = 0 then none
    else
      (vmmMapUserPage p m.space (userStackBaseExec / 4096 + pn) frame stackFlags).bind
        fun (p, s) =>
          mapStackPages n (pn + 1)
            (p, { m with space := s, bytes := TableMemory.fill m.bytes frame 0 })

def checked (r : UserMem × Bool) : Option UserMem := if r.2 then some r.1 else none

/-- The loop over the strings, from the last one to the first, with its bounds check; the
pointers come back in the order of the strings. -/
def execvePush : List (List Byte) → Nat → UserMem → Option (Nat × List Nat × UserMem)
  | [], sp, m => some (sp, [], m)
  | s :: ss, sp, m => do
    let (sp, ptrs, m) ← execvePush ss sp m
    let slen := s.length + 1
    if sp - slen < userStackBaseExec then none
    else
      let m ← checked (vmmWriteUserBytes m (sp - slen) (s ++ [0]))
      some (sp - slen, (sp - slen) :: ptrs, m)

/-- The same loop without checks: the result of the write is ignored. -/
def spawnPush : List (List Byte) → Nat → UserMem → Nat × List Nat × UserMem
  | [], sp, m => (sp, [], m)
  | s :: ss, sp, m =>
    let (sp, ptrs, m) := spawnPush ss sp m
    let slen := s.length + 1
    (sp - slen, (sp - slen) :: ptrs, (vmmWriteUserBytes m (sp - slen) (s ++ [0])).1)

def tablePointer (sp qwords : Nat) : Nat :=
  let sp := sp / 8 * 8 - qwords * 8
  if sp % 16 ≠ 8 then sp - 8 else sp

def auxvQwords (hasInterp : Bool) : Nat := if hasInterp then 16 else 12

def writeWords : Nat → List Nat → UserMem → Option UserMem
  | _, [], m => some m
  | wp, w :: ws, m => (checked (vmmWriteUserU64 m wp w)).bind (writeWords (wp + 8) ws)

def writeWordsAnyway : Nat → List Nat → UserMem → UserMem
  | _, [], m => m
  | wp, w :: ws, m => writeWordsAnyway (wp + 8) ws (vmmWriteUserU64 m wp w).1

/-- The auxiliary vector without its end and without the part for an interpreter. -/
def auxvPairs (a : ExecArgs) (random : Nat) : List (Nat × Nat) :=
  [(3, a.phdrVa.toNat), (5, a.phdrCount.toNat), (6, 4096), (9, a.entry.toNat), (25, random)]

def interpPairs (a : ExecArgs) : List (Nat × Nat) :=
  if a.hasInterp then [(7, interpBase), (4, 56)] else []

def tableWords (a : ExecArgs) (argvPtrs envPtrs : List Nat) (random : Nat) : List Nat :=
  a.argv.length :: argvPtrs ++ 0 :: (envPtrs ++ 0 :: pairWords (auxvPairs a random))

structure StackImage where
  mem : UserMem
  sp : Nat
  argvPtrs : List Nat
  envPtrs : List Nat
  random : Nat

/-- `none` is the end of the process, or a panic while the stack is mapped. -/
def execveStack (p : Pmm) (m : UserMem) (a : ExecArgs) : Option StackImage := do
  let (_, m) ← mapStackPages userStackNpages 0 (p, m)
  let (sp, envPtrs, m) ← execvePush a.envs userStackTopExec m
  let (sp, argvPtrs, m) ← execvePush a.args sp m
  let random := sp - 16
  let m ← checked (vmmWriteUserBytes m random a.random)
  let sp := tablePointer random (a.argv.length + a.env.length + 3 + auxvQwords a.hasInterp)
  if sp < userStackBaseExec then none
  else
    let words := tableWords a argvPtrs envPtrs random
    let m ← writeWords sp words m
    let wp := sp + 8 * words.length
    -- the results of these writes are not looked at
    let m := writeWordsAnyway wp (pairWords (interpPairs a)) m
    let m ← writeWords (wp + 8 * (pairWords (interpPairs a)).length) [0, 0] m
    some ⟨m, sp, argvPtrs, envPtrs, random⟩

def spawnStack (p : Pmm) (m : UserMem) (a : ExecArgs) : Option StackImage := do
  let (_, m) ← mapStackPages userStackNpages 0 (p, m)
  let (sp, envPtrs, m) := spawnPush a.envs userStackTopExec m
  let (sp, argvPtrs, m) := spawnPush a.args sp m
  let random := sp - 16
  let m := (vmmWriteUserBytes m random a.random).1
  let sp := tablePointer random (a.argv.length + 2 + a.env.length + 1 + auxvQwords a.hasInterp)
  let words := tableWords a argvPtrs envPtrs random
  let m := writeWordsAnyway sp (words ++ pairWords (interpPairs a) ++ [0, 0]) m
  some ⟨m, sp, argvPtrs, envPtrs, random⟩

def Stacked (m : UserMem) : Prop :=
  m.Backed (userStackBaseExec / 4096) (userStackTopExec / 4096)

structure Wrote (m m' : UserMem) (va : Nat) (l : List Byte) : Prop where
  space : m'.space = m.space
  holds : Holds m'.read va l
  others : ∀ a, userStackBaseExec ≤ a → a < userStackTopExec → (a < va ∨ va + l.length ≤ a) →
    m'.read a = m.read a

section
variable {m m' m'' : UserMem} {va sp : Nat} {l l' : List Byte} {ss : List (List Byte)}

theorem Stacked.of_space (hs : Stacked m) (eq : m'.space = m.space) : Stacked m' :=
  ⟨eq ▸ hs.mapped, eq ▸ hs.apart⟩

theorem Stacked.write (hs : Stacked m) (ha : userStackBaseExec ≤ va)
    (hb : va + l.length ≤ userStackTopExec) :
    (vmmWriteUserBytes m va l).2 = true ∧ Wrote m (vmmWriteUserBytes m va l).1 va l := by
  obtain ⟨done, -, hh, ho⟩ := UserMem.Backed.write hs ha hb
  exact ⟨done, vmmWriteUserBytes_space, hh, ho⟩

theorem Wrote.refl (m : UserMem) (va : Nat) : Wrote m m va [] := ⟨rfl, trivial, fun _ _ _ _ => rfl⟩

theorem Wrote.keeps {va' : Nat} (h2 : Wrote m' m'' va' l') (hh : Holds m'.read va l)
    (ha : userStackBaseExec ≤ va) (hb : va + l.length ≤ userStackTopExec)
    (hp : va + l.length ≤ va' ∨ va' + l'.length ≤ va) : Holds m''.read va l :=
  hh.congr fun a low high => h2.others a (by omega) (by omega) (by omega)

theorem Wrote.up (h1 : Wrote m m' va l) (h2 : Wrote m' m'' (va + l.length) l')
    (ha : userStackBaseExec ≤ va) (hb : va + l.length ≤ userStackTopExec) :
    Wrote m m'' va (l ++ l') := by
  refine ⟨h2.space.trans h1.space, holds_append.mpr ⟨?_, h2.holds⟩, ?_⟩
  · exact h2.keeps h1.holds ha hb (.inl le_rfl)
  intro a low high ho
  rw [length_append] at ho
  rw [h2.others a low high (by omega), h1.others a low high (by omega)]

theorem Wrote.down {va' : Nat} (h1 : Wrote m m' va l) (h2 : Wrote m' m'' va' l')
    (next : va' + l'.length = va) (ha : userStackBaseExec ≤ va)
    (hb : va + l.length ≤ userStackTopExec) : Wrote m m'' va' (l' ++ l) := by
  refine ⟨h2.space.trans h1.space, holds_append.mpr ⟨h2.holds, ?_⟩, ?_⟩
  · rw [next]
    exact h2.keeps h1.holds ha hb (.inr (le_of_eq next))
  intro a low high ho
  rw [length_append] at ho
  rw [h2.others a low high (by omega), h1.others a low high (by omega)]

theorem userStackBaseExec_pos : 0 < userStackBaseExec := by decide

theorem spawnPush_eq (room : (pack ss).length ≤ sp) :
    (spawnPush ss sp m).1 = sp - (pack ss).length ∧
      (spawnPush ss sp m).2.1 = starts (sp - (pack ss).length) ss ∧
      (spawnPush ss sp m).2.2.space = m.space := by
  induction ss with
  | nil => exact ⟨rfl, rfl, rfl⟩
  | cons s ss ih =>
    rw [pack_length_cons] at room ⊢
    obtain ⟨lower, ptrs, eq⟩ := ih (by omega)
    have next : sp - (s.length + 1 + (pack ss).length) + (s.length + 1) =
        sp - (pack ss).length := by omega
    have here : sp - (pack ss).length - (s.length + 1) =
        sp - (s.length + 1 + (pack ss).length) := by omega
    refine ⟨?_, ?_, ?_⟩
    · simp only [spawnPush, lower, here]
    · simp only [spawnPush, lower, here, ptrs, starts, next]
    · simp only [spawnPush, vmmWriteUserBytes_space, eq]

theorem spawnPush_wrote (hs : Stacked m) (top : sp ≤ userStackTopExec)
    (room : userStackBaseExec + (pack ss).length ≤ sp) :
    Wrote m (spawnPush ss sp m).2.2 (sp - (pack ss).length) (pack ss) := by
  induction ss with
  | nil => exact Wrote.refl m _
  | cons s ss ih =>
    rw [pack_length_cons] at room ⊢
    have h1 := ih (by omega)
    obtain ⟨lower, -, eq⟩ := @spawnPush_eq m sp ss (by omega)
    have here : sp - (pack ss).length - (s.length + 1) =
        sp - (s.length + 1 + (pack ss).length) := by omega
    have long : (s ++ [(0 : Byte)]).length = s.length + 1 := length_append
    have hw := (@Stacked.write _ (sp - (s.length + 1 + (pack ss).length)) (s ++ [0])
      (hs.of_space eq) (by omega) (by omega)).2
    rw [pack_cons]
    simp only [spawnPush, lower, here]
    exact h1.down hw (by omega) (by omega) (by omega)

theorem execvePush_eq (hs : Stacked m) (top : sp ≤ userStackTopExec)
    (low : userStackBaseExec ≤ sp) :
    execvePush ss sp m = if userStackBaseExec + (pack ss).length ≤ sp then
      some (spawnPush ss sp m) else none := by
  induction ss with
  | nil => simp [execvePush, spawnPush, pack, low]
  | cons s ss ih =>
    rw [pack_length_cons]
    by_cases fits : userStackBaseExec + (pack ss).length ≤ sp
    · obtain ⟨lower, -, eq⟩ := @spawnPush_eq m sp ss (by omega)
      simp only [execvePush, ih, if_pos fits, bind, bind_some, lower]
      by_cases room : userStackBaseExec + (s.length + 1 + (pack ss).length) ≤ sp
      · have long : (s ++ [(0 : Byte)]).length = s.length + 1 := length_append
        have done := (@Stacked.write _ (sp - (pack ss).length - (s.length + 1)) (s ++ [0])
          (hs.of_space eq) (by omega) (by omega)).1
        rw [if_neg (by omega), if_pos room, checked, if_pos done]
        simp only [bind_some, spawnPush, lower]
      · rw [if_pos (by have := userStackBaseExec_pos; omega), if_neg room]
    · simp only [execvePush, ih, if_neg fits, bind, bind_none]
      rw [if_neg (by omega)]

theorem writeWordsAnyway_space {ws : List Nat} {wp : Nat} :
    (writeWordsAnyway wp ws m).space = m.space := by
  induction ws generalizing wp m with
  | nil => rfl
  | cons w ws ih => rw [writeWordsAnyway, ih, vmmWriteUserU64, vmmWriteUserBytes_space]

theorem writeWordsAnyway_append {ws ws' : List Nat} {wp : Nat} : writeWordsAnyway wp (ws ++ ws') m =
      writeWordsAnyway (wp + 8 * ws.length) ws' (writeWordsAnyway wp ws m) := by
  induction ws generalizing wp m with
  | nil => rfl
  | cons w ws ih =>
    have next : wp + 8 * (w :: ws).length = wp + 8 + 8 * ws.length := by
      rw [length_cons]
      omega
    rw [cons_append, writeWordsAnyway, writeWordsAnyway, ih, next]

theorem writeWords_wrote {ws : List Nat} {wp : Nat} (hs : Stacked m)
    (ha : userStackBaseExec ≤ wp) (hb : wp + 8 * ws.length ≤ userStackTopExec) :
    writeWords wp ws m = some (writeWordsAnyway wp ws m) ∧
      Wrote m (writeWordsAnyway wp ws m) wp (wordBytes ws) := by
  induction ws generalizing wp m with
  | nil => exact ⟨rfl, Wrote.refl m wp⟩
  | cons w ws ih =>
    rw [length_cons] at hb
    have long : (leBytes 8 w).length = 8 := leBytes_length
    obtain ⟨done, h1⟩ := @Stacked.write m wp (leBytes 8 w) hs ha (by omega)
    obtain ⟨all, hl⟩ := @ih _ (wp + 8) (hs.of_space h1.space) (by omega) (by omega)
    constructor
    · rw [writeWords, checked, vmmWriteUserU64, if_pos done]
      exact all
    · rw [wordBytes_cons]
      exact h1.up (long.symm ▸ hl) ha (by omega)

theorem writeWords_parts {ws ws' ws'' : List Nat} {wp : Nat} (hs : Stacked m)
    (ha : userStackBaseExec ≤ wp)
    (hb : wp + 8 * (ws ++ ws' ++ ws'').length ≤ userStackTopExec) :
    ((writeWords wp ws m).bind fun m => writeWords (wp + 8 * ws.length + 8 * ws'.length) ws''
      (writeWordsAnyway (wp + 8 * ws.length) ws' m)) =
      some (writeWordsAnyway wp (ws ++ ws' ++ ws'') m) := by
  rw [length_append, length_append] at hb
  rw [(writeWords_wrote hs ha (by omega)).1, bind_some, writeWordsAnyway_append,
    writeWordsAnyway_append, length_append]
  have eq : (writeWordsAnyway (wp + 8 * ws.length) ws' (writeWordsAnyway wp ws m)).space =
      m.space := by
    rw [writeWordsAnyway_space, writeWordsAnyway_space]
  rw [(writeWords_wrote (hs.of_space eq) (by omega) (by omega)).1, Nat.mul_add, Nat.add_assoc]

theorem tablePointer_spec {q : Nat} (room : 8 * q + 16 ≤ sp) :
    tablePointer sp q % 16 = 8 ∧ tablePointer sp q + 8 * q ≤ sp ∧
      sp ≤ tablePointer sp q + 8 * q + 15 := by
  unfold tablePointer
  dsimp only
  split <;> omega

theorem pack_length_le {cs : List CStr} : (pack (cs.map CStr.text)).length ≤ 256 * cs.length := by
  induction cs with
  | nil => exact le_refl 0
  | cons c cs ih =>
    rw [map_cons, pack_length_cons, length_cons]
    have := c.short
    omega

theorem mapStackPages_mapsFresh {n pn : Nat} {p p' : Pmm}
    (hm : mapStackPages n pn (p, m) = some (p', m')) :
    MapsFresh stackFlags n (userStackBaseExec / 4096 + pn) (p, m.space) (p', m'.space) ∧
      m'.written = m.written := by
  induction n generalizing pn p m with
  | zero =>
    cases hm
    exact ⟨.nil, rfl⟩
  | succ n ih =>
    rcases taken : pmmAllocPage p with ⟨frame, mid⟩
    simp only [mapStackPages, taken] at hm
    split at hm
    · cases hm
    next hf =>
    obtain ⟨next, h1, hd⟩ := bind_eq_some_iff.mp hm
    obtain ⟨rest, hw⟩ := ih hd
    exact ⟨.cons taken hf h1 rest, hw⟩

theorem mapStackPages_spec {p p' : Pmm}
    (hm : mapStackPages userStackNpages 0 (p, m) = some (p', m')) :
    Stacked m' ∧ m'.written = m.written ∧ ∀ page < userStackBaseExec / 4096,
      vmmPhysOfUser m'.space page = vmmPhysOfUser m.space page := by
  obtain ⟨hf, hw⟩ := mapStackPages_mapsFresh hm
  have last : userStackTopExec / 4096 = userStackBaseExec / 4096 + userStackNpages := by decide
  have phys (i : Nat) (lt : i < userStackNpages) :
      vmmPhysOfUser m'.space (userStackBaseExec / 4096 + i) =
        (m'.space.pte (userStackBaseExec / 4096 + i)).frame :=
    if_pos (hf.frames.2.2 i lt).1.1
  have step (page : Nat) (low : userStackBaseExec / 4096 ≤ page)
      (high : page < userStackTopExec / 4096) :
      ∃ i < userStackNpages, page = userStackBaseExec / 4096 + i :=
    ⟨page - userStackBaseExec / 4096, by omega, by omega⟩
  refine ⟨⟨fun page low high => ?_, fun page page' hi hi' same => ?_⟩, hw, fun page hb => ?_⟩
  · obtain ⟨i, lt, rfl⟩ := step page low high
    rw [phys i lt]
    exact (hf.frames.2.2 i lt).1.2
  · obtain ⟨i, lt, rfl⟩ := step page hi.1 hi.2
    obtain ⟨j, lt', rfl⟩ := step page' hi'.1 hi'.2
    rw [phys i lt, phys j lt'] at same
    rw [hf.apart i j lt lt' same]
  · have half : userStackBaseExec / 4096 + userStackNpages ≤ userPages := by decide
    have kept : m'.space.pte page = m.space.pte page := hf.others half (by omega) (.inl hb)
    simp only [vmmPhysOfUser, kept]

end

def stackQwords (a : ExecArgs) : Nat :=
  a.argv.length + a.env.length + 3 + auxvQwords a.hasInterp

def stringsAt (a : ExecArgs) : Nat := userStackTopExec - (pack a.envs).length - (pack a.args).length

def layoutSp (a : ExecArgs) : Nat := tablePointer (stringsAt a - 16) (stackQwords a)

def allWords (a : ExecArgs) : List Nat :=
  tableWords a (starts (stringsAt a) a.args) (starts (stringsAt a + (pack a.args).length) a.envs)
    (stringsAt a - 16) ++ pairWords (interpPairs a) ++ [0, 0]

section
variable {a : ExecArgs} {m m' : UserMem} {p : Pmm}

theorem layout_spec (a : ExecArgs) :
    stringsAt a + (pack a.args).length + (pack a.envs).length = userStackTopExec ∧
      layoutSp a + 8 * stackQwords a + 16 ≤ stringsAt a ∧
      stringsAt a ≤ layoutSp a + 8 * stackQwords a + 31 ∧ layoutSp a % 16 = 8 := by
  have args : (pack a.args).length ≤ 256 * a.argv.length := pack_length_le
  have envs : (pack a.envs).length ≤ 256 * a.env.length := pack_length_le
  have few := a.fewArgs
  have few' := a.fewEnv
  have top : userStackTopExec = 0x7FFFFFFF000 := rfl
  have aux : auxvQwords a.hasInterp ≤ 16 := by
    unfold auxvQwords
    split <;> omega
  have strings : stringsAt a + (pack a.args).length + (pack a.envs).length = userStackTopExec := by
    unfold stringsAt
    omega
  have words : stackQwords a ≤ 115 := by
    unfold stackQwords
    omega
  obtain ⟨aligned, below, near⟩ := @tablePointer_spec (stringsAt a - 16) (stackQwords a) (by omega)
  exact ⟨strings, by unfold layoutSp; omega, by unfold layoutSp; omega, aligned⟩

theorem allWords_length : (allWords a).length = stackQwords a := by
  cases interp : a.hasInterp <;>
    simp [allWords, tableWords, stackQwords, auxvQwords, interpPairs, auxvPairs, pairWords, interp,
      ExecArgs.args, ExecArgs.envs] <;> omega

def pushed (a : ExecArgs) (m : UserMem) : UserMem :=
  (spawnPush a.args (userStackTopExec - (pack a.envs).length)
    (spawnPush a.envs userStackTopExec m).2.2).2.2

def seeded (a : ExecArgs) (m : UserMem) : UserMem :=
  (vmmWriteUserBytes (pushed a m) (stringsAt a - 16) a.random).1

def imageOf (a : ExecArgs) (m : UserMem) : StackImage where
  mem := writeWordsAnyway (layoutSp a) (allWords a) (seeded a m)
  sp := layoutSp a
  argvPtrs := starts (stringsAt a) a.args
  envPtrs := starts (stringsAt a + (pack a.args).length) a.envs
  random := stringsAt a - 16

theorem spawnPush_parts (a : ExecArgs) (m : UserMem) : spawnPush a.envs userStackTopExec m =
        (userStackTopExec - (pack a.envs).length,
          starts (stringsAt a + (pack a.args).length) a.envs,
          (spawnPush a.envs userStackTopExec m).2.2) ∧
      spawnPush a.args (userStackTopExec - (pack a.envs).length)
          (spawnPush a.envs userStackTopExec m).2.2 =
        (stringsAt a, starts (stringsAt a) a.args, pushed a m) := by
  obtain ⟨whole, -⟩ := layout_spec a
  obtain ⟨lower, ptrs, -⟩ := @spawnPush_eq m userStackTopExec a.envs (by omega)
  obtain ⟨lower', ptrs', -⟩ := @spawnPush_eq (spawnPush a.envs userStackTopExec m).2.2
    (userStackTopExec - (pack a.envs).length) a.args (by omega)
  have middle : stringsAt a + (pack a.args).length = userStackTopExec - (pack a.envs).length := by
    omega
  rw [middle]
  exact ⟨Prod.ext lower (Prod.ext ptrs rfl), Prod.ext lower' (Prod.ext ptrs' rfl)⟩

theorem spawnStack_eq :
    spawnStack p m a = (mapStackPages userStackNpages 0 (p, m)).map fun r => imageOf a r.2 := by
  rw [spawnStack]
  cases mapStackPages userStackNpages 0 (p, m) with
  | none => rfl
  | some r =>
    obtain ⟨envs, args⟩ := spawnPush_parts a r.2
    have words : a.argv.length + 2 + a.env.length + 1 + auxvQwords a.hasInterp = stackQwords a := by
      unfold stackQwords
      omega
    simp only [bind, bind_some, map_some]
    rw [envs]
    dsimp only
    rw [args]
    dsimp only
    rw [words]
    rfl

theorem pushed_wrote (stacked : Stacked m) (fits : userStackBaseExec ≤ stringsAt a) :
    Wrote m (pushed a m) (stringsAt a) (pack (a.args ++ a.envs)) := by
  obtain ⟨whole, -⟩ := layout_spec a
  have envs := @spawnPush_wrote m userStackTopExec a.envs stacked le_rfl (by omega)
  have args := @spawnPush_wrote _ (userStackTopExec - (pack a.envs).length) a.args
    (stacked.of_space envs.space) (by omega) (by omega)
  rw [pack_append]
  exact envs.down args (by omega) (by omega) (by omega)

theorem seeded_wrote (stacked : Stacked m) (fits : userStackBaseExec ≤ stringsAt a - 16) :
    (vmmWriteUserBytes (pushed a m) (stringsAt a - 16) a.random).2 = true ∧
      Wrote m (seeded a m) (stringsAt a - 16) (a.random ++ pack (a.args ++ a.envs)) := by
  obtain ⟨whole, -⟩ := layout_spec a
  have sixteen := a.sixteen
  have positive := userStackBaseExec_pos
  have strings := pushed_wrote stacked (show userStackBaseExec ≤ stringsAt a by omega)
  obtain ⟨done, random⟩ := @Stacked.write _ (stringsAt a - 16) a.random
    (stacked.of_space strings.space) fits (by omega)
  refine ⟨done, strings.down random (by omega) (by omega) ?_⟩
  rw [pack_append, length_append]
  omega

/-- `sys_execve` builds what `sys_spawn` builds if the whole layout fits into the stack, and
else gives up. -/
theorem execveStack_eq :
    execveStack p m a = if userStackBaseExec ≤ layoutSp a then spawnStack p m a else none := by
  rw [spawnStack_eq, execveStack]
  cases mapped : mapStackPages userStackNpages 0 (p, m) with
  | none => simp
  | some r =>
    obtain ⟨p', m'⟩ := r
    have stacked := (mapStackPages_spec mapped).1
    obtain ⟨whole, table, -⟩ := layout_spec a
    obtain ⟨envs, args⟩ := spawnPush_parts a m'
    have base : userStackBaseExec ≤ userStackTopExec := by decide
    simp only [bind, bind_some, map_some, execvePush_eq stacked le_rfl base]
    by_cases envsFit : userStackBaseExec + (pack a.envs).length ≤ userStackTopExec
    · have same := (@spawnPush_eq m' userStackTopExec a.envs (by omega)).2.2
      rw [if_pos envsFit, envs]
      simp only [bind_some, execvePush_eq (stacked.of_space same)
        (Nat.sub_le userStackTopExec (pack a.envs).length) (Nat.le_sub_of_add_le envsFit)]
      by_cases argsFit : userStackBaseExec + (pack a.args).length ≤
          userStackTopExec - (pack a.envs).length
      · rw [if_pos argsFit, args]
        simp only [bind_some]
        by_cases fits : userStackBaseExec ≤ layoutSp a
        · obtain ⟨done, wrote⟩ := @seeded_wrote a m' stacked (by omega)
          have parts := @writeWords_parts (seeded a m') (tableWords a (starts (stringsAt a) a.args)
              (starts (stringsAt a + (pack a.args).length) a.envs) (stringsAt a - 16))
            (pairWords (interpPairs a)) [0, 0] (layoutSp a) (stacked.of_space wrote.space) fits
            (by rw [← allWords, allWords_length]; omega)
          rw [if_pos fits, checked, if_pos done, bind_some]
          refine (if_neg (not_lt.mpr fits)).trans ((bind_assoc ..).symm.trans ?_)
          exact (congrArg (Option.bind · _) parts).trans rfl
        · rw [if_neg fits]
          cases checked (vmmWriteUserBytes (pushed a m') (stringsAt a - 16) a.random) with
          | none => rfl
          | some late => exact if_pos (not_le.mp fits)
      · rw [if_neg argsFit, if_neg (by omega)]
        rfl
    · rw [if_neg envsFit, if_neg (by omega)]
      rfl

end

structure ProgramStart where
  argc : Nat
  argv : List (List Byte)
  env : List (List Byte)
  auxv : List (Nat × Nat)

def stackBytes : Nat := userStackNpages * 4096

structure StackTable where
  argc : Nat
  argvPtrs : List Nat
  envPtrs : List Nat
  auxv : List (Nat × Nat)

/-- The initial stack read by the rules of the System V ABI: argc, as many pointers to strings,
a zero, pointers to strings up to a zero, and pairs up to a zero key. -/
def readTable (mem : Nat → Option Byte) (sp : Nat) : Option StackTable := do
  let argc ← readLe mem 8 sp
  let argvPtrs ← readWords mem argc (sp + 8)
  let last ← readLe mem 8 (sp + 8 + 8 * argc)
  if last ≠ 0 ∨ 0 ∈ argvPtrs then none
  else
    let envPtrs ← readUntilZero mem stackBytes (sp + 16 + 8 * argc)
    let auxv ← readPairs mem stackBytes (sp + 24 + 8 * argc + 8 * envPtrs.length)
    some ⟨argc, argvPtrs, envPtrs, auxv⟩

def decodeStack (mem : Nat → Option Byte) (sp : Nat) : Option ProgramStart := do
  let t ← readTable mem sp
  let argv ← t.argvPtrs.mapM (readString mem stackBytes)
  let env ← t.envPtrs.mapM (readString mem stackBytes)
  some ⟨t.argc, argv, env, t.auxv⟩

/-- The parts of the stack, each as its start and its size, where the table says they are: the
table with the zero pair at its end, the sixteen bytes at `AT_RANDOM` (key 25), and the string
at each pointer with its zero byte. -/
def areas (mem : Nat → Option Byte) (sp : Nat) (t : StackTable) : List (Nat × Nat) :=
  (sp, 8 * (t.argvPtrs.length + t.envPtrs.length + 2 * t.auxv.length + 5)) ::
    ((t.auxv.lookup 25).getD 0, 16) :: (t.argvPtrs ++ t.envPtrs).map fun w =>
      (w, ((readString mem stackBytes w).getD []).length + 1)

theorem readTable_of_holds {mem : Nat → Option Byte} {sp : Nat} {argvPtrs envPtrs : List Nat}
    {auxv : List (Nat × Nat)}
    (table : Holds mem sp (wordBytes (argvPtrs.length :: (argvPtrs ++ 0 :: (envPtrs ++ [0] ++
      (pairWords auxv ++ [0]))))))
    (fewArgs : argvPtrs.length < 2 ^ 64) (fewEnv : envPtrs.length < stackBytes)
    (fewPairs : auxv.length < stackBytes)
    (ha : ∀ w ∈ argvPtrs, 0 < w ∧ w < 2 ^ 64) (envSmall : ∀ w ∈ envPtrs, 0 < w ∧ w < 2 ^ 64)
    (pairsSmall : ∀ x ∈ auxv, (0 < x.1 ∧ x.1 < 2 ^ 64) ∧ x.2 < 2 ^ 64) :
    readTable mem sp = some ⟨argvPtrs.length, argvPtrs, envPtrs, auxv⟩ := by
  obtain ⟨argc, table⟩ := holds_word.mp table
  rw [wordBytes_append, holds_append, wordBytes_length] at table
  obtain ⟨args, table⟩ := table
  obtain ⟨zero, table⟩ := holds_word.mp table
  rw [wordBytes_append, holds_append, wordBytes_length] at table
  obtain ⟨envs, pairs⟩ := table
  have argcRead := argc.readWord fewArgs
  have argsRead := args.readWords fun w hm => (ha w hm).2
  have zeroRead := zero.readWord (by decide)
  have envsRead : readUntilZero mem stackBytes (sp + 16 + 8 * argvPtrs.length) = some envPtrs := by
    refine Holds.readUntilZero ?_ envSmall fewEnv
    rwa [show sp + 16 + 8 * argvPtrs.length = sp + 8 + 8 * argvPtrs.length + 8 by omega]
  have pairsRead : readPairs mem stackBytes (sp + 24 + 8 * argvPtrs.length + 8 * envPtrs.length) =
      some auxv := by
    refine Holds.readPairs ?_ pairsSmall fewPairs
    rw [length_append, length_singleton] at pairs
    rwa [show sp + 24 + 8 * argvPtrs.length + 8 * envPtrs.length =
      sp + 8 + 8 * argvPtrs.length + 8 + 8 * (envPtrs.length + 1) by omega]
  have hn : ¬ ((0 : Nat) ≠ 0 ∨ 0 ∈ argvPtrs) := by
    rintro (hw | hm)
    · exact hw rfl
    · exact lt_irrefl 0 (ha 0 hm).1
  simp only [readTable, argcRead, argsRead, zeroRead, bind, bind_some, if_neg hn, envsRead,
    pairsRead]

def tableOf (a : ExecArgs) : StackTable where
  argc := a.argv.length
  argvPtrs := starts (stringsAt a) a.args
  envPtrs := starts (stringsAt a + (pack a.args).length) a.envs
  auxv := auxvPairs a (stringsAt a - 16) ++ interpPairs a

section
variable {a : ExecArgs} {m : UserMem}

theorem allWords_eq : allWords a =
    (starts (stringsAt a) a.args).length :: (starts (stringsAt a) a.args ++
      0 :: (starts (stringsAt a + (pack a.args).length) a.envs ++ [0] ++
        (pairWords (auxvPairs a (stringsAt a - 16) ++ interpPairs a) ++ [0]))) ++ [0] := by
  simp [allWords, tableWords, pairWords_append, ExecArgs.args]

theorem auxvPairs_small {x : Nat × Nat}
    (member : x ∈ auxvPairs a (stringsAt a - 16) ++ interpPairs a) :
    (0 < x.1 ∧ x.1 < 2 ^ 64) ∧ x.2 < 2 ^ 64 := by
  obtain ⟨whole, -⟩ := layout_spec a
  have top : userStackTopExec = 0x7FFFFFFF000 := rfl
  have phdr := a.phdrVa.isLt
  have count := a.phdrCount.isLt
  have entry := a.entry.isLt
  rcases mem_append.mp member with basic | interp
  · simp only [auxvPairs, mem_cons, not_mem_nil, or_false] at basic
    rcases basic with rfl | rfl | rfl | rfl | rfl <;> dsimp only <;> omega
  unfold interpPairs at interp
  split at interp
  · simp only [mem_cons, not_mem_nil, or_false] at interp
    rcases interp with rfl | rfl <;> decide
  · cases interp

theorem args_text {cs : List CStr} {s : List Byte} (hm : s ∈ cs.map CStr.text) :
    0 ∉ s ∧ s.length < stackBytes := by
  obtain ⟨c, -, rfl⟩ := mem_map.mp hm
  have hs := c.short
  exact ⟨c.nonzero, lt_of_le_of_lt hs (by decide)⟩

theorem imageOf_space : (imageOf a m).mem.space = m.space := by
  obtain ⟨whole, -⟩ := layout_spec a
  have envs := (@spawnPush_eq m userStackTopExec a.envs (by omega)).2.2
  have args := (@spawnPush_eq (spawnPush a.envs userStackTopExec m).2.2
    (userStackTopExec - (pack a.envs).length) a.args (by omega)).2.2
  rw [imageOf, writeWordsAnyway_space, seeded, vmmWriteUserBytes_space, pushed, args, envs]

section
variable (stacked : Stacked m) (fits : userStackBaseExec ≤ layoutSp a)
include stacked fits

theorem imageOf_holds :
    Holds (imageOf a m).mem.read (layoutSp a) (wordBytes (allWords a)) ∧
      Holds (imageOf a m).mem.read (stringsAt a - 16) a.random ∧
      Holds (imageOf a m).mem.read (stringsAt a) (pack a.args) ∧
      Holds (imageOf a m).mem.read (stringsAt a + (pack a.args).length) (pack a.envs) := by
  obtain ⟨whole, table, -⟩ := layout_spec a
  have long : (a.random ++ pack (a.args ++ a.envs)).length =
      16 + (pack a.args).length + (pack a.envs).length := by
    rw [length_append, a.sixteen, pack_append, length_append, Nat.add_assoc]
  have size : (wordBytes (allWords a)).length = 8 * stackQwords a := by
    rw [wordBytes_length, allWords_length]
  have seeds := (@seeded_wrote a m stacked (by omega)).2
  have wrote := (@writeWords_wrote (seeded a m) (allWords a) (layoutSp a)
    (stacked.of_space seeds.space) fits (by rw [allWords_length]; omega)).2
  have strings := wrote.keeps seeds.holds (by omega) (by omega) (.inr (by omega))
  rw [holds_append, a.sixteen, Nat.sub_add_cancel (by omega), pack_append, holds_append] at strings
  exact ⟨wrote.holds, strings⟩

theorem imageOf_table :
    readTable (imageOf a m).mem.read (layoutSp a) = some (tableOf a) := by
  obtain ⟨whole, table, -⟩ := layout_spec a
  have top : userStackTopExec = 0x7FFFFFFF000 := rfl
  have words := (imageOf_holds stacked fits).1
  rw [allWords_eq, wordBytes_append, holds_append] at words
  have argc : (starts (stringsAt a) a.args).length = a.argv.length := by simp [ExecArgs.args]
  have envc : (starts (stringsAt a + (pack a.args).length) a.envs).length = a.env.length := by
    simp [ExecArgs.envs]
  have pairs : (auxvPairs a (stringsAt a - 16) ++ interpPairs a).length ≤ 7 := by
    unfold interpPairs
    split <;> simp [auxvPairs]
  have few := a.fewArgs
  rw [tableOf, ← argc]
  refine readTable_of_holds words.1 (by omega)
    (lt_of_le_of_lt (envc ▸ a.fewEnv) (by decide)) (lt_of_le_of_lt pairs (by decide))
    (fun w member => ?_) (fun w member => ?_) (fun x => auxvPairs_small)
  · have := mem_starts member
    omega
  · have := mem_starts member
    omega

theorem imageOf_decodes :
    decodeStack (imageOf a m).mem.read (layoutSp a) =
      some ⟨a.argv.length, a.args, a.envs, auxvPairs a (stringsAt a - 16) ++ interpPairs a⟩ := by
  obtain ⟨-, -, args, envs⟩ := imageOf_holds stacked fits
  have argv := args.readStrings (fun s hm => (args_text hm).1) fun s hm => (args_text hm).2
  have env := envs.readStrings (fun s hm => (args_text hm).1) fun s hm => (args_text hm).2
  simp only [decodeStack, imageOf_table stacked fits, bind, bind_some, tableOf, argv, env]

theorem areas_eq :
    areas (imageOf a m).mem.read (layoutSp a) (tableOf a) =
      (layoutSp a, 8 * stackQwords a) :: (stringsAt a - 16, 16) ::
        extents (stringsAt a) (a.args ++ a.envs) := by
  obtain ⟨-, -, args, envs⟩ := imageOf_holds stacked fits
  have strings : Holds (imageOf a m).mem.read (stringsAt a) (pack (a.args ++ a.envs)) := by
    rw [pack_append]
    exact holds_append.mpr ⟨args, envs⟩
  have text : ∀ s ∈ a.args ++ a.envs, 0 ∉ s ∧ s.length < stackBytes := fun s hm =>
    (mem_append.mp hm).elim args_text args_text
  have random : (auxvPairs a (stringsAt a - 16) ++ interpPairs a).lookup 25 =
      some (stringsAt a - 16) := rfl
  have size : (tableOf a).argvPtrs.length + (tableOf a).envPtrs.length +
      2 * (tableOf a).auxv.length + 5 = stackQwords a := by
    cases interp : a.hasInterp <;>
      simp [tableOf, stackQwords, auxvQwords, auxvPairs, interpPairs, interp, ExecArgs.args,
        ExecArgs.envs]
  rw [areas, size, tableOf, random, ← starts_append,
    strings.readExtents (fun s hm => (text s hm).1) fun s hm => (text s hm).2, getD_some]

theorem areas_inside (e : Nat × Nat)
    (member : e ∈ areas (imageOf a m).mem.read (layoutSp a) (tableOf a)) :
    userStackBaseExec ≤ e.1 ∧ e.1 + e.2 ≤ userStackTopExec := by
  obtain ⟨whole, table, -⟩ := layout_spec a
  rw [areas_eq stacked fits] at member
  rcases mem_cons.mp member with rfl | member
  · exact ⟨fits, show layoutSp a + 8 * stackQwords a ≤ _ by omega⟩
  rcases mem_cons.mp member with rfl | member
  · exact ⟨show _ ≤ stringsAt a - 16 by omega, show stringsAt a - 16 + 16 ≤ _ by omega⟩
  have inside := mem_extents member
  rw [pack_append, length_append] at inside
  omega

theorem areas_apart :
    (areas (imageOf a m).mem.read (layoutSp a) (tableOf a)).Pairwise
      fun e e' => e.1 + e.2 ≤ e'.1 := by
  obtain ⟨whole, table, -⟩ := layout_spec a
  rw [areas_eq stacked fits]
  refine .cons (fun e member => ?_) (.cons (fun e member => ?_) extents_pairwise)
  · show layoutSp a + 8 * stackQwords a ≤ e.1
    rcases mem_cons.mp member with rfl | member
    · show _ ≤ stringsAt a - 16
      omega
    · have inside := (mem_extents member).1
      omega
  · show stringsAt a - 16 + 16 ≤ e.1
    have inside := (mem_extents member).1
    omega

end

/-- Every stack that `sys_execve` completes decodes to the vectors and the auxiliary vector it
was built from; the stack pointer is 8 modulo 16, and the table, the random bytes and the
strings lie, where the table points, in the mapped stack without overlap. -/
theorem execve_stack_decodes (p : Pmm) (m : UserMem) (a : ExecArgs) (img : StackImage)
    (done : execveStack p m a = some img) :
    decodeStack img.mem.read img.sp =
        some ⟨a.argv.length, a.args, a.envs, auxvPairs a img.random ++ interpPairs a⟩ ∧
      img.sp % 16 = 8 ∧
      (∀ va, userStackBaseExec ≤ va → va < userStackTopExec → (img.mem.read va).isSome) ∧
      (∃ t, readTable img.mem.read img.sp = some t ∧
        (∀ e ∈ areas img.mem.read img.sp t,
          userStackBaseExec ≤ e.1 ∧ e.1 + e.2 ≤ userStackTopExec) ∧
        (areas img.mem.read img.sp t).Pairwise fun e e' => e.1 + e.2 ≤ e'.1) ∧
      Holds img.mem.read img.random a.random := by
  rw [execveStack_eq, spawnStack_eq] at done
  split at done
  · next fits =>
    obtain ⟨⟨p', m'⟩, mapped, rfl⟩ := map_eq_some_iff.mp done
    have stacked := (mapStackPages_spec mapped).1
    have still : Stacked (imageOf a m').mem := stacked.of_space imageOf_space
    refine ⟨imageOf_decodes stacked fits, (layout_spec a).2.2.2, fun va low high => ?_,
      ⟨_, imageOf_table stacked fits, areas_inside stacked fits, areas_apart stacked fits⟩,
      (imageOf_holds stacked fits).2.1⟩
    rw [UserMem.Backed.read still low high]
    rfl
  · cases done

end

def freshFrames : Pmm := ⟨fun f => f ≤ 2, fun f => if f ≤ 2 then 1 else 0, [], []⟩

def freshMem : UserMem := ⟨⟨2, RadixTree.empty Pte.zero 3⟩, fun _ _ => 0, []⟩

def hiArgs : ExecArgs where
  argv := [⟨[0x68, 0x69], by decide, by decide⟩]
  env := [⟨[0x41, 0x3D, 0x31], by decide, by decide⟩]
  fewArgs := by decide
  fewEnv := by decide
  random := List.replicate 16 7
  sixteen := rfl
  phdrVa := 0x400040
  phdrCount := 2
  entry := 0x401000
  hasInterp := true

theorem execve_stack_decodes_hi : ∃ img, execveStack freshFrames freshMem hiArgs = some img ∧
    decodeStack img.mem.read img.sp = some ⟨1, [[0x68, 0x69]], [[0x41, 0x3D, 0x31]],
      auxvPairs hiArgs img.random ++ [(7, interpBase), (4, 56)]⟩ ∧ img.sp % 16 = 8 := by
  obtain ⟨img, done⟩ := isSome_iff_exists.mp
    (by decide +kernel : (execveStack freshFrames freshMem hiArgs).isSome)
  obtain ⟨decodes, aligned, -⟩ := execve_stack_decodes _ _ _ _ done
  exact ⟨img, done, decodes, aligned⟩

end Aegis.Exec
