import Aegis.ElfLoad
import Aegis.InitStack

/-! What `sys_spawn` writes while it builds the initial stack (kernel/syscall/sys_exec.c).
There is no bounds check and the results of the writes are ignored: below the stack a byte is
written exactly if the loaded image has mapped its page. -/

namespace Aegis.Exec

open ByteLayout Memory List Option

structure Touches (m m' : UserMem) (low high : Nat) (points : Nat → Prop) : Prop where
  space : m'.space = m.space
  only : ∀ va ∈ m'.written, va ∈ m.written ∨
    ((low ≤ va ∧ va < high) ∧ vmmPhysOfUser m.space (va / 4096) ≠ 0)
  kept : ∀ va ∈ m.written, va ∈ m'.written
  all : ∀ va, points va → vmmPhysOfUser m.space (va / 4096) ≠ 0 → va ∈ m'.written

section
variable {m m' m'' : UserMem} {low high va sp : Nat} {points points' : Nat → Prop}

theorem Touches.refl (m : UserMem) : Touches m m low high fun _ => False :=
  ⟨rfl, fun _ hm => .inl hm, fun _ hm => hm, nofun⟩

theorem Touches.trans (h1 : Touches m m' low high points) (h2 : Touches m' m'' low high points') :
    Touches m m'' low high fun va => points va ∨ points' va where
  space := h2.space.trans h1.space
  only va member := by
    rcases h2.only va member with pre | now
    · exact h1.only va pre
    · exact .inr (h1.space ▸ now)
  kept va member := h2.kept va (h1.kept va member)
  all va point mapped := by
    rcases point with he | late
    · exact h2.kept va (h1.all va he mapped)
    · exact h2.all va late (h1.space.symm ▸ mapped)

theorem Touches.fewer (ht : Touches m m' low high points)
    (sub : ∀ va, points' va → points va) : Touches m m' low high points' :=
  ⟨ht.space, ht.only, ht.kept, fun va point => ht.all va (sub va point)⟩

theorem touches_write {l : List Byte} (some : 0 < l.length) (above : low ≤ va)
    (below : va + l.length ≤ high) :
    Touches m (vmmWriteUserBytes m va l).1 low high (· = va) where
  space := vmmWriteUserBytes_space
  only a member := by
    rcases vmmWriteUserBytes_written member with old | ⟨range, mapped⟩
    · exact .inl old
    · exact .inr ⟨by omega, mapped⟩
  kept a member := vmmWriteUserBytes_mono member
  all a here mapped := here ▸ vmmWriteUserBytes_first some (here ▸ mapped)

theorem spawnPush_touches {ss : List (List Byte)} (ha : low + (pack ss).length ≤ sp)
    (hb : sp ≤ high) :
    Touches m (spawnPush ss sp m).2.2 low high (· ∈ starts (sp - (pack ss).length) ss) := by
  induction ss with
  | nil => exact (Touches.refl m).fewer fun _ hm => by cases hm
  | cons s ss ih =>
    rw [pack_length_cons] at ha ⊢
    have lower := (@spawnPush_eq m sp ss (by omega)).1
    have long : (s ++ [(0 : Byte)]).length = s.length + 1 := length_append
    have here : sp - (pack ss).length - (s.length + 1) =
        sp - (s.length + 1 + (pack ss).length) := by omega
    have next : sp - (s.length + 1 + (pack ss).length) + (s.length + 1) =
        sp - (pack ss).length := by omega
    have hw := @touches_write (spawnPush ss sp m).2.2 low high
      (sp - (s.length + 1 + (pack ss).length)) (s ++ [0]) (by omega) (by omega) (by omega)
    simp only [spawnPush, lower, here]
    refine ((ih (by omega)).trans hw).fewer fun a hm => ?_
    rw [starts, next] at hm
    exact (mem_cons.mp hm).symm

theorem writeWordsAnyway_touches {ws : List Nat} {wp : Nat} (ha : low ≤ wp)
    (hb : wp + 8 * ws.length ≤ high) :
    Touches m (writeWordsAnyway wp ws m) low high fun va => ∃ i < ws.length, va = wp + 8 * i := by
  induction ws generalizing wp m with
  | nil => exact (Touches.refl m).fewer fun _ ⟨_, lt, _⟩ => by cases lt
  | cons w ws ih =>
    rw [length_cons] at hb
    have long : (leBytes 8 w).length = 8 := leBytes_length
    have h1 := @touches_write m low high wp (leBytes 8 w) (by omega) ha (by omega)
    have hl := @ih (vmmWriteUserU64 m wp w).1 (wp + 8) (by omega) (by omega)
    refine (h1.trans hl).fewer fun a ⟨i, lt, at_⟩ => ?_
    cases i with
    | zero => exact .inl at_
    | succ i => exact .inr ⟨i, Nat.lt_of_succ_lt_succ lt, by omega⟩

end

def ItemStart (a : ExecArgs) (va : Nat) : Prop :=
  (∃ i < stackQwords a, va = layoutSp a + 8 * i) ∨ va = stringsAt a - 16 ∨
    va ∈ starts (stringsAt a) (a.args ++ a.envs)

section
variable {a : ExecArgs} {m : UserMem} {p : Pmm} {img : StackImage}

theorem imageOf_touches :
    Touches m (imageOf a m).mem (layoutSp a) userStackTopExec (ItemStart a) := by
  obtain ⟨hw, table, -⟩ := layout_spec a
  have hx := a.sixteen
  have middle : userStackTopExec - (pack a.envs).length = stringsAt a + (pack a.args).length := by
    omega
  have envs := @spawnPush_touches m (layoutSp a) userStackTopExec userStackTopExec a.envs
    (by omega) le_rfl
  have args := @spawnPush_touches (spawnPush a.envs userStackTopExec m).2.2 (layoutSp a)
    userStackTopExec (userStackTopExec - (pack a.envs).length) a.args (by omega) (by omega)
  have random := @touches_write (pushed a m) (layoutSp a) userStackTopExec (stringsAt a - 16)
    a.random (by omega) (by omega) (by omega)
  have words := @writeWordsAnyway_touches (seeded a m) (layoutSp a) userStackTopExec (allWords a)
    (layoutSp a) le_rfl (by rw [allWords_length]; omega)
  refine (((envs.trans args).trans random).trans words).fewer fun va start => ?_
  rw [middle, Nat.add_sub_cancel, allWords_length]
  rcases start with word | random | hs
  · exact .inr word
  · exact .inl (.inr random)
  · rw [starts_append] at hs
    exact .inl (.inl (mem_append.mp hs).symm)

theorem starts_dense {ss : List (List Byte)} {h1 low : Nat} (hs : ∀ s ∈ ss, s.length ≤ 255)
    (ha : h1 ≤ low) (hb : low + 256 ≤ h1 + (pack ss).length) :
    ∃ va ∈ starts h1 ss, low ≤ va ∧ va < low + 256 := by
  induction ss generalizing h1 with
  | nil =>
    have he : (pack []).length = 0 := rfl
    omega
  | cons s ss ih =>
    rw [pack_length_cons] at hb
    have hn := hs s mem_cons_self
    by_cases here : h1 = low
    · exact ⟨h1, mem_cons_self, by omega, by omega⟩
    by_cases hl : h1 + (s.length + 1) ≤ low
    · obtain ⟨va, hm, range⟩ := ih (fun x hm => hs x (mem_cons_of_mem s hm)) hl (by omega)
      exact ⟨va, mem_cons_of_mem h1 hm, range⟩
    cases ss with
    | nil =>
      have he : (pack []).length = 0 := rfl
      omega
    | cons t ss => exact ⟨h1 + (s.length + 1), mem_cons_of_mem h1 mem_cons_self,
        by omega, by omega⟩

theorem itemStart_in_page {page : Nat} (hc : layoutSp a / 4096 ≤ page)
    (hb : page < userStackBaseExec / 4096) : ∃ va, ItemStart a va ∧ va / 4096 = page := by
  obtain ⟨hw, table, near, ha⟩ := layout_spec a
  have base : userStackBaseExec < userStackTopExec := by decide
  by_cases hi : page * 4096 < layoutSp a + 8 * stackQwords a
  · -- the table reaches into the page, and its words are aligned
    by_cases h1 : page * 4096 ≤ layoutSp a
    · have words : 0 < stackQwords a := by
        unfold stackQwords
        omega
      exact ⟨layoutSp a, .inl ⟨0, words, rfl⟩, by omega⟩
    · exact ⟨page * 4096, .inl ⟨(page * 4096 - layoutSp a) / 8, by omega, by omega⟩, by omega⟩
  by_cases random : page * 4096 ≤ stringsAt a - 16
  · exact ⟨stringsAt a - 16, .inr (.inl rfl), by omega⟩
  have hs (s : List Byte) (hm : s ∈ a.args ++ a.envs) : s.length ≤ 255 := by
    rw [ExecArgs.args, ExecArgs.envs, ← map_append] at hm
    obtain ⟨c, -, rfl⟩ := mem_map.mp hm
    exact c.short
  have length : (pack (a.args ++ a.envs)).length = (pack a.args).length + (pack a.envs).length :=
    by rw [pack_append, length_append]
  obtain ⟨va, hm, range⟩ := @starts_dense _ (stringsAt a) (max (stringsAt a) (page * 4096))
    hs (by omega) (by omega)
  exact ⟨va, .inr (.inr hm), by omega⟩

/-- The bytes that `sys_spawn` writes lie in the stack exactly if the loaded image has no page
between the new stack pointer and the stack. -/
theorem imageOf_inside_iff (hl : m.written = []) :
    (∀ va ∈ (imageOf a m).mem.written, userStackBaseExec ≤ va ∧ va < userStackTopExec) ↔
      ∀ page, layoutSp a / 4096 ≤ page → page < userStackBaseExec / 4096 →
        vmmPhysOfUser m.space page = 0 := by
  have ht := @imageOf_touches a m
  constructor
  · intro hi page ha hb
    by_contra hm
    obtain ⟨va, start, here⟩ := itemStart_in_page ha hb
    have := hi va (ht.all va start (here ▸ hm))
    omega
  · intro hu va hc
    rcases ht.only va hc with old | ⟨range, hm⟩
    · rw [hl] at old
      cases old
    refine ⟨Nat.le_of_not_lt fun ho => hm (hu _ ?_ ?_), range.2⟩
    · omega
    · have hw : userStackBaseExec / 4096 * 4096 = userStackBaseExec := by decide
      omega

def ExecArgs.reseed (a : ExecArgs) (random : List Byte) (sixteen : random.length = 16) : ExecArgs :=
  { a with random := random, sixteen := sixteen }

/-- `sys_spawn` and `sys_execve` agree on the initial stack wherever both build one, and
`sys_spawn` writes only to the stack, exactly if the loaded image has no page between the new
stack pointer and the stack. -/
theorem spawn_stack_agrees_iff (built : spawnStack p m a = some img) (blank : m.written = []) :
    ((∀ random sixteen p' m' img', execveStack p' m' (a.reseed random sixteen) = some img' →
        (decodeStack img.mem.read img.sp).isSome ∧
        decodeStack img.mem.read img.sp = decodeStack img'.mem.read img'.sp) ∧
      ∀ va ∈ img.mem.written, userStackBaseExec ≤ va ∧ va < userStackTopExec) ↔
      ∀ page, layoutSp a / 4096 ≤ page → page < userStackBaseExec / 4096 →
        vmmPhysOfUser m.space page = 0 := by
  rw [spawnStack_eq] at built
  obtain ⟨⟨p₀, m₀⟩, mapped, rfl⟩ := map_eq_some_iff.mp built
  obtain ⟨stacked, written, kept⟩ := mapStackPages_spec mapped
  have inside := @imageOf_inside_iff a m₀ (written.trans blank)
  have same : (∀ page, layoutSp a / 4096 ≤ page → page < userStackBaseExec / 4096 →
      vmmPhysOfUser m₀.space page = 0) ↔
      ∀ page, layoutSp a / 4096 ≤ page → page < userStackBaseExec / 4096 →
        vmmPhysOfUser m.space page = 0 :=
    forall_congr' fun page => forall_congr' fun _ => forall_congr' fun below => by
      rw [kept page below]
  refine Iff.trans ⟨And.right, fun writes => ⟨?_, writes⟩⟩ (inside.trans same)
  intro random sixteen p' m' img' done
  rw [execveStack_eq, spawnStack_eq] at done
  split at done
  · next fits =>
    obtain ⟨⟨p₁, m₁⟩, mapped', rfl⟩ := map_eq_some_iff.mp done
    have ours := imageOf_decodes stacked (a := a) fits
    have theirs := imageOf_decodes (mapStackPages_spec mapped').1 fits
    exact ⟨isSome_of_eq_some ours, ours.trans theirs.symm⟩
  · cases done

end

theorem spawn_stack_agrees_hi : ∃ img, spawnStack freshFrames freshMem hiArgs = some img ∧
    ∀ va ∈ img.mem.written, userStackBaseExec ≤ va ∧ va < userStackTopExec := by
  obtain ⟨img, built⟩ := isSome_iff_exists.mp
    (by decide +kernel : (spawnStack freshFrames freshMem hiArgs).isSome)
  have high : userStackBaseExec / 4096 ≤ layoutSp hiArgs / 4096 := by decide
  exact ⟨img, built, ((spawn_stack_agrees_iff built rfl).mpr fun page above below =>
    absurd above (by omega)).2⟩

/-- A program with one segment of one page at 0x7FFFFFFA000, just below the stack. -/
def stackEdgeImage : Elf.Image := fun off =>
  match off with
  | 81 => 0xA0
  | 82 => 0xFF
  | 83 => 0xFF
  | 84 => 0xFF
  | 85 => 0x07
  | off => Elf.oneSegmentImage 4 0 off

def longArgs : ExecArgs where
  argv := List.replicate 64
    ⟨List.replicate 255 0x61, by rw [length_replicate], by decide +kernel⟩
  env := []
  fewArgs := by rw [length_replicate]
  fewEnv := by decide
  random := hiArgs.random
  sixteen := hiArgs.sixteen
  phdrVa := 0
  phdrCount := 1
  entry := 0
  hasInterp := false

/-- The arguments fill the stack, so the table goes into the last page of the image. -/
theorem spawn_writes_into_image : ∃ m result img,
    Elf.elfLoad stackEdgeImage 0 Elf.dirtyMem = some (m, some result) ∧
      spawnStack m.kva.pmm ⟨m.user, m.bytes, []⟩ longArgs = some img ∧
      ∃ va ∈ img.mem.written, va < userStackBaseExec := by
  obtain ⟨⟨m, result⟩, loaded⟩ := isSome_iff_exists.mp
    (by decide +kernel : (Elf.elfLoad stackEdgeImage 0 Elf.dirtyMem).isSome)
  have facts : (Elf.elfLoad stackEdgeImage 0 Elf.dirtyMem).any (fun r =>
      r.2.isSome ∧ vmmPhysOfUser r.1.user (userStackBaseExec / 4096 - 1) ≠ 0 ∧
        (mapStackPages userStackNpages 0 (r.1.kva.pmm, ⟨r.1.user, r.1.bytes, []⟩)).isSome) := by
    decide +kernel
  rw [loaded, any_some, decide_eq_true_eq] at facts
  obtain ⟨accepted, edge, backed⟩ := facts
  obtain ⟨result, rfl⟩ := isSome_iff_exists.mp accepted
  obtain ⟨⟨p', m'⟩, mapped⟩ := isSome_iff_exists.mp backed
  obtain ⟨-, -, kept⟩ := mapStackPages_spec mapped
  have low : layoutSp longArgs / 4096 ≤ userStackBaseExec / 4096 - 1 := by decide +kernel
  obtain ⟨va, start, here⟩ := itemStart_in_page low (by decide)
  refine ⟨m, result, imageOf longArgs m', loaded, by rw [spawnStack_eq, mapped, map_some],
    va, imageOf_touches.all va start ?_, ?_⟩
  · rw [here, kept _ (by decide)]
    exact edge
  have base : userStackBaseExec / 4096 * 4096 = userStackBaseExec := by decide
  have positive := userStackBaseExec_pos
  omega

end Aegis.Exec
