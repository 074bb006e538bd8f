import Aegis.LabelledRun
import Aegis.FrameCustody

/-! Frames of a process with private memory only, over runs of the memory calls. A dormant
page (`PROT_NONE`) keeps its frame, but `sys_munmap` frees the frame and leaves the entry,
and a mapping over it forgets the frame. In every run in which no call unmaps or maps over a
dormant page, each page has a frame of its own that is allocated, and the final teardown
frees every frame that was handed out exactly once. -/

namespace Aegis.Memory

open LabelledRun RadixTree List Option Ledger

def PrivateCall : MemCall → Prop
  | .mmap _ args => args.anonymous = true
  | _ => True

instance (c : MemCall) : Decidable (PrivateCall c) := by
  rcases c <;> (dsimp only [PrivateCall]; infer_instance)

def touched (m : Mem) : MemCall → List Nat
  | .mmap _ args =>
    if Mappable m args then pagesOf (mmapTarget m args) (pageUp args.len) else []
  | .munmap addr len => if Unmappable addr len then pagesOf addr (pageUp len) else []
  | .mprotect _ _ _ => []
  | .brk arg =>
    if arg < userAddrMax ∧ m.proc.brkBase ≤ arg then pagesOf m.proc.brk (pageUp arg - m.proc.brk)
    else []

def SparesDormant (m : Mem) (c : MemCall) : Prop :=
  m.proc.space.Awake (touched m c)
  deriving Decidable

structure Accounted (m : Mem) : Prop where
  ledger : Ledger m.pmm (m.proc.space.held [])
  aligned : PageAligned m
  unshared : ∀ e ∈ m.proc.vmas, e.type ≠ .shared

structure PrivateFrames (m : Mem) : Prop where
  allocated : ∀ q < userPages, m.proc.space.pte q ≠ Pte.zero →
    m.pmm.bitmap (m.proc.space.pte q).frame = true
  distinct : ∀ q < userPages, ∀ q' < userPages, m.proc.space.pte q ≠ Pte.zero →
    m.proc.space.pte q' ≠ Pte.zero →
    (m.proc.space.pte q').frame = (m.proc.space.pte q).frame → q' = q
  freedOnce : (vmmFreeUserPml4 m.pmm m.proc.space).allocated.Perm
    (vmmFreeUserPml4 m.pmm m.proc.space).freed
  free : ∀ f ∈ m.pmm.allocated, (vmmFreeUserPml4 m.pmm m.proc.space).bitmap f = false

section
variable {m m' : Mem} {c : MemCall}

theorem pmmFreePage_allocated (p : Pmm) (f : Nat) : (pmmFreePage p f).allocated = p.allocated := by
  rw [pmmFreePage]
  simp only
  split_ifs <;> rfl

theorem freePages_allocated (p : Pmm) (frames : List Nat) :
    (freePages p frames).allocated = p.allocated := by
  induction frames generalizing p with
  | nil => rfl
  | cons f frames ih => exact (ih _).trans (pmmFreePage_allocated p f)

theorem Accounted.privateFrames (ha : Accounted m) : PrivateFrames m := by
  have ledger : Ledger m.pmm (m.proc.space.held [] ++ []) := by simpa using ha.ledger
  have after : Ledger (vmmFreeUserPml4 m.pmm m.proc.space) [] := custody.freeUserPml4 ledger
  have hb := after.balance
  rw [append_nil] at hb
  refine ⟨fun q lt used => ?_, fun q lt q' small' used used' same => ?_, hb, ?_⟩
  · exact (Space.live_of_owned ledger.toOwned lt used not_mem_nil).1
  · exact Space.pte_inj lt small' ha.ledger.nodup used used' not_mem_nil same
  intro f handed
  refine after.returned f (hb.mem_iff.mp ?_) not_mem_nil
  rw [vmmFreeUserPml4, freePages_allocated]
  exact handed

theorem Accounted.backed (ha : Accounted m) : m.proc.space.Backed := by
  intro q lt used
  have ho : Owned m.pmm (m.proc.space.held [] ++ []) := by
    simpa using ha.ledger.toOwned
  exact (Space.live_of_owned ho lt used not_mem_nil).2

theorem Space.Awake.dropPages {x : Pmm × Space} {pages range : List Nat} (hb : x.2.Backed)
    (hi : InUser range) (hw : InUser pages) (ha : x.2.Awake pages) :
    (range.foldl dropPage x).2.Awake pages := by
  intro q mem
  rw [(dropPages_pte hb hi).2 q (hw q mem)]
  split_ifs
  · exact fun hd => hd.1 rfl
  · exact ha q mem

variable {r : Except Nat Nat}

theorem Accounted.mmap {files : Nat → Option Memfd} {a : MmapArgs} (ha : Accounted m)
    (hn : a.anonymous = true) (hs : SparesDormant m (.mmap files a))
    (done : sysMmap files m a = some (m', r)) : Ledger m'.pmm (m'.proc.space.held [] ++ []) := by
  have ledger : Ledger m.pmm (m.proc.space.held [] ++ []) := by simpa using ha.ledger
  have hb := ha.backed
  rcases sysMmap_cases done with ⟨rfl, -⟩ | ⟨-, rfl, -⟩ | ⟨ok, hm⟩
  · exact ledger
  · exact ledger
  rw [mmapAt_anonymous hn] at hm
  have hi := ok.inUser
  rw [SparesDormant, touched, if_pos ok] at hs
  rw [mmapReady, mmapTarget] at hm
  rw [mmapTarget] at hi hs
  split_ifs at hm hi hs with fixed
  · -- The target is cleared first.
    have hc := custody.dropPages (m := (m.pmm, m.proc.space)) hb hi
      (fun _ _ _ => not_mem_nil) ledger
    have ht := (dropPages_pte (m := (m.pmm, m.proc.space)) hb hi).1
    exact custody.mmapPrivate (fun _ => id) ht hi
      (Space.Awake.dropPages (x := (m.pmm, m.proc.space)) hb hi hi hs) hm
      hc
  · exact custody.mmapPrivate (m := mmapTake m (pageUp a.len)) (fun _ => id) hb hi hs hm ledger

theorem type_setHeapLen {type : VmaType} {table : List VmaEntry} {len : VmaEntry → Nat}
    (all : ∀ e ∈ table, e.type ≠ type) : ∀ e ∈ setHeapLen len table, e.type ≠ type := by
  induction table with
  | nil => exact all
  | cons e rest ih =>
    obtain ⟨h1, tail⟩ := forall_mem_cons.mp all
    rw [setHeapLen]
    split_ifs
    · exact forall_mem_cons.mpr ⟨h1, tail⟩
    · exact forall_mem_cons.mpr ⟨h1, ih tail⟩

theorem mmapPrivate_unshared {a : MmapArgs} {base : Nat}
    (hu : ∀ e ∈ m.proc.vmas, e.type ≠ .shared) (done : mmapPrivate m a base = some (m', r)) :
    ∀ e ∈ m'.proc.vmas, e.type ≠ .shared := by
  obtain ⟨⟨count, last⟩, -, hr⟩ := map_eq_some_iff.mp done
  simp only at hr
  split at hr
  · rw [← (Prod.mk.inj hr).1]
    exact hu
  · rw [← (Prod.mk.inj hr).1]
    exact type_insert hu nofun

theorem memStep_unshared (hu : ∀ e ∈ m.proc.vmas, e.type ≠ .shared) (call : PrivateCall c)
    (step : memStep m c = some m') : ∀ e ∈ m'.proc.vmas, e.type ≠ .shared := by
  cases c with
  | mmap files args =>
    obtain ⟨⟨last, r⟩, done, rfl⟩ := map_eq_some_iff.mp step
    rcases sysMmap_cases done with ⟨rfl, -⟩ | ⟨-, rfl, -⟩ | ⟨ok, hm⟩
    · exact hu
    · exact hu
    rw [mmapAt_anonymous call] at hm
    refine mmapPrivate_unshared ?_ hm
    rw [mmapReady]
    split_ifs
    · exact all_remove type_cut hu
    · exact hu
  | munmap addr len =>
    rw [← some.inj step, sysMunmap]
    split_ifs
    · exact hu
    · exact hu
    · exact all_remove type_cut hu
  | mprotect addr len prot =>
    rw [← some.inj step, sysMprotect]
    split_ifs
    · exact hu
    · exact hu
    · exact hu
    · exact all_updateProt type_cut hu
  | brk arg =>
    obtain ⟨⟨last, r⟩, done, rfl⟩ := map_eq_some_iff.mp step
    rcases sysBrk_cases done with rfl | ⟨-, -, ⟨-, hg⟩ | ⟨-, rfl⟩⟩
    · exact hu
    · obtain ⟨⟨count, loopEnd⟩, -, hr⟩ := map_eq_some_iff.mp hg
      simp only at hr
      split_ifs at hr
      · rw [← (Prod.mk.inj hr).1]
        exact hu
      · rw [← (Prod.mk.inj hr).1]
        exact type_setHeapLen hu
      · rw [← (Prod.mk.inj hr).1]
        exact type_insert hu (by simp)
    · rw [brkShrink]
      simp only
      split
      · exact hu
      split_ifs
      · exact all_remove type_cut hu
      · exact type_setHeapLen hu

theorem Accounted.step (ha : Accounted m) (ok : PrivateCall c ∧ SparesDormant m c)
    (step : memStep m c = some m') : Accounted m' := by
  have hl := memStep_aligned ha.aligned step
  have hu := memStep_unshared ha.unshared ok.1 step
  have ledger : Ledger m.pmm (m.proc.space.held [] ++ []) := by simpa using ha.ledger
  have hb := ha.backed
  suffices after : Ledger m'.pmm (m'.proc.space.held [] ++ []) from
    ⟨by simpa using after, hl, hu⟩
  cases c with
  | mmap files args =>
    obtain ⟨⟨last, r⟩, done, rfl⟩ := map_eq_some_iff.mp step
    exact ha.mmap ok.1 ok.2 done
  | munmap addr len =>
    rw [← some.inj step]
    by_cases hc : Unmappable addr len
    · have hs := ok.2
      rw [SparesDormant, touched, if_pos hc] at hs
      have hi : InUser (pagesOf addr (pageUp len)) :=
        pagesOf_inUser (by have := hc.2.2; simp only [userAddrMax] at this; omega)
      have own : isSharedVma m addr = false := by
        refine any_eq_false.mpr fun e mem hh => ?_
        exact ha.unshared e mem (of_decide_eq_true hh).2
      obtain ⟨start, low, hd⟩ := hc
      rw [sysMunmap, if_neg (by omega), if_neg (by omega), own,
        munmapPages_eq (m := (m.pmm, m.proc.space)) hb hi hs]
      exact custody.dropPages (m := (m.pmm, m.proc.space)) hb hi (fun _ _ _ => not_mem_nil) ledger
    · rw [sysMunmap_refused hc]
      exact ledger
  | mprotect addr len prot =>
    rw [← some.inj step, sysMprotect]
    split_ifs with unaligned empty outside
    · exact ledger
    · exact ledger
    · exact ledger
    · exact custody.setProts hb
        (pagesOf_inUser (by simp only [userAddrMax] at outside; omega)) ledger
  | brk arg =>
    obtain ⟨⟨last, r⟩, done, rfl⟩ := map_eq_some_iff.mp step
    have hr := ha.aligned.brkUser
    rcases sysBrk_cases done with rfl | ⟨low, hn, ⟨he, hg⟩ | ⟨hf, rfl⟩⟩
    · exact ledger
    · obtain ⟨count, loopEnd, loop, pmm, space, -⟩ := brkGrow_cases hg
      have hi : InUser (pagesOf m.proc.brk (pageUp arg - m.proc.brk)) := pagesOf_inUser (by omega)
      have hs := ok.2
      rw [SparesDormant, touched, if_pos low] at hs
      rw [pmm, space]
      exact (custody.mapFresh (fun _ => id) rfl pagesOf_nodup hi hs loop ledger).1
    · exact custody.dropPages (m := (m.pmm, m.proc.space)) hb
        (pagesOf_inUser (by omega)) (fun _ _ _ => not_mem_nil) ledger

end

theorem accounted_create {p p' : Pmm} {space : Space} {brk : Nat} (hr : p.bitmap 0 = true)
    (hu : p.allocated = [] ∧ p.freed = [])
    (hc : vmmCreateUserPml4 p = some (space, p')) (ha : brk % 4096 = 0)
    (hb : brk ≤ 2 ^ 47) :
    Accounted ⟨p', ⟨space, brk, brk, mmapRegion, [], []⟩⟩ := by
  obtain ⟨⟨root, last⟩, ht, eq⟩ := map_eq_some_iff.mp hc
  cases eq
  have start : Ledger p [] := by
    refine ⟨⟨.nil, hr, nofun⟩, ?_, ?_⟩
    · simp [hu]
    · simp [hu]
  have ledger := custody.allocs (.cons ht (.nil _)) start
  have bump : mmapRegion % 4096 = 0 := by decide
  refine ⟨?_, ⟨ha, hb, bump, nofun⟩, nofun⟩
  rw [Space.held, frames_empty (pteOwned_zero [])]
  exact ledger

/-- Over whole runs with private memory: each page in use has an allocated frame of its own,
and the teardown frees every frame that was handed out exactly once. -/
theorem private_frames_owned {start m : Mem} {calls : List MemCall} (accounted : Accounted start)
    (run : RunWhere memStep (fun m c => PrivateCall c ∧ SparesDormant m c) start calls m) :
    PrivateFrames m :=
  (run.invariant accounted fun _ _ _ inv ok step => inv.step ok step).privateFrames

theorem emptyProcess_accounted : Accounted emptyProcess := by
  refine accounted_create (p := smallPmm) (by decide) ⟨rfl, rfl⟩ ?_ rfl (by decide)
  rw [vmmCreateUserPml4, allocTable, if_neg (by decide +kernel)]
  rfl

def guardPage : Nat := mmapRegion + 4096

def protectCalls : List MemCall :=
  [.mmap (fun _ => none) ⟨0, 0x3000, 3, 0x22, 2 ^ 64 - 1, 0⟩, .mprotect guardPage 4096 0,
    .brk 0x402000, .munmap mmapRegion 4096]

def guardedMapping : Mem :=
  reached (guarded memStep fun m c => PrivateCall c ∧ SparesDormant m c) emptyProcess protectCalls

theorem private_frames_owned_guard_page :
    (guardedMapping.proc.space.pte (guardPage / 4096)).Dormant ∧ PrivateFrames guardedMapping := by
  have enabled : (exec (guarded memStep fun m c => PrivateCall c ∧ SparesDormant m c) emptyProcess
      protectCalls).isSome := by decide +kernel
  have run := runWhere_of_exec (exec_eq_reached enabled)
  exact ⟨by decide +kernel, private_frames_owned emptyProcess_accounted run⟩

def unmappedGuard : Mem :=
  reached memStep emptyProcess (protectCalls ++ [.munmap guardPage 4096])

/-- Its frame is freed while the entry still names it. -/
theorem munmap_frees_named_frame :
    Run memStep emptyProcess (protectCalls ++ [.munmap guardPage 4096]) unmappedGuard ∧
      (∀ c ∈ protectCalls ++ [.munmap guardPage 4096], PrivateCall c) ∧
      unmappedGuard.proc.space.pte (guardPage / 4096) ≠ Pte.zero ∧
      unmappedGuard.pmm.bitmap (unmappedGuard.proc.space.pte (guardPage / 4096)).frame = false := by
  exact ⟨run_of_exec exec_eq_reached, by decide, by decide +kernel, by decide +kernel⟩

end Aegis.Memory
