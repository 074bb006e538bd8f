import Aegis.LabelledRun
import Aegis.FrameOwners

/-! Frames of memfds over whole runs of a system of processes. The paths that release a page
do not all tell a page of a memfd from the process's own, and a memfd gives its pages back
without asking who maps them. In every run in which a call frees no listed page and a memfd
releases no page that is mapped, no frame that a memfd lists or an address space maps is
free. -/

namespace Aegis.Memory

open Function (update_self update_of_ne update_idem update_eq_self)
open LabelledRun RadixTree List Option Memory.System Space

def System.listed (s : System) : List Nat :=
  (List.range memfdMax).flatMap fun id => memfdFrames (s.memfds id)

def procHeld (shared : List Nat) : Option Process → List Nat
  | none => []
  | some p => p.mem.space.held shared

def procsHeld (shared : List Nat) (procs : Nat → Option Process) : List Nat :=
  (List.range maxProcesses).flatMap fun i => procHeld shared (procs i)

structure SystemCustody (s : System) : Prop where
  owned : Owned s.pmm (s.listed ++ procsHeld s.listed s.procs)
  present : ∀ i < maxProcesses, ∀ p ∈ s.procs i, p.mem.space.AllPresent

def Unnamed (procs : Nat → Option Process) (frames : List Nat) : Prop :=
  ∀ i < maxProcesses, ∀ p ∈ procs i, ∀ f ∈ p.mem.space.leafFrames, f ∉ frames

section
variable {s : System} {pmm : Pmm} {i : Nat} {p : Process} {shared rest : List Nat}

theorem procsHeld_focus (shared : List Nat) (procs : Nat → Option Process)
    (hi : i < maxProcesses) : ∃ others, ∀ x,
      (procsHeld shared (Function.update procs i x)).Perm (procHeld shared x ++ others) := by
  refine ⟨procsHeld shared (Function.update procs i none), fun x => ?_⟩
  have exchange := flatMap_update_perm (procHeld shared) (Function.update procs i none) x hi
  rw [update_self, update_idem] at exchange
  exact exchange

section
variable (inv : SystemCustody s)
include inv

theorem SystemCustody.update (pmm : Pmm) (x : Option Process) (inside : i < maxProcesses)
    (change : ∀ rest, (∀ f ∈ s.listed, f ∈ rest) →
      Owned s.pmm (procHeld s.listed (s.procs i) ++ rest) →
      Owned pmm (procHeld s.listed x ++ rest) ∧ ∀ p ∈ x, p.mem.space.AllPresent) :
    SystemCustody { s with pmm := pmm, procs := Function.update s.procs i x } := by
  obtain ⟨others, focus⟩ := procsHeld_focus s.listed s.procs inside
  have before := (focus (s.procs i)).append_left s.listed
  rw [update_eq_self] at before
  have start := inv.owned.perm (before.trans (perm_append_comm_assoc _ _ _))
  obtain ⟨after, present⟩ :=
    change (s.listed ++ others) (fun f member => mem_append_left _ member) start
  refine ⟨after.perm ?_, fun j small p member => ?_⟩
  · exact (perm_append_comm_assoc _ _ _).trans ((focus x).append_left s.listed).symm
  change p ∈ Function.update s.procs i x j at member
  by_cases same : j = i
  · subst same
    rw [update_self] at member
    exact present p member
  · rw [update_of_ne same] at member
    exact inv.present j small p member

theorem SystemCustody.setProc {p' : Process} (hi : i < maxProcesses) (here : s.procs i = some p)
    (space : p'.mem.space = p.mem.space) :
    SystemCustody (s.setProc i p') := by
  refine inv.update _ _ hi fun rest _ start => ⟨?_, fun x member => ?_⟩
  · rw [here] at start
    rw [procHeld, space]
    exact start
  · rw [← some.inj member, space]
    exact inv.present i hi p here

theorem SystemCustody.mem_held (hi : i < maxProcesses) (here : s.procs i = some p) {q : Nat}
    (lt : q < userPages) (used : p.mem.space.pte q ≠ Pte.zero) :
    (p.mem.space.pte q).frame ∈ s.listed ++ procsHeld s.listed s.procs ∧
      (p.mem.space.pte q).frame ≠ 0 := by
  have hm : (p.mem.space.pte q).frame ∈ s.listed ++ procsHeld s.listed s.procs := by
    by_cases hf : (p.mem.space.pte q).frame ∈ s.listed
    · exact mem_append_left _ hf
    refine mem_append_right _ (mem_flatMap.mpr ⟨i, mem_range.mpr hi, ?_⟩)
    rw [here]
    exact Space.mem_held lt used hf
  exact ⟨hm, (inv.owned.live _ hm).2.2.1⟩

theorem SystemCustody.relist {memfds : Nat → Memfd}
    (eq : ∀ i < maxProcesses, ∀ p, s.procs i = some p → ∀ q < userPages,
      p.mem.space.pte q ≠ Pte.zero → ((p.mem.space.pte q).frame ∈ s.listed ↔
        (p.mem.space.pte q).frame ∈ listed { s with memfds := memfds }))
    (ho : Owned pmm (listed { s with memfds := memfds } ++ procsHeld s.listed s.procs)) :
    SystemCustody { s with pmm := pmm, memfds := memfds } := by
  refine ⟨?_, inv.present⟩
  have spaces : procsHeld s.listed s.procs =
      procsHeld (listed { s with memfds := memfds }) s.procs := by
    refine flatMap_congr fun i hm => ?_
    cases here : s.procs i with
    | none => rfl
    | some p => exact held_congr fun q => eq i (mem_range.mp hm) p here q
  rw [spaces] at ho
  exact ho

end

variable {id : Nat} {mf : Memfd}

theorem listed_setMemfd (s : System) (lt : id < memfdMax) (mf : Memfd) :
    (memfdFrames (s.memfds id) ++ (s.setMemfd id mf).listed).Perm (memfdFrames mf ++ s.listed) :=
  flatMap_update_perm memfdFrames s.memfds mf lt

theorem SystemCustody.growMemfd (inv : SystemCustody s) (new : List Nat) (lt : id < memfdMax)
    (frames : memfdFrames mf = memfdFrames (s.memfds id) ++ new)
    (ho : Owned pmm (new ++ (s.listed ++ procsHeld s.listed s.procs))) :
    SystemCustody { s.setMemfd id mf with pmm := pmm } := by
  have hl : (s.setMemfd id mf).listed.Perm (new ++ s.listed) := by
    have exchange := listed_setMemfd s lt mf
    rw [frames, append_assoc] at exchange
    exact (perm_append_left_iff _).mp exchange
  refine inv.relist (fun i hi p here q page used => ?_) (ho.perm ?_)
  · have held := (inv.mem_held hi here page used).1
    have ha := disjoint_of_nodup_append ho.nodup
    constructor
    · exact fun hm => hl.mem_iff.mpr (mem_append_right _ hm)
    intro hm
    exact (mem_append.mp (hl.mem_iff.mp hm)).resolve_left fun hf =>
      ha hf held
  · rw [← append_assoc]
    exact hl.symm.append_right _

theorem SystemCustody.releaseMemfd {gone : List Nat} (inv : SystemCustody s) (lt : id < memfdMax)
    (frames : memfdFrames (s.memfds id) = memfdFrames mf ++ gone) (hu : Unnamed s.procs gone) :
    SystemCustody { s.setMemfd id mf with pmm := freePages s.pmm gone } := by
  have hl : s.listed.Perm (gone ++ (s.setMemfd id mf).listed) := by
    have exchange := listed_setMemfd s lt mf
    rw [frames, append_assoc] at exchange
    exact ((perm_append_left_iff _).mp exchange).symm
  refine inv.relist (fun i hi p here q page used => ?_) (Owned.custody.freePages ?_)
  · obtain ⟨-, hn⟩ := inv.mem_held hi here page used
    have other := hu i hi p here _ (mem_leafFrames page used hn)
    rw [hl.mem_iff, mem_append]
    exact or_iff_right other
  · rw [← append_assoc]
    exact inv.owned.perm (hl.append_right _)

theorem SystemCustody.setMemfd (inv : SystemCustody s) (lt : id < memfdMax)
    (frames : memfdFrames mf = memfdFrames (s.memfds id)) : SystemCustody (s.setMemfd id mf) :=
  inv.growMemfd [] lt (by rw [frames, append_nil]) inv.owned

end

/-! ### Resizing and closing -/

def cutFrames (mf : Memfd) (pages : Nat) : List Nat :=
  ((List.range' pages (mf.pageCount - pages)).map mf.physPages).filter (· ≠ 0)

def SafeClose (s : System) (e : FdEntry) : Prop :=
  ∀ id ∈ e.memfd, ∀ mf ∈ memfdGet s id, mf.refcount = 1 → Unnamed s.procs (memfdFrames mf)

section
variable {s : System} {i : Nat} {p : Process} {e : FdEntry} {id size : Nat}

theorem memfdGet_some {mf : Memfd} (hf : memfdGet s id = some mf) :
    id < memfdMax ∧ (s.memfds id).inUse = true ∧ mf = s.memfds id := by
  rw [memfdGet] at hf
  split at hf
  · next ht => exact ⟨ht.1, ht.2, (some.inj hf).symm⟩
  · cases hf

variable {x : Pmm × (Nat → Nat)}

theorem growPages_spec {held : List Nat} (slots : List Nat) (ne : slots.Nodup)
    (how : Owned x.1 held) :
    (∀ j ∉ slots, (growPages slots x).2.2 j = x.2 j) ∧
      ∃ new, Owned (growPages slots x).2.1 (new ++ held) ∧
        ((growPages slots x).1 = true → slots.map (growPages slots x).2.2 = new) := by
  induction slots generalizing held x with
  | nil => exact ⟨fun _ _ => rfl, [], how, fun _ => rfl⟩
  | cons slot ha ih =>
    obtain ⟨hr, ne⟩ := nodup_cons.mp ne
    rw [growPages]
    split
    · next none =>
      have eq := pmmAllocPage_failed how.reserved (Prod.ext none rfl)
      exact ⟨fun _ _ => rfl, [], by simpa only [eq, nil_append] using how,
        fun done => Bool.noConfusion done⟩
    · next some =>
      have ht : Owned (pmmAllocPage x.1).2 ((pmmAllocPage x.1).1 :: held) := how.alloc rfl some
      obtain ⟨kept, new, ends, hf⟩ := ih
        (x := ((pmmAllocPage x.1).2, Function.update x.2 slot (pmmAllocPage x.1).1)) ne ht
      refine ⟨fun j ho => ?_, (pmmAllocPage x.1).1 :: new, ends.perm perm_middle, fun done => ?_⟩
      · obtain ⟨other, ho⟩ := not_or.mp (mem_cons.not.mp ho)
        exact (kept j ho).trans (update_of_ne other _ _)
      · rw [map_cons, hf done, kept slot hr]
        exact congrArg (· :: new) (update_self _ _ _)

theorem shrinkPages_spec (slots : List Nat) (distinct : slots.Nodup) :
    (slots.foldl shrinkPage x).1 = freePages x.1 ((slots.map x.2).filter (· ≠ 0)) ∧
      ∀ j ∉ slots, (slots.foldl shrinkPage x).2 j = x.2 j := by
  induction slots generalizing x with
  | nil => exact ⟨rfl, fun _ _ => rfl⟩
  | cons slot others ih =>
    obtain ⟨fresh, distinct⟩ := nodup_cons.mp distinct
    obtain ⟨freed, kept⟩ := ih (x := shrinkPage x slot) distinct
    have same : ∀ j, j ≠ slot → (shrinkPage x slot).2 j = x.2 j := fun j other => by
      rw [shrinkPage]
      split_ifs
      · rfl
      · exact update_of_ne other _ _
    have rest : others.map (shrinkPage x slot).2 = others.map x.2 :=
      map_congr_left fun j member => same j fun equal => fresh (equal ▸ member)
    refine ⟨?_, fun j outside => ?_⟩
    · rw [foldl_cons, freed, rest, map_cons, shrinkPage]
      by_cases zero : x.2 slot = 0
      · rw [if_pos zero, filter_cons_of_neg (by simpa using zero)]
      · rw [if_neg zero, filter_cons_of_pos (by simpa using zero)]
        rfl
    · obtain ⟨other, outside⟩ := not_or.mp (mem_cons.not.mp outside)
      rw [foldl_cons, kept j outside, same j other]

theorem memfdFrames_congr {mf mf' : Memfd} (use : mf'.inUse = mf.inUse)
    (count : mf'.pageCount = mf.pageCount)
    (pages : ∀ j < mf.pageCount, mf'.physPages j = mf.physPages j) :
    memfdFrames mf' = memfdFrames mf := by
  have eq : (range mf.pageCount).map mf'.physPages = (range mf.pageCount).map mf.physPages :=
    map_congr_left fun j hm => pages j (mem_range.mp hm)
  rw [memfdFrames, memfdFrames, use, count, eq]

theorem memfdFrames_split (mf : Memfd) (use : mf.inUse = true) {pages : Nat}
    (few : pages ≤ mf.pageCount) :
    memfdFrames mf = memfdFrames { mf with pageCount := pages } ++ cutFrames mf pages := by
  have range : range mf.pageCount = range pages ++ range' pages (mf.pageCount - pages) := by
    have hj := range'_append_1 (s := 0) (m := pages) (n := mf.pageCount - pages)
    rw [zero_add, Nat.add_sub_cancel' few] at hj
    rw [range_eq_range', range_eq_range', hj]
  simp only [memfdFrames, cutFrames, use, if_true, range, map_append, filter_append]

theorem Unnamed.setProc {p' : Process} {frames : List Nat} (hu : Unnamed s.procs frames)
    (here : s.procs i = some p) (space : p'.mem.space = p.mem.space) :
    Unnamed (s.setProc i p').procs frames := by
  intro j hi x hm
  change x ∈ Function.update s.procs i (some p') j at hm
  by_cases eq : j = i
  · subst eq
    rw [update_self] at hm
    rw [← some.inj hm, space]
    exact hu j hi p here
  · rw [update_of_ne eq] at hm
    exact hu j hi x hm

section
variable (inv : SystemCustody s)
include inv

theorem SystemCustody.truncate
    (cut : ∀ mf ∈ memfdGet s id, truncPages size ≤ memfdPagesMax →
      Unnamed s.procs (cutFrames mf (truncPages size))) :
    SystemCustody (memfdTruncate s id size).1 := by
  rw [memfdTruncate]
  cases hf : memfdGet s id with
  | none => exact inv
  | some mf =>
    obtain ⟨lt, use, rfl⟩ := memfdGet_some hf
    simp only
    split
    · exact inv
    next limit =>
    obtain ⟨kept, new, ho, hl⟩ := growPages_spec
      (range' (s.memfds id).pageCount (truncPages size - (s.memfds id).pageCount))
      (x := (s.pmm, (s.memfds id).physPages)) nodup_range' inv.owned
    have hb : ∀ j < (s.memfds id).pageCount, j ∉ range' (s.memfds id).pageCount
        (truncPages size - (s.memfds id).pageCount) := fun j lower hm => by
      rw [mem_range'_1] at hm
      omega
    split
    · -- The frames taken before the failure stay allocated and are listed nowhere.
      refine inv.growMemfd [] lt ?_ (ho.sublist (sublist_append_right _ _))
      rw [append_nil]
      exact memfdFrames_congr rfl rfl fun j lower => kept j (hb j lower)
    · next hw =>
      rw [Bool.not_eq_false] at hw
      by_cases hg : (s.memfds id).pageCount ≤ truncPages size
      · rw [Nat.sub_eq_zero_of_le hg, range'_zero, foldl_nil]
        refine inv.growMemfd new lt ?_ ho
        rw [memfdFrames_split { s.memfds id with
          physPages := _, pageCount := truncPages size, size := size } use hg]
        refine congrArg₂ _ (memfdFrames_congr rfl rfl fun j lower => kept j (hb j lower)) ?_
        rw [cutFrames, hl hw]
        refine filter_eq_self.mpr fun f hm => decide_eq_true ?_
        exact (ho.live f (mem_append_left _ hm)).2.2.1
      · have few : truncPages size ≤ (s.memfds id).pageCount := by omega
        rw [Nat.sub_eq_zero_of_le few, range'_zero, growPages]
        obtain ⟨hr, ht⟩ := shrinkPages_spec
          (range' (truncPages size) ((s.memfds id).pageCount - truncPages size))
          (x := (s.pmm, (s.memfds id).physPages)) nodup_range'
        rw [hr]
        refine inv.releaseMemfd lt ?_ (cut _ hf (by omega))
        rw [memfdFrames_split _ use few]
        refine congrArg (· ++ cutFrames _ _) (Eq.symm ?_)
        refine memfdFrames_congr rfl rfl fun j lower => ht j fun hm => ?_
        rw [mem_range'_1] at hm
        exact absurd hm.1 (not_le.mpr lower)

theorem SystemCustody.close (safe : SafeClose s e) : SystemCustody (fdClose s e) := by
  rw [fdClose]
  cases memfd : e.memfd with
  | none => exact inv
  | some id =>
    simp only [memfdVfsClose]
    cases hf : memfdGet s id with
    | none => exact inv
    | some mf =>
      have release := safe id memfd mf hf
      obtain ⟨lt, use, rfl⟩ := memfdGet_some hf
      simp only
      split
      · next last => exact inv.releaseMemfd lt (by simp [memfdFrames]) (release last)
      · exact inv.setMemfd lt (memfdFrames_congr rfl rfl fun _ _ => rfl)

theorem SystemCustody.dup (e : FdEntry) : SystemCustody (fdDup s e) := by
  rw [fdDup]
  cases e.memfd with
  | none => exact inv
  | some id =>
    simp only [memfdVfsDup]
    cases hf : memfdGet s id with
    | none => exact inv
    | some mf =>
      obtain ⟨lt, -, rfl⟩ := memfdGet_some hf
      exact inv.setMemfd lt (memfdFrames_congr rfl rfl fun _ _ => rfl)

variable (hi : i < maxProcesses) (here : s.procs i = some p)
include hi here

theorem SystemCustody.closeFd {fd : Nat} {p' : Process} (space : p'.mem.space = p.mem.space)
    (safe : ∀ e ∈ p'.fds fd, SafeClose s e) : SystemCustody (closeFd s i p' fd) := by
  rw [Memory.closeFd]
  cases entry : p'.fds fd with
  | none => exact inv.setProc hi here space
  | some e =>
    have next : SystemCustody (s.setProc i { p' with fds := Function.update p'.fds fd none }) :=
      inv.setProc hi here space
    exact next.close fun id memfd mf hf last =>
      (safe e entry id memfd mf hf last).setProc here space

theorem SystemCustody.installFd (e : FdEntry) : SystemCustody (installFd s i p e) := by
  rw [Memory.installFd]
  cases freeFd p.fds with
  | none => exact inv
  | some fd =>
    have next : SystemCustody (s.setProc i { p with fds := Function.update p.fds fd (some e) }) :=
      inv.setProc hi here rfl
    exact next.dup e

theorem SystemCustody.memfdCreate (ipc : Bool) : SystemCustody (sysMemfdCreate s i p ipc).1 := by
  rw [sysMemfdCreate]
  split
  · exact inv
  cases hf : memfdAlloc s with
  | none => exact inv
  | some id =>
    have lt : id < memfdMax := mem_range.mp (mem_of_find?_eq_some hf)
    have hu : (s.memfds id).inUse = false := by simpa using find?_some hf
    have none : memfdFrames (s.memfds id) = [] := by simp [memfdFrames, hu]
    simp only
    cases freeFd p.fds with
    | none => exact inv.setMemfd lt (by rw [none]; rfl)
    | some fd =>
      refine SystemCustody.setProc (inv.setMemfd lt ?_) hi here rfl
      rw [none]
      rfl

end

end

/-! ### Images and teardown -/

def OwnPages (s : System) (p : Process) : Prop :=
  ∀ f ∈ p.mem.space.leafFrames, f ∉ s.listed
  deriving Decidable

section
variable {s s' : System} {i : Nat} {p : Process} {shared rest : List Nat} {image : Image}
  {pmm : Pmm} {space : Space}

theorem Space.held_of_owned (hk : ∀ f ∈ shared, f ∈ rest)
    (ho : Owned pmm (space.held [] ++ rest)) : space.held [] = space.held shared := by
  refine held_congr fun q lt used => iff_of_false not_mem_nil fun foreign => ?_
  have own : (space.pte q).frame ∈ space.held [] := mem_held lt used not_mem_nil
  exact disjoint_of_nodup_append ho.nodup own (hk _ foreign)

theorem OwnPages.held_eq (own : OwnPages s p) (hk : ∀ f ∈ s.listed, f ∈ rest)
    (ho : Owned pmm (p.mem.space.held s.listed ++ rest)) :
    p.mem.space.held s.listed = p.mem.space.held [] := by
  refine held_congr fun q lt used => iff_of_false ?_ not_mem_nil
  have hn := backed_of_shared hk ho q lt used
  exact own _ (mem_leafFrames lt used hn)

theorem Settled.start (ho : Owned pmm (space.held [] ++ rest))
    (he : ∀ q, space.pte q = Pte.zero) : Settled [] rest pmm space :=
  ⟨ho, fun q _ used => absurd (he q) used⟩

theorem settled_newSpace {after : Pmm} {ready : Bool} {last : Pmm × Space} (start : Owned pmm rest)
    (created : vmmCreateUserPml4 pmm = some (space, after))
    (loaded : loadImage image (after, space) = some (ready, last)) :
    Settled [] rest last.1 last.2 := by
  obtain ⟨⟨root, next⟩, taken, same⟩ := map_eq_some_iff.mp created
  cases same
  have fresh : Settled [] rest next ⟨root, empty Pte.zero 3⟩ := by
    refine Settled.start ?_ fun q => look_empty
    rw [held, frames_empty (pteOwned_zero [])]
    exact Owned.custody.allocs (.cons taken (.nil _)) start
  exact fresh.loadImage (m := (next, ⟨root, empty Pte.zero 3⟩)) (by simp) loaded

variable (inv : SystemCustody s) (hi : i < maxProcesses) (here : s.procs i = some p)
include inv hi here

theorem SystemCustody.execve (own : OwnPages s p) (done : sysExecve s i p image = some s') :
    SystemCustody s' := by
  obtain ⟨⟨hr, last⟩, hl, rfl⟩ := map_eq_some_iff.mp done
  refine inv.update _ _ hi fun rest hk start => ?_
  rw [here, procHeld] at start
  rw [own.held_eq hk start] at start
  have hw := Settled.start (Owned.custody.freeUserPages start) fun q => pte_freeUserPages
  have hs := hw.loadImage (m := vmmFreeUserPages s.pmm p.mem.space) (by simp) hl
  have ho := hs.owned
  rw [held_of_owned hk hs.owned] at ho
  exact ⟨ho, fun x hm => some.inj hm ▸ hs.present⟩

theorem SystemCustody.reap (own : OwnPages s p) : SystemCustody { s with
      pmm := vmmFreeUserPml4 s.pmm p.mem.space
      procs := Function.update s.procs i none } := by
  refine inv.update _ _ hi fun rest hk start => ⟨?_, nofun⟩
  rw [here, procHeld] at start
  rw [own.held_eq hk start] at start
  exact Owned.custody.freeUserPml4 start

theorem SystemCustody.spawn {child fd : Nat} (slot : child < maxProcesses)
    (free : s.procs child = none) (done : sysSpawn s i p child image fd = some s') :
    SystemCustody s' := by
  rw [sysSpawn] at done
  split at done
  · rw [← some.inj done]
    exact inv
  next space pmm hc =>
  obtain ⟨⟨hd, last⟩, hl, hr⟩ := map_eq_some_iff.mp done
  have parent : SystemCustody (s.setProc i { p with
      mem := { p.mem with vmas := recordSegments p.mem.vmas image.segments } }) :=
    inv.setProc hi here rfl
  have hv : (s.setProc i { p with
      mem := { p.mem with vmas := recordSegments p.mem.vmas image.segments } }).procs child =
      none := by
    have other : child ≠ i := fun eq => by
      rw [eq, here] at free
      cases free
    exact (update_of_ne other _ _).trans free
  simp only at hr
  cases hd with
  | false =>
    rw [← hr]
    have gone := parent.update (vmmFreeUserPml4 last.1 last.2) none slot fun rest hk start => by
        rw [hv] at start
        exact ⟨Owned.custody.freeUserPml4 (settled_newSpace start hc hl).owned, nofun⟩
    rw [← hv, update_eq_self] at gone
    exact gone
  | true =>
    have born := parent.update last.1 (some ⟨⟨last.2, image.brk, image.brk,
      mmapRegion, [], [stackVma]⟩, stdioFds (if fd < procMaxFds then p.fds fd else none), [],
      false⟩) slot fun rest hk start => by
        rw [hv] at start
        have hs := settled_newSpace start hc hl
        have ho := hs.owned
        rw [held_of_owned hk hs.owned] at ho
        exact ⟨ho, fun x hm => some.inj hm ▸ hs.present⟩
    rw [if_pos rfl] at hr
    split at hr
    · rw [← hr]
      exact born
    next e _ =>
    rw [← hr]
    exact ((born.dup e).dup e).dup e

end

/-- The call frees no page that a memfd lists: `sys_munmap` is given the start of a shared
mapping or a range without such pages, `MAP_FIXED` and `sys_execve` do not meet one, and
`ftruncate` and the last close release no page that is mapped. -/
def SparesShared (s : System) (p : Process) : SysCall → Prop
  | .ftruncate fd size => ∀ mf ∈ memfdFromFd s p (fd % 2 ^ 32), truncPages size ≤ memfdPagesMax →
    Unnamed s.procs (cutFrames mf (truncPages size))
  | .mmap a => a.fixed = true → Mappable (s.mem p) a →
    ∀ q ∈ pagesOf a.addr (pageUp a.len), (p.mem.space.pte q).frame ∉ s.listed
  | .munmap addr len => Unmappable addr len → isSharedVma (s.mem p) addr = true ∨
    ∀ q ∈ pagesOf addr (pageUp len), (p.mem.space.pte q).frame ∉ s.listed
  | .close fd => fd < procMaxFds → ∀ e ∈ p.fds fd, SafeClose s e
  | .execve _ => OwnPages s p
  | _ => True

/-- The same for every event: a process that closes its descriptors releases no mapped page,
and one that is torn down maps no page of a memfd. -/
def SparesListed (s : System) : Event → Prop
  | .call i c => ∀ p ∈ s.proc i, SparesShared s p c
  | .closeNext i => ∀ p ∈ s.proc i, ∀ fd ∈ p.closing.head?, ∀ e ∈ p.fds fd, SafeClose s e
  | .reap i => ∀ p ∈ s.proc i, OwnPages s p

instance (procs : Nat → Option Process) (frames : List Nat) : Decidable (Unnamed procs frames) :=
  inferInstanceAs (Decidable (∀ i < maxProcesses, _))

instance (s : System) (e : FdEntry) : Decidable (SafeClose s e) :=
  inferInstanceAs (Decidable (∀ id ∈ e.memfd, ∀ mf ∈ memfdGet s id, _ → _))

instance (s : System) (p : Process) (c : SysCall) : Decidable (SparesShared s p c) := by
  rcases c <;> (dsimp only [SparesShared]; infer_instance)

instance (s : System) (event : Event) : Decidable (SparesListed s event) := by
  rcases event <;> (dsimp only [SparesListed]; infer_instance)

structure FramesLive (s : System) : Prop where
  listed : ∀ id < memfdMax, (s.memfds id).inUse = true → ∀ j < (s.memfds id).pageCount,
    s.pmm.bitmap ((s.memfds id).physPages j) = true
  mapped : ∀ i < maxProcesses, ∀ p ∈ s.procs i, ∀ q < userPages, p.mem.space.pte q ≠ Pte.zero →
    s.pmm.bitmap (p.mem.space.pte q).frame = true

section
variable {s s' : System} {i : Nat} {p : Process}

theorem mem_listed {id j : Nat} (lt : id < memfdMax) (use : (s.memfds id).inUse = true)
    (page : j < (s.memfds id).pageCount) (hn : (s.memfds id).physPages j ≠ 0) :
    (s.memfds id).physPages j ∈ s.listed := by
  refine mem_flatMap.mpr ⟨id, mem_range.mpr lt, ?_⟩
  rw [memfdFrames, if_pos use]
  exact mem_filter.mpr ⟨mem_map_of_mem (mem_range.mpr page), decide_eq_true hn⟩

theorem SystemCustody.framesLive (inv : SystemCustody s) : FramesLive s := by
  refine ⟨fun id lt use j page => ?_, fun i inside p here q lt used => ?_⟩
  · by_cases zero : (s.memfds id).physPages j = 0
    · rw [zero]
      exact inv.owned.reserved
    · exact (inv.owned.live _ (mem_append_left _ (mem_listed lt use page zero))).1
  · exact (inv.owned.live _ (inv.mem_held inside here lt used).1).1

theorem System.proc_some (hf : s.proc i = some p) : i < maxProcesses ∧ s.procs i = some p := by
  rw [proc] at hf
  split at hf
  · next hi => exact ⟨hi, hf⟩
  · cases hf

theorem memfdFromFd_listed {fd : Nat} {mf : Memfd} (hf : memfdFromFd s p fd = some mf) {j : Nat}
    (page : j < mf.pageCount) (hn : mf.physPages j ≠ 0) : mf.physPages j ∈ s.listed := by
  rw [memfdFromFd] at hf
  split at hf
  · obtain ⟨id, -, get⟩ := bind_eq_some_iff.mp hf
    obtain ⟨lt, use, rfl⟩ := memfdGet_some get
    exact mem_listed lt use page hn
  · cases hf

section
variable (inv : SystemCustody s)
include inv

theorem SystemCustody.setMem {m : Mem} (hi : i < maxProcesses) (here : s.procs i = some p)
    (hc : ∀ rest, (∀ f ∈ s.listed, f ∈ rest) → Settled s.listed rest s.pmm p.mem.space →
      Settled s.listed rest m.pmm m.proc.space) : SystemCustody (s.setMem i p m) := by
  refine inv.update _ _ hi fun rest hk start => ?_
  rw [here] at start
  have hs := hc rest hk ⟨start, inv.present i hi p here⟩
  exact ⟨hs.owned, fun x hm => some.inj hm ▸ hs.present⟩

theorem SystemCustody.ftruncate {fd size : Nat} (hs : SparesShared s p (.ftruncate fd size)) :
    SystemCustody (sysFtruncate s p fd size).1 := by
  rw [sysFtruncate]
  cases hf : memfdFromFd s p (fd % 2 ^ 32) with
  | none => exact inv
  | some mf =>
    have cut := hs mf hf
    rw [memfdFromFd] at hf
    split at hf
    · obtain ⟨id, entry, get⟩ := bind_eq_some_iff.mp hf
      rw [entry]
      refine inv.truncate fun mf' hf' => ?_
      rw [get] at hf'
      exact some.inj hf' ▸ cut
    · cases hf

theorem SystemCustody.call {c : SysCall} (hi : i < maxProcesses) (here : s.procs i = some p)
    (hs : SparesShared s p c) (step : sysCall s i p c = some s') :
    SystemCustody s' := by
  cases c with
  | memfdCreate ipc =>
    rw [← some.inj step]
    exact inv.memfdCreate hi here ipc
  | ftruncate fd size =>
    rw [← some.inj step]
    exact inv.ftruncate hs
  | mmap a =>
    obtain ⟨⟨m, r⟩, done, rfl⟩ := map_eq_some_iff.mp step
    refine inv.setMem hi here fun rest hk ha => ?_
    exact Settled.mmap (m := s.mem p) hk (fun fd mf hf j => memfdFromFd_listed hf) ha hs done
  | munmap addr len =>
    rw [← some.inj step]
    exact inv.setMem hi here fun rest hk ha =>
      Settled.munmap (m := s.mem p) hk ha hs
  | close fd =>
    rw [← some.inj step, sysClose]
    split_ifs with outside
    · exact inv
    · exact inv
    · exact inv.closeFd hi here rfl (hs (Nat.lt_of_not_le outside))
  | dup fd =>
    rw [← some.inj step, sysDup]
    split_ifs
    · exact inv
    · split
      · exact inv
      · exact inv.installFd hi here _
  | passFd fd j =>
    rw [← some.inj step, passFd]
    split_ifs
    · exact inv
    split
    · next e receiver _ hf =>
      obtain ⟨lt, ht⟩ := proc_some hf
      exact inv.installFd lt ht e
    · exact inv
  | setCloexec fd on =>
    rw [← some.inj step, setCloexec]
    split_ifs
    · exact inv
    split
    · exact inv
    · exact inv.setProc hi here rfl
  | execve image => exact inv.execve hi here hs step
  | spawn child image fd =>
    rw [sysCall] at step
    split_ifs at step with slot
    exact inv.spawn hi here slot.1 (isNone_iff_eq_none.mp slot.2) step
  | exit =>
    rw [← some.inj step]
    exact inv.setProc hi here rfl

theorem SystemCustody.step {event : Event} (hs : SparesListed s event)
    (step : eventStep s event = some s') : SystemCustody s' := by
  cases event with
  | call i c =>
    obtain ⟨p, hf, done⟩ := bind_eq_some_iff.mp step
    obtain ⟨hi, here⟩ := proc_some hf
    split_ifs at done
    exact inv.call hi here (hs p hf) done
  | closeNext i =>
    obtain ⟨p, hf, done⟩ := bind_eq_some_iff.mp step
    obtain ⟨hi, here⟩ := proc_some hf
    cases hc : p.closing with
    | nil =>
      rw [hc] at done
      cases done
    | cons fd rest =>
      rw [hc] at done
      rw [← some.inj done]
      exact inv.closeFd hi here rfl (hs p hf fd (by rw [hc]; rfl))
  | reap i =>
    obtain ⟨p, hf, done⟩ := bind_eq_some_iff.mp step
    obtain ⟨hi, here⟩ := proc_some hf
    split_ifs at done
    rw [← some.inj done]
    exact inv.reap hi here (hs p hf)

end

end

/-- Over whole runs: no listed or mapped frame is free. -/
theorem shared_frames_live {start s : System} {events : List Event} (inv : SystemCustody start)
    (run : RunWhere eventStep SparesListed start events s) : FramesLive s :=
  (run.invariant inv fun _ _ _ inv spares step => inv.step spares step).framesLive

def newProcess (root : Nat) : Process :=
  ⟨⟨⟨root, empty Pte.zero 3⟩, 0x400000, 0x400000, mmapRegion, [], []⟩, fun _ => none, [], false⟩

def twoProcesses : System where
  pmm := (pmmAllocPage (pmmAllocPage smallPmm).2).2
  memfds := fun _ => { newMemfd with inUse := false, refcount := 0 }
  procs := fun i => if i = 0 then some (newProcess 1) else if i = 1 then some (newProcess 2) else none

theorem twoProcesses_custody : SystemCustody twoProcesses := by
  have start : Owned smallPmm [] := ⟨.nil, by decide, nofun⟩
  have h1 : Owned (pmmAllocPage smallPmm).2 [1] :=
    start.alloc (f := 1) (Prod.ext (by decide +kernel) rfl) (by decide)
  have h2 : Owned twoProcesses.pmm [2, 1] :=
    h1.alloc (f := 2) (Prod.ext (by decide +kernel) rfl) (by decide)
  have held : twoProcesses.listed ++ procsHeld twoProcesses.listed twoProcesses.procs = [1, 2] := by
    decide +kernel
  refine ⟨held ▸ h2.perm (List.Perm.swap 1 2 []), fun i _ p hm q _ used => ?_⟩
  have zero : p.mem.space.pte q = Pte.zero := by
    change (if i = 0 then some (newProcess 1) else if i = 1 then some (newProcess 2) else none) =
      some p at hm
    split_ifs at hm <;> rw [← some.inj hm] <;> exact look_empty
  exact absurd zero used

def sharedMmap (len : Nat) : SysCall := .mmap ⟨0, len, 3, 1, 0, 0⟩

def sharedSetup : List Event :=
  [.call 0 (.memfdCreate true), .call 0 (.ftruncate 0 8192), .call 0 (sharedMmap 8192)]

def tinyImage : Image := ⟨[⟨0x400, 1, true, true, by decide⟩], 0x401000, true, true⟩

/-- Process 1 gets the memfd, maps and unmaps it, starts another program and exits; process 0
unmaps it, cuts it to one page and maps that one. -/
def sharedLife : List Event :=
  sharedSetup ++
    [.call 0 (.passFd 0 1), .call 1 (sharedMmap 8192), .call 1 (.munmap mmapRegion 8192),
      .call 1 (.close 0), .call 1 (.execve tinyImage), .call 1 .exit] ++
    List.replicate 16 (.closeNext 1) ++
    [.reap 1, .call 0 (.munmap mmapRegion 8192), .call 0 (.ftruncate 0 4096),
      .call 0 (sharedMmap 4096)]

def sharedEnd : System :=
  reached (guarded eventStep SparesListed) twoProcesses sharedLife

theorem sharedLife_ends :
    (exec (guarded eventStep SparesListed) twoProcesses sharedLife).any (fun s =>
      (s.procs 1).isNone ∧ (s.memfds 0).pageCount = 1) = true := by
  decide +kernel

theorem shared_frames_live_two_processes :
    ((sharedEnd.procs 1).isNone ∧ (sharedEnd.memfds 0).pageCount = 1) ∧ FramesLive sharedEnd := by
  obtain ⟨enabled, facts⟩ := reached_of_any sharedLife_ends
  rw [decide_eq_true_eq] at facts
  rw [sharedEnd]
  exact ⟨facts, shared_frames_live twoProcesses_custody (runWhere_of_exec enabled)⟩

def secondPageUnmapped : System :=
  reached eventStep twoProcesses (sharedSetup ++ [.call 0 (.munmap (mmapRegion + 4096) 4096)])

theorem secondPageUnmapped_ends : (exec eventStep twoProcesses
      (sharedSetup ++ [.call 0 (.munmap (mmapRegion + 4096) 4096)])).any (fun s =>
        (s.memfds 0).inUse = true ∧ (s.memfds 0).pageCount = 2 ∧
          s.pmm.bitmap ((s.memfds 0).physPages 1) = false) = true := by
  decide +kernel

/-- `sys_munmap` of the second page of the mapping frees the page, which the memfd lists. -/
theorem munmap_frees_listed_frame :
    Run eventStep twoProcesses (sharedSetup ++ [.call 0 (.munmap (mmapRegion + 4096) 4096)])
        secondPageUnmapped ∧
      (secondPageUnmapped.memfds 0).inUse = true ∧ (secondPageUnmapped.memfds 0).pageCount = 2 ∧
      secondPageUnmapped.pmm.bitmap ((secondPageUnmapped.memfds 0).physPages 1) = false ∧
      ¬ FramesLive secondPageUnmapped := by
  obtain ⟨enabled, facts⟩ := reached_of_any secondPageUnmapped_ends
  rw [decide_eq_true_eq] at facts
  obtain ⟨use, count, free⟩ := facts
  rw [secondPageUnmapped]
  refine ⟨run_of_exec enabled, use, count, free, fun live => ?_⟩
  have listed := live.listed 0 (by decide) use 1 (by rw [count]; decide)
  rw [free] at listed
  cases listed

end Aegis.Memory
