import Aegis.FrameCustody
import Aegis.Memfd

/-! The address space of one process next to shared frames. `shared` lists the frames that
belong to memfds; they may be mapped, but every other page in use belongs to the address space
that maps it. A call keeps this account as long as it frees no shared frame. -/

namespace Aegis.Memory

open RadixTree List Option Space

/-- Every entry in use is present, as it is without `sys_mprotect`. -/
def Space.AllPresent (s : Space) : Prop :=
  ∀ q < userPages, s.pte q ≠ Pte.zero → (s.pte q).flags.present = true

def Space.leafFrames (s : Space) : List Nat :=
  leaves 512 pteFrame 3 256 s.top

section
variable {m m' : Pmm × Space} {s : Space} {p : Pmm} {pages shared rest : List Nat}
  {flags : PteFlags} {q : Nat}

theorem Space.AllPresent.awake (all : s.AllPresent) (hi : InUser pages) : s.Awake pages := by
  intro q mem hd
  have hp := all q (hi q mem) hd.1
  rw [hd.2] at hp
  cases hp

theorem Space.mem_leafFrames (lt : q < userPages) (used : s.pte q ≠ Pte.zero)
    (hn : (s.pte q).frame ≠ 0) : (s.pte q).frame ∈ s.leafFrames := by
  refine mem_leaves_of_look (by omega) (show pteFrame Pte.zero = [] from rfl) (index_page lt) ?_
  rw [← pte, pteFrame, if_neg used, if_neg hn]
  exact mem_singleton_self _

theorem Space.backed_of_shared (hk : ∀ f ∈ shared, f ∈ rest)
    (ho : Owned p (s.held shared ++ rest)) : s.Backed := by
  intro q lt used
  by_cases hf : (s.pte q).frame ∈ shared
  · exact (ho.live _ (mem_append_right _ (hk _ hf))).2.2.1
  · exact (s.live_of_owned ho lt used hf).2

theorem Space.AllPresent.clears {s' : Space} (all : s.AllPresent) (pte : ∀ q < userPages, s'.pte q =
      if q ∈ pages ∧ (s.pte q).flags.present then Pte.zero else s.pte q) : s'.AllPresent := by
  intro q lt used
  rw [pte q lt] at used ⊢
  split_ifs at used ⊢
  · exact absurd rfl used
  · exact all q lt used

theorem Space.AllPresent.mapFresh {count : Nat} (all : m.2.AllPresent)
    (hp : flags.present = true) (ne : pages.Nodup) (hi : InUser pages)
    (done : Memory.mapFresh flags pages m = some (count, m')) : m'.2.AllPresent := by
  obtain ⟨-, hf, kept⟩ := mapFresh_pte hp ne hi done
  intro q lt used
  by_cases mem : q ∈ pages.take count
  · obtain ⟨-, f, -, entry⟩ := hf q mem
    rw [entry]
    exact hp
  · rw [kept q lt mem] at used ⊢
    exact all q lt used

theorem Space.AllPresent.mapShared {mf : Memfd} {w : Bool} {j : Nat} (all : m.2.AllPresent)
    (hp : flags.present = true) (ne : pages.Nodup) (hi : InUser pages)
    (done : Memory.mapShared mf flags j pages m = some (w, m')) : m'.2.AllPresent := by
  obtain ⟨count, -, hf, kept⟩ := mapShared_pte hp ne hi done
  intro q lt used
  by_cases mem : q ∈ pages.take count
  · obtain ⟨-, k, -, -, entry⟩ := hf q mem
    rw [entry]
    exact hp
  · rw [kept q lt mem] at used ⊢
    exact all q lt used

end

/-! ### The calls of one process -/

section
variable {m m' : Mem} {a : MmapArgs} {files : Nat → Option Memfd} {r : Except Nat Nat}
  {shared rest : List Nat} {base addr len : Nat}

structure Settled (shared rest : List Nat) (p : Pmm) (s : Space) : Prop where
  owned : Owned p (s.held shared ++ rest)
  present : s.AllPresent

section
variable (hk : ∀ f ∈ shared, f ∈ rest)
include hk

theorem Settled.mmapAt
    (hl : ∀ fd, ∀ mf ∈ files fd, ∀ k < mf.pageCount, mf.physPages k ≠ 0 → mf.physPages k ∈ shared)
    (hg : Settled shared rest m.pmm m.proc.space)
    (hi : InUser (pagesOf base (pageUp a.len))) (done : mmapAt files m a base = some (m', r)) :
    Settled shared rest m'.pmm m'.proc.space := by
  have ha := hg.present.awake hi
  have hb := backed_of_shared hk hg.owned
  rw [Memory.mmapAt] at done
  split at done
  · cases memfd : files (a.fd % 2 ^ 32) with
    | none =>
      rw [memfd] at done
      rw [← (Prod.mk.inj (some.inj done)).1]
      exact hg
    | some mf =>
      rw [memfd, mmapShared] at done
      split at done
      · rw [← (Prod.mk.inj (some.inj done)).1]
        exact hg
      obtain ⟨⟨hw, last⟩, loop, hr⟩ := map_eq_some_iff.mp done
      have hm : Settled shared rest last.1 last.2 :=
        ⟨Owned.custody.mapShared (hl _ mf memfd) pagesOf_nodup hi ha loop hg.owned,
          hg.present.mapShared (m := (m.pmm, m.proc.space)) rfl pagesOf_nodup hi loop⟩
      split at hr
      · rw [← (Prod.mk.inj hr).1]
        exact hm
      · rw [← (Prod.mk.inj hr).1]
        exact hm
  · refine ⟨Owned.custody.mmapPrivate hk hb hi ha done hg.owned, ?_⟩
    rcases mmapPrivate_effect hb ha hi done with ⟨-, eq⟩ | ⟨-, he⟩
    · intro q lt used
      rw [eq.pte q lt] at used ⊢
      exact hg.present q lt used
    · intro q lt used
      by_cases mem : q ∈ pagesOf base (pageUp a.len)
      · obtain ⟨f, -, entry⟩ := he.filled q mem
        rw [entry]
        rfl
      · rw [he.others q lt mem] at used ⊢
        exact hg.present q lt used

theorem Settled.dropPages {p : Pmm} {s : Space} {pages : List Nat}
    (hg : Settled shared rest p s) (hi : InUser pages)
    (own : ∀ q ∈ pages, (s.pte q).frame ∉ shared) :
    Settled shared rest (pages.foldl dropPage (p, s)).1 (pages.foldl dropPage (p, s)).2 := by
  have hb := backed_of_shared hk hg.owned
  exact ⟨Owned.custody.dropPages (m := (p, s)) hb hi (fun q mem _ => own q mem)
    hg.owned, hg.present.clears (dropPages_pte (m := (p, s)) hb hi).2⟩

theorem Settled.mmap
    (hl : ∀ fd, ∀ mf ∈ files fd, ∀ k < mf.pageCount, mf.physPages k ≠ 0 → mf.physPages k ∈ shared)
    (hg : Settled shared rest m.pmm m.proc.space)
    (own : a.fixed = true → Mappable m a → ∀ q ∈ pagesOf a.addr (pageUp a.len),
      (m.proc.space.pte q).frame ∉ shared)
    (done : sysMmap files m a = some (m', r)) : Settled shared rest m'.pmm m'.proc.space := by
  rcases sysMmap_cases done with ⟨rfl, -⟩ | ⟨-, rfl, -⟩ | ⟨ok, hm⟩
  · exact hg
  · exact hg
  have hi := ok.inUser
  refine Settled.mmapAt hk hl ?_ hi hm
  rw [mmapReady]
  rw [mmapTarget] at hi
  split_ifs at hi ⊢ with fixed
  · exact hg.dropPages hk hi (own fixed ok)
  · exact hg

end

theorem Settled.unmapShared {p : Pmm} {s : Space} {pages : List Nat}
    (hg : Settled shared rest p s) (hi : InUser pages) :
    Owned (pages.foldl (munmapPage true) (p, s)).1
      ((pages.foldl (munmapPage true) (p, s)).2.held shared ++ rest) := by
  induction pages generalizing p s with
  | nil => exact hg.owned
  | cons page ho ih =>
    rw [foldl_cons, munmapPage]
    split
    · exact ih hg hi.tail
    next some =>
    simp only [vmmPhysOfUserRaw] at some
    split at some
    · exact absurd rfl some
    next used =>
    have hp := hg.present page hi.head used
    have hu := Owned.custody.unmap hi.head hp hg.owned
    refine ih ⟨hu.sublist (sublist_append_right _ _), ?_⟩ hi.tail
    have hc : ∀ q < userPages, (vmmUnmapUserPage s page).pte q =
        if q ∈ [page] ∧ (s.pte q).flags.present then Pte.zero else s.pte q := fun q lt => by
      simp only [pte_unmap_eq hi.head lt, mem_singleton]
    exact hg.present.clears hc

theorem Settled.munmap (hk : ∀ f ∈ shared, f ∈ rest)
    (hg : Settled shared rest m.pmm m.proc.space)
    (own : Unmappable addr len → isSharedVma m addr = true ∨
      ∀ q ∈ pagesOf addr (pageUp len), (m.proc.space.pte q).frame ∉ shared) :
    Settled shared rest (sysMunmap m addr len).1.pmm (sysMunmap m addr len).1.proc.space := by
  by_cases ok : Unmappable addr len
  · have hb := backed_of_shared hk hg.owned
    have effect := sysMunmap_effect ok hb
    have hi : InUser (pagesOf addr (pageUp len)) :=
      pagesOf_inUser (by have := ok.2.2; simp only [userAddrMax] at this; omega)
    refine ⟨?_, hg.present.clears effect.pte⟩
    have hn := ok
    obtain ⟨start, low, hl⟩ := hn
    rw [sysMunmap, if_neg (by omega), if_neg (by omega)]
    cases vma : isSharedVma m addr with
    | true => exact hg.unmapShared hi
    | false =>
      have frames := (own ok).resolve_left (by rw [vma]; exact Bool.false_ne_true)
      rw [munmapPages_eq (m := (m.pmm, m.proc.space)) hb hi (hg.present.awake hi)]
      exact (hg.dropPages hk hi frames).owned
  · rw [sysMunmap_refused ok]
    exact hg

end

/-! ### Loading an image -/

section
variable {m m' : Pmm × Space} {shared rest : List Nat} {flags : PteFlags}

theorem takeFrames_allocs {n : Nat} {p p' : Pmm} {new : List Nat}
    (ht : takeFrames n p = some (new, p')) : Allocs allocTable p new p' ∧ new.length = n := by
  induction n generalizing p new with
  | zero =>
    cases ht
    exact ⟨.nil _, rfl⟩
  | succ n ih =>
    obtain ⟨⟨f, next⟩, h1, hl⟩ := bind_eq_some_iff.mp ht
    obtain ⟨⟨ho, last⟩, loop, eq⟩ := map_eq_some_iff.mp hl
    cases eq
    obtain ⟨ha, length⟩ := ih loop
    exact ⟨.cons h1 ha, by rw [length_cons, length]⟩

section
variable (hk : ∀ f ∈ shared, f ∈ rest)
include hk

theorem Settled.mapFrames {list : List (Nat × Nat)} (hp : m.2.AllPresent)
    (hi : InUser (list.map Prod.fst)) (done : mapFrames flags list m = some m')
    (start : Owned m.1 (list.map Prod.snd ++ (m.2.held shared ++ rest))) :
    Settled shared rest m'.1 m'.2 := by
  induction list generalizing m with
  | nil =>
    rw [← some.inj done]
    exact ⟨start, hp⟩
  | cons x ho ih =>
    obtain ⟨next, hm, loop⟩ := bind_eq_some_iff.mp done
    have lt : x.1 < userPages := hi.head
    obtain ⟨entry, ha, kept⟩ := vmmMapUserPage_pte lt hm
    have hv : m.2.pte x.1 = Pte.zero := by
      by_contra used
      rw [hp x.1 lt used] at ha
      cases ha
    have nobodys : x.2 ∉ shared := fun mem =>
      (nodup_cons.mp start.nodup).1 (mem_append_right _ (mem_append_right _ (hk _ mem)))
    have used : next.2.pte x.1 ≠ Pte.zero := Pte.ne_zero_of_present (by rw [entry])
    have hs : Owned next.1 (next.2.held shared ++ (ho.map Prod.snd ++ rest)) := by
      refine Owned.custody.map lt hv hm (start.perm ?_)
      rw [pteOwned, if_neg (not_or.mpr ⟨used, by rwa [entry]⟩), entry]
      exact List.Perm.cons _ (perm_append_comm_assoc _ _ _)
    refine ih (fun q lt' inUse => ?_) hi.tail loop (hs.perm (perm_append_comm_assoc _ _ _))
    by_cases eq : q = x.1
    · rw [eq, entry]
    · rw [kept q lt' eq] at inUse ⊢
      exact hp q lt' inUse

section
variable (hg : Settled shared rest m.1 m.2)
include hg

theorem Settled.loadSegment {seg : Segment} (done : loadSegment m seg = some m') :
    Settled shared rest m'.1 m'.2 := by
  obtain ⟨⟨new, p⟩, ht, loop⟩ := bind_eq_some_iff.mp done
  obtain ⟨ha, length⟩ := takeFrames_allocs ht
  have pages : seg.pages.length = new.length := by rw [Segment.pages, length_range', length]
  refine Settled.mapFrames (m := (p, m.2)) hk hg.present ?_ loop ?_
  · intro q mem
    rw [map_fst_zip (le_of_eq pages), Segment.pages, mem_range'_1] at mem
    have hb := seg.inUser
    omega
  · rw [map_snd_zip (le_of_eq pages.symm)]
    exact Owned.custody.allocs ha hg.owned

theorem Settled.loadSegments {segments : List Segment} (done : loadSegments segments m = some m') :
    Settled shared rest m'.1 m'.2 := by
  induction segments generalizing m with
  | nil =>
    rw [← some.inj done]
    exact hg
  | cons seg ho ih =>
    obtain ⟨next, h1, hl⟩ := bind_eq_some_iff.mp done
    exact ih (hg.loadSegment hk h1) hl

theorem Settled.loadImage {i : Image} {b : Bool} (done : loadImage i m = some (b, m')) :
    Settled shared rest m'.1 m'.2 := by
  obtain ⟨hd, segments, hl⟩ := bind_eq_some_iff.mp done
  have next := hg.loadSegments hk segments
  split at hl
  · rw [← (Prod.mk.inj (some.inj hl)).2]
    exact next
  obtain ⟨⟨count, last⟩, loop, eq⟩ := map_eq_some_iff.mp hl
  have hi : InUser (pagesOf userStackBase (4 * 4096)) := pagesOf_inUser (by decide)
  rw [← (Prod.mk.inj eq).2]
  exact ⟨(Owned.custody.mapFresh hk rfl pagesOf_nodup hi (next.present.awake hi) loop
    next.owned).1, next.present.mapFresh rfl pagesOf_nodup hi loop⟩

end

end

end

end Aegis.Memory
